import DieHard.Heap.Capacity
import DieHard.Heap.CombineHeap

/-!
# Aligned allocation

`xxmemalign` asks for at least `alignment` bytes and relies on objects that are aligned to their size.
Objects of the miniheaps are, as far as the first address of a miniheap is; large objects are not. Both
begin at some page, so the alignments that always hold are those up to a page. A large object whose page
count does not fit the `int` of the large heap has no entry, and no size.
-/

namespace DieHard

open Blocks LargeHeap

variable {cfg : HeapConfig}

namespace CombineHeap

/-- `xxmalloc`; `wrap` is the size that `ANSIWrapper` passes on. -/
def xxmalloc (cfg : HeapConfig) (wrap : Nat → Nat) (k sz : Nat) (sources : List (Nat → Addr))
    (randoms : List (Nat × Nat)) (ptr : Addr) (s : CombineHeap) : Option (Addr × CombineHeap) :=
  s.malloc cfg k (wrap sz) sources randoms ptr

/-- `xxmemalign`, where a release build leaves out the assertion on the result. -/
def xxmemalign (cfg : HeapConfig) (wrap : Nat → Nat) (k alignment sz : Nat)
    (sources : List (Nat → Addr)) (randoms : List (Nat × Nat)) (ptr : Addr) (s : CombineHeap) :
    Option (Addr × CombineHeap) :=
  s.xxmalloc cfg wrap k (if sz < alignment then alignment else sz) sources randoms ptr

/-- `mmap` answers with whole pages outside of the miniheaps, or fails for a large object. -/
def mapsPages (cfg : HeapConfig) (s : CombineHeap) : Action → Prop
  | .malloc k sz sources _ ptr =>
    if sz ≤ cfg.maxSize then
      SourcesFresh cfg k (requestClass sz) sources (s.small.random k (requestClass sz)) s.small.env
    else ptr = 0 ∨ cfg.pageSize ∣ ptr ∧ ∀ r ∈ s.small.env.mapped, Apart r.1 r.2 ptr (extent cfg sz)
  | _ => True

/-- What an answer of `xxmemalign` in state `s` is to be. -/
def AlignedIn (cfg : HeapConfig) (wrap : Nat → Nat) (alignment sz : Nat) (s : CombineHeap) : Prop :=
  ∀ k sources randoms ptr p s',
    s.mapsPages cfg (.malloc k (wrap (if sz < alignment then alignment else sz)) sources randoms ptr) →
    s.xxmemalign cfg wrap k alignment sz sources randoms ptr = some (p, s') → p ≠ 0 →
    alignment ∣ p ∧ sz ≤ (s'.getSize cfg k p).1

def Sized (cfg : HeapConfig) (wrap : Nat → Nat) (alignment sz : Nat) : Prop :=
  sz = 0 ∨ wrap (if sz < alignment then alignment else sz) ≤ cfg.maxSize ∨
    0 < iterations cfg (wrap (if sz < alignment then alignment else sz))

/-- In every state of every run the answers of `xxmemalign` are aligned and large enough. -/
def Aligned (cfg : HeapConfig) (wrap : Nat → Nat) (alignment sz : Nat) : Prop :=
  ∀ localRandom random mem mapped s,
    Transition.Reach (next cfg) (mapsPages cfg) (initial localRandom random mem mapped) s →
    s.AlignedIn cfg wrap alignment sz

theorem placed_next {s s' : CombineHeap} {a : Action} (h : Placed cfg s.small) (hok : s.mapsPages cfg a)
    (hn : s.next cfg a = some s') : Placed cfg s'.small := by
  cases a with
  | malloc k sz sources randoms ptr =>
    obtain ⟨r, hm, rfl⟩ := Option.map_eq_some_iff.mp hn
    rw [malloc] at hm
    split at hm
    · rename_i hsz
      rw [mapsPages, if_pos hsz] at hok
      obtain ⟨⟨p, process⟩, hp, rfl⟩ := Option.map_eq_some_iff.mp hm
      obtain ⟨x, -, -, -, hx⟩ := h.malloc hsz hok hp
      exact hx.placed
    · obtain ⟨big, -, rfl⟩ := Option.map_eq_some_iff.mp hm
      exact h
  | free k p =>
    rw [next, free] at hn
    rcases h.free_cases k p with ⟨x, process, -, hfree, hx⟩ | ⟨-, env, hfree, hw⟩
    · rw [hfree] at hn
      cases hn
      exact hx.placed h
    · rw [hfree] at hn
      cases hn
      exact h.setEnv hw
  | getSize k p =>
    cases hn
    exact h.getSize_placed k p

theorem placed_reach {localRandom : Nat → BitVec 64} {random : Nat → Nat → Nat → BitVec 64}
    {mem : Addr → BitVec 8} {mapped : List (Addr × Nat)} {s : CombineHeap}
    (h : Transition.Reach (next cfg) (mapsPages cfg) (initial localRandom random mem mapped) s) :
    Placed cfg s.small := by
  apply h.invariant (I := fun s => Placed cfg s.small)
  · exact placed_initial _ _ _ _
  · intro r a r' hi hok hn
    exact placed_next hi hok hn

theorem dvd_addr {s : Process} (h : Placed cfg s) {x : Slot} (ha : s.Active cfg x.id)
    (hi : x.index < (s.layout cfg x.id).slots) {alignment : Nat} (hpow : alignment.isPowerOfTwo)
    (hpage : alignment ≤ cfg.pageSize) (hsize : alignment ≤ getClassSize x.id.cls) :
    alignment ∣ (s.layout cfg x.id).addr x.index := by
  have hbase := (h.base x.id _ ha (Layout.block_lt hi)).2.1
  have hobject := HeapConfig.powerOfTwo_dvd hpow (getClassSize_powerOfTwo x.id.cls) hsize
  apply Nat.dvd_add
  · exact (HeapConfig.powerOfTwo_dvd hpow cfg.pageSize_powerOfTwo hpage).trans hbase
  · exact hobject.mul_left _

theorem le_requestClass (sz : Nat) : sz ≤ getClassSize (requestClass sz) := by
  have hle := getIndex_le_iff.mp (Nat.le_refl (requestClass sz))
  split at hle <;> omega

theorem getSize_malloc_large {s s' : CombineHeap} (h : Placed cfg s.small) {k sz : Nat}
    {sources : List (Nat → Addr)} {randoms : List (Nat × Nat)} {ptr p : Addr} (hsz : ¬ sz ≤ cfg.maxSize)
    (hok : ptr = 0 ∨ cfg.pageSize ∣ ptr ∧ ∀ r ∈ s.small.env.mapped, Apart r.1 r.2 ptr (extent cfg sz))
    (hm : s.malloc cfg k sz sources randoms ptr = some (p, s')) (hne : p ≠ 0) :
    p = ptr ∧ cfg.pageSize ∣ p ∧ (s'.getSize cfg k p).1 = (set cfg ptr sz s.big.heap).get ptr := by
  rw [malloc, if_neg hsz] at hm
  cases hm
  obtain ⟨hpage, hapart⟩ := hok.resolve_left hne
  have hsmall : (s.small.getSize cfg k ptr).1 = 0 := by
    apply h.getSize_zero
    intro id _ ha j hj
    have hr := hapart _ (h.base id j ha hj.1).2.2
    have hext := le_extent cfg sz
    simp only [Apart] at hr
    have hin := hj.2
    omega
  refine ⟨rfl, hpage, ?_⟩
  simp only [getSize, hsmall, if_true]
  rfl

theorem getSize_malloc_small {s s' : CombineHeap} (h : Placed cfg s.small) {k sz : Nat}
    {sources : List (Nat → Addr)} {randoms : List (Nat × Nat)} {ptr p : Addr} (hsz : sz ≤ cfg.maxSize)
    (hok : SourcesFresh cfg k (requestClass sz) sources (s.small.random k (requestClass sz)) s.small.env)
    (hm : s.malloc cfg k sz sources randoms ptr = some (p, s')) :
    (∀ alignment : Nat, alignment.isPowerOfTwo → alignment ≤ cfg.pageSize → alignment ≤ sz →
      alignment ∣ p) ∧ (s'.getSize cfg k p).1 = getClassSize (requestClass sz) := by
  rw [malloc, if_pos hsz] at hm
  obtain ⟨⟨p', process⟩, hp, he⟩ := Option.map_eq_some_iff.mp hm
  cases he
  obtain ⟨x, rfl, hc, rfl, hx⟩ := h.malloc hsz hok hp
  have hi : x.index < (process.layout cfg x.id).slots :=
    hx.index_lt.trans_le (HeapConfig.nObjects_le_slots _ _)
  have hsize := hx.placed.getSize_slot hx.active (Layout.contains_addr hi) (Or.inr rfl)
  rw [Process.spaceLeft, Nat.sub_self, Nat.sub_zero, hc] at hsize
  constructor
  · intro alignment hpow hpage hle
    apply dvd_addr hx.placed hx.active hi hpow hpage
    rw [hc]
    exact hle.trans (le_requestClass sz)
  · simp only [getSize, hsize]
    exact if_neg (Nat.ne_of_gt (getClassSize_pos _))

theorem aligned_of_le {wrap : Nat → Nat} (hwrap : ∀ n, n ≤ wrap n) {alignment : Nat}
    (hpow : alignment.isPowerOfTwo) (hpage : alignment ≤ cfg.pageSize) {sz : Nat}
    (hsized : Sized cfg wrap alignment sz) : Aligned cfg wrap alignment sz := by
  intro localRandom random mem mapped s hs k sources randoms ptr p s' hok hm hne
  have hplaced := placed_reach hs
  have hle := hwrap (if sz < alignment then alignment else sz)
  have hboth : alignment ≤ wrap (if sz < alignment then alignment else sz) ∧
      sz ≤ wrap (if sz < alignment then alignment else sz) := by
    split at hle <;> split <;> omega
  rw [xxmemalign, xxmalloc] at hm
  rw [Sized] at hsized
  generalize wrap (if sz < alignment then alignment else sz) = request at *
  by_cases hsz : request ≤ cfg.maxSize
  · rw [mapsPages, if_pos hsz] at hok
    obtain ⟨hdvd, hsize⟩ := getSize_malloc_small hplaced hsz hok hm
    refine ⟨hdvd alignment hpow hpage hboth.1, ?_⟩
    rw [hsize]
    exact hboth.2.trans (le_requestClass request)
  · rw [mapsPages, if_neg hsz] at hok
    obtain ⟨-, hdvd, hsize⟩ := getSize_malloc_large hplaced hsz hok hm hne
    refine ⟨(HeapConfig.powerOfTwo_dvd hpow cfg.pageSize_powerOfTwo hpage).trans hdvd, ?_⟩
    rcases hsized with hzero | hsmall | hpos
    · rw [hzero]
      exact Nat.zero_le _
    · exact absurd hsmall hsz
    · rw [hsize, get_set_entered (entered_self hpos), Nat.sub_self, Nat.sub_zero]
      exact hboth.2

section Misaligned

variable {localRandom : Nat → BitVec 64} {random : Nat → Nat → Nat → BitVec 64} {mem : Addr → BitVec 8}
  {alignment k cls : Nat}

/-- The first miniheap of a class may lie on pages that are not aligned to any larger power of two. -/
theorem exists_fresh_misaligned (id : MiniId) {env : Env} (hmapped : env.mapped = [])
    (hpow : alignment.isPowerOfTwo) (hpage : cfg.pageSize < alignment) :
    ∃ source, env.Fresh cfg id source ∧
      ∀ j, ¬ alignment ∣ (cfg.sourceLayout id source).base j := by
  have hpos := cfg.pageSize_pos
  have hdvd := HeapConfig.powerOfTwo_dvd cfg.pageSize_powerOfTwo hpow hpage.le
  let step := alignment * (cfg.sourceLayout id fun _ => 0).bytes
  have hfirst (t : Nat) : cfg.pageSize ≤ cfg.pageSize + t * step := Nat.le_add_right _ _
  refine ⟨fun t => cfg.pageSize + t * step, Env.fresh_of_spaced ?_ ?_ ?_ ?_, ?_⟩
  · intro t
    exact Nat.ne_of_gt (hpos.trans_le (hfirst t))
  · intro t
    exact Nat.dvd_add (Nat.dvd_refl _) ((hdvd.mul_right _).mul_left t)
  · intro t
    rw [Env.top, hmapped]
    exact Nat.zero_le _
  · intro t u h
    exact spaced_of_step (Nat.le_mul_of_pos_left _ (by omega)) h
  · intro j hj
    have hstart : ∃ t, (cfg.sourceLayout id fun t => cfg.pageSize + t * step).base j =
        cfg.pageSize + t * step := by
      by_cases hd : cfg.dieHarderOn = true
      · exact ⟨j, if_pos hd⟩
      · exact ⟨0, if_neg hd⟩
    obtain ⟨t, ht⟩ := hstart
    rw [ht, ← Nat.dvd_add_iff_left ((Nat.dvd_mul_right _ _).mul_left t)] at hj
    exact Nat.not_le.mpr hpage (Nat.le_of_dvd hpos hj)

theorem growHeapIfNeeded_new (hmax : 0 < cfg.maxMiniHeaps) (source : Nat → Addr)
    (draws : Nat → BitVec 64) (env : Env) :
    RandomHeap.growHeapIfNeeded cfg k cls [source] (RandomHeap.new draws) env =
      some (RandomHeap.getAnotherMiniHeap cfg k cls source (RandomHeap.new draws) env) := by
  have hneed : (RandomHeap.new draws).needsGrowth cfg = true := by
    rw [RandomHeap.needsGrowth_iff]
    exact (Nat.zero_mul _).trans_le (Nat.zero_le _)
  have hroom : ¬ (RandomHeap.getAnotherMiniHeap cfg k cls source (RandomHeap.new draws) env).1.needsGrowth
      cfg = true := by
    rcases RandomHeap.getAnotherMiniHeap_cases k cls source env hneed with ⟨-, m, hm⟩ | ⟨hfull, -⟩
    · have hobjects := Nat.mul_pos (cfg.minObjects_pos cls) cfg.denominator_pos
      rw [hm, RandomHeap.needsGrowth_iff]
      simp only [RandomHeap.grown, RandomHeap.new, if_true, Nat.zero_add, Nat.mul_zero]
      omega
    · exact absurd hfull (Nat.not_le.mpr hmax)
  rw [RandomHeap.growHeapIfNeeded, if_pos hneed, RandomHeap.growHeapIfNeeded, if_neg hroom]

theorem base_eq_of_inBlock {L L' : Layout} {j : Nat} (hj : j < L.count)
    (h : ∀ p, L.InBlock j p → L'.InBlock j p) (hbytes : L.bytes = L'.bytes) : L.base j = L'.base j := by
  have hpos : 0 < L.bytes := Nat.mul_pos L.per_pos L.size_pos
  have hfirst := (h (L.base j) ⟨hj, Nat.le_refl _, by omega⟩).2.1
  have hlast := (h (L.base j + L.bytes - 1) ⟨hj, by omega, by omega⟩).2.2
  omega

theorem exists_misaligned (hmax : 0 < cfg.maxMiniHeaps) (hpow : alignment.isPowerOfTwo)
    (hpage : cfg.pageSize < alignment) {sz : Nat} (hsz : sz ≤ cfg.maxSize) (hle : alignment ≤ sz) :
    ∃ sources randoms p s', (initial localRandom random mem []).mapsPages cfg
        (.malloc k sz sources randoms 0) ∧
      (initial localRandom random mem []).malloc cfg k sz sources randoms 0 = some (p, s') ∧
      p ≠ 0 ∧ ¬ alignment ∣ p := by
  let s : Process := .initial localRandom random mem []
  have hplaced : Placed cfg s := placed_initial _ _ _ _
  have hcounted : s.Counted := @Session.reach_counted cfg _ _ _ _ _ .refl
  have hc := requestClass_lt hsz
  have hmapped : s.env.mapped = [] := rfl
  obtain ⟨source, hfresh, hbase⟩ := exists_fresh_misaligned ⟨k, requestClass sz, 0⟩ hmapped hpow hpage
  have hf : SourcesFresh cfg k (requestClass sz) [source] (s.random k (requestClass sz)) s.env :=
    fun _ => ⟨hfresh, trivial⟩
  have hg : RandomHeap.growHeapIfNeeded cfg k (requestClass sz) [source] (s.random k (requestClass sz))
      s.env = some (RandomHeap.getAnotherMiniHeap cfg k (requestClass sz) source
        (s.random k (requestClass sz)) s.env) := growHeapIfNeeded_new hmax source _ s.env
  obtain ⟨-, -, -, draw, hdraw⟩ := hplaced.malloc_isSome hcounted hc hf hg
  obtain ⟨⟨p, s'⟩, hm⟩ := Option.isSome_iff_exists.mp (Process.malloc_isSome hsz hdraw)
  obtain ⟨x, h, env, env', rfl, hxc, rfl, hg', hgrew, -, -, ht, -⟩ := hplaced.malloc_parts hsz hf hm
  have hi : x.index < (s'.layout cfg x.id).slots :=
    ht.index_lt.trans_le (HeapConfig.nObjects_le_slots _ _)
  refine ⟨[source], [draw], (s'.layout cfg x.id).addr x.index, ⟨s', .initial⟩, ?_, ?_, ?_, ?_⟩
  · rw [mapsPages, if_pos hsz]
    exact hf
  · rw [malloc, if_pos hsz]
    exact congrArg (Option.map fun r => (r.1, (⟨r.2, .initial⟩ : CombineHeap))) hm
  · exact (ht.placed hgrew.placed).addr_ne_zero ((ht.layout.active_iff _).mpr ht.active) hi
  · have hgrown := Option.some.inj (hg.symm.trans hg')
    obtain rfl := congrArg Prod.fst hgrown
    obtain rfl := congrArg Prod.snd hgrown
    obtain ⟨hid, hblock⟩ := Placed.getAnotherMiniHeap_added hc hplaced hfresh ht.active
      fun ha => Nat.not_lt_zero _ ha.2
    rw [ht.layout.layout_eq] at hi ⊢
    have hstart := base_eq_of_inBlock (Layout.block_lt hi) (hblock _) rfl
    have hsize : alignment ∣ getClassSize x.id.cls := by
      apply HeapConfig.powerOfTwo_dvd hpow (getClassSize_powerOfTwo _)
      rw [hxc]
      exact hle.trans (le_requestClass sz)
    intro hdvd
    have hfirst := (Nat.dvd_add_iff_left (hsize.mul_left _)).mpr hdvd
    rw [hstart, hid] at hfirst
    exact hbase _ hfirst

end Misaligned

section Large

variable {wrap : Nat → Nat} {alignment sz : Nat}

theorem first_page (h : Aligned cfg wrap alignment sz)
    (hsz : ¬ wrap (if sz < alignment then alignment else sz) ≤ cfg.maxSize) :
    alignment ∣ cfg.pageSize ∧ sz ≤
      (set cfg cfg.pageSize (wrap (if sz < alignment then alignment else sz)) .empty).get cfg.pageSize := by
  have hpos := cfg.pageSize_pos
  have hpages : cfg.pageSize = 0 ∨ cfg.pageSize ∣ cfg.pageSize ∧
      ∀ r ∈ ([] : List (Addr × Nat)), Apart r.1 r.2 cfg.pageSize
        (extent cfg (wrap (if sz < alignment then alignment else sz))) :=
    Or.inr ⟨Nat.dvd_refl _, fun r hr => by cases hr⟩
  have hok : mapsPages cfg (initial (fun _ => 0) (fun _ _ _ => 0) (fun _ => 0) [])
      (.malloc 0 (wrap (if sz < alignment then alignment else sz)) [] [] cfg.pageSize) := by
    rw [mapsPages, if_neg hsz]
    exact hpages
  obtain ⟨s', hm⟩ : ∃ s', (initial (fun _ => 0) (fun _ _ _ => 0) (fun _ => 0) []).malloc cfg 0
      (wrap (if sz < alignment then alignment else sz)) [] [] cfg.pageSize = some (cfg.pageSize, s') :=
    ⟨_, if_neg hsz⟩
  obtain ⟨hdvd, hle⟩ := h _ _ _ _ _ .refl 0 [] [] cfg.pageSize cfg.pageSize s' hok hm (Nat.ne_of_gt hpos)
  obtain ⟨-, -, hsize⟩ := getSize_malloc_large (placed_initial _ _ _ _) hsz hpages hm (Nat.ne_of_gt hpos)
  exact ⟨hdvd, hsize ▸ hle⟩

theorem sized_of_aligned (h : Aligned cfg wrap alignment sz) : Sized cfg wrap alignment sz := by
  rw [Sized, or_iff_not_imp_left]
  intro hne
  rw [or_iff_not_imp_left]
  intro hsz
  by_contra hpos
  have hle := (first_page h hsz).2
  rw [get_set_other fun he => hpos (Nat.zero_lt_of_lt he.choose_spec.1)] at hle
  exact hne (Nat.le_zero.mp hle)

theorem le_pageSize_of_aligned (h : Aligned cfg wrap alignment sz) (hmax : 0 < cfg.maxMiniHeaps)
    (hwrap : ∀ n, n ≤ wrap n) (hpow : alignment.isPowerOfTwo) : alignment ≤ cfg.pageSize := by
  by_contra hpage
  rw [Nat.not_le] at hpage
  have hle := hwrap (if sz < alignment then alignment else sz)
  have hboth : alignment ≤ wrap (if sz < alignment then alignment else sz) := by
    split at hle <;> split <;> omega
  by_cases hsz : wrap (if sz < alignment then alignment else sz) ≤ cfg.maxSize
  · obtain ⟨sources, randoms, p, s', hok, hm, hne, hno⟩ :=
      exists_misaligned (k := 0) hmax hpow hpage hsz hboth
    exact hno (h (fun _ => 0) (fun _ _ _ => 0) (fun _ => 0) [] _ .refl 0 sources randoms 0 p s' hok hm hne).1
  · exact Nat.not_le.mpr hpage (Nat.le_of_dvd cfg.pageSize_pos (first_page h hsz).1)

end Large

/-- `xxmemalign` meets its alignment and its size in every run exactly when the alignment is at most a page
and the object has a size. -/
theorem aligned_iff_le_pageSize (hmax : 0 < cfg.maxMiniHeaps) {wrap : Nat → Nat}
    (hwrap : ∀ n, n ≤ wrap n) {alignment : Nat} (hpow : alignment.isPowerOfTwo) (sz : Nat) :
    Aligned cfg wrap alignment sz ↔ alignment ≤ cfg.pageSize ∧ Sized cfg wrap alignment sz := by
  constructor
  · intro h
    exact ⟨le_pageSize_of_aligned h hmax hwrap hpow, sized_of_aligned h⟩
  · intro h
    exact aligned_of_le hwrap hpow h.1 h.2

theorem aligned_64 : Aligned (.libdieharder false true) (fun n => (n + 15) / 16 * 16) 64 100 :=
  (aligned_iff_le_pageSize (by decide) (fun _ => by omega) ⟨6, rfl⟩ 100).mpr
    ⟨by decide, .inr (.inl (by decide))⟩

/-- Two megabytes aligned to two pages, where `mmap` answers with the first page. -/
theorem not_aligned_twoPages : ¬ Aligned (.libdieharder false false) (fun n => n) 8192 2097152 := by
  intro h
  have hin := h (fun _ => 0) (fun _ _ _ => 0) (fun _ => 0) [] _ .refl 0 [] [] 4096 4096 _
    (Or.inr ⟨by decide, fun r hr => by cases hr⟩) rfl (by decide)
  exact absurd hin.1 (by decide)

end CombineHeap

end DieHard
