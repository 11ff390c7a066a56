import DieHard.Heap.CombineHeap
import DieHard.Heap.Capacity

/-!
# The caches of the searches

`free` tries the size class and the miniheap that served the last call before it searches, and `getSize`
the size class. The plain searches below ask every class and every miniheap in order. Whatever the caches
hold, both give the same answers and leave the same bitmaps and counters.
-/

namespace DieHard

variable {cfg : HeapConfig}

/-- The first miniheap from the largest down that frees `ptr`. -/
def RandomHeap.plainFree (cfg : HeapConfig) (owner cls : Nat) (ptr : Addr) :
    Nat → RandomHeap → Env → Bool × RandomHeap × Env
  | 0, h, env => (false, h, env)
  | i + 1, h, env =>
    let r := RandomHeap.freeIn cfg owner cls ptr i h env
    if r.1 then (true, r.2.1.subInUse, r.2.2) else plainFree cfg owner cls ptr i r.2.1 r.2.2

/-- The first of the given size classes that frees `ptr`. -/
def DieHardHeap.plainFree (cfg : HeapConfig) (owner : Nat) (ptr : Addr) :
    List Nat → DieHardHeap → Env → Bool × DieHardHeap × Env
  | [], h, env => (false, h, env)
  | i :: classes, h, env =>
    let r := RandomHeap.plainFree cfg owner i ptr (h.heaps i).miniHeapsInUse (h.heaps i) env
    let h := { h with heaps := Function.update h.heaps i r.2.1 }
    if r.1 then (true, h, r.2.2) else plainFree cfg owner ptr classes h r.2.2

namespace Process

def plainFree (cfg : HeapConfig) (k : Nat) (ptr : Addr) (s : Process) : Bool × Process :=
  let r := DieHardHeap.plainFree cfg k ptr (List.range cfg.maxIndex) (s.heaps k) s.env
  (r.1, ⟨Function.update s.heaps k r.2.1, r.2.2⟩)

/-- The answer of the first of the given size classes that knows `ptr`. -/
def plainSizeOf (cfg : HeapConfig) (k : Nat) (ptr : Addr) (s : Process) : List Nat → Nat
  | [] => 0
  | i :: classes =>
    let sz := classSizeOf cfg k ptr i s
    if sz ≠ 0 then sz else plainSizeOf cfg k ptr s classes

def plainGetSize (cfg : HeapConfig) (k : Nat) (ptr : Addr) (s : Process) : Nat :=
  s.plainSizeOf cfg k ptr (List.range cfg.maxIndex)

/-- The process with other values in its caches. -/
def withCaches (s : Process) (sizeClass : Nat → Int) (miniHeap : Nat → Nat → Int) : Process :=
  ⟨fun k => { s.heaps k with
    cachedSizeClass := sizeClass k
    heaps := fun cls => { (s.heaps k).heaps cls with cachedMiniHeap := miniHeap k cls } }, s.env⟩

/-- The same bitmaps and the same `_inUse` counters. -/
structure SameObjects (s s' : Process) : Prop where
  bit_eq : ∀ x, s'.bit x = s.bit x
  inUse_eq : ∀ k cls, (s'.random k cls).inUse = (s.random k cls).inUse

end Process

namespace Placed

variable {s : Process} {k cls p : Nat}

private theorem random_plainFree_miss {R : Env → Prop} {n : Nat}
    (hm : ∀ i < n, s.Refuses cfg p R ⟨k, cls, i⟩) {env : Env} (hR : R env) :
    ∃ env', RandomHeap.plainFree cfg k cls p n (s.random k cls) env = (false, s.random k cls, env') ∧
      R env' := by
  induction n generalizing env with
  | zero => exact ⟨env, rfl, hR⟩
  | succ n ih =>
    obtain ⟨env', hfree, hR'⟩ := freeIn_miss (hm n (Nat.lt_succ_self n)) hR
    simp only [RandomHeap.plainFree, hfree, Bool.false_eq_true, if_false]
    exact ih (fun i hi => hm i (Nat.lt_succ_of_lt hi)) hR'

private theorem random_plainFree_hit (h : Placed cfg s) {x : Slot} (ha : s.Active cfg x.id)
    (hx : (s.layout cfg x.id).Contains x.index p) (hb : s.bit x = true) {n : Nat}
    (hn : n ≤ (s.random x.id.owner x.id.cls).miniHeapsInUse) (hxn : x.id.index < n) :
    RandomHeap.plainFree cfg x.id.owner x.id.cls p n (s.random x.id.owner x.id.cls) s.env =
      (true, (s.random x.id.owner x.id.cls).clearSlot x (s.random x.id.owner x.id.cls).cachedMiniHeap,
        s.freedEnv cfg x p) := by
  induction n with
  | zero => omega
  | succ n ih =>
    rw [RandomHeap.plainFree]
    by_cases he : n = x.id.index
    · subst he
      simp only [h.freeIn_hit ha hx hb, if_true]
      rfl
    · have hrefuse := h.refuses_of_ne ha hx (active_mk (k := x.id.owner) ha.1 hn) fun hid =>
        he (congrArg MiniId.index hid)
      obtain ⟨env', hfree, rfl⟩ := freeIn_miss hrefuse rfl
      simp only [hfree, Bool.false_eq_true, if_false]
      exact ih (Nat.le_of_succ_le hn) (by omega)

private theorem heap_plainFree_miss {R : Env → Prop} {classes : List Nat}
    (hcs : ∀ c ∈ classes, c < cfg.maxIndex)
    (hm : ∀ id, id.owner = k → id.cls ∈ classes → s.Active cfg id → s.Refuses cfg p R id) {env : Env}
    (hR : R env) :
    ∃ env', DieHardHeap.plainFree cfg k p classes (s.heaps k) env = (false, s.heaps k, env') ∧ R env' := by
  induction classes generalizing env with
  | nil => exact ⟨env, rfl, hR⟩
  | cons c classes ih =>
    have hrefuses (i : Nat) (hi : i < (s.random k c).miniHeapsInUse) : s.Refuses cfg p R ⟨k, c, i⟩ :=
      hm ⟨k, c, i⟩ rfl List.mem_cons_self (active_mk (hcs c List.mem_cons_self) hi)
    obtain ⟨env', hfree, hR'⟩ := random_plainFree_miss hrefuses hR
    have hfree' : RandomHeap.plainFree cfg k c p ((s.heaps k).heaps c).miniHeapsInUse
        ((s.heaps k).heaps c) env = (false, (s.heaps k).heaps c, env') := hfree
    simp only [DieHardHeap.plainFree, hfree', Function.update_eq_self, Bool.false_eq_true, if_false]
    exact ih (fun c hc => hcs c (List.mem_cons_of_mem _ hc))
      (fun id hk hc => hm id hk (List.mem_cons_of_mem _ hc)) hR'

private theorem heap_plainFree_hit (h : Placed cfg s) {x : Slot} (ha : s.Active cfg x.id)
    (hx : (s.layout cfg x.id).Contains x.index p) (hb : s.bit x = true) {classes : List Nat}
    (hcs : ∀ c ∈ classes, c < cfg.maxIndex) (hxc : x.id.cls ∈ classes) :
    DieHardHeap.plainFree cfg x.id.owner p classes (s.heaps x.id.owner) s.env =
      (true, { s.heaps x.id.owner with
        heaps := Function.update (s.heaps x.id.owner).heaps x.id.cls
          ((s.random x.id.owner x.id.cls).clearSlot x
            (s.random x.id.owner x.id.cls).cachedMiniHeap) }, s.freedEnv cfg x p) := by
  induction classes with
  | nil => cases hxc
  | cons c classes ih =>
    rw [DieHardHeap.plainFree]
    by_cases hc : c = x.id.cls
    · subst hc
      have hfree : RandomHeap.plainFree cfg x.id.owner x.id.cls p
          ((s.heaps x.id.owner).heaps x.id.cls).miniHeapsInUse ((s.heaps x.id.owner).heaps x.id.cls) s.env =
          (true, (s.random x.id.owner x.id.cls).clearSlot x
            (s.random x.id.owner x.id.cls).cachedMiniHeap, s.freedEnv cfg x p) :=
        h.random_plainFree_hit ha hx hb (Nat.le_refl _) ha.2
      simp only [hfree, if_true]
    · have hrefuses (i : Nat) (hi : i < (s.random x.id.owner c).miniHeapsInUse) :
          s.Refuses cfg p (· = s.env) ⟨x.id.owner, c, i⟩ :=
        h.refuses_of_cls_ne ha hx hc ⟨x.id.owner, c, i⟩ rfl rfl (active_mk (hcs c List.mem_cons_self) hi)
      obtain ⟨env', hfree, rfl⟩ := random_plainFree_miss hrefuses rfl
      have hfree' : RandomHeap.plainFree cfg x.id.owner c p
          ((s.heaps x.id.owner).heaps c).miniHeapsInUse ((s.heaps x.id.owner).heaps c) s.env =
          (false, (s.heaps x.id.owner).heaps c, s.env) := hfree
      simp only [hfree', Function.update_eq_self, Bool.false_eq_true, if_false]
      exact ih (fun c hc => hcs c (List.mem_cons_of_mem _ hc))
        ((List.mem_cons.mp hxc).resolve_left (Ne.symm hc))

theorem plainFree_cases (h : Placed cfg s) (k p : Nat) :
    (∃ x s', s.InObject cfg k p x ∧ s.plainFree cfg k p = (true, s') ∧ s.Freed cfg x p s') ∨
    ((∀ x, ¬ s.InObject cfg k p x) ∧ ∃ env, s.plainFree cfg k p = (false, ⟨s.heaps, env⟩)) := by
  have hcs : ∀ c ∈ List.range cfg.maxIndex, c < cfg.maxIndex := fun c => List.mem_range.mp
  by_cases hx : ∃ x, s.InObject cfg k p x
  · obtain ⟨x, rfl, hb, hx⟩ := hx
    have ha := h.bit_active hb
    have hfree := h.heap_plainFree_hit ha hx hb hcs (List.mem_range.mpr ha.1)
    refine Or.inl ⟨x, _, ⟨rfl, hb, hx⟩, ?_, h.freed_cleared ha hx hb (s.heaps x.id.owner).cachedSizeClass
      (s.random x.id.owner x.id.cls).cachedMiniHeap⟩
    rw [Process.plainFree, hfree]
    rfl
  · have hrefuse : ∀ id, id.owner = k → id.cls ∈ List.range cfg.maxIndex → s.Active cfg id →
        s.Refuses cfg p (s.env.Wrote s.env.mem) id := by
      intro id hk _ ha
      apply h.refuses_of_misses ha
      intro i hi
      rw [Bool.eq_false_iff]
      exact fun hb => hx ⟨⟨id, i⟩, hk, hb, hi⟩
    obtain ⟨env, hfree, -⟩ := heap_plainFree_miss hcs hrefuse (.refl s.env)
    refine Or.inr ⟨not_exists.mp hx, env, ?_⟩
    rw [Process.plainFree, hfree]
    exact congrArg (Prod.mk false) (by rw [Function.update_eq_self])

private theorem plainSizeOf_zero {classes : List Nat} (hz : ∀ c ∈ classes, s.classSizeOf cfg k p c = 0) :
    s.plainSizeOf cfg k p classes = 0 := by
  induction classes with
  | nil => rfl
  | cons c classes ih =>
    rw [Process.plainSizeOf, hz c List.mem_cons_self]
    exact ih fun c hc => hz c (List.mem_cons_of_mem _ hc)

private theorem plainSizeOf_found {classes : List Nat} {c₀ : Nat} (hpos : s.classSizeOf cfg k p c₀ ≠ 0)
    (hz : ∀ c ∈ classes, c ≠ c₀ → s.classSizeOf cfg k p c = 0) (hc₀ : c₀ ∈ classes) :
    s.plainSizeOf cfg k p classes = s.classSizeOf cfg k p c₀ := by
  induction classes with
  | nil => cases hc₀
  | cons c classes ih =>
    rw [Process.plainSizeOf]
    by_cases hc : c = c₀
    · rw [hc, if_pos hpos]
    · rw [hz c List.mem_cons_self hc, if_neg (not_not.mpr rfl)]
      exact ih (fun c hc => hz c (List.mem_cons_of_mem _ hc))
        ((List.mem_cons.mp hc₀).resolve_left (Ne.symm hc))

/-- The plain search answers the space left in the slot that contains the address, or zero. -/
theorem plainGetSize_eq (h : Placed cfg s) (hd : cfg.dieHarderOn = false) (k p : Nat) :
    s.plainGetSize cfg k p = (s.getSize cfg k p).1 := by
  by_cases hin : ∃ id, id.owner = k ∧ s.Active cfg id ∧ ∃ j, (s.layout cfg id).InBlock j p
  · obtain ⟨id, rfl, ha, j, hj⟩ := hin
    obtain ⟨x, rfl, hx⟩ : ∃ x : Slot, x.id = id ∧ (s.layout cfg x.id).Contains x.index p :=
      ⟨⟨id, _⟩, rfl, hj.contains⟩
    have hsz := h.classSizeOf_slot hd ha hx
    have hpos := spaceLeft_pos hx
    rw [h.getSize_slot ha hx (Or.inr rfl), ← hsz]
    apply plainSizeOf_found (by omega) _ (List.mem_range.mpr ha.1)
    intro c hc hne
    apply h.classSizeOf_zero hd (List.mem_range.mp hc)
    intro i hi
    exact h.not_inBlock_of_ne ha hx (active_mk (List.mem_range.mp hc) hi) fun he =>
      hne (congrArg MiniId.cls he)
  · have hout : ∀ id, cfg.dieHarderOn = true ∨ id.owner = k → s.Active cfg id →
        ∀ j, ¬ (s.layout cfg id).InBlock j p := by
      intro id hk ha j hj
      exact hin ⟨id, hk.resolve_left (by rw [hd]; exact Bool.false_ne_true), ha, j, hj⟩
    rw [h.getSize_zero hout]
    apply plainSizeOf_zero
    intro c hc
    apply h.classSizeOf_zero hd (List.mem_range.mp hc)
    intro i hi
    exact hout ⟨k, c, i⟩ (Or.inr rfl) (active_mk (List.mem_range.mp hc) hi)

theorem withCaches (h : Placed cfg s) (sizeClass : Nat → Int) (miniHeap : Nat → Nat → Int) :
    Placed cfg (s.withCaches sizeClass miniHeap) := by
  apply h.transfer
  · exact ⟨fun _ _ => ⟨rfl, rfl, rfl, fun _ => rfl, fun _ => rfl, fun _ => rfl, fun _ => rfl⟩, rfl, rfl⟩
  · exact fun id i hi => h.bits id i hi

theorem free_withCaches (h : Placed cfg s) (sizeClass : Nat → Int) (miniHeap : Nat → Nat → Int)
    (k p : Nat) :
    ((s.withCaches sizeClass miniHeap).free cfg k p).1 = (s.plainFree cfg k p).1 ∧
      (s.plainFree cfg k p).2.SameObjects ((s.withCaches sizeClass miniHeap).free cfg k p).2 := by
  have hsame (x : Slot) : (s.withCaches sizeClass miniHeap).InObject cfg k p x ↔ s.InObject cfg k p x :=
    Iff.rfl
  rcases (h.withCaches sizeClass miniHeap).free_cases k p with
    ⟨x, t, hx, hfree, hf⟩ | ⟨hno, env, hfree, -⟩
  · rcases h.plainFree_cases k p with ⟨y, t', hy, hplain, hf'⟩ | ⟨hno, -⟩
    · obtain rfl := h.slot_eq (h.bit_active ((hsame x).mp hx).2.1) (h.bit_active hy.2.1)
        ((hsame x).mp hx).2.2 hy.2.2
      rw [hfree, hplain]
      refine ⟨rfl, fun z => (hf.bit_eq z).trans (hf'.bit_eq z).symm, fun k' cls => ?_⟩
      exact (hf.inUse k' cls).trans (hf'.inUse k' cls).symm
    · exact absurd ((hsame x).mp hx) (hno x)
  · rcases h.plainFree_cases k p with ⟨y, t', hy, hplain, -⟩ | ⟨-, env', hplain⟩
    · exact absurd ((hsame y).mpr hy) (hno y)
    · rw [hfree, hplain]
      exact ⟨rfl, fun _ => rfl, fun _ _ => rfl⟩

/-- So does the cached search of `getSize`, which changes no bitmap and no counter. -/
theorem getSize_withCaches (h : Placed cfg s) (hd : cfg.dieHarderOn = false) (sizeClass : Nat → Int)
    (miniHeap : Nat → Nat → Int) (k p : Nat) :
    ((s.withCaches sizeClass miniHeap).getSize cfg k p).1 = s.plainGetSize cfg k p ∧
      s.SameObjects ((s.withCaches sizeClass miniHeap).getSize cfg k p).2 := by
  obtain ⟨hheaps, -⟩ := (s.withCaches sizeClass miniHeap).getSize_frame cfg k p
  constructor
  · rw [← (h.withCaches sizeClass miniHeap).plainGetSize_eq hd, Process.plainGetSize, Process.plainGetSize]
    have hclass (c : Nat) : (s.withCaches sizeClass miniHeap).classSizeOf cfg k p c =
        s.classSizeOf cfg k p c := by
      have hsearch (r : RandomHeap) (cached : Int) (n : Nat) :
          RandomHeap.getSizeSearch cfg k c s.env p { r with cachedMiniHeap := cached } n =
            RandomHeap.getSizeSearch cfg k c s.env p r n := by
        induction n with
        | zero => rfl
        | succ n ih => rw [RandomHeap.getSizeSearch, RandomHeap.getSizeSearch, ih]
      exact hsearch _ _ _
    generalize List.range cfg.maxIndex = classes
    induction classes with
    | nil => rfl
    | cons c classes ih => rw [Process.plainSizeOf, Process.plainSizeOf, hclass, ih]
  · constructor
    · intro x
      show (((_ : Process).heaps _).heaps _ |>.miniHeaps _).miniHeapBitmap.isSet _ = _
      rw [hheaps]
      rfl
    · intro k' cls
      show (((_ : Process).heaps _).heaps _).inUse = _
      rw [hheaps]
      rfl

end Placed

def RandomHeap.CacheValid (h : RandomHeap) : Prop :=
  h.cachedMiniHeap = -1 ∨ 0 ≤ h.cachedMiniHeap ∧ h.cachedMiniHeap < h.miniHeapsInUse

def DieHardHeap.ClassValid (cfg : HeapConfig) (h : DieHardHeap) : Prop :=
  h.cachedSizeClass = -1 ∨ 0 ≤ h.cachedSizeClass ∧ h.cachedSizeClass < cfg.maxIndex

structure DieHardHeap.CachesValid (cfg : HeapConfig) (h : DieHardHeap) : Prop where
  sizeClass : h.ClassValid cfg
  miniHeap : ∀ cls, (h.heaps cls).CacheValid

def Process.CachesValid (cfg : HeapConfig) (s : Process) : Prop := ∀ k, (s.heaps k).CachesValid cfg

section Steps

variable {owner cls : Nat} {ptr : Addr} {h : RandomHeap} {env : Env}

theorem RandomHeap.freeIn_miniHeapsInUse (i : Nat) :
    (RandomHeap.freeIn cfg owner cls ptr i h env).2.1.miniHeapsInUse = h.miniHeapsInUse := rfl

theorem RandomHeap.subInUse_cachedMiniHeap : h.subInUse.cachedMiniHeap = h.cachedMiniHeap := by
  rw [RandomHeap.subInUse]

theorem RandomHeap.subInUse_miniHeapsInUse : h.subInUse.miniHeapsInUse = h.miniHeapsInUse := by
  rw [RandomHeap.subInUse]

theorem RandomHeap.CacheValid.subInUse (hv : h.CacheValid) : h.subInUse.CacheValid := by
  rw [RandomHeap.CacheValid, RandomHeap.subInUse_cachedMiniHeap, RandomHeap.subInUse_miniHeapsInUse]
  exact hv

theorem RandomHeap.CacheValid.freeIn (hv : h.CacheValid) (i : Nat) :
    (RandomHeap.freeIn cfg owner cls ptr i h env).2.1.CacheValid := hv

theorem RandomHeap.CacheValid.freeSearch (hv : h.CacheValid) {cached : Int} {n : Nat}
    (hn : n ≤ h.miniHeapsInUse) :
    (RandomHeap.freeSearch cfg owner cls ptr cached n h env).2.1.CacheValid := by
  induction n generalizing h env with
  | zero => exact hv
  | succ n ih =>
    rw [RandomHeap.freeSearch]
    split
    · exact ih hv (Nat.le_of_succ_le hn)
    · dsimp only
      split
      · -- the miniheap that has freed the object is one of those searched
        rw [RandomHeap.CacheValid]
        dsimp only
        rw [RandomHeap.subInUse_miniHeapsInUse, RandomHeap.freeIn_miniHeapsInUse]
        omega
      · apply ih (hv.freeIn n)
        rw [RandomHeap.freeIn_miniHeapsInUse]
        exact Nat.le_of_succ_le hn

theorem RandomHeap.CacheValid.free (hv : h.CacheValid) :
    (RandomHeap.free cfg owner cls ptr h env).2.1.CacheValid := by
  rw [RandomHeap.free]
  split
  · dsimp only
    split
    · exact (hv.freeIn _).subInUse
    · apply (hv.freeIn _).freeSearch
      rw [RandomHeap.freeIn_miniHeapsInUse]
  · exact hv.freeSearch (Nat.le_refl _)

theorem RandomHeap.CacheValid.growHeapIfNeeded (hv : h.CacheValid) {sources : List (Nat → Addr)}
    {r : RandomHeap × Env} (hg : RandomHeap.growHeapIfNeeded cfg owner cls sources h env = some r) :
    r.1.CacheValid := by
  induction sources generalizing h env with
  | nil =>
    rw [RandomHeap.growHeapIfNeeded] at hg
    split at hg
    · cases hg
    · cases hg
      exact hv
  | cons source sources ih =>
    rw [RandomHeap.growHeapIfNeeded] at hg
    split at hg
    · rename_i hneed
      apply ih _ hg
      rcases RandomHeap.getAnotherMiniHeap_cases owner cls source env hneed with ⟨-, m, hm⟩ | ⟨-, hm⟩
      · rw [hm]
        exact hv.imp_right fun hlt => ⟨hlt.1, hlt.2.trans (Int.ofNat_lt.mpr (Nat.lt_succ_self _))⟩
      · rw [hm]
        exact hv
    · cases hg
      exact hv

theorem RandomHeap.CacheValid.getObjectLoop (hv : h.CacheValid) {randoms : List (Nat × Nat)}
    {r : Addr × RandomHeap × Env}
    (hl : RandomHeap.getObjectLoop cfg owner cls randoms h env = some r) : r.2.1.CacheValid := by
  induction randoms generalizing h env with
  | nil => cases hl
  | cons random randoms ih =>
    rw [RandomHeap.getObjectLoop] at hl
    have hnext : (RandomHeap.getObject cfg owner cls random h env).2.1.CacheValid := hv
    split at hl
    · exact ih hnext hl
    · cases hl
      exact hnext

end Steps

section Heaps

variable {owner : Nat} {ptr : Addr} {h : DieHardHeap} {env : Env}

theorem DieHardHeap.CachesValid.freeIn (hv : h.CachesValid cfg) (i : Nat) :
    (DieHardHeap.freeIn cfg owner ptr i h env).2.1.CachesValid cfg := by
  refine ⟨hv.sizeClass, fun cls => ?_⟩
  show (Function.update h.heaps i _ cls).CacheValid
  rw [Function.update_apply]
  split
  · exact (hv.miniHeap i).free
  · exact hv.miniHeap cls

theorem DieHardHeap.CachesValid.freeSearch (hv : h.CachesValid cfg) {cached : Int} {classes : List Nat}
    (hcs : ∀ c ∈ classes, c < cfg.maxIndex) :
    (DieHardHeap.freeSearch cfg owner ptr cached classes h env).2.1.CachesValid cfg := by
  induction classes generalizing h env with
  | nil => exact hv
  | cons c classes ih =>
    have ih' {h : DieHardHeap} {env : Env} (hv : h.CachesValid cfg) :=
      @ih h env hv fun c hc => hcs c (List.mem_cons_of_mem _ hc)
    rw [DieHardHeap.freeSearch]
    split
    · exact ih' hv
    · dsimp only
      split
      · exact ⟨Or.inr ⟨Int.natCast_nonneg c, Int.ofNat_lt.mpr (hcs c List.mem_cons_self)⟩,
          (hv.freeIn c).miniHeap⟩
      · exact ih' (hv.freeIn c)

theorem DieHardHeap.CachesValid.free (hv : h.CachesValid cfg) :
    (DieHardHeap.free cfg owner ptr h env).2.1.CachesValid cfg := by
  have hcs : ∀ c ∈ List.range cfg.maxIndex, c < cfg.maxIndex := fun c => List.mem_range.mp
  rw [DieHardHeap.free]
  split
  · dsimp only
    split
    · exact hv.freeIn _
    · exact (hv.freeIn _).freeSearch hcs
  · exact hv.freeSearch hcs

end Heaps

inductive CacheAction
  | malloc (k sz : Nat) (sources : List (Nat → Addr)) (randoms : List (Nat × Nat))
  | free (k : Nat) (p : Addr)
  | getSize (k : Nat) (p : Addr)
  /-- Another thread's `getSize` of heap `k` stores the size class that it has found. -/
  | store (k index : Nat)
  | write (a : Addr) (b : BitVec 8)

namespace Process

def cacheNext (cfg : HeapConfig) (s : Process) : CacheAction → Option Process
  | .malloc k sz sources randoms => (s.malloc cfg k sz sources randoms).map Prod.snd
  | .free k p => some (s.free cfg k p).2
  | .getSize k p => some (s.getSize cfg k p).2
  | .store k index =>
    some ⟨Function.update s.heaps k { s.heaps k with cachedSizeClass := index }, s.env⟩
  | .write a b => some { s with env := { s.env with mem := Function.update s.env.mem a b } }

/-- Memory for new miniheaps is apart from what is mapped already. -/
def cacheOk (cfg : HeapConfig) (s : Process) : CacheAction → Prop
  | .malloc k sz sources _ => sz ≤ cfg.maxSize →
    SourcesFresh cfg k (requestClass sz) sources (s.random k (requestClass sz)) s.env
  | .store _ index => index < cfg.maxIndex
  | _ => True

theorem CachesValid.update {s : Process} (hv : s.CachesValid cfg) {k : Nat} {h : DieHardHeap}
    (hh : h.CachesValid cfg) (env : Env) : CachesValid cfg ⟨Function.update s.heaps k h, env⟩ := by
  intro k'
  show (Function.update s.heaps k h k').CachesValid cfg
  rw [Function.update_apply]
  split
  · exact hh
  · exact hv k'

theorem CachesValid.malloc {s s' : Process} (hv : s.CachesValid cfg) {k sz : Nat} {p : Addr}
    {sources : List (Nat → Addr)} {randoms : List (Nat × Nat)} (hsz : sz ≤ cfg.maxSize)
    (hm : s.malloc cfg k sz sources randoms = some (p, s')) : s'.CachesValid cfg := by
  obtain ⟨h, env, h', env', hg, hl, rfl⟩ := malloc_pieces hsz hm
  have hgrown : h.CacheValid := ((hv k).miniHeap (requestClass sz)).growHeapIfNeeded hg
  have htaken : h'.CacheValid := hgrown.getObjectLoop hl
  apply hv.update
  refine ⟨(hv k).sizeClass, fun cls => ?_⟩
  show (Function.update (s.heaps k).heaps (requestClass sz) h'.addInUse cls).CacheValid
  rw [Function.update_apply]
  split
  · exact htaken
  · exact (hv k).miniHeap cls

theorem getSizeSearch_lt {s : Process} {k : Nat} {p : Addr} {cached : Int} {classes : List Nat}
    {r : Nat × Nat} (hr : s.getSizeSearch cfg k p cached classes = some r) : r.2 ∈ classes := by
  induction classes with
  | nil => cases hr
  | cons c classes ih =>
    rw [getSizeSearch] at hr
    split at hr
    · exact List.mem_cons_of_mem _ (ih hr)
    · dsimp only at hr
      split at hr
      · cases hr
        exact List.mem_cons_self
      · exact List.mem_cons_of_mem _ (ih hr)

theorem CachesValid.getSize {s : Process} (hv : s.CachesValid cfg) (k : Nat) (p : Addr) :
    (s.getSize cfg k p).2.CachesValid cfg := by
  have hfound {sz i : Nat} (hr : s.getSizeSearch cfg k p (s.heaps k).cachedSizeClass
      (List.range cfg.maxIndex) = some (sz, i)) :
      CachesValid cfg ⟨Function.update s.heaps k { s.heaps k with cachedSizeClass := i }, s.env⟩ := by
    have hlt : i < cfg.maxIndex := List.mem_range.mp (getSizeSearch_lt hr)
    apply hv.update
    exact ⟨Or.inr ⟨Int.natCast_nonneg i, Int.ofNat_lt.mpr hlt⟩, (hv k).miniHeap⟩
  rw [Process.getSize]
  split
  · dsimp only
    cases hr : s.getSizeSearch cfg k p (s.heaps k).cachedSizeClass (List.range cfg.maxIndex) with
    | none => split <;> [split; skip] <;> exact hv
    | some r =>
      split
      · split
        · exact hv
        · exact hfound hr
      · exact hfound hr
  · split <;> exact hv

theorem malloc_too_large {s s' : Process} {k sz : Nat} {p : Addr} {sources : List (Nat → Addr)}
    {randoms : List (Nat × Nat)} (hsz : cfg.maxSize < sz)
    (hm : s.malloc cfg k sz sources randoms = some (p, s')) : p = 0 ∧ s' = s := by
  rw [malloc, DieHardHeap.malloc, if_pos hsz] at hm
  cases hm
  refine ⟨rfl, ?_⟩
  rw [Function.update_eq_self]

theorem placed_cacheNext {s s' : Process} {a : CacheAction} (hp : Placed cfg s) (hok : s.cacheOk cfg a)
    (hn : s.cacheNext cfg a = some s') : Placed cfg s' := by
  have hclass (k : Nat) (i : Int) : Placed cfg
      ⟨Function.update s.heaps k { s.heaps k with cachedSizeClass := i }, s.env⟩ := by
    have heq (k' cls : Nat) : (Function.update s.heaps k { s.heaps k with cachedSizeClass := i } k').heaps
        cls = (s.heaps k').heaps cls := by
      rw [Function.update_apply]
      split
      · rename_i he
        rw [he]
      · rfl
    apply hp.transfer
    · refine ⟨fun k' cls => ?_, rfl, rfl⟩
      rw [heq]
      exact .refl _
    · intro id i hi
      rw [Process.mini, heq] at hi
      exact hp.bits id i hi
  cases a with
  | malloc k sz sources randoms =>
    obtain ⟨⟨p, process⟩, hm, rfl⟩ := Option.map_eq_some_iff.mp hn
    by_cases hsz : sz ≤ cfg.maxSize
    · obtain ⟨x, -, -, -, hx⟩ := hp.malloc hsz (hok hsz) hm
      exact hx.placed
    · obtain ⟨-, rfl⟩ := malloc_too_large (Nat.not_le.mp hsz) hm
      exact hp
  | free k p =>
    cases hn
    rcases hp.free_cases k p with ⟨x, s', -, hfree, hf⟩ | ⟨-, env, hfree, hw⟩
    · rw [hfree]
      exact hf.placed hp
    · rw [hfree]
      exact hp.setEnv hw
  | getSize k p =>
    cases hn
    exact hp.getSize_placed k p
  | store k index =>
    cases hn
    exact hclass k index
  | write a b =>
    cases hn
    have hwrote : s.env.Wrote (Function.update s.env.mem a b)
        { s.env with mem := Function.update s.env.mem a b } := ⟨rfl, rfl, rfl⟩
    exact hp.setEnv hwrote

theorem CachesValid.next {s s' : Process} {a : CacheAction} (hv : s.CachesValid cfg)
    (hok : s.cacheOk cfg a) (hn : s.cacheNext cfg a = some s') : s'.CachesValid cfg := by
  cases a with
  | malloc k sz sources randoms =>
    obtain ⟨⟨p, process⟩, hm, rfl⟩ := Option.map_eq_some_iff.mp hn
    by_cases hsz : sz ≤ cfg.maxSize
    · exact hv.malloc hsz hm
    · obtain ⟨-, rfl⟩ := malloc_too_large (Nat.not_le.mp hsz) hm
      exact hv
  | free k p =>
    cases hn
    exact hv.update (hv k).free _
  | getSize k p =>
    cases hn
    exact hv.getSize k p
  | store k index =>
    cases hn
    have hlt : index < cfg.maxIndex := hok
    apply hv.update
    exact ⟨Or.inr ⟨Int.natCast_nonneg index, Int.ofNat_lt.mpr hlt⟩, (hv k).miniHeap⟩
  | write a b =>
    cases hn
    exact hv

end Process

/-- The caches change no answer: with any values in them, `free` and `getSize` answer as the plain
searches do and leave the same bitmaps and counters; what the calls store in them is valid. -/
structure CachesHarmless (cfg : HeapConfig) (s : Process) : Prop where
  valid : s.CachesValid cfg
  free_fst : ∀ sizeClass miniHeap k p,
    ((s.withCaches sizeClass miniHeap).free cfg k p).1 = (s.plainFree cfg k p).1
  free_snd : ∀ sizeClass miniHeap k p,
    (s.plainFree cfg k p).2.SameObjects ((s.withCaches sizeClass miniHeap).free cfg k p).2
  getSize_fst : ∀ sizeClass miniHeap k p,
    ((s.withCaches sizeClass miniHeap).getSize cfg k p).1 = s.plainGetSize cfg k p
  getSize_snd : ∀ sizeClass miniHeap k p,
    s.SameObjects ((s.withCaches sizeClass miniHeap).getSize cfg k p).2

theorem reach_cachesHarmless (hd : cfg.dieHarderOn = false) {localRandom : Nat → BitVec 64}
    {random : Nat → Nat → Nat → BitVec 64} {mem : Addr → BitVec 8} {mapped : List (Addr × Nat)}
    {s : Process} (h : Transition.Reach (Process.cacheNext cfg) (Process.cacheOk cfg)
      (.initial localRandom random mem mapped) s) : CachesHarmless cfg s := by
  have hinv : Placed cfg s ∧ s.CachesValid cfg := by
    apply h.invariant (I := fun s => Placed cfg s ∧ s.CachesValid cfg)
    · exact ⟨placed_initial _ _ _ _, fun _ => ⟨Or.inl rfl, fun _ => Or.inl rfl⟩⟩
    · intro r a r' hi hok hn
      exact ⟨Process.placed_cacheNext hi.1 hok hn, hi.2.next hok hn⟩
  constructor
  · exact hinv.2
  · intro sizeClass miniHeap k p
    exact (hinv.1.free_withCaches sizeClass miniHeap k p).1
  · intro sizeClass miniHeap k p
    exact (hinv.1.free_withCaches sizeClass miniHeap k p).2
  · intro sizeClass miniHeap k p
    exact (hinv.1.getSize_withCaches hd sizeClass miniHeap k p).1
  · intro sizeClass miniHeap k p
    exact (hinv.1.getSize_withCaches hd sizeClass miniHeap k p).2

def freedElsewhere : List CacheAction :=
  [.malloc 0 1048576 [fun _ => 0x100000] [(0, 0)], .store 0 3, .free 0 0x100000]

theorem cachesHarmless_freedElsewhere : CachesHarmless (.libdieharder false false)
    (Transition.final (Process.cacheNext (.libdieharder false false))
      (.initial (fun _ => 0) (fun _ _ _ => 0) (fun _ => 0) []) freedElsewhere) := by
  have hfacts : requestClass 1048576 = 16 ∧ 3 < (HeapConfig.libdieharder false false).maxIndex ∧
      (Transition.run (Process.cacheNext (.libdieharder false false))
        (.initial (fun _ => 0) (fun _ _ _ => 0) (fun _ => 0) []) freedElsewhere).isSome = true := by
    decide +kernel
  apply reach_cachesHarmless rfl
  apply Transition.reach_final _ hfacts.2.2
  refine ⟨fun _ => ?_, fun _ _ => ⟨hfacts.2.1, fun _ _ => ⟨trivial, fun _ _ => trivial⟩⟩⟩
  rw [hfacts.1]
  exact fun _ => ⟨by decide +kernel, trivial⟩

end DieHard
