import DieHard.Heap.InvalidFree
import Mathlib.Data.Set.Card

/-!
# The capacity of a size class

A size class stops to grow when all its miniheaps are active. From then on nothing that
`growHeapIfNeeded` does makes its loop condition false, so the loop ends exactly for the heaps that
are below the load limit of a fully grown class. A loop that ends leaves a free slot, because `_inUse`
counts the set bits.
-/

namespace DieHard

open Blocks

variable {cfg : HeapConfig}

/-- `_available` of a size class with all its miniheaps active. -/
def HeapConfig.capacity (cfg : HeapConfig) (cls : Nat) : Nat :=
  if cfg.maxMiniHeaps = 0 then 0 else cfg.minObjects cls * 2 ^ (cfg.maxMiniHeaps - 1)

def RandomHeap.BelowLimit (cfg : HeapConfig) (cls : Nat) (h : RandomHeap) : Prop :=
  cfg.numerator * h.inUse < cfg.capacity cls * cfg.denominator

instance (cfg : HeapConfig) (cls : Nat) (h : RandomHeap) : Decidable (h.BelowLimit cfg cls) :=
  inferInstanceAs (Decidable (_ < _))

section Loop

variable {cls owner : Nat} {h : RandomHeap} {env : Env}

theorem CountersOk.available_le (hc : CountersOk cfg cls h) : h.available ≤ cfg.capacity cls := by
  have hle := hc.miniHeaps_le
  rw [hc.available_eq, HeapConfig.capacity]
  by_cases h0 : h.miniHeapsInUse = 0
  · rw [if_pos h0]
    exact Nat.zero_le _
  · rw [if_neg h0, if_neg (by omega)]
    exact Nat.mul_le_mul_left _ (Nat.pow_le_pow_right (by decide) (by omega))

theorem RandomHeap.needsGrowth_iff :
    h.needsGrowth cfg = true ↔ h.available * cfg.denominator ≤ cfg.numerator * h.inUse := by
  rw [needsGrowth, decide_eq_true_eq]

theorem CountersOk.belowLimit (hc : CountersOk cfg cls h) (hroom : h.needsGrowth cfg = false) :
    h.BelowLimit cfg cls := by
  rw [← Bool.not_eq_true, RandomHeap.needsGrowth_iff, Nat.not_le] at hroom
  exact hroom.trans_le (Nat.mul_le_mul_right _ hc.available_le)

theorem CountersOk.room_of_full (hc : CountersOk cfg cls h) (hb : h.BelowLimit cfg cls)
    (hfull : h.miniHeapsInUse = cfg.maxMiniHeaps) : h.needsGrowth cfg = false := by
  have ha := hc.available_eq
  rw [hfull] at ha
  rw [← Bool.not_eq_true, RandomHeap.needsGrowth_iff, Nat.not_le, ha]
  exact hb

theorem RandomHeap.getAnotherMiniHeap_cases (owner cls : Nat) (source : Nat → Addr) (env : Env)
    (hneed : h.needsGrowth cfg = true) :
    (h.miniHeapsInUse < cfg.maxMiniHeaps ∧
      ∃ m, (getAnotherMiniHeap cfg owner cls source h env).1 = h.grown cfg cls m) ∨
    (cfg.maxMiniHeaps ≤ h.miniHeapsInUse ∧
      getAnotherMiniHeap cfg owner cls source h env = (h, env)) := by
  rw [getAnotherMiniHeap]
  by_cases hlt : h.miniHeapsInUse < cfg.maxMiniHeaps
  · simp only [hneed, Bool.not_true, Bool.false_eq_true, if_false, if_pos hlt]
    exact Or.inl ⟨hlt, _, rfl⟩
  · simp only [hneed, Bool.not_true, Bool.false_eq_true, if_false, if_neg hlt]
    exact Or.inr ⟨by omega, trivial⟩

/-- Below the limit the loop ends, at the latest with the last miniheap. -/
theorem CountersOk.growHeapIfNeeded_isSome (hc : CountersOk cfg cls h) (hb : h.BelowLimit cfg cls)
    {sources : List (Nat → Addr)} (owner : Nat) (env : Env)
    (hlen : cfg.maxMiniHeaps ≤ h.miniHeapsInUse + sources.length) :
    (RandomHeap.growHeapIfNeeded cfg owner cls sources h env).isSome := by
  induction sources generalizing h env with
  | nil =>
    have hroom := hc.room_of_full hb (Nat.le_antisymm hc.miniHeaps_le (by simpa using hlen))
    simp [RandomHeap.growHeapIfNeeded, hroom]
  | cons source sources ih =>
    rw [RandomHeap.growHeapIfNeeded]
    by_cases hneed : h.needsGrowth cfg = true
    · rw [if_pos hneed]
      rw [List.length_cons] at hlen
      rcases RandomHeap.getAnotherMiniHeap_cases owner cls source env hneed with
        ⟨hlt, m, hm⟩ | ⟨hfull, -⟩
      · have hgrown := countersOk_grown hc hlt m
        have hn : (h.grown cfg cls m).miniHeapsInUse = h.miniHeapsInUse + 1 := rfl
        rw [← hm] at hgrown hn
        exact ih hgrown (by rw [hm]; exact hb) _ (by omega)
      · have hroom := hc.room_of_full hb (Nat.le_antisymm hc.miniHeaps_le hfull)
        rw [hroom] at hneed
        cases hneed
    · rw [if_neg hneed]
      rfl

theorem CountersOk.growHeapIfNeeded_eq_none (hc : CountersOk cfg cls h)
    (hb : ¬ h.BelowLimit cfg cls) (sources : List (Nat → Addr)) :
    RandomHeap.growHeapIfNeeded cfg owner cls sources h env = none := by
  induction sources generalizing h env with
  | nil =>
    have hneed : h.needsGrowth cfg = true := by
      by_contra hroom
      exact hb (hc.belowLimit (by simpa using hroom))
    rw [RandomHeap.growHeapIfNeeded, if_pos hneed]
  | cons source sources ih =>
    have hneed : h.needsGrowth cfg = true := by
      by_contra hroom
      exact hb (hc.belowLimit (by simpa using hroom))
    rw [RandomHeap.growHeapIfNeeded, if_pos hneed]
    rcases RandomHeap.getAnotherMiniHeap_cases owner cls source env hneed with
      ⟨hlt, m, hm⟩ | ⟨-, hm⟩
    · have hgrown := countersOk_grown hc hlt m
      rw [← hm] at hgrown
      exact ih hgrown (by rw [hm]; exact hb)
    · rw [hm]
      exact ih hc hb

end Loop

/-- The slots of the first `n` miniheaps of a size class. -/
def slotsOf (cfg : HeapConfig) (k cls n : Nat) : Finset Slot :=
  ((Finset.range n).sigma fun i => Finset.range (cfg.nObjects ⟨k, cls, i⟩)).map
    ⟨fun a => ⟨⟨k, cls, a.1⟩, a.2⟩, fun a b h => by
      cases a
      cases b
      simp_all⟩

theorem mem_slotsOf {k cls n : Nat} {x : Slot} : x ∈ slotsOf cfg k cls n ↔
    x.id.owner = k ∧ x.id.cls = cls ∧ x.id.index < n ∧ x.index < cfg.nObjects x.id := by
  obtain ⟨⟨owner, c, i⟩, j⟩ := x
  simp only [slotsOf, Finset.mem_map, Finset.mem_sigma, Finset.mem_range, Sigma.exists]
  constructor
  · rintro ⟨i', j', ⟨hi, hj⟩, he⟩
    cases he
    exact ⟨rfl, rfl, hi, hj⟩
  · rintro ⟨rfl, rfl, hi, hj⟩
    exact ⟨i, j, ⟨hi, hj⟩, rfl⟩

theorem card_slotsOf (k cls n : Nat) : (slotsOf cfg k cls n).card =
    if n = 0 then 0 else cfg.minObjects cls * 2 ^ (n - 1) := by
  rw [slotsOf, Finset.card_map, Finset.card_sigma]
  simp only [Finset.card_range]
  induction n with
  | zero => rfl
  | succ n ih =>
    rw [Finset.sum_range_succ, ih, if_neg (Nat.succ_ne_zero n), Nat.add_sub_cancel]
    by_cases h0 : n = 0
    · simp [h0, HeapConfig.nObjects]
    · obtain ⟨m, rfl⟩ := Nat.exists_eq_succ_of_ne_zero h0
      simp only [HeapConfig.nObjects, if_neg h0, Nat.succ_eq_add_one, Nat.add_sub_cancel,
        Nat.one_shiftLeft, Nat.pow_succ]
      ring

/-- A class never holds `2 ^ 64` objects. -/
theorem HeapConfig.capacity_lt {cls : Nat} (hc : cls < cfg.maxIndex) :
    cfg.capacity cls < sizeRange := by
  rw [capacity]
  split
  · exact Nat.two_pow_pos 64
  · rename_i hpos
    have hmax : cfg.maxSize = 2 ^ (cfg.maxIndex + 3) := by
      rw [← cfg.maxSize_eq_classSize, getClassSize_eq, show cfg.maxIndex - 1 + 4 = cfg.maxIndex + 3 by omega]
    have hlog : cfg.maxMiniHeaps = 31 - (cfg.maxIndex + 3) := by
      rw [maxMiniHeaps, hmax, staticlog_two_pow]
    have hcls : getClassSize cls ≤ cfg.maxSize := by
      rw [hmax, getClassSize_eq]
      exact Nat.pow_le_pow_right (by decide) (by omega)
    have hmin : cfg.minSize cls ≤ cfg.numerator * cfg.maxSize := by
      have hnum : 0 < cfg.numerator := cfg.denominator_pos.trans_le cfg.multiplier_ge_one
      rw [minSize]
      split
      · exact Nat.le_mul_of_pos_left _ hnum
      · exact (Nat.div_le_self _ _).trans (Nat.mul_le_mul_left _ hcls)
    calc cfg.minObjects cls * 2 ^ (cfg.maxMiniHeaps - 1)
        ≤ cfg.numerator * cfg.maxSize * 2 ^ (cfg.maxMiniHeaps - 1) :=
          Nat.mul_le_mul_right _ ((Nat.div_le_self _ _).trans hmin)
      _ ≤ 2 ^ 31 * cfg.maxSize * 2 ^ (cfg.maxMiniHeaps - 1) :=
          Nat.mul_le_mul_right _ (Nat.mul_le_mul_right _ cfg.numerator_lt.le)
      _ = 2 ^ 61 := by
        rw [hmax, hlog, ← Nat.pow_add, ← Nat.pow_add]
        congr 1
        omega
      _ < sizeRange := by decide

namespace Process

def taken (s : Process) (k cls : Nat) : Set Slot :=
  {x | x.id.owner = k ∧ x.id.cls = cls ∧ s.bit x = true}

theorem mem_taken {s : Process} {k cls : Nat} {x : Slot} :
    x ∈ s.taken k cls ↔ x.id.owner = k ∧ x.id.cls = cls ∧ s.bit x = true := Iff.rfl

def Counted (s : Process) : Prop := ∀ k cls, (s.random k cls).inUse = (s.taken k cls).ncard

end Process

namespace Placed

variable {s : Process} {k cls : Nat}

theorem available_eq_card (h : Placed cfg s) (k cls : Nat) :
    (slotsOf cfg k cls (s.random k cls).miniHeapsInUse).card = (s.random k cls).available := by
  rw [card_slotsOf]
  exact (h.counters k cls).available_eq.symm

theorem taken_subset (h : Placed cfg s) (k cls : Nat) :
    s.taken k cls ⊆ slotsOf cfg k cls (s.random k cls).miniHeapsInUse := by
  rintro x ⟨rfl, rfl, hb⟩
  obtain ⟨ha, hlt⟩ := h.bits x.id x.index hb
  exact mem_slotsOf.mpr ⟨rfl, rfl, ha.2, hlt⟩

theorem taken_finite (h : Placed cfg s) (k cls : Nat) : (s.taken k cls).Finite :=
  (Finset.finite_toSet _).subset (h.taken_subset k cls)

theorem ncard_taken_le (h : Placed cfg s) (k cls : Nat) :
    (s.taken k cls).ncard ≤ (s.random k cls).available := by
  have hle := Set.ncard_le_ncard (h.taken_subset k cls)
  rwa [Set.ncard_coe_finset, h.available_eq_card] at hle

theorem exists_clear (h : Placed cfg s) (hlt : (s.taken k cls).ncard < (s.random k cls).available) :
    ∃ x ∈ slotsOf cfg k cls (s.random k cls).miniHeapsInUse, s.bit x = false := by
  by_contra hno
  have hall : (slotsOf cfg k cls (s.random k cls).miniHeapsInUse : Set Slot) ⊆ s.taken k cls := by
    intro x hx
    have hmem := mem_slotsOf.mp hx
    refine ⟨hmem.1, hmem.2.1, ?_⟩
    by_contra hb
    exact hno ⟨x, hx, by simpa using hb⟩
  have hle := Set.ncard_le_ncard hall (h.taken_finite k cls)
  rw [Set.ncard_coe_finset, h.available_eq_card] at hle
  omega

theorem ncard_taken_lt (h : Placed cfg s) (hc : cls < cfg.maxIndex) :
    (s.taken k cls).ncard < sizeRange :=
  ((h.ncard_taken_le k cls).trans (h.counters k cls).available_le).trans_lt (HeapConfig.capacity_lt hc)

end Placed

variable {s s' : Process} {x : Slot}

theorem Process.Grew.counted (hg : s.Grew cfg s') (hs : s.Counted) : s'.Counted := by
  intro k cls
  have htaken : s'.taken k cls = s.taken k cls := by
    simp only [Process.taken, hg.bit_eq]
  rw [hg.inUse_eq, htaken]
  exact hs k cls

theorem Process.Took.ncard_taken (ht : s.Took cfg x s') (hp : Placed cfg s) :
    (s'.taken x.id.owner x.id.cls).ncard = (s.taken x.id.owner x.id.cls).ncard + 1 := by
  have htaken : s'.taken x.id.owner x.id.cls = insert x (s.taken x.id.owner x.id.cls) := by
    ext y
    simp only [Set.mem_insert_iff, Process.mem_taken, ht.bit_eq, Bool.or_eq_true, decide_eq_true_eq]
    grind
  have hnot : x ∉ s.taken x.id.owner x.id.cls := by
    rintro ⟨-, -, hb⟩
    rw [ht.clear] at hb
    cases hb
  rw [htaken, Set.ncard_insert_of_notMem hnot (hp.taken_finite _ _)]

theorem Process.Took.counted (ht : s.Took cfg x s') (hp : Placed cfg s) (hs : s.Counted) :
    s'.Counted := by
  intro k cls
  rw [ht.inUse]
  split
  · rename_i he
    obtain ⟨rfl, rfl⟩ := he
    have hcard := ht.ncard_taken hp
    have hlt := (ht.placed hp).ncard_taken_lt (k := x.id.owner) ht.active.1
    rw [hcard, hs, sizeSucc_of_lt (by omega)]
  · rename_i he
    have htaken : s'.taken k cls = s.taken k cls := by
      ext y
      simp only [Process.mem_taken, ht.bit_eq, Bool.or_eq_true, decide_eq_true_eq]
      grind
    rw [htaken]
    exact hs k cls

theorem Process.Freed.counted {p : Addr} (hf : s.Freed cfg x p s') (hp : Placed cfg s)
    (hb : s.bit x = true) (hs : s.Counted) : s'.Counted := by
  intro k cls
  rw [hf.inUse]
  split
  · rename_i he
    obtain ⟨rfl, rfl⟩ := he
    have htaken : s'.taken x.id.owner x.id.cls = s.taken x.id.owner x.id.cls \ {x} := by
      ext y
      simp only [Set.mem_sdiff, Set.mem_singleton_iff, Process.mem_taken, hf.bit_eq, Bool.and_eq_true,
        decide_eq_true_eq]
      grind
    have hmem : x ∈ s.taken x.id.owner x.id.cls := ⟨rfl, rfl, hb⟩
    have hcard := Set.ncard_sdiff_singleton_add_one hmem (hp.taken_finite _ _)
    have hlt := hp.ncard_taken_lt (k := x.id.owner) (hp.bit_active hb).1
    rw [htaken, hs, sizeSub_of_le (by omega) hlt]
    omega
  · rename_i he
    have htaken : s'.taken k cls = s.taken k cls := by
      ext y
      simp only [Process.mem_taken, hf.bit_eq, Bool.and_eq_true, decide_eq_true_eq]
      grind
    rw [htaken]
    exact hs k cls

theorem Placed.drawn_self (h : Placed cfg s) {k cls : Nat}
    (hx : x ∈ slotsOf cfg k cls (s.random k cls).miniHeapsInUse) :
    s.drawn cfg k cls (2 ^ x.id.index - 1, x.index) = x := by
  obtain ⟨rfl, rfl, hi, hj⟩ := mem_slotsOf.mp hx
  have hpow : 2 ^ x.id.index ≤ 2 ^ ((s.random x.id.owner x.id.cls).miniHeapsInUse - 1) :=
    Nat.pow_le_pow_right (by decide) (by omega)
  have hpos := Nat.two_pow_pos x.id.index
  have hchosen : (s.random x.id.owner x.id.cls).chosenMiniHeap (2 ^ x.id.index - 1) = x.id.index := by
    have hchunks : (s.random x.id.owner x.id.cls).chunksInUse =
        2 ^ ((s.random x.id.owner x.id.cls).miniHeapsInUse - 1) - 1 :=
      (h.counters x.id.owner x.id.cls).chunksInUse_eq
    rw [RandomHeap.chosenMiniHeap, hchunks, Nat.and_two_pow_sub_one_eq_mod,
      Nat.mod_eq_of_lt (by omega), Nat.sub_add_cancel hpos, log2_two_pow]
  simp only [Process.drawn, hchosen]
  rw [modulo_eq_mod, Nat.mod_eq_of_lt hj]

theorem Placed.getObjectLoop_isSome (h : Placed cfg s) {k cls : Nat} (hc : cls < cfg.maxIndex)
    (hx : x ∈ slotsOf cfg k cls (s.random k cls).miniHeapsInUse) (hb : s.bit x = false) :
    (RandomHeap.getObjectLoop cfg k cls [(2 ^ x.id.index - 1, x.index)] (s.random k cls)
      s.env).isSome := by
  have hdrawn := h.drawn_self hx
  obtain ⟨rfl, rfl, hi, hj⟩ := mem_slotsOf.mp hx
  have hpos : 0 < (s.random x.id.owner x.id.cls).miniHeapsInUse := by omega
  have hclear : s.bit (s.drawn cfg x.id.owner x.id.cls (2 ^ x.id.index - 1, x.index)) = false := by
    rw [hdrawn]
    exact hb
  obtain ⟨env, hget, -⟩ := h.getObject_clear hc hpos hclear
  rw [hdrawn] at hget
  have hne := h.addr_ne_zero ⟨hc, hi⟩ (hj.trans_le (HeapConfig.nObjects_le_slots _ _))
  simp [RandomHeap.getObjectLoop, hget, hne]

theorem Placed.exists_clear_of_room (h : Placed cfg s) (hcount : s.Counted) {k cls : Nat}
    (hroom : (s.random k cls).needsGrowth cfg = false) :
    ∃ x ∈ slotsOf cfg k cls (s.random k cls).miniHeapsInUse, s.bit x = false := by
  refine h.exists_clear ?_
  rw [← hcount k cls]
  rw [← Bool.not_eq_true, RandomHeap.needsGrowth_iff, Nat.not_le] at hroom
  by_contra hge
  have hle : (s.random k cls).available * cfg.denominator ≤ cfg.numerator * (s.random k cls).inUse := by
    calc (s.random k cls).available * cfg.denominator
        ≤ (s.random k cls).inUse * cfg.numerator :=
          Nat.mul_le_mul (Nat.not_lt.mp hge) cfg.multiplier_ge_one
      _ = cfg.numerator * (s.random k cls).inUse := Nat.mul_comm _ _
  omega

/-- `malloc` of class `cls` ends: whatever the source of memory answers, the loop of
`growHeapIfNeeded` stops. When the answers are fresh, some active miniheap then has a free slot, and
the call returns as soon as it draws one. -/
def Process.MallocEnds (cfg : HeapConfig) (s : Process) (k cls : Nat) : Prop :=
  ∀ source : Nat → Nat → Addr, ∃ (n : Nat) (h : RandomHeap) (env : Env),
    RandomHeap.makeRoom cfg k cls ((List.range n).map source) (s.random k cls) s.env = some (h, env) ∧
    (SourcesFresh cfg k cls ((List.range n).map source) (s.random k cls) s.env →
      ∃ x ∈ slotsOf cfg k cls h.miniHeapsInUse,
        (h.miniHeaps x.id.index).miniHeapBitmap.isSet x.index = false ∧
        ∃ random, (RandomHeap.malloc cfg k cls ((List.range n).map source) [random] (s.random k cls)
          s.env).isSome)

theorem Placed.malloc_isSome (hp : Placed cfg s) (hcount : s.Counted) {k cls : Nat}
    (hc : cls < cfg.maxIndex) {sources : List (Nat → Addr)} {h : RandomHeap} {env : Env}
    (hf : SourcesFresh cfg k cls sources (s.random k cls) s.env)
    (hg : RandomHeap.growHeapIfNeeded cfg k cls sources (s.random k cls) s.env = some (h, env)) :
    ∃ x ∈ slotsOf cfg k cls h.miniHeapsInUse,
      (h.miniHeaps x.id.index).miniHeapBitmap.isSet x.index = false ∧
      ∃ random, (RandomHeap.malloc cfg k cls sources [random] (s.random k cls) s.env).isSome := by
  obtain ⟨hgrew, hroom⟩ := hp.growHeapIfNeeded hc hf hg
  have hrandom : (s.setRandom k cls h env).random k cls = h := Process.setRandom_heaps_self s k cls h env
  obtain ⟨x, hx, hb⟩ := hgrew.placed.exists_clear_of_room (hgrew.counted hcount) (by rwa [hrandom])
  have hloop := hgrew.placed.getObjectLoop_isSome hc hx hb
  rw [hrandom] at hx hloop
  obtain ⟨r, hr⟩ := Option.isSome_iff_exists.mp hloop
  obtain ⟨rfl, rfl, -, -⟩ := mem_slotsOf.mp hx
  refine ⟨x, hx, ?_, (2 ^ x.id.index - 1, x.index), ?_⟩
  · have hmini : (s.setRandom x.id.owner x.id.cls h env).mini x.id = h.miniHeaps x.id.index := by
      rw [Process.mini_setRandom, if_pos ⟨rfl, rfl⟩]
    rwa [Process.bit, hmini] at hb
  · have hr' : RandomHeap.getObjectLoop cfg x.id.owner x.id.cls
        [(2 ^ x.id.index - 1, x.index)] h env = some r := hr
    rw [RandomHeap.malloc, RandomHeap.makeRoom_eq, hg]
    simp [hr']

theorem Placed.mallocEnds_iff (hp : Placed cfg s) (hcount : s.Counted) {k cls : Nat}
    (hc : cls < cfg.maxIndex) :
    s.MallocEnds cfg k cls ↔ (s.random k cls).BelowLimit cfg cls := by
  have hcounters : CountersOk cfg cls (s.random k cls) := hp.counters k cls
  constructor
  · intro hends
    obtain ⟨n, h, env, hg, -⟩ := hends fun _ _ => 0
    by_contra hb
    rw [RandomHeap.makeRoom_eq, hcounters.growHeapIfNeeded_eq_none hb] at hg
    cases hg
  · intro hb source
    have hlen : cfg.maxMiniHeaps ≤ (s.random k cls).miniHeapsInUse +
        ((List.range cfg.maxMiniHeaps).map source).length := by simp
    have hsome := hcounters.growHeapIfNeeded_isSome hb k s.env hlen
    obtain ⟨⟨h, env⟩, hg⟩ := Option.isSome_iff_exists.mp hsome
    exact ⟨cfg.maxMiniHeaps, h, env, (RandomHeap.makeRoom_eq ..).trans hg,
      fun hf => hp.malloc_isSome hcount hc hf hg⟩

def Env.top (env : Env) : Nat := (env.mapped.map fun r => r.1 + r.2).foldr max 0

theorem Env.le_top (env : Env) {r : Nat × Nat} (hr : r ∈ env.mapped) : r.1 + r.2 ≤ env.top := by
  have hmem : r.1 + r.2 ∈ env.mapped.map fun r => r.1 + r.2 := List.mem_map_of_mem hr
  exact List.le_max_of_le hmem (Nat.le_refl _)

/-- Whole pages above all that has been mapped, each a block apart from the next, are fresh. -/
theorem Env.fresh_of_spaced {id : MiniId} {env : Env} {source : Nat → Addr}
    (hpos : ∀ t, source t ≠ 0) (hpage : ∀ t, cfg.pageSize ∣ source t) (htop : ∀ t, env.top ≤ source t)
    (hstep : ∀ t u, t < u → source t + (cfg.sourceLayout id source).bytes ≤ source u) :
    env.Fresh cfg id source := by
  have hbase (j : Nat) : ∃ t, (cfg.sourceLayout id source).base j = source t ∧
      (cfg.dieHarderOn = true → t = j) := by
    by_cases hd : cfg.dieHarderOn = true
    · exact ⟨j, if_pos hd, fun _ => rfl⟩
    · exact ⟨0, if_neg hd, fun h => absurd h hd⟩
  constructor
  · intro j _
    obtain ⟨t, ht, -⟩ := hbase j
    rw [ht]
    refine ⟨hpos t, hpage t, ?_⟩
    intro r hr
    exact Or.inr ((env.le_top hr).trans (htop t))
  · intro j hj k hk hne
    have hd : cfg.dieHarderOn = true := by
      by_contra hd
      have hcount : (cfg.sourceLayout id source).count = 1 := if_neg hd
      omega
    obtain ⟨t, ht, hjt⟩ := hbase j
    obtain ⟨u, hu, hku⟩ := hbase k
    obtain rfl := hjt hd
    obtain rfl := hku hd
    rw [ht, hu]
    rcases Nat.lt_or_gt_of_ne hne with hlt | hlt
    · exact Or.inl (hstep _ _ hlt)
    · exact Or.inr (hstep _ _ hlt)

theorem spaced_of_step {first step bytes t u : Nat} (hle : bytes ≤ step) (h : t < u) :
    first + t * step + bytes ≤ first + u * step := by
  calc first + t * step + bytes ≤ first + t * step + step := Nat.add_le_add_left hle _
    _ = first + (t + 1) * step := by ring
    _ ≤ first + u * step := Nat.add_le_add_left (Nat.mul_le_mul_right _ h) _

theorem exists_fresh (cfg : HeapConfig) (id : MiniId) (env : Env) : ∃ source, env.Fresh cfg id source := by
  let first := cfg.pageSize * (env.top + 1)
  let step := cfg.pageSize * (cfg.sourceLayout id fun _ => 0).bytes
  have hpage := cfg.pageSize_pos
  have hfirst : env.top + 1 ≤ first := Nat.le_mul_of_pos_left _ hpage
  refine ⟨fun t => first + t * step, Env.fresh_of_spaced ?_ ?_ ?_ ?_⟩
  · intro t
    have hle : first ≤ first + t * step := Nat.le_add_right _ _
    exact Nat.ne_of_gt (by omega)
  · intro t
    exact Nat.dvd_add (Nat.dvd_mul_right _ _) (Dvd.dvd.mul_left (Nat.dvd_mul_right _ _) t)
  · intro t
    have hle : first ≤ first + t * step := Nat.le_add_right _ _
    exact hle.trans' (by omega)
  · intro t u h
    exact spaced_of_step (Nat.le_mul_of_pos_left _ hpage) h

theorem exists_sourcesFresh (cfg : HeapConfig) (k cls n : Nat) (h : RandomHeap) (env : Env) :
    ∃ sources : List (Nat → Addr), sources.length = n ∧ SourcesFresh cfg k cls sources h env := by
  induction n generalizing h env with
  | zero => exact ⟨[], rfl, trivial⟩
  | succ n ih =>
    obtain ⟨source, hf⟩ := exists_fresh cfg ⟨k, cls, h.miniHeapsInUse⟩ env
    obtain ⟨sources, hlen, hrest⟩ := ih (RandomHeap.getAnotherMiniHeap cfg k cls source h env).1
      (RandomHeap.getAnotherMiniHeap cfg k cls source h env).2
    exact ⟨source :: sources, by rw [List.length_cons, hlen], fun _ => ⟨hf, hrest⟩⟩

theorem Process.malloc_isSome {k sz : Nat} {sources : List (Nat → Addr)} {randoms : List (Nat × Nat)}
    (hsz : sz ≤ cfg.maxSize)
    (h : (RandomHeap.malloc cfg k (requestClass sz) sources randoms (s.random k (requestClass sz))
      s.env).isSome) : (s.malloc cfg k sz sources randoms).isSome := by
  obtain ⟨r, hr⟩ := Option.isSome_iff_exists.mp h
  have hr' : RandomHeap.malloc cfg k (getIndex (if sz < alignment then alignment else sz)) sources
      randoms ((s.heaps k).heaps (getIndex (if sz < alignment then alignment else sz))) s.env =
    some r := hr
  simp [Process.malloc, DieHardHeap.malloc, Nat.not_lt.mpr hsz, DieHardHeap.mallocClass, hr']

theorem Placed.exists_malloc (hp : Placed cfg s) (hcount : s.Counted) {k sz : Nat}
    (hsz : sz ≤ cfg.maxSize) (hb : (s.random k (requestClass sz)).BelowLimit cfg (requestClass sz)) :
    ∃ sources randoms, SourcesFresh cfg k (requestClass sz) sources
      (s.random k (requestClass sz)) s.env ∧ (s.malloc cfg k sz sources randoms).isSome := by
  obtain ⟨sources, hlen, hf⟩ := exists_sourcesFresh cfg k (requestClass sz) cfg.maxMiniHeaps
    (s.random k (requestClass sz)) s.env
  have hcounters : CountersOk cfg (requestClass sz) (s.random k (requestClass sz)) := hp.counters _ _
  have hroom : cfg.maxMiniHeaps ≤ (s.random k (requestClass sz)).miniHeapsInUse + sources.length := by
    omega
  have hsome := hcounters.growHeapIfNeeded_isSome hb k s.env hroom
  obtain ⟨⟨h, env⟩, hg⟩ := Option.isSome_iff_exists.mp hsome
  obtain ⟨-, -, -, random, hrandom⟩ := hp.malloc_isSome hcount (requestClass_lt hsz) hf hg
  exact ⟨sources, [random], hf, Process.malloc_isSome hsz hrandom⟩

namespace Session

variable {localRandom : Nat → BitVec 64} {random : Nat → Nat → Nat → BitVec 64}
  {mem : Addr → BitVec 8} {mapped : List (Addr × Nat)} {s : Session}

theorem counted_next {s s' : Session} {a : Action} (hp : Placed cfg s.process)
    (hs : s.process.Counted) (hok : s.okAny cfg a) (hn : s.next cfg a = some s') :
    s'.process.Counted := by
  cases a with
  | malloc k sz sources randoms =>
    obtain ⟨⟨p, process⟩, hm, rfl⟩ := Option.map_eq_some_iff.mp hn
    obtain ⟨x, s₁, -, -, -, hgrew, ht⟩ := hp.malloc_took hok.1 hok.2 hm
    exact ht.counted hgrew.placed (hgrew.counted hs)
  | free k p =>
    cases hn
    show (s.process.free cfg k p).2.Counted
    rcases hp.free_cases k p with ⟨x, process, hx, hfree, hf⟩ | ⟨-, env, hfree, -⟩
    · rw [hfree]
      exact hf.counted hp hx.2.1 hs
    · rw [hfree]
      exact hs

theorem reach_counted
    (h : Transition.Reach (next cfg) (okAny cfg) (initial localRandom random mem mapped) s) :
    s.process.Counted := by
  refine h.invariant_of_reach (I := fun s => s.process.Counted) ?_ ?_
  · intro k cls
    have hempty : (initial localRandom random mem mapped).process.taken k cls = ∅ := by
      refine Set.eq_empty_of_forall_notMem ?_
      rintro x ⟨-, -, hb⟩
      have hplaced : Placed cfg (.initial localRandom random mem mapped) := placed_initial _ _ _ _
      exact Nat.not_lt_zero _ (hplaced.bit_active hb).2
    rw [hempty, Set.ncard_empty]
    rfl
  · intro r a r' hr hi hok hn
    exact counted_next (reach_placed hr) hi hok hn

/-- In every reachable state `malloc` of a size class ends exactly when the objects in use are below
the load limit of the class with all its miniheaps active. -/
theorem mallocEnds_iff_belowLimit
    (h : Transition.Reach (next cfg) (okAny cfg) (initial localRandom random mem mapped) s)
    {k cls : Nat} (hc : cls < cfg.maxIndex) :
    s.process.MallocEnds cfg k cls ↔ (s.process.random k cls).BelowLimit cfg cls :=
  (reach_placed h).mallocEnds_iff (reach_counted h) hc

theorem mallocEnds_blank : blank.process.MallocEnds (.libdieharder false false) 0 16 :=
  (mallocEnds_iff_belowLimit (s := blank) .refl (by decide)).mpr (by decide)

/-- The program can bring a class to any number of live objects up to its limit. -/
theorem exists_reach_inUse {k sz n : Nat} (hsz : sz ≤ cfg.maxSize)
    (hn : ∀ m < n, cfg.numerator * m < cfg.capacity (requestClass sz) * cfg.denominator) :
    ∃ s, Transition.Reach (next cfg) (okAny cfg) (initial localRandom random mem mapped) s ∧
      (s.process.random k (requestClass sz)).inUse = n := by
  induction n with
  | zero => exact ⟨_, .refl, rfl⟩
  | succ n ih =>
    obtain ⟨s, hr, hi⟩ := ih fun m hm => hn m (by omega)
    have hp := reach_placed hr
    have hcount := reach_counted hr
    have hb : (s.process.random k (requestClass sz)).BelowLimit cfg (requestClass sz) := by
      rw [RandomHeap.BelowLimit, hi]
      exact hn n (Nat.lt_succ_self n)
    obtain ⟨sources, randoms, hf, hsome⟩ := hp.exists_malloc hcount hsz hb
    obtain ⟨⟨p, process⟩, hm⟩ := Option.isSome_iff_exists.mp hsome
    have hnext : s.next cfg (.malloc k sz sources randoms) = some (s.record process k p (some sz)) := by
      rw [next, hm]
      rfl
    refine ⟨_, hr.step (a := .malloc k sz sources randoms) ⟨hsz, hf⟩ hnext, ?_⟩
    obtain ⟨x, s₁, hk, hc, -, hgrew, ht⟩ := hp.malloc_took hsz hf hm
    have hnew := ht.counted hgrew.placed (hgrew.counted hcount) k (requestClass sz)
    have hold := hgrew.counted hcount k (requestClass sz)
    rw [hgrew.inUse_eq, hi] at hold
    show (process.random k (requestClass sz)).inUse = n + 1
    rw [hnew, hold, ← hk, ← hc]
    exact ht.ncard_taken hgrew.placed

/-- With 896 live objects of 1 MB the next `malloc` of that size never returns. -/
theorem not_mallocEnds_full : ∃ s, Transition.Reach (next (.libdieharder false false))
      (okAny (.libdieharder false false)) blank s ∧ (s.process.random 0 16).inUse = 896 ∧
      ¬ s.process.MallocEnds (.libdieharder false false) 0 16 := by
  have hcls : requestClass 1048576 = 16 := by decide
  have hlimit : ∀ m < 896, (HeapConfig.libdieharder false false).numerator * m <
      (HeapConfig.libdieharder false false).capacity (requestClass 1048576) *
        (HeapConfig.libdieharder false false).denominator := by
    intro m hm
    have hcap : (HeapConfig.libdieharder false false).capacity (requestClass 1048576) = 1024 := by decide
    rw [hcap]
    show 8 * m < 1024 * 7
    omega
  obtain ⟨s, hr, hi⟩ : ∃ s, Transition.Reach (next (.libdieharder false false))
      (okAny (.libdieharder false false)) blank s ∧
      (s.process.random 0 (requestClass 1048576)).inUse = 896 :=
    exists_reach_inUse (by decide) hlimit
  rw [hcls] at hi
  refine ⟨s, hr, hi, ?_⟩
  rw [mallocEnds_iff_belowLimit hr (by decide), RandomHeap.BelowLimit, hi]
  decide

end Session

end DieHard
