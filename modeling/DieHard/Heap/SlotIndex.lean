import DieHard.Heap.Activation

/-!
# Index and address of a slot

Miniheaps of any types are activated in any order. Activation on blocks that no miniheap uses keeps the
blocks of all active miniheaps apart and the page table in step with them, so every address of a slot
leads back to its miniheap and its index.
-/

namespace DieHard

open Blocks

/-- The miniheap objects of a program, by address, and what they share. -/
structure MiniHeaps where
  mini : MiniId → MiniHeap
  env : Env

namespace MiniHeaps

inductive Action
  | activate (id : MiniId) (source : Nat → Addr)
  /-- Calls of `malloc` and `free` change bits and memory and make reports. -/
  | use (id : MiniId) (bitmap : BitMap) (mem : Addr → BitVec 8) (reports : List Report)

def initial (random : MiniId → BitVec 64) (mem : Addr → BitVec 8) (mapped : List (Addr × Nat)) :
    MiniHeaps :=
  ⟨fun id => MiniHeap.new (random id), ⟨mem, fun _ => none, mapped, []⟩⟩

variable {b : Build} (types : MiniId → MiniHeapType b)

def next (s : MiniHeaps) : Action → Option MiniHeaps
  | .activate id source =>
    ((types id).activate id source (s.mini id) s.env).map fun r =>
      ⟨Function.update s.mini id r.1, r.2⟩
  | .use id bitmap mem reports =>
    some ⟨Function.update s.mini id { s.mini id with miniHeapBitmap := bitmap },
      { s.env with mem := mem, reports := reports }⟩

def BlockFresh (T : MiniHeapType b) (source : Nat → Addr) (env : Env) : Prop :=
  source 0 ≠ 0 ∧ b.pageSize ∣ source 0 ∧
    ∀ r ∈ env.mapped, Apart (source 0) (T.nObjects * T.objectSize) r.1 r.2

/-- Every answer of `mmap` is aligned, and none of its pages is in the page table yet. -/
def PagesFresh (T : MiniHeapType b) (id : MiniId) (source : Nat → Addr) (m : MiniHeap) (env : Env) :
    Prop :=
  ∀ j < MiniHeapType.RandomMiniHeapDieHarder.mapTurns T, b.pageSize ∣ source j ∧
    ∀ q < T.pagesPerObject, (T.turns id source m env j).2.pageTable
      (b.computePageNumber (source j + q * b.pageSize)) = none

instance (T : MiniHeapType b) (source : Nat → Addr) (env : Env) : Decidable (BlockFresh T source env) :=
  inferInstanceAs (Decidable (_ ∧ _))

instance (T : MiniHeapType b) (id : MiniId) (source : Nat → Addr) (m : MiniHeap) (env : Env) :
    Decidable (PagesFresh T id source m env) :=
  inferInstanceAs (Decidable (∀ j < MiniHeapType.RandomMiniHeapDieHarder.mapTurns T,
    b.pageSize ∣ source j ∧ ∀ q < T.pagesPerObject, (T.turns id source m env j).2.pageTable
      (b.computePageNumber (source j + q * b.pageSize)) = none))

/-- What the source of memory of the build promises for an activation. -/
def fresh (s : MiniHeaps) : Action → Prop
  | .activate id source =>
    if b.dieHarderOn then PagesFresh (types id) id source (s.mini id) s.env
    else BlockFresh (types id) source s.env
  | .use _ _ _ _ => True

instance (s : MiniHeaps) : ∀ a, Decidable (s.fresh types a)
  | .activate id source => inferInstanceAs (Decidable (if b.dieHarderOn then
      PagesFresh (types id) id source (s.mini id) s.env else BlockFresh (types id) source s.env))
  | .use _ _ _ _ => inferInstanceAs (Decidable True)

/-- Slots and addresses of a miniheap are inverse to each other; an index is an `unsigned int`. -/
structure SlotsInverse (s : MiniHeaps) (id : MiniId) : Prop where
  inBounds : ∀ i < (types id).nObjects, i < 2 ^ 32 → ∀ o < (types id).objectSize,
    (types id).inBounds id (s.mini id) s.env ((types id).getObject (s.mini id) i + o) = true
  inBounds_other : ∀ i < (types id).nObjects, i < 2 ^ 32 → ∀ o < (types id).objectSize, ∀ id', id' ≠ id →
    (types id').inBounds id' (s.mini id') s.env ((types id).getObject (s.mini id) i + o) = false
  computeIndex : ∀ i < (types id).nObjects, i < 2 ^ 32 → ∀ o < (types id).objectSize,
    (types id).computeIndex (s.mini id) s.env ((types id).getObject (s.mini id) i + o) = i
  getSize : ∀ i < (types id).nObjects, i < 2 ^ 32 → ∀ o < (types id).objectSize,
    (types id).getSize (s.mini id) s.env ((types id).getObject (s.mini id) i + o) =
      (types id).objectSize - o
  apart : ∀ i < (types id).nObjects, i < 2 ^ 32 → ∀ k < (types id).nObjects, k < 2 ^ 32 → i ≠ k →
    Apart ((types id).getObject (s.mini id) i) (types id).objectSize
      ((types id).getObject (s.mini id) k) (types id).objectSize

def layout (s : MiniHeaps) (id : MiniId) : Layout := (types id).layout (s.mini id)

/-- The active miniheaps have aligned blocks of their own, which the page table knows. -/
structure Arranged (s : MiniHeaps) : Prop where
  laid : ∀ id, (s.mini id).isHeapActivated = true → (types id).Laid id (s.mini id) s.env
  separate : Separate (s.layout types) fun id => (s.mini id).isHeapActivated = true
  mapped : b.dieHarderOn = false → ∀ id, (s.mini id).isHeapActivated = true →
    ((s.mini id).miniHeap, (types id).nObjects * (types id).objectSize) ∈ s.env.mapped
  entry : b.dieHarderOn = true → ∀ p e, s.env.pageTable (b.computePageNumber p) = some e →
    (s.mini e.heap).isHeapActivated = true ∧ ∃ j, (s.layout types e.heap).InBlock j p
  inactive : ∀ id, (s.mini id).isHeapActivated = false → (s.mini id).miniHeap = 0

variable {types} {s s' : MiniHeaps}

theorem arranged_initial (random : MiniId → BitVec 64) (mem : Addr → BitVec 8)
    (mapped : List (Addr × Nat)) : Arranged types (initial random mem mapped) := by
  have hno (id : MiniId) : ¬ ((initial random mem mapped).mini id).isHeapActivated = true := by
    simp [initial, MiniHeap.new]
  refine ⟨fun id h => absurd h (hno id), fun a _ _ _ h => absurd h (hno a),
    fun _ id h => absurd h (hno id), ?_, fun _ _ => rfl⟩
  intro _ p e h
  cases h

theorem Arranged.inBounds_iff (h : s.Arranged types) (id : MiniId) (p : Nat) :
    (types id).inBounds id (s.mini id) s.env p = true ↔
      (s.mini id).isHeapActivated = true ∧ ∃ j, (s.layout types id).InBlock j p := by
  constructor
  · intro hin
    rw [MiniHeapType.inBounds] at hin
    by_cases hd : b.dieHarderOn = true
    · rw [if_pos hd, MiniHeapType.RandomMiniHeapDieHarder.inBounds, Bool.and_eq_true,
        decide_eq_true_eq, Build.getHeap, Option.map_eq_some_iff] at hin
      obtain ⟨hact, e, he, rfl⟩ := hin
      exact ⟨hact, (h.entry hd p e he).2⟩
    · rw [if_neg hd] at hin
      simp only [MiniHeapType.RandomMiniHeapDieHard.inBounds, Bool.not_eq_true', Bool.or_eq_false_iff,
        decide_eq_false_iff_not, Nat.not_lt, Nat.not_le] at hin
      have hact : (s.mini id).isHeapActivated = true := by
        by_contra hno
        exact hin.2 (h.inactive id (by simpa using hno))
      refine ⟨hact, 0, ?_⟩
      simp only [Layout.InBlock, Layout.bytes, layout, MiniHeapType.layout, if_neg hd]
      exact ⟨Nat.one_pos, hin.1.1, hin.1.2⟩
  · rintro ⟨hact, j, hj⟩
    exact (h.laid id hact).inBounds hj

/-- What the invariant says about one active miniheap. -/
theorem Arranged.slotsInverse (h : s.Arranged types) {id : MiniId}
    (ha : (s.mini id).isHeapActivated = true) : s.SlotsInverse types id := by
  have hlaid := h.laid id ha
  have hslot {i : Nat} (hi : i < (types id).nObjects) : i < (s.layout types id).slots :=
    hi.trans_le ((types id).nObjects_le_slots _)
  have hobject {i : Nat} (hi : i < (types id).nObjects) :
      (types id).getObject (s.mini id) i = (s.layout types id).addr i := hlaid.getObject_eq (hslot hi)
  have hcontains {i o : Nat} (hi : i < (types id).nObjects) (ho : o < (types id).objectSize) :
      (s.layout types id).Contains i ((types id).getObject (s.mini id) i + o) := by
    rw [hobject hi]
    exact ⟨hslot hi, Nat.le_add_right _ _, Nat.add_lt_add_left ho _⟩
  constructor
  · intro i hi _ o ho
    exact hlaid.inBounds (hcontains hi ho).inBlock
  · intro i hi _ o ho id' hne
    rw [Bool.eq_false_iff]
    intro hin
    obtain ⟨ha', j, hj⟩ := (h.inBounds_iff id' _).mp hin
    exact hne (h.separate.block_unique ha' ha hj (hcontains hi ho).inBlock).1
  · intro i hi hlt o ho
    exact hlaid.computeIndex_eq (hcontains hi ho) hlt
  · intro i hi hlt o ho
    rw [hlaid.getSize_eq (hcontains hi ho) hlt, hobject hi]
    exact congrArg _ (Nat.add_sub_cancel_left _ _)
  · intro i hi _ k hk _ hne
    rw [hobject hi, hobject hk]
    exact h.separate.slots_apart ha ha (hslot hi) (hslot hk) fun he => hne (congrArg Prod.snd he)

section Activate

variable {T : MiniHeapType b} {id : MiniId} {source : Nat → Addr} {m : MiniHeap} {env : Env}

private theorem fresh_pages (hf : PagesFresh T id source m env)
    {j : Nat} (hj : j < MiniHeapType.RandomMiniHeapDieHarder.mapTurns T) {P : Nat}
    (hP : T.IsPageOf (source j) P) :
    env.pageTable P = none ∧ ∀ k < j, ¬ T.IsPageOf (source k) P := by
  obtain ⟨q, hq, rfl⟩ := hP
  have hnone := (hf j hj).2 q hq
  have hturns := (T.mapped_turns id source m env j).isSome (b.computePageNumber (source j + q * b.pageSize))
  rw [hnone] at hturns
  constructor
  · by_contra hsome
    exact absurd (hturns (Or.inr (Option.ne_none_iff_isSome.mp hsome))) (by simp)
  · intro k hk hpage
    exact absurd (hturns (Or.inl ⟨k, hk, hpage⟩)) (by simp)

private theorem offers_of_pages (hd : b.dieHarderOn = true) (hf : PagesFresh T id source m env) :
    T.Offers source := by
  have hcount : (T.sourceLayout source).count = MiniHeapType.RandomMiniHeapDieHarder.mapTurns T :=
    if_pos hd
  have hbase (j : Nat) : (T.sourceLayout source).base j = source j := if_pos hd
  have hbytes : (T.sourceLayout source).bytes = T.pagesPerObject * b.pageSize := T.layout_bytes hd _
  have hpos : 0 < (T.sourceLayout source).bytes := Nat.mul_pos (Layout.per_pos _) (Layout.size_pos _)
  -- of two answers the later one has none of the pages of the earlier one
  have hlater {j k : Nat} (hk : k < MiniHeapType.RandomMiniHeapDieHarder.mapTurns T) (hjk : j < k) :
      Apart (source j) (T.sourceLayout source).bytes (source k) (T.sourceLayout source).bytes := by
    by_contra hov
    obtain ⟨p, hp, hq⟩ := exists_common hpos hpos hov
    rw [hbytes] at hp hq
    have hpage := (MiniHeapType.isPageOf_iff (hf k hk).1 p).mpr hq
    exact (fresh_pages hf hk hpage).2 j hjk ((MiniHeapType.isPageOf_iff (hf j (hjk.trans hk)).1 p).mpr hp)
  constructor
  · intro j hj
    rw [hbase]
    exact (hf j (hcount ▸ hj)).1
  · intro hd'
    rw [hd] at hd'
    cases hd'
  · intro j hj k hk hne
    rw [hbase, hbase]
    rcases Nat.lt_or_gt_of_ne hne with hlt | hlt
    · exact hlater (hcount ▸ hk) hlt
    · exact (hlater (hcount ▸ hj) hlt).symm

private theorem offers_of_block (hd : b.dieHarderOn = false) (hne : source 0 ≠ 0)
    (hdvd : b.pageSize ∣ source 0) : T.Offers source := by
  have hcount : (T.sourceLayout source).count = 1 := by
    simp [MiniHeapType.sourceLayout, MiniHeapType.layout, hd]
  have hbase (j : Nat) : (T.sourceLayout source).base j = source 0 := by
    simp [MiniHeapType.sourceLayout, MiniHeapType.layout, hd]
  constructor
  · intro j _
    rwa [hbase]
  · exact fun _ => hne
  · intro j hj k hk hne'
    omega

/-- What a guarded activation does, and that its blocks meet no block of an active miniheap. -/
private theorem Arranged.activation (h : s.Arranged types) {r : MiniHeap × Env}
    (hf : s.fresh types (.activate id source)) (hm : (s.mini id).isHeapActivated = false)
    (ha : (types id).activate id source (s.mini id) s.env = some r) :
    (types id).Offers source ∧ (types id).Activation id source s.env r.1 r.2 ∧
      ∀ j p, ((types id).sourceLayout source).InBlock j p → ∀ id' k,
        (s.mini id').isHeapActivated = true → ¬ (s.layout types id').InBlock k p := by
  by_cases hd : b.dieHarderOn = true
  · rw [fresh, if_pos hd] at hf
    rw [MiniHeapType.activate, if_pos hd, MiniHeapType.RandomMiniHeapDieHarder.activate, hm,
      if_neg Bool.false_ne_true] at ha
    have ho := offers_of_pages hd hf
    refine ⟨ho, ?_, ?_⟩
    · split at ha
      · cases ha
        exact MiniHeapType.activate_dieHarder hd ho
      · cases ha
    · intro j p hj id' k ha' hk
      have hcount : j < MiniHeapType.RandomMiniHeapDieHarder.mapTurns (types id) := by
        have hlt := hj.1
        simpa only [MiniHeapType.sourceLayout, MiniHeapType.layout, if_pos hd] using hlt
      have hpage : (types id).IsPageOf (source j) (b.computePageNumber p) := by
        obtain ⟨-, hle, hlt⟩ := hj
        rw [MiniHeapType.sourceLayout, MiniHeapType.layout_bytes _ hd] at hlt
        simp only [MiniHeapType.sourceLayout, MiniHeapType.layout, if_pos hd] at hle hlt
        exact (MiniHeapType.isPageOf_iff (hf j hcount).1 p).mpr ⟨hle, hlt⟩
      have hnone := (fresh_pages hf hcount hpage).1
      rw [(h.laid id' ha').entry hd k p hk] at hnone
      cases hnone
  · have hd' : b.dieHarderOn = false := by simpa using hd
    rw [fresh, if_neg hd] at hf
    rw [MiniHeapType.activate, if_neg hd] at ha
    cases ha
    have ho : (types id).Offers source := offers_of_block hd' hf.1 hf.2.1
    refine ⟨ho, MiniHeapType.activate_dieHard hd' ho hm, ?_⟩
    intro j p hj id' k ha' hk
    have hapart := hf.2.2 _ (h.mapped hd' id' ha')
    simp only [MiniHeapType.sourceLayout, MiniHeapType.layout, Layout.InBlock, Layout.bytes,
      if_neg hd] at hj
    simp only [layout, MiniHeapType.layout, Layout.InBlock, Layout.bytes, if_neg hd] at hk
    rcases hapart with hlt | hlt <;> omega

/-- Activation on fresh blocks keeps the arrangement. -/
private theorem Arranged.activate (h : s.Arranged types) {r : MiniHeap × Env}
    (hf : s.fresh types (.activate id source)) (hm : (s.mini id).isHeapActivated = false)
    (ha : (types id).activate id source (s.mini id) s.env = some r) :
    Arranged types ⟨Function.update s.mini id r.1, r.2⟩ := by
  obtain ⟨ho, hact, hout⟩ := h.activation hf hm ha
  have hself : Function.update s.mini id r.1 id = r.1 := Function.update_self ..
  have hold {id' : MiniId} (hne : id' ≠ id) : Function.update s.mini id r.1 id' = s.mini id' :=
    Function.update_of_ne hne ..
  have hne {id' : MiniId} (ha' : (s.mini id').isHeapActivated = true) : id' ≠ id := by
    rintro rfl
    rw [hm] at ha'
    cases ha'
  -- the new blocks are those of the source
  have hnew {j p : Nat} (hj : ((types id).layout r.1).InBlock j p) :
      ((types id).sourceLayout source).InBlock j p := by
    obtain ⟨hcount, hle, hlt⟩ := hj
    rw [hact.base j hcount] at hle hlt
    exact ⟨hcount, hle, hlt⟩
  have hpos : 0 < ((types id).layout r.1).bytes := Nat.mul_pos (Layout.per_pos _) (Layout.size_pos _)
  have hmeet {id' : MiniId} (ha' : (s.mini id').isHeapActivated = true) {j k : Nat}
      (hj : j < ((types id).layout r.1).count) (hk : k < (s.layout types id').count) :
      Apart (((types id).layout r.1).base j) ((types id).layout r.1).bytes
        ((s.layout types id').base k) (s.layout types id').bytes := by
    by_contra hov
    obtain ⟨p, hp, hq⟩ := exists_common hpos (Nat.mul_pos (Layout.per_pos _) (Layout.size_pos _)) hov
    exact hout j p (hnew ⟨hj, hp⟩) id' k ha' ⟨hk, hq⟩
  constructor
  · intro id' ha'
    by_cases he : id' = id
    · subst he
      simp only [hself] at ha' ⊢
      refine ⟨ha', ?_, ?_, hact.entry⟩
      · intro j hj
        rw [hact.base j hj]
        exact ho.dvd j hj
      · intro hd
        have hbase := hact.base 0 (by simp [MiniHeapType.sourceLayout, MiniHeapType.layout, hd])
        simp only [MiniHeapType.sourceLayout, MiniHeapType.layout, hd, Bool.false_eq_true, if_false] at hbase
        rw [hbase]
        exact ho.ne_zero hd
    · simp only [hold he] at ha' ⊢
      have hlaid := h.laid id' ha'
      refine ⟨ha', hlaid.dvd, hlaid.ne_zero, ?_⟩
      intro hd j p hj
      rw [hact.other p fun k hk => hout k p (hnew hk) id' j ha' hj]
      exact hlaid.entry hd j p hj
  · intro x y j k hx hy hj hk hxy
    by_cases hxid : x = id
    · by_cases hyid : y = id
      · subst hxid hyid
        simp only [layout, hself] at hj hk ⊢
        rw [hact.base j hj, hact.base k hk]
        exact ho.apart j hj k hk fun he => hxy (by rw [he])
      · subst hxid
        simp only [layout, hself, hold hyid] at hy hj hk ⊢
        exact hmeet hy hj hk
    · by_cases hyid : y = id
      · subst hyid
        simp only [layout, hself, hold hxid] at hx hj hk ⊢
        exact (hmeet hx hk hj).symm
      · simp only [layout, hold hxid, hold hyid] at hx hy hj hk ⊢
        exact h.separate x y j k hx hy hj hk hxy
  · intro hd id' ha'
    rw [hact.mapped]
    by_cases he : id' = id
    · subst he
      have hbase := hact.base 0 (by simp [MiniHeapType.sourceLayout, MiniHeapType.layout, hd])
      refine Or.inl ⟨0, by simp [MiniHeapType.sourceLayout, MiniHeapType.layout, hd], ?_⟩
      simp only [hself]
      rw [← hbase]
      simp [MiniHeapType.sourceLayout, MiniHeapType.layout, Layout.bytes, hd]
    · simp only [hold he] at ha' ⊢
      exact Or.inr (h.mapped hd id' ha')
  · intro hd p e hentry
    by_cases hin : ∃ j, ((types id).layout r.1).InBlock j p
    · obtain ⟨j, hj⟩ := hin
      have he : r.2.pageTable (b.computePageNumber p) = _ := hact.entry hd j p hj
      obtain rfl := Option.some.inj (he.symm.trans hentry)
      simp only [layout, hself]
      exact ⟨hact.activated, j, hj⟩
    · have he : r.2.pageTable (b.computePageNumber p) = _ := hact.other p (not_exists.mp hin)
      obtain ⟨ha', j, hj⟩ := h.entry hd p e (he.symm.trans hentry)
      simp only [layout, hold (hne ha')]
      exact ⟨ha', j, hj⟩
  · intro id' ha'
    by_cases he : id' = id
    · subst he
      simp only [hself, hact.activated] at ha'
      cases ha'
    · simp only [hold he] at ha' ⊢
      exact h.inactive id' ha'

end Activate

/-- Bits, memory and reports have no part in the arrangement. -/
private theorem Arranged.use (h : s.Arranged types) (id : MiniId) (bitmap : BitMap)
    (mem : Addr → BitVec 8) (reports : List Report) :
    Arranged types ⟨Function.update s.mini id { s.mini id with miniHeapBitmap := bitmap },
      { s.env with mem := mem, reports := reports }⟩ := by
  have hmini (id' : MiniId) : ∃ bits, Function.update s.mini id { s.mini id with miniHeapBitmap := bitmap }
      id' = { s.mini id' with miniHeapBitmap := bits } := by
    by_cases he : id' = id
    · subst he
      exact ⟨bitmap, Function.update_self ..⟩
    · exact ⟨(s.mini id').miniHeapBitmap, Function.update_of_ne he ..⟩
  have hactive (id' : MiniId) : (Function.update s.mini id { s.mini id with miniHeapBitmap := bitmap }
      id').isHeapActivated = (s.mini id').isHeapActivated := by
    obtain ⟨bits, he⟩ := hmini id'
    rw [he]
  have hlayout (id' : MiniId) : (types id').layout (Function.update s.mini id
      { s.mini id with miniHeapBitmap := bitmap } id') = (types id').layout (s.mini id') := by
    obtain ⟨bits, he⟩ := hmini id'
    rw [he]
    rfl
  have hminiHeap (id' : MiniId) : (Function.update s.mini id { s.mini id with miniHeapBitmap := bitmap }
      id').miniHeap = (s.mini id').miniHeap := by
    obtain ⟨bits, he⟩ := hmini id'
    rw [he]
  constructor
  · intro id' ha
    have hlaid := h.laid id' ((hactive id').symm.trans ha)
    refine ⟨ha, ?_, ?_, ?_⟩
    · rw [hlayout]
      exact hlaid.dvd
    · rw [hminiHeap]
      exact hlaid.ne_zero
    · rw [hlayout]
      exact hlaid.entry
  · simp only [Separate, layout, hlayout, hactive]
    exact h.separate
  · simp only [hactive, hminiHeap]
    exact h.mapped
  · simp only [layout, hlayout, hactive]
    exact h.entry
  · simp only [hactive, hminiHeap]
    exact h.inactive

theorem Arranged.next {a : Action} (h : s.Arranged types) (hok : s.fresh types a)
    (hn : s.next types a = some s') : s'.Arranged types := by
  cases a with
  | activate id source =>
    obtain ⟨r, hr, rfl⟩ := Option.map_eq_some_iff.mp hn
    cases hm : (s.mini id).isHeapActivated with
    | false => exact h.activate hok hm hr
    | true =>
      -- a second activation does nothing
      have he : r = (s.mini id, s.env) := by
        rw [MiniHeapType.activate, MiniHeapType.RandomMiniHeapDieHarder.activate,
          MiniHeapType.RandomMiniHeapDieHard.activate] at hr
        simp only [hm, if_true, ite_self, Option.some.injEq] at hr
        exact hr.symm
      rw [he, Function.update_eq_self]
      exact h
  | use id bitmap mem reports =>
    cases hn
    exact h.use id bitmap mem reports

/-- After any run of activations, slots and addresses of every active miniheap are inverse to each
other. -/
theorem reach_slotsInverse {random : MiniId → BitVec 64} {mem : Addr → BitVec 8}
    {mapped : List (Addr × Nat)} (h : Transition.Reach (next types) (fresh types)
      (initial random mem mapped) s) {id : MiniId} (ha : (s.mini id).isHeapActivated = true) :
    s.SlotsInverse types id := by
  have harranged : s.Arranged types := by
    apply h.invariant (I := Arranged types)
    · exact arranged_initial random mem mapped
    · intro r a r' hi hok hn
      exact hi.next hok hn
  exact harranged.slotsInverse ha

def scattered : Build := ⟨4096, false, true, isPowerOfTwo_4096⟩

private theorem size_pos : 0 < 4096 := by decide

private theorem small_pos : 0 < 64 := by decide

def scatteredTypes (id : MiniId) : MiniHeapType scattered :=
  if id.cls = 0 then ⟨12288, 2, by decide, by decide, Or.inr (by decide)⟩
  else if id.cls = 1 then ⟨4096, 3, size_pos, by decide, Or.inr (by decide)⟩
  else ⟨64, 70, small_pos, by decide, Or.inl ⟨⟨6, rfl⟩, by decide⟩⟩

def scatteredRun : List Action :=
  [.activate ⟨0, 0, 0⟩ fun j => 4096 + 16384 * j, .activate ⟨0, 2, 0⟩ fun j => 65536 + 8192 * j,
    .activate ⟨0, 1, 0⟩ fun j => 131072 + 4096 * j]

def scatteredState : MiniHeaps :=
  Transition.final (next scatteredTypes) (initial (fun _ => 0) (fun _ => 0) []) scatteredRun

theorem slotsInverse_scattered : scatteredState.SlotsInverse scatteredTypes ⟨0, 2, 0⟩ := by
  have hrun : (Transition.run (next scatteredTypes) (initial (fun _ => 0) (fun _ => 0) [])
      scatteredRun).isSome = true ∧
      Transition.guardedBool (next scatteredTypes) (fresh scatteredTypes)
        (initial (fun _ => 0) (fun _ => 0) []) scatteredRun = true ∧
      (scatteredState.mini ⟨0, 2, 0⟩).isHeapActivated = true := by
    decide +kernel
  exact reach_slotsInverse (Transition.reach_final (Transition.guarded_of_bool hrun.2.1) hrun.1) hrun.2.2

end MiniHeaps

end DieHard
