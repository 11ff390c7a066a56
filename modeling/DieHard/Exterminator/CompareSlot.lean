import DieHard.Exterminator.PartitionBounds

/-!
# Comparing the copies of an object

`compare_slot` compares the first copy of an object with the other ones until a status is not OK. A copy has
the status of its last word that is not accepted. The assignment by which a dead object may point to
different objects is written as a comparison, so that this status is returned.
-/

namespace DieHard.Exterminator

/-- `ALLOC_ONLY_ONE` -/
def allocOnlyOne : Nat := statusOk + 3

/-- `DNE` -/
def dne : Nat := statusOk + 4

/-- `CALLSITE_MISMATCH` -/
def callsiteMismatch : Nat := statusOk + 5

/-- `DIEHARD_DIEFAST_FLAG` -/
def dieFastFlag : Word := 1

namespace PinfoPtr

variable (p : PinfoPtr)

/-- `IDtoAllocSite(idx)` -/
def idToAllocSite (idx : Word) : Option Word :=
  (p.pmap idx).map fun dx => (p.info.slotInfo.getD dx ⟨0, 0, 0, 0⟩).allocCallsite

/-- `isDieFast()` of the replica -/
def isDieFast : Bool := p.rep.file.heapConfigFlags &&& dieFastFlag ≠ 0

/-- The tests with which the second loop of `compare_slot` leaves out a replica. -/
def skipped (oid : Word) : Option Bool :=
  if p.rep.file.globalAllocs ≤ oid then some true
  else do
    let dx ← p.idToDx oid
    if dx < 0 then some true
    else do
      let allocated ← p.idAllocated oid
      some (!allocated && p.isDieFast && p.checkSentinel dx)

end PinfoPtr

/-- The loop of `compare_range` over the statuses of the words. -/
def rangeStatus (words : Nat → Option Nat) (numWords : Nat) : Option Nat :=
  (List.range numWords).foldlM (fun st i => (words i).map fun tmp => if tmp ≠ statusOk then tmp else st) statusOk

/-- `compare_range(v1, v2, p1, p2, num_words, allocated)` -/
def compareRange (p₁ p₂ : PinfoPtr) (v₁ v₂ numWords : Nat) (allocated : Bool) : Option Nat :=
  rangeStatus (fun i => compareWords p₁ p₂ (v₁ + i) (v₂ + i) allocated) numWords

/-- How two ranges of words are compared, as `compare_range` does it. -/
abbrev RangeComparison := PinfoPtr → PinfoPtr → Nat → Nat → Nat → Bool → Option Nat

/-- The first loop of `compare_slot`: the first replica that is not left out, and those behind it. -/
def firstComparable (oid : Word) : List PinfoPtr → Option (Option (PinfoPtr × List PinfoPtr))
  | [] => some none
  | p :: ps => do
    if ← p.leftOut oid then firstComparable oid ps else some (some (p, ps))

/-- The second loop of `compare_slot`. Where the object is not allocated, the source compares a status
PTR_DIFF_ID once more with OK, which has no effect. -/
def compareRest (compare : RangeComparison) (p₀ : PinfoPtr) (oid a₀ : Word) (allocated : Bool) :
    List PinfoPtr → Option Nat
  | [] => some statusOk
  | p :: ps => do
    if ← p.skipped oid then compareRest compare p₀ oid a₀ allocated ps
    else if (← p.idToAllocSite oid) ≠ a₀ then some callsiteMismatch
    else do
      let v₀ ← (p₀.idToPointer oid).join
      let v ← (p.idToPointer oid).join
      let st ← compare p₀ p v₀ v p₀.info.sizeInWords.toNat allocated
      if st ≠ statusOk then some st else compareRest compare p₀ oid a₀ allocated ps

/-- `compare_slot` with a comparison of ranges; the answer is `none` where an assertion fails. -/
def compareSlotWith (compare : RangeComparison) (partitions : List PinfoPtr) (oid : Word) : Option Nat :=
  if 0 < oid.toInt then do
    match ← firstComparable oid partitions with
    | none => some dne
    | some (p₀, rest) => do
      let a₀ ← p₀.idToAllocSite oid
      if rest.isEmpty then some allocOnlyOne
      else do
        let allocated ← p₀.idAllocated oid
        compareRest compare p₀ oid a₀ allocated rest
  else none

/-- `compare_slot(partitions, oid)` -/
def compareSlot (partitions : List PinfoPtr) (oid : Word) : Option Nat :=
  compareSlotWith compareRange partitions oid

def tolerate (allocated : Bool) (st : Nat) : Nat := if !allocated && st = ptrDiffId then statusOk else st

/-- `compare_range` where each PTR_DIFF_ID of a word of a dead object is made OK. -/
def tolerantRange (p₁ p₂ : PinfoPtr) (v₁ v₂ numWords : Nat) (allocated : Bool) : Option Nat :=
  rangeStatus (fun i => (compareWords p₁ p₂ (v₁ + i) (v₂ + i) allocated).map (tolerate allocated)) numWords

/-- `compare_slot` where each PTR_DIFF_ID of a word of a dead object is made OK. -/
def tolerantSlot (partitions : List PinfoPtr) (oid : Word) : Option Nat :=
  compareSlotWith tolerantRange partitions oid

section Range

variable {words : Nat → Option Nat} {n st : Nat}

theorem rangeStatus_succ (words : Nat → Option Nat) (n : Nat) : rangeStatus words (n + 1) =
    (rangeStatus words n).bind fun st => (words n).map fun tmp => if tmp ≠ statusOk then tmp else st := by
  simp [rangeStatus, List.range_succ, List.foldlM_append]

theorem rangeStatus_succ_of_ok (h : words n = some statusOk) :
    rangeStatus words (n + 1) = rangeStatus words n := by
  rw [rangeStatus_succ, h]
  simp

theorem rangeStatus_succ_of_ne (h : words n = some st) (hst : st ≠ statusOk) :
    rangeStatus words (n + 1) = (rangeStatus words n).map fun _ => st := by
  rw [rangeStatus_succ, h]
  cases rangeStatus words n <;> simp [hst]

theorem rangeStatus_succ_of_none (h : words n = none) : rangeStatus words (n + 1) = none := by
  rw [rangeStatus_succ, h]
  simp

theorem rangeStatus_isSome_iff : (rangeStatus words n).isSome ↔ ∀ k < n, (words k).isSome := by
  induction n with
  | zero => simp [rangeStatus]
  | succ n ih =>
    rw [rangeStatus_succ, Nat.forall_lt_succ_right, ← ih]
    cases rangeStatus words n <;> simp

theorem rangeStatus_ok_iff : rangeStatus words n = some statusOk ↔ ∀ k < n, words k = some statusOk := by
  induction n with
  | zero => simp [rangeStatus]
  | succ n ih =>
    rw [Nat.forall_lt_succ_right, ← ih]
    cases htmp : words n with
    | none => simp [rangeStatus_succ_of_none htmp]
    | some tmp =>
      by_cases h : tmp = statusOk
      · subst h
        simp [rangeStatus_succ_of_ok htmp]
      · simp [rangeStatus_succ_of_ne htmp h, h]

/-- Another status is that of the last word that is not OK. -/
theorem rangeStatus_eq_some_iff (hst : st ≠ statusOk) : rangeStatus words n = some st ↔
    (∀ k < n, (words k).isSome) ∧ ∃ i < n, words i = some st ∧ ∀ k, i < k → k < n → words k = some statusOk := by
  induction n with
  | zero => simp [rangeStatus, hst.symm]
  | succ n ih =>
    rw [Nat.forall_lt_succ_right]
    cases htmp : words n with
    | none => simp [rangeStatus_succ_of_none htmp]
    | some tmp =>
      rw [and_iff_left (Option.isSome_some)]
      by_cases h : tmp = statusOk
      · -- the word is OK, so that the range has the status from before
        subst h
        rw [rangeStatus_succ_of_ok htmp, ih]
        apply and_congr_right
        intro _
        constructor
        · intro ⟨i, hi, hword, hafter⟩
          refine ⟨i, Nat.lt_succ_of_lt hi, hword, ?_⟩
          intro k hik hk
          rcases Nat.lt_succ_iff_lt_or_eq.mp hk with hk | hk
          · exact hafter k hik hk
          · rw [hk, htmp]
        · intro ⟨i, hi, hword, hafter⟩
          rcases Nat.lt_succ_iff_lt_or_eq.mp hi with hi | hi
          · exact ⟨i, hi, hword, fun k hik hk => hafter k hik (Nat.lt_succ_of_lt hk)⟩
          · rw [hi, htmp] at hword
            exact absurd (Option.some.inj hword).symm hst
      · rw [rangeStatus_succ_of_ne htmp h, ← rangeStatus_isSome_iff]
        constructor
        · intro hsome
          obtain ⟨prev, hprev, heq⟩ := Option.map_eq_some_iff.mp hsome
          refine ⟨by simp [hprev], n, Nat.lt_succ_self n, by rw [htmp, heq], ?_⟩
          intro k hik hk
          omega
        · intro ⟨hprev, i, hi, hword, hafter⟩
          obtain ⟨prev, hprev⟩ := Option.isSome_iff_exists.mp hprev
          rcases Nat.lt_succ_iff_lt_or_eq.mp hi with hi | hi
          · have hn := hafter n hi (Nat.lt_succ_self n)
            exact absurd (Option.some.inj (htmp.symm.trans hn)) h
          · rw [hi, htmp] at hword
            rw [hprev, Option.map_some, hword]

theorem isSome_rangeStatus_map (f : Nat → Nat) :
    (rangeStatus (fun i => (words i).map f) n).isSome ↔ (rangeStatus words n).isSome := by
  rw [rangeStatus_isSome_iff, rangeStatus_isSome_iff]
  simp only [Option.isSome_map]

/-- Where a status is not the outcome, it does not matter what its words are taken for. -/
theorem rangeStatus_map {f : Nat → Nat} {bad : Nat} (hbad : bad ≠ statusOk) (hf : ∀ st, st ≠ bad → f st = st)
    (hne : rangeStatus words n ≠ some bad) :
    rangeStatus (fun i => (words i).map f) n = rangeStatus words n := by
  induction n with
  | zero => rfl
  | succ n ih =>
    cases htmp : words n with
    | none => rw [rangeStatus_succ_of_none htmp, rangeStatus_succ_of_none (by rw [htmp]; rfl)]
    | some tmp =>
      by_cases h : tmp = statusOk
      · subst h
        rw [rangeStatus_succ_of_ok htmp] at hne ⊢
        rw [rangeStatus_succ_of_ok (by rw [htmp, Option.map_some, hf _ hbad.symm])]
        exact ih hne
      · rw [rangeStatus_succ_of_ne htmp h] at hne ⊢
        have hsome : (rangeStatus (fun i => (words i).map f) n).isSome ↔ (rangeStatus words n).isSome :=
          isSome_rangeStatus_map f
        cases hst : rangeStatus words n with
        | none =>
          rw [hst] at hsome
          have hnone : rangeStatus (fun i => (words i).map f) n = none := by simpa using hsome
          rw [rangeStatus_succ, hnone]
          rfl
        | some st =>
          rw [hst] at hsome hne
          have htmp' : tmp ≠ bad := fun heq => hne (by rw [heq]; rfl)
          obtain ⟨st', hst'⟩ := Option.isSome_iff_exists.mp (hsome.mpr rfl)
          rw [rangeStatus_succ_of_ne (by rw [htmp, Option.map_some, hf tmp htmp']) h, hst']
          rfl

end Range

/-- The words are pointers to different allocations, at different distances from the words but at the same
place in an object. -/
def PointsElsewhere (p₁ p₂ : PinfoPtr) (v₁ v₂ : Nat) (allocated : Bool) : Prop :=
  let w₁ := p₁.load v₁
  let w₂ := p₂.load v₂
  let d₁ := p₁.rep.allocDesc w₁
  let d₂ := p₂.rep.allocDesc w₂
  w₁ ≠ w₂ ∧ (!allocated && p₁.isSentinel v₁ && p₂.isSentinel v₂) = false ∧
    (p₁.rep.validPointer w₁ && p₂.rep.validPointer w₂) = true ∧ ¬ (d₁ = d₂ ∧ 0 < d₁.2) ∧
    ∃ va₁ va₂ q, p₁.rep.pointerToVA d₁.1 (p₁.address v₁) = some va₁ ∧
      p₂.rep.pointerToVA d₂.1 (p₂.address v₂) = some va₂ ∧ p₁.rep.partition d₁.1 = some q ∧
      va₁ - w₁ ≠ va₂ - w₂ ∧ d₁.2 ≠ 0 ∧ d₂.2 ≠ 0 ∧ w₁ &&& (q.size - 1) = w₂ &&& (q.size - 1)

theorem statusOk_ne_ptrDiffId : statusOk ≠ ptrDiffId := Nat.ne_of_lt (Nat.lt_succ_self _)

theorem equalBytes_ne_ptrDiffId (w₁ w₂ : Word) : equalBytes w₁ w₂ ≠ ptrDiffId := by
  have hbit : ∀ k, (decide (byteAt w₁ k = byteAt w₂ k)).toNat ≤ 1 := fun k => Bool.toNat_le _
  have h₀ := hbit 0
  have h₁ := hbit 1
  have h₂ := hbit 2
  have h₃ := hbit 3
  simp only [equalBytes, List.foldl_cons, List.foldl_nil, ptrDiffId, statusOk]
  omega

variable {p₀ p p₁ p₂ : PinfoPtr} {v₀ v v₁ v₂ : Nat} {allocated : Bool} {oid a₀ : Word}

theorem comparePointers_eq_ptrDiffId_iff : comparePointers p₁ p₂ v₁ v₂ allocated = some ptrDiffId ↔
    ¬ (p₁.rep.allocDesc (p₁.load v₁) = p₂.rep.allocDesc (p₂.load v₂) ∧
      0 < (p₁.rep.allocDesc (p₁.load v₁)).2) ∧
    ∃ va₁ va₂ q, p₁.rep.pointerToVA (p₁.rep.allocDesc (p₁.load v₁)).1 (p₁.address v₁) = some va₁ ∧
      p₂.rep.pointerToVA (p₂.rep.allocDesc (p₂.load v₂)).1 (p₂.address v₂) = some va₂ ∧
      p₁.rep.partition (p₁.rep.allocDesc (p₁.load v₁)).1 = some q ∧
      va₁ - p₁.load v₁ ≠ va₂ - p₂.load v₂ ∧ (p₁.rep.allocDesc (p₁.load v₁)).2 ≠ 0 ∧
      (p₂.rep.allocDesc (p₂.load v₂)).2 ≠ 0 ∧
      p₁.load v₁ &&& (q.size - 1) = p₂.load v₂ &&& (q.size - 1) := by
  by_cases hsame : SameObject p₁ p₂ v₁ v₂
  · rw [comparePointers_of_sameObject hsame]
    apply iff_of_false
    · split <;> simp [statusOk_ne_ptrDiffId]
    · intro h
      exact h.1 hsame
  · rw [comparePointers_of_not hsame]
    refine Iff.trans ?_ (and_iff_right hsame).symm
    generalize p₁.rep.allocDesc (p₁.load v₁) = d₁
    generalize p₂.rep.allocDesc (p₂.load v₂) = d₂
    cases p₁.rep.pointerToVA d₁.1 (p₁.address v₁) with
    | none => simp
    | some va₁ =>
      cases p₂.rep.pointerToVA d₂.1 (p₂.address v₂) with
      | none => simp
      | some va₂ =>
        cases p₁.rep.partition d₁.1 with
        | none => simp
        | some q =>
          by_cases hplace : va₁ - p₁.load v₁ = va₂ - p₂.load v₂
          · simp [hplace, ptrDiffId]
          · have hbytes := equalBytes_ne_ptrDiffId (p₁.load v₁) (p₂.load v₂)
            simp [hplace, hbytes]

theorem compareWords_eq_ptrDiffId_iff :
    compareWords p₁ p₂ v₁ v₂ allocated = some ptrDiffId ↔ PointsElsewhere p₁ p₂ v₁ v₂ allocated := by
  have hok := statusOk_ne_ptrDiffId
  rw [compareWords, PointsElsewhere]
  by_cases heq : p₁.load v₁ = p₂.load v₂
  · simp [heq, hok]
  by_cases hsentinel : (!allocated && p₁.isSentinel v₁ && p₂.isSentinel v₂) = true
  · simp [hsentinel, heq, hok]
  rw [if_neg heq, if_neg hsentinel, and_iff_right heq, and_iff_right (Bool.eq_false_iff.mpr hsentinel)]
  by_cases hvalid : (p₁.rep.validPointer (p₁.load v₁) && p₂.rep.validPointer (p₂.load v₂)) = true
  · rw [if_pos hvalid, and_iff_right hvalid]
    exact comparePointers_eq_ptrDiffId_iff
  · rw [if_neg hvalid]
    have hbytes := equalBytes_ne_ptrDiffId (p₁.load v₁) (p₂.load v₂)
    split <;> simp [hvalid, hok, hbytes]

/-- `compare_slot` compares the words from `v₀` in the first copy with those from `v` in another one. -/
structure Compares (p₀ p : PinfoPtr) (oid : Word) (v₀ v : Nat) : Prop where
  kept : p.skipped oid = some false
  site : p.idToAllocSite oid = p₀.idToAllocSite oid
  first : p₀.idToPointer oid = some (some v₀)
  other : p.idToPointer oid = some (some v)

def Passes (p₀ : PinfoPtr) (oid : Word) (p : PinfoPtr) : Prop :=
  p.skipped oid = some true ∨ ∃ v₀ v, Compares p₀ p oid v₀ v ∧
    ∀ k < p₀.info.sizeInWords.toNat, compareWords p₀ p (v₀ + k) (v + k) false = some statusOk

/-- The last word of the copy that is not accepted points to another object than the first copy. -/
def EndsElsewhere (p₀ : PinfoPtr) (oid : Word) (p : PinfoPtr) : Prop :=
  ∃ v₀ v, Compares p₀ p oid v₀ v ∧
    (∀ k < p₀.info.sizeInWords.toNat, (compareWords p₀ p (v₀ + k) (v + k) false).isSome) ∧
    ∃ i < p₀.info.sizeInWords.toNat, PointsElsewhere p₀ p (v₀ + i) (v + i) false ∧
      ∀ k, i < k → k < p₀.info.sizeInWords.toNat →
        compareWords p₀ p (v₀ + k) (v + k) false = some statusOk

def MeetsElsewhere (p₀ : PinfoPtr) (oid : Word) (rest : List PinfoPtr) : Prop :=
  ∃ before p behind, rest = before ++ p :: behind ∧ (∀ q ∈ before, Passes p₀ oid q) ∧ EndsElsewhere p₀ oid p

theorem not_meetsElsewhere_nil : ¬ MeetsElsewhere p₀ oid [] := by
  intro ⟨before, p, behind, heq, _⟩
  simp at heq

theorem meetsElsewhere_cons {ps : List PinfoPtr} : MeetsElsewhere p₀ oid (p :: ps) ↔
    EndsElsewhere p₀ oid p ∨ Passes p₀ oid p ∧ MeetsElsewhere p₀ oid ps := by
  constructor
  · intro ⟨before, q, behind, heq, hbefore, hends⟩
    cases before with
    | nil =>
      rw [List.nil_append, List.cons.injEq] at heq
      exact Or.inl (heq.1 ▸ hends)
    | cons b before =>
      rw [List.cons_append, List.cons.injEq] at heq
      rw [List.forall_mem_cons] at hbefore
      exact Or.inr ⟨heq.1 ▸ hbefore.1, before, q, behind, heq.2, hbefore.2, hends⟩
  · intro h
    rcases h with hends | ⟨hpasses, before, q, behind, heq, hbefore, hends⟩
    · exact ⟨[], p, ps, rfl, by simp, hends⟩
    · exact ⟨p :: before, q, behind, by rw [heq]; rfl, List.forall_mem_cons.mpr ⟨hpasses, hbefore⟩, hends⟩

theorem Compares.unique {v₀' v' : Nat} (h : Compares p₀ p oid v₀ v) (h' : Compares p₀ p oid v₀' v') :
    v₀' = v₀ ∧ v' = v := by
  have hfirst := h'.first.symm.trans h.first
  have hother := h'.other.symm.trans h.other
  simp only [Option.some.injEq] at hfirst hother
  exact ⟨hfirst, hother⟩

theorem Compares.passes_iff (h : Compares p₀ p oid v₀ v) :
    Passes p₀ oid p ↔ compareRange p₀ p v₀ v p₀.info.sizeInWords.toNat false = some statusOk := by
  rw [compareRange, rangeStatus_ok_iff, Passes, h.kept]
  constructor
  · intro hp
    rcases hp with hskip | ⟨v₀', v', h', hall⟩
    · cases hskip
    · obtain ⟨rfl, rfl⟩ := h.unique h'
      exact hall
  · intro hall
    exact Or.inr ⟨v₀, v, h, hall⟩

theorem Compares.ends_iff (h : Compares p₀ p oid v₀ v) :
    EndsElsewhere p₀ oid p ↔ compareRange p₀ p v₀ v p₀.info.sizeInWords.toNat false = some ptrDiffId := by
  rw [compareRange, rangeStatus_eq_some_iff statusOk_ne_ptrDiffId.symm, EndsElsewhere]
  simp only [compareWords_eq_ptrDiffId_iff]
  constructor
  · intro ⟨v₀', v', h', hends⟩
    obtain ⟨rfl, rfl⟩ := h.unique h'
    exact hends
  · intro hends
    exact ⟨v₀, v, h, hends⟩

theorem tolerantRange_eq {n : Nat} (h : compareRange p₀ p v₀ v n allocated ≠ some ptrDiffId) :
    tolerantRange p₀ p v₀ v n allocated = compareRange p₀ p v₀ v n allocated := by
  apply rangeStatus_map statusOk_ne_ptrDiffId.symm _ h
  intro st hst
  simp [tolerate, hst]

section Rest

variable {ps : List PinfoPtr} {compare : RangeComparison}

theorem compareRest_of_skipped (h : p.skipped oid = some true) :
    compareRest compare p₀ oid a₀ allocated (p :: ps) = compareRest compare p₀ oid a₀ allocated ps := by
  simp [compareRest, h]

theorem compareRest_of_compares (hsite : p₀.idToAllocSite oid = some a₀) (h : Compares p₀ p oid v₀ v) :
    compareRest compare p₀ oid a₀ allocated (p :: ps) =
      (compare p₀ p v₀ v p₀.info.sizeInWords.toNat allocated).bind fun st =>
        if st ≠ statusOk then some st else compareRest compare p₀ oid a₀ allocated ps := by
  simp [compareRest, h.kept, h.site, hsite, h.first, h.other]

theorem compareRest_of_not (hsite : p₀.idToAllocSite oid = some a₀) (hkept : p.skipped oid ≠ some true)
    (h : ∀ v₀ v, ¬ Compares p₀ p oid v₀ v) : ∃ answer, answer ≠ some ptrDiffId ∧
      ∀ compare, compareRest compare p₀ oid a₀ allocated (p :: ps) = answer := by
  cases hskip : p.skipped oid with
  | none => exact ⟨none, by simp, fun compare => by simp [compareRest, hskip]⟩
  | some skip =>
    cases skip with
    | true => exact absurd hskip hkept
    | false =>
      cases hother : p.idToAllocSite oid with
      | none => exact ⟨none, by simp, fun compare => by simp [compareRest, hskip, hother]⟩
      | some site =>
        by_cases heq : site = a₀
        · cases hfirst : (p₀.idToPointer oid).join with
          | none => exact ⟨none, by simp, fun compare => by simp [compareRest, hskip, hother, heq, hfirst]⟩
          | some v₀ =>
            cases hv : (p.idToPointer oid).join with
            | none => exact ⟨none, by simp, fun compare => by simp [compareRest, hskip, hother, heq, hfirst, hv]⟩
            | some v =>
              rw [Option.join_eq_some_iff] at hfirst hv
              exact absurd ⟨hskip, by rw [hother, hsite, heq], hfirst, hv⟩ (h v₀ v)
        · exact ⟨some callsiteMismatch, by simp [callsiteMismatch, ptrDiffId],
            fun compare => by simp [compareRest, hskip, hother, heq]⟩

/-- The loop has the status that it would have with tolerance, and not PTR_DIFF_ID. -/
theorem compareRest_dead_iff (hsite : p₀.idToAllocSite oid = some a₀) (rest : List PinfoPtr) :
    (compareRest compareRange p₀ oid a₀ false rest ≠ some ptrDiffId ∧
      compareRest compareRange p₀ oid a₀ false rest = compareRest tolerantRange p₀ oid a₀ false rest) ↔
      ¬ MeetsElsewhere p₀ oid rest := by
  induction rest with
  | nil => exact iff_of_true ⟨by simp [compareRest, ptrDiffId], rfl⟩ not_meetsElsewhere_nil
  | cons p ps ih =>
    rw [meetsElsewhere_cons]
    by_cases hskip : p.skipped oid = some true
    · -- the replica is left out
      have hpasses : Passes p₀ oid p := Or.inl hskip
      have hends : ¬ EndsElsewhere p₀ oid p := by
        intro ⟨v₀, v, h, _⟩
        cases hskip.symm.trans h.kept
      rw [compareRest_of_skipped hskip, compareRest_of_skipped hskip, or_iff_right hends,
        and_iff_right hpasses]
      exact ih
    by_cases hcompares : ∃ v₀ v, Compares p₀ p oid v₀ v
    · obtain ⟨v₀, v, h⟩ := hcompares
      rw [compareRest_of_compares hsite h, compareRest_of_compares hsite h, h.ends_iff, h.passes_iff]
      by_cases hptr : compareRange p₀ p v₀ v p₀.info.sizeInWords.toNat false = some ptrDiffId
      · -- PTR_DIFF_ID is returned
        rw [hptr]
        apply iff_of_false
        · intro hagree
          exact hagree.1 (by simp [statusOk_ne_ptrDiffId.symm])
        · exact not_not.mpr (Or.inl rfl)
      · rw [tolerantRange_eq hptr, or_iff_right hptr]
        cases hst : compareRange p₀ p v₀ v p₀.info.sizeInWords.toNat false with
        | none => simp
        | some st =>
          by_cases hok : st = statusOk
          · subst hok
            simpa using ih
          · rw [hst] at hptr
            simp [hok, hptr]
    · -- the replicas behind are not reached
      have hnone : ∀ v₀ v, ¬ Compares p₀ p oid v₀ v := fun v₀ v h => hcompares ⟨v₀, v, h⟩
      obtain ⟨answer, hanswer, hall⟩ : ∃ answer, answer ≠ some ptrDiffId ∧
          ∀ compare, compareRest compare p₀ oid a₀ false (p :: ps) = answer :=
        compareRest_of_not hsite hskip hnone
      rw [hall, hall]
      apply iff_of_true ⟨hanswer, rfl⟩
      intro hmeets
      rcases hmeets with ⟨v₀, v, h, -⟩ | ⟨hskipped | ⟨v₀, v, h, -⟩, -⟩
      · exact hnone v₀ v h
      · exact hskip hskipped
      · exact hnone v₀ v h

end Rest

theorem exists_idToAllocSite {b : Bool} (h : p₀.idAllocated oid = some b) :
    ∃ a₀, p₀.idToAllocSite oid = some a₀ := by
  obtain ⟨dx, hdx, -⟩ := Option.bind_eq_some_iff.mp h
  rw [PinfoPtr.idToDx] at hdx
  split at hdx
  case isTrue =>
    obtain ⟨j, hj, -⟩ := Option.map_eq_some_iff.mp hdx
    rw [PinfoPtr.idToAllocSite, hj]
    exact ⟨_, rfl⟩
  case isFalse => cases hdx

/-- For an object that is dead in the first comparable replica, the status is not PTR_DIFF_ID and is the one
with tolerance, unless a copy ends with a pointer to another object behind copies that pass. -/
theorem compareSlot_dead_iff (partitions : List PinfoPtr) (oid : Word) (p₀ : PinfoPtr) (rest : List PinfoPtr)
    (hoid : 0 < oid.toInt) (hfirst : firstComparable oid partitions = some (some (p₀, rest)))
    (hdead : p₀.idAllocated oid = some false) :
    (compareSlot partitions oid ≠ some ptrDiffId ∧ compareSlot partitions oid = tolerantSlot partitions oid) ↔
      ¬ MeetsElsewhere p₀ oid rest := by
  obtain ⟨a₀, hsite⟩ := exists_idToAllocSite hdead
  rw [← compareRest_dead_iff hsite, compareSlot, tolerantSlot]
  simp only [compareSlotWith, hoid, if_true, hfirst, hsite, hdead, Option.bind_eq_bind, Option.bind_some]
  cases rest with
  | nil => simp [compareRest, allocOnlyOne, ptrDiffId, statusOk]
  | cons p ps => simp

/-- A core file with one partition of 32 slots of 8 bytes, the first three of which have been allocated.
Allocation 1 has been freed with data, and its words are `w` and `w'`. -/
def deadCore (w w' : Word) : List Byte :=
  ([4, 0x9efbdbb3#32, 0xb0000000#32, 0xbf000000#32, 0, 1, 8, 32, 0x40000000#32, 6, 1, 1, 0, 0, 0, 2, 0, 0, 0,
    3, 0, 0, 0] ++ List.replicate 116 0 ++ w :: w' :: List.replicate 62 0x9efbdbb3#32 ++ [0]).flatMap bytes

def deadPartition (w w' : Word) : Pinfo :=
  ⟨8, 2, 32, 0x40000000#32, 0x40000100#32, [6], [1],
    ⟨1, 0, 0, 0⟩ :: ⟨2, 0, 0, 0⟩ :: ⟨3, 0, 0, 0⟩ :: List.replicate 29 ⟨0, 0, 0, 0⟩,
    w :: w' :: List.replicate 62 0x9efbdbb3#32⟩

def deadReplica (w w' : Word) : LoadedReplica where
  file := ⟨4, 0x9efbdbb3#32, 0xb0000000#32, 0xbf000000#32, 0, [deadPartition w w'], fun _ => none, fun _ => none⟩
  pmap := fill (slotEntries [deadPartition w w'] 0) fun _ => none
  losKeys := []
  mem_losKeys := by simp

def deadPair (w w' : Word) : PinfoPtr :=
  ⟨deadReplica w w', 0, deadPartition w w', rfl, PinfoPtr.two_eq_eight_div⟩

abbrev dead (w : Word) : PinfoPtr := deadPair w 0x9efbdbb3#32

set_option maxRecDepth 10000 in
theorem readCore_dead {w : Word} (hw : w = 0x40000008#32 ∨ w = 0x40000010#32) :
    readCore (deadCore w 0x9efbdbb3#32) =
      some ((dead w).rep.file, (dead w).rep.pmap) := by
  rw [readCore, deadCore, words_bytes]
  rcases hw with rfl | rfl
  · rfl
  · rfl

theorem not_meetsElsewhere_dead :
    ¬ MeetsElsewhere (dead 0x40000008#32) 1 [deadPair 0x40000010#32 5] :=
  (compareSlot_dead_iff [dead 0x40000008#32, deadPair 0x40000010#32 5] 1 _ _ (by decide) rfl
    (by decide)).mp ⟨by decide, by decide⟩

theorem compareSlot_dead : compareSlot [dead 0x40000008#32, dead 0x40000010#32] 1 = some ptrDiffId := by
  decide

theorem compareSlot_dead_ptrDiffId : ¬ ∀ (partitions : List PinfoPtr) (oid : Word) (p₀ : PinfoPtr)
    (rest : List PinfoPtr), (∀ p ∈ partitions, ∃ core, readCore core = some (p.rep.file, p.rep.pmap)) →
      0 < oid.toInt → firstComparable oid partitions = some (some (p₀, rest)) →
      p₀.idAllocated oid = some false → compareSlot partitions oid ≠ some ptrDiffId ∧
        compareSlot partitions oid = tolerantSlot partitions oid := by
  intro h
  have hread : ∀ p ∈ [dead 0x40000008#32, dead 0x40000010#32],
      ∃ core, readCore core = some (p.rep.file, p.rep.pmap) := by
    simp only [List.forall_mem_cons]
    exact ⟨⟨_, readCore_dead (Or.inl rfl)⟩, ⟨_, readCore_dead (Or.inr rfl)⟩, List.forall_mem_nil _⟩
  have hagree := h _ 1 (dead 0x40000008#32) [dead 0x40000010#32] hread (by decide) rfl (by decide)
  exact hagree.1 compareSlot_dead

end DieHard.Exterminator
