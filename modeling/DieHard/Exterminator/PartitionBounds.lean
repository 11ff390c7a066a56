import DieHard.Exterminator.IdLookup

/-!
# The partitions that a comparison looks into

`alloc_desc` gives a large object the number behind the last partition. `compare_words` takes this number
for that of a partition unless it is 12 and both words point to the same place.
-/

namespace DieHard.Exterminator

/-- A partition of a replica, by its number. -/
structure PartitionUse where
  rep : LoadedReplica
  number : Int

def PartitionUse.Exists (u : PartitionUse) : Prop :=
  0 ≤ u.number ∧ u.number < u.rep.file.partitions.length

instance (u : PartitionUse) : Decidable u.Exists := inferInstanceAs (Decidable (_ ∧ _))

/-- The partitions that `compare_words(v1, v2, p1, p2, allocated)` looks into. -/
def usedPartitions (p₁ p₂ : PinfoPtr) (v₁ v₂ : Nat) (allocated : Bool) : List PartitionUse :=
  let w₁ := p₁.load v₁
  let w₂ := p₂.load v₂
  let d₁ := p₁.rep.allocDesc w₁
  let d₂ := p₂.rep.allocDesc w₂
  if w₁ = w₂ then []
  else if !allocated && p₁.isSentinel v₁ && p₂.isSentinel v₂ then []
  else if p₁.rep.validPointer w₁ && p₂.rep.validPointer w₂ then
    if d₁ = d₂ ∧ 0 < d₁.2 then
      -- large objects
      if d₁.1 = 12 then [] else [⟨p₁.rep, d₁.1⟩, ⟨p₂.rep, d₂.1⟩]
    else [⟨p₁.rep, d₁.1⟩, ⟨p₂.rep, d₂.1⟩]
  else []

namespace LoadedReplica

def inPartition (r : LoadedReplica) (val : Word) : Bool := r.file.partitions.any fun p => p.contains val

variable {r : LoadedReplica} {val : Word}

/-- The number of a valid pointer is that of a partition, or the one behind the last partition. -/
theorem allocDesc_exists (hvalid : r.validPointer val) :
    PartitionUse.Exists ⟨r, (r.allocDesc val).1⟩ ↔ r.inPartition val := by
  rw [allocDesc]
  split
  · rename_i p i hfind
    have hmem := List.mem_of_find?_eq_some hfind
    have hcontains := List.find?_some hfind
    rw [List.mem_zipIdx_iff_getElem?] at hmem
    have hlt := (List.getElem?_eq_some_iff.mp hmem).1
    have hin : r.inPartition val = true :=
      List.any_eq_true.mpr ⟨p, List.mem_of_getElem? hmem, hcontains⟩
    simp only [PartitionUse.Exists, hin, iff_true]
    omega
  · rename_i hfind
    have hout : r.inPartition val = false := by
      rw [inPartition, List.any_eq_false]
      intro p hp hcontains
      obtain ⟨i, hi, hget⟩ := List.getElem_of_mem hp
      have hmem : (p, i) ∈ r.file.partitions.zipIdx := by
        rw [List.mem_zipIdx_iff_getElem?, ← hget]
        exact List.getElem?_eq_getElem hi
      exact List.find?_eq_none.mp hfind _ hmem hcontains
    have hlarge : r.inLargeObject val = true := by
      rw [validPointer, ← inPartition, hout, Bool.false_or] at hvalid
      exact hvalid
    simp [PartitionUse.Exists, hout, hlarge]

end LoadedReplica

/-- The words are accepted before their partitions matter, or one is no pointer, or both point into
partitions, or both are taken for large objects. -/
def StaysInside (p₁ p₂ : PinfoPtr) (v₁ v₂ : Nat) (allocated : Bool) : Prop :=
  let w₁ := p₁.load v₁
  let w₂ := p₂.load v₂
  w₁ = w₂ ∨ allocated = false ∧ p₁.isSentinel v₁ ∧ p₂.isSentinel v₂ ∨
    ¬ (p₁.rep.validPointer w₁ ∧ p₂.rep.validPointer w₂) ∨
    p₁.rep.inPartition w₁ ∧ p₂.rep.inPartition w₂ ∨
    p₁.rep.allocDesc w₁ = p₂.rep.allocDesc w₂ ∧ 0 < (p₁.rep.allocDesc w₁).2 ∧
      (p₁.rep.allocDesc w₁).1 = 12

instance (p₁ p₂ : PinfoPtr) (v₁ v₂ : Nat) (allocated : Bool) :
    Decidable (StaysInside p₁ p₂ v₁ v₂ allocated) :=
  inferInstanceAs (Decidable (_ ∨ _ ∨ _ ∨ _ ∨ _))

variable {p₁ p₂ : PinfoPtr} {v₁ v₂ : Nat} {allocated : Bool}

/-- All partitions that `compare_words` looks into exist, except where a word that is not accepted before
points into a large object, and the other one to another place or the number of partitions is not 12. -/
theorem usedPartitions_exist_iff (p₁ p₂ : PinfoPtr) (v₁ v₂ : Nat) (allocated : Bool) :
    (∀ u ∈ usedPartitions p₁ p₂ v₁ v₂ allocated, u.Exists) ↔ StaysInside p₁ p₂ v₁ v₂ allocated := by
  rw [usedPartitions, StaysInside]
  generalize hw₁ : p₁.load v₁ = w₁
  generalize hw₂ : p₂.load v₂ = w₂
  by_cases heq : w₁ = w₂
  · simp [heq]
  by_cases hsentinel : allocated = false ∧ p₁.isSentinel v₁ ∧ p₂.isSentinel v₂
  · simp [hsentinel]
  have hsentinel' : (!allocated && p₁.isSentinel v₁ && p₂.isSentinel v₂) = false := by
    rw [Bool.eq_false_iff]
    intro h
    simp only [Bool.and_eq_true, Bool.not_eq_true'] at h
    exact hsentinel ⟨h.1.1, h.1.2, h.2⟩
  rw [if_neg heq, hsentinel', if_neg Bool.false_ne_true, or_iff_right heq, or_iff_right hsentinel]
  by_cases hvalid : p₁.rep.validPointer w₁ ∧ p₂.rep.validPointer w₂
  · have hboth : (∀ u ∈ ([⟨p₁.rep, (p₁.rep.allocDesc w₁).1⟩, ⟨p₂.rep, (p₂.rep.allocDesc w₂).1⟩] :
        List PartitionUse), u.Exists) ↔ p₁.rep.inPartition w₁ ∧ p₂.rep.inPartition w₂ := by
      simp only [List.forall_mem_cons, List.not_mem_nil, false_imp_iff, implies_true, and_true,
        LoadedReplica.allocDesc_exists hvalid.1, LoadedReplica.allocDesc_exists hvalid.2]
    rw [or_iff_right (not_not.mpr hvalid), if_pos (by simp [hvalid])]
    split
    case isTrue hsame =>
      split
      case isTrue htwelve =>
        apply iff_of_true (List.forall_mem_nil _)
        exact Or.inr ⟨hsame.1, hsame.2, htwelve⟩
      case isFalse hnot =>
        rw [hboth, or_iff_left]
        intro h
        exact hnot h.2.2
    case isFalse hdiff =>
      rw [hboth, or_iff_left]
      intro h
      exact hdiff ⟨h.1, h.2.1⟩
  · rw [if_neg (by simpa using hvalid)]
    simp [hvalid]

/-- The words are accepted before their partitions matter, or one is no pointer, or both point to one allocation
and the assertions hold, or both point into partitions. -/
def Answered (p₁ p₂ : PinfoPtr) (v₁ v₂ : Nat) (allocated : Bool) : Prop :=
  p₁.load v₁ = p₂.load v₂ ∨ allocated = false ∧ p₁.isSentinel v₁ ∧ p₂.isSentinel v₂ ∨ ¬ BothValid p₁ p₂ v₁ v₂ ∨
    SameObject p₁ p₂ v₁ v₂ ∧ Asserted p₁ p₂ v₁ v₂ allocated ∨
    ¬ SameObject p₁ p₂ v₁ v₂ ∧ p₁.rep.inPartition (p₁.load v₁) ∧ p₂.rep.inPartition (p₂.load v₂)

instance (p₁ p₂ : PinfoPtr) (v₁ v₂ : Nat) (allocated : Bool) : Decidable (Answered p₁ p₂ v₁ v₂ allocated) :=
  inferInstanceAs (Decidable (_ ∨ _ ∨ _ ∨ _ ∨ _))

theorem LoadedReplica.partition_isSome_iff {r : LoadedReplica} {i : Int} :
    (r.partition i).isSome ↔ PartitionUse.Exists ⟨r, i⟩ := by
  rw [partition, PartitionUse.Exists]
  split
  case isTrue hneg => exact iff_of_false (by simp) fun h => Int.not_le.mpr hneg h.1
  case isFalse hnonneg =>
    simp only [isSome_getElem?]
    omega

theorem comparePointers_isSome_iff (hvalid : BothValid p₁ p₂ v₁ v₂) (hdiffer : ¬ SameObject p₁ p₂ v₁ v₂) :
    (comparePointers p₁ p₂ v₁ v₂ allocated).isSome ↔
      p₁.rep.inPartition (p₁.load v₁) ∧ p₂.rep.inPartition (p₂.load v₂) := by
  rw [← LoadedReplica.allocDesc_exists hvalid.1, ← LoadedReplica.allocDesc_exists hvalid.2,
    ← LoadedReplica.partition_isSome_iff, ← LoadedReplica.partition_isSome_iff,
    comparePointers_of_not hdiffer, LoadedReplica.pointerToVA, LoadedReplica.pointerToVA]
  cases p₁.rep.partition (p₁.rep.allocDesc (p₁.load v₁)).1 with
  | none => simp
  | some q₁ =>
    cases p₂.rep.partition (p₂.rep.allocDesc (p₂.load v₂)).1 with
    | none => simp
    | some q₂ =>
      simp only [Option.map_some, Option.bind_eq_bind, Option.bind_some, Option.isSome_some, and_self, iff_true]
      split <;> [rfl; split <;> rfl]

theorem compareWords_isSome_iff :
    (compareWords p₁ p₂ v₁ v₂ allocated).isSome ↔ Answered p₁ p₂ v₁ v₂ allocated := by
  rw [compareWords, Answered]
  by_cases heq : p₁.load v₁ = p₂.load v₂
  · rw [if_pos heq]
    exact iff_of_true rfl (Or.inl heq)
  rw [if_neg heq, or_iff_right heq]
  by_cases hsentinel : (!allocated && p₁.isSentinel v₁ && p₂.isSentinel v₂) = true
  · rw [if_pos hsentinel]
    simp only [Bool.and_eq_true, Bool.not_eq_true'] at hsentinel
    exact iff_of_true rfl (Or.inl ⟨hsentinel.1.1, hsentinel.1.2, hsentinel.2⟩)
  rw [if_neg hsentinel, or_iff_right fun h => hsentinel (by simp [h.1, h.2.1, h.2.2])]
  by_cases hvalid : BothValid p₁ p₂ v₁ v₂
  · rw [if_pos (by simpa [BothValid] using hvalid), or_iff_right (not_not.mpr hvalid)]
    by_cases hsame : SameObject p₁ p₂ v₁ v₂
    · rw [comparePointers_of_sameObject hsame]
      simp only [hsame, true_and, not_true_eq_false, false_and, or_false]
      split <;> simp [*]
    · simp only [hsame, false_and, not_false_eq_true, true_and, false_or]
      exact comparePointers_isSome_iff hvalid hsame
  · rw [if_neg (by simpa [BothValid] using hvalid)]
    apply iff_of_true _ (Or.inl hvalid)
    split <;> rfl

/-- A core file with one partition of 32 slots of 8 bytes and a large object at 0x50000000. The first word of
allocation 2 is `w`. -/
def pointerCore (w : Word) : List Byte :=
  ([3, 0x9efbdbb3#32, 0xb0000000#32, 0xbf000000#32, 0, 1, 8, 32, 0x40000000#32, 1, 1, 2, 0, 0, 0] ++
    List.replicate 124 0 ++ w :: List.replicate 63 0x9efbdbb3#32 ++
    [1, 0x50000000#32, 4, 0]).flatMap bytes

def pointerPartition (w : Word) : Pinfo :=
  { PinfoPtr.reusedPartition with heap := w :: List.replicate 63 0x9efbdbb3#32 }

def largeObject : LosEntry := ⟨0x50000000#32, 4, [0]⟩

def pointerReplica (w : Word) : LoadedReplica where
  file := ⟨3, 0x9efbdbb3#32, 0xb0000000#32, 0xbf000000#32, 0, [pointerPartition w],
    storeEntries LosEntry.size [largeObject] fun _ => none,
    storeEntries LosEntry.contents [largeObject] fun _ => none⟩
  pmap := fill (slotEntries [pointerPartition w] 0) fun _ => none
  losKeys := [0x50000000#32]
  mem_losKeys := by
    intro va
    rw [isSome_storeEntries]
    rfl

def pointer (w : Word) : PinfoPtr :=
  ⟨pointerReplica w, 0, pointerPartition w, rfl, PinfoPtr.two_eq_eight_div⟩

set_option maxRecDepth 10000 in
theorem readCore_pointer {w : Word} (hw : w = 0x50000000#32 ∨ w = 0x40000008#32) :
    readCore (pointerCore w) = some ((pointer w).rep.file, (pointer w).rep.pmap) := by
  rw [readCore, pointerCore, words_bytes]
  rcases hw with rfl | rfl
  · rfl
  · rfl

/-- One replica points to a large object and the other one into its partition. -/
theorem not_usedPartitions_exist : ¬ ∀ (core₁ core₂ : List Byte) (p₁ p₂ : PinfoPtr) (v₁ v₂ : Nat)
    (allocated : Bool), readCore core₁ = some (p₁.rep.file, p₁.rep.pmap) →
      readCore core₂ = some (p₂.rep.file, p₂.rep.pmap) →
        ∀ u ∈ usedPartitions p₁ p₂ v₁ v₂ allocated, u.Exists := by
  intro h
  have hexist := h _ _ (pointer 0x50000000#32) (pointer 0x40000008#32) 0 0 true
    (readCore_pointer (Or.inl rfl)) (readCore_pointer (Or.inr rfl))
  have hnot : ¬ ∀ u ∈ usedPartitions (pointer 0x50000000#32) (pointer 0x40000008#32) 0 0 true, u.Exists := by
    decide
  exact hnot hexist

end DieHard.Exterminator
