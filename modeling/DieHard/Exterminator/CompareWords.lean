import DieHard.Exterminator.CoreFile

/-!
# Words of two replicas

The patcher compares the copies of an object in two core files word by word. Words that differ are
equivalent where both are sentinels of a free object, point to the same object, or point to the same place
relative to the base of the libraries.
-/

namespace DieHard.Exterminator

/-- A replica as `read_core` leaves it. `losKeys` lists the keys of `los_size`. -/
structure LoadedReplica where
  file : Replica
  pmap : Word → Option (Nat × Nat)
  losKeys : List Word
  mem_losKeys : ∀ va, va ∈ losKeys ↔ (file.losSize va).isSome

/-- A `pinfo *`: a partition of a replica. -/
structure PinfoPtr where
  rep : LoadedReplica
  index : Nat
  info : Pinfo
  partitions_index : rep.file.partitions[index]? = some info
  sizeInWords_eq : info.sizeInWords = info.size / 4

/-- `status::OK`; a lower status has a bit for each byte in which two words agree. -/
def statusOk : Nat := 2 ^ 4 - 1

/-- `PTR_DIFF_ID` -/
def ptrDiffId : Nat := statusOk + 1

/-- Byte `k` of a word. -/
def byteAt (w : Word) (k : Nat) : Byte := w.extractLsb' (8 * k) 8

namespace Pinfo

/-- The words that `read_partition` passes over in front of the heap. -/
def headerWords (p : Pinfo) : Nat :=
  3 + 2 * (p.elements / 32).toNat + 4 * p.elements.toNat

/-- The words that `read_partition` passes over. -/
def fileWords (p : Pinfo) : Nat := p.headerWords + (p.sizeInWords * p.elements).toNat

/-- `DXallocated(which)` -/
def dxAllocated (p : Pinfo) (which : Nat) : Bool :=
  BitArray.isSet (fun item => p.bitmap.getD item 0) which

/-- `VAtoID(ptr)` -/
def vaToId (p : Pinfo) (ptr : Word) : Word :=
  (p.slotInfo.getD ((ptr - p.vaddrStart) / p.size).toNat ⟨0, 0, 0, 0⟩).id

def contains (p : Pinfo) (val : Word) : Bool := p.vaddrStart ≤ val ∧ val < p.vaddrEnd

end Pinfo

namespace LoadedReplica

variable (r : LoadedReplica)

/-- `heap_start` of partition `i`, from the start of the mapped file. -/
def heapStart (i : Nat) : Word :=
  let before := (r.file.partitions.take i).map Pinfo.fileWords
  let header := (r.file.partitions[i]?.map Pinfo.headerWords).getD 0
  BitVec.ofNat 32 (4 * (6 + before.sum + header))

/-- `val` points into a large object. -/
def inLargeObject (val : Word) : Bool :=
  r.losKeys.any fun va => (r.file.losSize va).any fun size => va ≤ val ∧ val < va + size

/-- `valid_pointer(val)` -/
def validPointer (val : Word) : Bool :=
  r.file.partitions.any (fun p => p.contains val) || r.inLargeObject val

/-- `alloc_desc(val)`: the number of a partition and an allocation; both are made an `int`. -/
def allocDesc (val : Word) : Int × Int :=
  match r.file.partitions.zipIdx.find? fun p => p.1.contains val with
  | some (p, i) => (i, (p.vaToId val).toInt)
  | none => if r.inLargeObject val then (r.file.partitions.length, 0xd33f) else (-1, 0)

/-- `partitions[i]`, unless there is no such partition. -/
def partition (i : Int) : Option Pinfo := if i < 0 then none else r.file.partitions[i.toNat]?

/-- `partitions[i].PointerToVA(v)` for a word at `v` bytes from the start of the mapped file. -/
def pointerToVA (i : Int) (v : Word) : Option Word :=
  (r.partition i).map fun p => v - r.heapStart i.toNat + p.vaddrStart

/-- `partitions[i].IDallocated(which)`, where the assertions hold: the replica has had the allocation and has it
in this partition. -/
def idAllocated (i : Int) (which : Word) : Option Bool := do
  let p ← r.partition i
  if which < r.file.globalAllocs then
    let place ← r.pmap which
    if place.1 = i ∧ place.2 < p.elements.toNat then some (p.dxAllocated place.2) else none
  else none

/-- `canonical_ptr(ptr)` -/
def canonicalPtr (ptr : Word) : Word :=
  if ptr ^^^ r.file.stackBase < 0xffff then r.file.stackBase - ptr else ptr - r.file.ptrBase

end LoadedReplica

namespace PinfoPtr

variable (p : PinfoPtr)

/-- The word of the heap at `v`. -/
def load (v : Nat) : Word := p.info.heap.getD v 0

/-- Where the word of the heap at `v` stands in the mapped file. -/
def address (v : Nat) : Word := p.rep.heapStart p.index + BitVec.ofNat 32 (4 * v)

def isSentinel (v : Nat) : Bool := p.rep.file.sentinelValue = p.load v

/-- `DXtoPointer(dx) + i` -/
def dxToPointer (dx i : Nat) : Nat := p.info.sizeInWords.toNat * dx + i

/-- `pmap(id)`, where the assertion holds that the object is in this partition. -/
def pmap (id : Word) : Option Nat :=
  (p.rep.pmap id).bind fun place => if place.1 = p.index then some place.2 else none

end PinfoPtr

def equalBytes (w₁ w₂ : Word) : Nat :=
  [3, 2, 1, 0].foldl (fun ret i => ret * 2 + (decide (byteAt w₁ i = byteAt w₂ i)).toNat) 0

/-- The branch of `compare_words` for two valid pointers. The answer is `none` where it looks into a
partition that does not exist, and where an assertion fails. Whether the objects that an allocated object
points to are allocated does not matter, but it is asked. -/
def comparePointers (p₁ p₂ : PinfoPtr) (v₁ v₂ : Nat) (allocated : Bool) : Option Nat :=
  let w₁ := p₁.load v₁
  let w₂ := p₂.load v₂
  let d₁ := p₁.rep.allocDesc w₁
  let d₂ := p₂.rep.allocDesc w₂
  if d₁ = d₂ ∧ 0 < d₁.2 then
    -- large objects have no place in the map
    if d₁.1 = 12 then some statusOk
    else if allocated then do
      let _ ← p₁.rep.idAllocated d₁.1 (.ofInt 32 d₁.2)
      let _ ← p₂.rep.idAllocated d₂.1 (.ofInt 32 d₂.2)
      some statusOk
    else some statusOk
  else do
    let va₁ ← p₁.rep.pointerToVA d₁.1 (p₁.address v₁)
    let va₂ ← p₂.rep.pointerToVA d₂.1 (p₂.address v₂)
    let q ← p₁.rep.partition d₁.1
    if va₁ - w₁ = va₂ - w₂ then some statusOk
    else if d₁.2 ≠ 0 ∧ d₂.2 ≠ 0 ∧ w₁ &&& (q.size - 1) = w₂ &&& (q.size - 1) then some ptrDiffId
    else some (equalBytes w₁ w₂)

/-- `compare_words(v1, v2, p1, p2, allocated)` -/
def compareWords (p₁ p₂ : PinfoPtr) (v₁ v₂ : Nat) (allocated : Bool) : Option Nat :=
  let w₁ := p₁.load v₁
  let w₂ := p₂.load v₂
  if w₁ = w₂ then some statusOk
  else if !allocated && p₁.isSentinel v₁ && p₂.isSentinel v₂ then some statusOk
  else if p₁.rep.validPointer w₁ && p₂.rep.validPointer w₂ then comparePointers p₁ p₂ v₁ v₂ allocated
  else if p₁.rep.canonicalPtr w₁ = p₂.rep.canonicalPtr w₂ then some statusOk
  else some (equalBytes w₁ w₂)

def BothValid (p₁ p₂ : PinfoPtr) (v₁ v₂ : Nat) : Prop :=
  p₁.rep.validPointer (p₁.load v₁) = true ∧ p₂.rep.validPointer (p₂.load v₂) = true

instance (p₁ p₂ : PinfoPtr) (v₁ v₂ : Nat) : Decidable (BothValid p₁ p₂ v₁ v₂) :=
  inferInstanceAs (Decidable (_ ∧ _))

def SameObject (p₁ p₂ : PinfoPtr) (v₁ v₂ : Nat) : Prop :=
  p₁.rep.allocDesc (p₁.load v₁) = p₂.rep.allocDesc (p₂.load v₂) ∧ 0 < (p₁.rep.allocDesc (p₁.load v₁)).2

instance (p₁ p₂ : PinfoPtr) (v₁ v₂ : Nat) : Decidable (SameObject p₁ p₂ v₁ v₂) :=
  inferInstanceAs (Decidable (_ ∧ _))

/-- The assertions hold that are checked for an allocated object which points to the same allocation in both
replicas. -/
def Asserted (p₁ p₂ : PinfoPtr) (v₁ v₂ : Nat) (allocated : Bool) : Prop :=
  let d₁ := p₁.rep.allocDesc (p₁.load v₁)
  let d₂ := p₂.rep.allocDesc (p₂.load v₂)
  allocated = true → SameObject p₁ p₂ v₁ v₂ → d₁.1 ≠ 12 →
    (p₁.rep.idAllocated d₁.1 (.ofInt 32 d₁.2)).isSome ∧ (p₂.rep.idAllocated d₂.1 (.ofInt 32 d₂.2)).isSome

instance (p₁ p₂ : PinfoPtr) (v₁ v₂ : Nat) (allocated : Bool) : Decidable (Asserted p₁ p₂ v₁ v₂ allocated) :=
  inferInstanceAs (Decidable (_ → _ → _ → _))

variable {p₁ p₂ : PinfoPtr} {v₁ v₂ : Nat} {allocated : Bool}

theorem SameObject.symm (h : SameObject p₁ p₂ v₁ v₂) : SameObject p₂ p₁ v₂ v₁ :=
  ⟨h.1.symm, h.1 ▸ h.2⟩

theorem Asserted.symm (h : Asserted p₁ p₂ v₁ v₂ allocated) : Asserted p₂ p₁ v₂ v₁ allocated := by
  intro hallocated hsame hne
  exact (h hallocated hsame.symm (hsame.1 ▸ hne)).symm

theorem comparePointers_of_sameObject (h : SameObject p₁ p₂ v₁ v₂) :
    comparePointers p₁ p₂ v₁ v₂ allocated =
      if Asserted p₁ p₂ v₁ v₂ allocated then some statusOk else none := by
  rw [comparePointers]
  refine (if_pos h).trans ?_
  split
  case isTrue hlarge => exact (if_pos fun _ _ hne => absurd hlarge hne).symm
  case isFalse hne =>
    cases allocated with
    | false => exact (if_pos fun hallocated => absurd hallocated (by decide)).symm
    | true =>
      rw [if_pos rfl]
      cases hfirst : p₁.rep.idAllocated (p₁.rep.allocDesc (p₁.load v₁)).1
          (.ofInt 32 (p₁.rep.allocDesc (p₁.load v₁)).2) with
      | none =>
        refine (if_neg ?_).symm
        intro hasserted
        have hsome := (hasserted rfl h hne).1
        rw [hfirst] at hsome
        cases hsome
      | some _ =>
        cases hsecond : p₂.rep.idAllocated (p₂.rep.allocDesc (p₂.load v₂)).1
            (.ofInt 32 (p₂.rep.allocDesc (p₂.load v₂)).2) with
        | none =>
          refine (if_neg ?_).symm
          intro hasserted
          have hsome := (hasserted rfl h hne).2
          rw [hsecond] at hsome
          cases hsome
        | some _ => exact (if_pos fun _ _ _ => ⟨by rw [hfirst]; rfl, by rw [hsecond]; rfl⟩).symm

theorem comparePointers_of_not (h : ¬ SameObject p₁ p₂ v₁ v₂) : comparePointers p₁ p₂ v₁ v₂ allocated = (do
    let va₁ ← p₁.rep.pointerToVA (p₁.rep.allocDesc (p₁.load v₁)).1 (p₁.address v₁)
    let va₂ ← p₂.rep.pointerToVA (p₂.rep.allocDesc (p₂.load v₂)).1 (p₂.address v₂)
    let q ← p₁.rep.partition (p₁.rep.allocDesc (p₁.load v₁)).1
    if va₁ - p₁.load v₁ = va₂ - p₂.load v₂ then some statusOk
    else if (p₁.rep.allocDesc (p₁.load v₁)).2 ≠ 0 ∧ (p₂.rep.allocDesc (p₂.load v₂)).2 ≠ 0 ∧
        p₁.load v₁ &&& (q.size - 1) = p₂.load v₂ &&& (q.size - 1) then some ptrDiffId
    else some (equalBytes (p₁.load v₁) (p₂.load v₂))) :=
  if_neg h

end DieHard.Exterminator
