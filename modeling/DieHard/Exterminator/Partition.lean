import DieHard.Util.Size
import Mathlib.Data.BitVec

/-!
# Partitions

The heap of `exterminator/` has a partition for each size class. A partition keeps two bitmaps and, for
each slot, which allocation of the program took it, from where, and when it was freed. A `long` and a
pointer have 32 bits.
-/

namespace DieHard.Exterminator

/-- An `unsigned long`, a `size_t` or a pointer. -/
abbrev Word := BitVec 32

/-- `slot_info_t` -/
structure SlotInfo where
  id : Word
  allocCallsite : Word
  freeCallsite : Word
  freeTime : Word

/-- `_bitarray`; bit `index` is bit `index % 32` of item `index / 32`. -/
abbrev BitArray := Nat → Word

namespace BitArray

def mask (index : Nat) : Word := 1#32 <<< (index % 32)

def isSet (b : BitArray) (index : Nat) : Bool := b (index / 32) &&& mask index ≠ 0

/-- The array after `tryToSet`. -/
def set (b : BitArray) (index : Nat) : BitArray :=
  Function.update b (index / 32) (b (index / 32) ||| mask index)

def reset (b : BitArray) (index : Nat) : BitArray :=
  Function.update b (index / 32) (b (index / 32) &&& ~~~ mask index)

private theorem getLsbD_mask (i j : Nat) : (mask i).getLsbD j = decide (j = i % 32) := by
  simp only [mask, BitVec.getLsbD_shiftLeft, BitVec.getLsbD_one]
  grind

theorem isSet_eq (b : BitArray) (i : Nat) : b.isSet i = (b (i / 32)).getLsbD (i % 32) := by
  have hzero : b (i / 32) &&& mask i = 0 ↔ (b (i / 32)).getLsbD (i % 32) = false := by
    constructor
    · intro h
      have hb := congrArg (fun v => BitVec.getLsbD v (i % 32)) h
      simpa [BitVec.getLsbD_and, getLsbD_mask] using hb
    · intro h
      apply BitVec.eq_of_getLsbD_eq
      intro j _
      rw [BitVec.getLsbD_and, getLsbD_mask]
      by_cases hj : j = i % 32
      · rw [hj, h]
        simp
      · simp [hj]
  simp only [isSet, ne_eq, hzero]
  cases (b (i / 32)).getLsbD (i % 32) <;> rfl

private theorem index_eq_iff {i j : Nat} : j = i ↔ j / 32 = i / 32 ∧ j % 32 = i % 32 := by
  omega

theorem isSet_set (b : BitArray) (i j : Nat) : (b.set i).isSet j = (b.isSet j || decide (j = i)) := by
  simp only [isSet_eq, set]
  by_cases hw : j / 32 = i / 32
  · rw [hw, Function.update_self, BitVec.getLsbD_or, getLsbD_mask]
    simp [index_eq_iff (i := i) (j := j), hw]
  · rw [Function.update_of_ne hw]
    simp [index_eq_iff (i := i) (j := j), hw]

theorem isSet_reset (b : BitArray) (i j : Nat) :
    (b.reset i).isSet j = (b.isSet j && decide (j ≠ i)) := by
  simp only [isSet_eq, reset]
  by_cases hw : j / 32 = i / 32
  · have hj : j % 32 < 32 := Nat.mod_lt _ (by decide)
    rw [hw, Function.update_self, BitVec.getLsbD_and, BitVec.getLsbD_not, getLsbD_mask]
    simp [index_eq_iff (i := i) (j := j), hw, hj]
  · rw [Function.update_of_ne hw]
    simp [index_eq_iff (i := i) (j := j), hw]

end BitArray

/-- `PartitionSize` -/
def partitionSize : Nat := 4 * 1024 * 1024

/-- `NumberOfClasses` -/
def numberOfClasses : Nat := 12

theorem numberOfClasses_pos : 0 < numberOfClasses := by decide

/-- A partition. Its size class fixes the size and the number of its elements. -/
structure PartitionInfo where
  sizeClass : Nat
  /-- `_size` -/
  size : Nat
  elements : Nat
  threshold : Nat
  requested : Int
  partitionStart : Word
  allocated : BitArray
  hasData : BitArray
  slotInfo : Nat → SlotInfo
  class_lt : sizeClass < numberOfClasses
  size_eq : size = 2 ^ (sizeClass + 3)
  elements_eq : elements = partitionSize / size

namespace PartitionInfo

/-- `initialize`; half of the elements may be in use. -/
def initial (sizeClass : Nat) (h : sizeClass < numberOfClasses) (start : Word) : PartitionInfo where
  sizeClass := sizeClass
  size := 2 ^ (sizeClass + 3)
  elements := partitionSize / 2 ^ (sizeClass + 3)
  threshold := partitionSize / 2 / 2 ^ (sizeClass + 3)
  requested := 0
  partitionStart := start
  allocated := fun _ => 0
  hasData := fun _ => 0
  slotInfo := fun _ => ⟨0, 0, 0, 0⟩
  class_lt := h
  size_eq := rfl
  elements_eq := rfl

section

variable (p : PartitionInfo)

theorem elements_eq_pow : p.elements = 2 ^ (19 - p.sizeClass) := by
  have hlt := p.class_lt
  rw [p.elements_eq, p.size_eq]
  apply Nat.div_eq_of_eq_mul_right (Nat.two_pow_pos _)
  have hsum : p.sizeClass + 3 + (19 - p.sizeClass) = 22 := by
    simp only [numberOfClasses] at hlt
    omega
  rw [← Nat.pow_add, hsum]
  rfl

theorem elements_lt : p.elements < 2 ^ 32 := by
  rw [elements_eq_pow]
  exact Nat.pow_lt_pow_right (by decide) (by omega)

theorem dvd_size : 4 ∣ p.size := by
  rw [p.size_eq]
  exact pow_dvd_pow 2 (show 2 ≤ p.sizeClass + 3 by omega)

theorem size_lt : p.size < 2 ^ 32 := by
  have hlt := p.class_lt
  simp only [numberOfClasses] at hlt
  rw [p.size_eq]
  exact Nat.pow_lt_pow_right (by decide) (by omega)

theorem slot_end_le {i : Nat} (hi : i < p.elements) : i * p.size + p.size ≤ partitionSize := by
  rw [← Nat.succ_mul]
  apply Nat.le_trans (Nat.mul_le_mul_right _ hi)
  rw [p.elements_eq]
  exact Nat.div_mul_le_self partitionSize p.size

end

/-- The slot of a pointer into the partition, if it points to the start of one. -/
def objectIndex (p : PartitionInfo) (ptr : Word) : Option Nat :=
  let offsetFromPartition := ptr - p.partitionStart
  if offsetFromPartition &&& ~~~ (BitVec.ofNat 32 p.size - 1) = offsetFromPartition then
    some (offsetFromPartition.toNat >>> (p.sizeClass + 3))
  else none

theorem objectIndex_start (p : PartitionInfo) {i : Nat} (hi : i < p.elements) :
    p.objectIndex (p.partitionStart + BitVec.ofNat 32 (i * p.size)) = some i := by
  have hend := p.slot_end_le hi
  have hlt : i * p.size < 2 ^ 32 := by
    simp only [partitionSize] at hend
    omega
  have haligned : BitVec.ofNat 32 (i * p.size) &&& ~~~ (BitVec.ofNat 32 p.size - 1) =
      BitVec.ofNat 32 (i * p.size) := by
    rw [p.size_eq, and_not_two_pow_sub_one (by decide)]
  simp only [objectIndex, add_sub_cancel_left, haligned, if_true]
  rw [BitVec.toNat_ofNat, Nat.mod_eq_of_lt hlt, p.size_eq, Nat.shiftRight_eq_div_pow,
    Nat.mul_div_cancel _ (Nat.two_pow_pos _)]

def allocEvent (p : PartitionInfo) (idx : Nat) (callsite globalCt : Word) : PartitionInfo :=
  let info := { p.slotInfo idx with allocCallsite := callsite, id := globalCt }
  { p with slotInfo := Function.update p.slotInfo idx info }

def freeEvent (p : PartitionInfo) (idx : Nat) (callsite globalCt : Word) : PartitionInfo :=
  let info := { p.slotInfo idx with freeCallsite := callsite, freeTime := globalCt }
  { p with slotInfo := Function.update p.slotInfo idx info }

/-- `allocObject` refuses every request. -/
def isFull (p : PartitionInfo) : Bool := p.threshold ≤ p.requested

/-- `allocObject`, when its random probes end at slot `objectIndex`. -/
def allocObject (p : PartitionInfo) (objectIndex : Nat) (callsite globalCt : Word) :
    Option (Word × PartitionInfo) :=
  if p.isFull ∨ p.elements ≤ objectIndex ∨ p.allocated.isSet objectIndex then none
  else
    let q : PartitionInfo := { p with
      requested := p.requested + 1
      allocated := p.allocated.set objectIndex
      hasData := p.hasData.set objectIndex }
    some (p.partitionStart + BitVec.ofNat 32 (objectIndex * p.size),
      q.allocEvent objectIndex callsite globalCt)

/-- `freeObject`; a pointer into the middle of an object is ignored. -/
def freeObject (p : PartitionInfo) (ptr callsite globalCt : Word) : PartitionInfo :=
  match p.objectIndex ptr with
  | none => p
  | some objectIndex =>
    let q : PartitionInfo := { p with
      requested := p.requested - 1
      allocated := p.allocated.reset objectIndex }
    q.freeEvent objectIndex callsite globalCt

/-- `getAllocCallsite`; it aborts on a pointer into the middle of an object. -/
def getAllocCallsite (p : PartitionInfo) (ptr : Word) : Option Word :=
  (p.objectIndex ptr).map fun objectIndex => (p.slotInfo objectIndex).allocCallsite

/-- `getObjectID`; it aborts on a pointer into the middle of an object. -/
def getObjectID (p : PartitionInfo) (ptr : Word) : Option Word :=
  (p.objectIndex ptr).map fun objectIndex => (p.slotInfo objectIndex).id

end PartitionInfo

end DieHard.Exterminator
