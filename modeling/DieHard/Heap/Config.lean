import DieHard.Math.Log2
import DieHard.Util.Size

/-!
# Template parameters and size classes

The parameters of `DieHardHeap` with what its static assertions demand, the size classes, and how
many objects and pages each miniheap has.
-/

namespace DieHard

/-- `Alignment`, which is also the smallest object size. -/
def alignment : Nat := 16

structure HeapConfig where
  numerator : Nat
  denominator : Nat
  maxSize : Nat
  pageSize : Nat
  dieFastOn : Bool
  dieHarderOn : Bool
  denominator_pos : 0 < denominator
  /-- "Multiplier must be at least one." -/
  multiplier_ge_one : denominator ≤ numerator
  /-- `Numerator` is an `int`. -/
  numerator_lt : numerator < 2 ^ 31
  /-- "Size specified by MaxSize is incorrect." -/
  maxSize_eq : (1 <<< (staticlog maxSize - staticlog alignment)) * alignment = maxSize
  /-- `CheckPowerOfTwo<CPUInfo::PageSize>` -/
  pageSize_powerOfTwo : pageSize.isPowerOfTwo

/-- The parameters of `libdieharder.cpp`, on pages of 4096 bytes. -/
def HeapConfig.libdieharder (dieFastOn dieHarderOn : Bool) : HeapConfig where
  numerator := 8
  denominator := 7
  maxSize := 1048576
  pageSize := 4096
  dieFastOn := dieFastOn
  dieHarderOn := dieHarderOn
  denominator_pos := by decide
  multiplier_ge_one := by decide
  numerator_lt := by decide
  maxSize_eq := by decide
  pageSize_powerOfTwo := isPowerOfTwo_4096

/-- A miniheap object: the heap it belongs to, its size class and its place in that class. It stands
for the address of the object. -/
structure MiniId where
  owner : Nat
  cls : Nat
  index : Nat
  deriving DecidableEq, Repr

/-- `getClassSize`. -/
def getClassSize (index : Nat) : Nat := (1 <<< index) * alignment

/-- `getIndex`, for a size of at least `Alignment`. -/
def getIndex (sz : Nat) : Nat := log2 sz - staticlog alignment

theorem getClassSize_eq (index : Nat) : getClassSize index = 2 ^ (index + 4) := by
  rw [getClassSize, alignment, Nat.one_shiftLeft, Nat.pow_add]

theorem getClassSize_pos (index : Nat) : 0 < getClassSize index := by
  rw [getClassSize_eq]
  exact Nat.two_pow_pos _

theorem getClassSize_powerOfTwo (index : Nat) : (getClassSize index).isPowerOfTwo :=
  ⟨index + 4, getClassSize_eq index⟩

theorem staticlog_alignment : staticlog alignment = 4 := by
  rw [alignment, show (16 : Nat) = 2 ^ 4 by decide, staticlog_two_pow]

theorem getIndex_le_iff {sz index : Nat} : getIndex sz ≤ index ↔ sz ≤ getClassSize index := by
  rw [getIndex, staticlog_alignment, Nat.sub_le_iff_le_add, log2_le_iff, getClassSize_eq]

namespace HeapConfig

variable (cfg : HeapConfig)

/-- `MAX_INDEX`: the number of size classes. -/
def maxIndex : Nat := staticlog cfg.maxSize - staticlog alignment + 1

/-- `MAX_MINIHEAPS`. -/
def maxMiniHeaps : Nat := 31 - staticlog cfg.maxSize

/-- `MIN_SIZE` of a size class. -/
def minSize (cls : Nat) : Nat :=
  if cfg.numerator * getClassSize cls / cfg.denominator < cfg.maxSize then cfg.maxSize
  else cfg.numerator * getClassSize cls / cfg.denominator

/-- `MIN_OBJECTS` of a size class. -/
def minObjects (cls : Nat) : Nat := cfg.minSize cls / getClassSize cls

/-- `NObjects`: the first two miniheaps of a class have the same number of objects. -/
def nObjects (id : MiniId) : Nat :=
  if id.index = 0 then cfg.minObjects id.cls
  else cfg.minObjects id.cls * (1 <<< (id.index - 1))

/-- `ObjectsPerPage`. -/
def objectsPerPage (cls : Nat) : Nat :=
  if getClassSize cls ≤ cfg.pageSize then cfg.pageSize / getClassSize cls else 1

/-- `PagesPerObject`. -/
def pagesPerObject (cls : Nat) : Nat :=
  if getClassSize cls ≤ cfg.pageSize then 1 else getClassSize cls / cfg.pageSize

theorem pageSize_pos : 0 < cfg.pageSize := by
  obtain ⟨k, hk⟩ := cfg.pageSize_powerOfTwo
  rw [hk]
  exact Nat.two_pow_pos k

theorem maxSize_eq_classSize : getClassSize (cfg.maxIndex - 1) = cfg.maxSize := cfg.maxSize_eq

theorem getIndex_lt {sz : Nat} (h : sz ≤ cfg.maxSize) : getIndex sz < cfg.maxIndex := by
  have hle : getIndex sz ≤ cfg.maxIndex - 1 := getIndex_le_iff.mpr (by rwa [maxSize_eq_classSize])
  have hpos : 0 < cfg.maxIndex := Nat.succ_pos _
  omega

theorem getClassSize_le_minSize (cls : Nat) : getClassSize cls ≤ cfg.minSize cls := by
  have hmul : getClassSize cls ≤ cfg.numerator * getClassSize cls / cfg.denominator := by
    rw [Nat.le_div_iff_mul_le cfg.denominator_pos, Nat.mul_comm]
    exact Nat.mul_le_mul_right _ cfg.multiplier_ge_one
  by_cases hlt : cfg.numerator * getClassSize cls / cfg.denominator < cfg.maxSize
  · rw [minSize, if_pos hlt]
    omega
  · rwa [minSize, if_neg hlt]

theorem minObjects_pos (cls : Nat) : 0 < cfg.minObjects cls :=
  Nat.div_pos (cfg.getClassSize_le_minSize cls) (getClassSize_pos cls)

theorem nObjects_pos (id : MiniId) : 0 < cfg.nObjects id := by
  have hmin := cfg.minObjects_pos id.cls
  by_cases h0 : id.index = 0
  · rwa [nObjects, if_pos h0]
  · rw [nObjects, if_neg h0, Nat.one_shiftLeft]
    exact Nat.mul_pos hmin (Nat.two_pow_pos _)

theorem objectsPerPage_pos (cls : Nat) : 0 < cfg.objectsPerPage cls := by
  by_cases h : getClassSize cls ≤ cfg.pageSize
  · rw [objectsPerPage, if_pos h]
    exact Nat.div_pos h (getClassSize_pos cls)
  · rw [objectsPerPage, if_neg h]
    exact Nat.one_pos

theorem powerOfTwo_dvd {a b : Nat} (ha : a.isPowerOfTwo) (hb : b.isPowerOfTwo)
    (h : a ≤ b) : a ∣ b := by
  obtain ⟨i, rfl⟩ := ha
  obtain ⟨j, rfl⟩ := hb
  exact Nat.pow_dvd_pow 2 ((Nat.pow_le_pow_iff_right (by decide)).mp h)

theorem powerOfTwo_div {a b : Nat} (ha : a.isPowerOfTwo) (hb : b.isPowerOfTwo)
    (h : a ≤ b) : (b / a).isPowerOfTwo := by
  obtain ⟨i, rfl⟩ := ha
  obtain ⟨j, rfl⟩ := hb
  exact ⟨j - i, Nat.pow_div ((Nat.pow_le_pow_iff_right (by decide)).mp h) (by decide)⟩

theorem objectsPerPage_powerOfTwo (cls : Nat) : (cfg.objectsPerPage cls).isPowerOfTwo := by
  by_cases h : getClassSize cls ≤ cfg.pageSize
  · rw [objectsPerPage, if_pos h]
    exact powerOfTwo_div (getClassSize_powerOfTwo cls) cfg.pageSize_powerOfTwo h
  · rw [objectsPerPage, if_neg h]
    exact ⟨0, rfl⟩

theorem objectsPerPage_mul (cls : Nat) :
    cfg.objectsPerPage cls * getClassSize cls = cfg.pagesPerObject cls * cfg.pageSize := by
  by_cases h : getClassSize cls ≤ cfg.pageSize
  · rw [objectsPerPage, pagesPerObject, if_pos h, if_pos h, Nat.one_mul]
    exact Nat.div_mul_cancel (powerOfTwo_dvd (getClassSize_powerOfTwo cls) cfg.pageSize_powerOfTwo h)
  · rw [objectsPerPage, pagesPerObject, if_neg h, if_neg h, Nat.one_mul]
    have hle : cfg.pageSize ≤ getClassSize cls := by omega
    exact (Nat.div_mul_cancel
      (powerOfTwo_dvd cfg.pageSize_powerOfTwo (getClassSize_powerOfTwo cls) hle)).symm

end HeapConfig

end DieHard
