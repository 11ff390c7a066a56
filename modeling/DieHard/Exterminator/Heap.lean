import DieHard.Exterminator.Partition
import DieHard.Math.Log2
import DieHard.Replicated.Vote

/-!
# The heap of `exterminator/`

Small objects come from the partitions, large ones from `mmap`; a table of 2¹⁸ entries, one for each
16 KB of addresses, holds the sizes of the large ones. The allocation clock `global_ct` counts the calls
of `malloc`.
-/

namespace DieHard.Exterminator

/-- The number of entries of `values` and `addrs`. -/
def largeEntries : Nat := 2 ^ 18

/-- `getIndex` -/
def getIndex (ptr : Word) : Nat := ptr.toNat >>> 14

/-- How many of the first `n` entries are in use. -/
def inUse (values : Nat → Word) (n : Nat) : Nat := (List.range n).countP fun i => values i ≠ 0

/-- The table of large objects. `ct` counts the entries in use, and an entry is in use for an address of
its own. -/
structure LargeObjectManager where
  values : Nat → Word
  addrs : Nat → Word
  ct : Word
  ct_eq : ct.toNat = inUse values largeEntries
  getIndex_addrs : ∀ i < largeEntries, values i ≠ 0 → getIndex (addrs i) = i
  dvd_values : ∀ i, 4 ∣ (values i).toNat

theorem getIndex_lt (ptr : Word) : getIndex ptr < largeEntries := by
  have hlt := ptr.isLt
  simp only [getIndex, largeEntries, Nat.shiftRight_eq_div_pow]
  omega

theorem inUse_succ (values : Nat → Word) (n : Nat) :
    inUse values (n + 1) = inUse values n + if values n = 0 then 0 else 1 := by
  rw [inUse, List.range_succ, List.countP_append, List.countP_singleton]
  by_cases h : values n = 0 <;> simp [inUse, h]

theorem inUse_le (values : Nat → Word) (n : Nat) : inUse values n ≤ n := by
  induction n with
  | zero => exact Nat.le_refl 0
  | succ n ih =>
    rw [inUse_succ]
    split <;> omega

theorem inUse_congr {values values' : Nat → Word} {n : Nat} (h : ∀ i < n, values' i = values i) :
    inUse values' n = inUse values n := by
  induction n with
  | zero => rfl
  | succ n ih =>
    rw [inUse_succ, inUse_succ, ih fun i hi => h i (by omega), h n (Nat.lt_succ_self n)]

theorem inUse_update (values : Nat → Word) {i n : Nat} (hi : i < n) (x : Word) :
    inUse (Function.update values i x) n + (if values i = 0 then 0 else 1) =
      inUse values n + if x = 0 then 0 else 1 := by
  induction n with
  | zero => omega
  | succ n ih =>
    rw [inUse_succ, inUse_succ]
    by_cases hin : i = n
    · subst hin
      have hrest : inUse (Function.update values i x) i = inUse values i :=
        inUse_congr fun j hj => Function.update_of_ne hj.ne x values
      rw [hrest, Function.update_self]
      omega
    · have hrest := ih (by omega)
      rw [Function.update_of_ne (Ne.symm hin)]
      omega

namespace LargeObjectManager

def get (m : LargeObjectManager) (ptr : Word) : Word := m.values (getIndex ptr)

theorem inUse_zero (n : Nat) : inUse (fun _ => 0) n = 0 := by
  induction n with
  | zero => rfl
  | succ n ih => rw [inUse_succ, ih, if_pos rfl]

/-- The table of a new heap. -/
def empty : LargeObjectManager where
  values := fun _ => 0
  addrs := fun _ => 0
  ct := 0
  ct_eq := (inUse_zero largeEntries).symm
  getIndex_addrs := fun _ _ h => absurd rfl h
  dvd_values := fun _ => Nat.dvd_zero 4

theorem toNat_ct_le (m : LargeObjectManager) : m.ct.toNat ≤ largeEntries := by
  rw [m.ct_eq]
  exact inUse_le m.values largeEntries

theorem toNat_succ_ct (m : LargeObjectManager) : (m.ct + 1).toNat = m.ct.toNat + 1 := by
  have hle := m.toNat_ct_le
  simp only [largeEntries] at hle
  rw [BitVec.toNat_add, Nat.mod_eq_of_lt]
  · rfl
  · show m.ct.toNat + 1 < 2 ^ 32
    omega

theorem toNat_pred_ct (m : LargeObjectManager) (hpos : 0 < m.ct.toNat) :
    (m.ct - 1).toNat = m.ct.toNat - 1 := by
  have hlt := m.ct.isLt
  have hone : (1 : Word).toNat = 1 := by decide
  rw [BitVec.toNat_sub, hone]
  omega

/-- `set(ptr, sz)`; the size has been rounded up to words. -/
def set (m : LargeObjectManager) (ptr sz : Word) (hne : sz ≠ 0) (hdvd : 4 ∣ sz.toNat) :
    LargeObjectManager where
  values := Function.update m.values (getIndex ptr) sz
  addrs := Function.update m.addrs (getIndex ptr) ptr
  ct := if m.values (getIndex ptr) = 0 then m.ct + 1 else m.ct
  ct_eq := by
    have hcount := inUse_update m.values (getIndex_lt ptr) sz
    have hct := m.ct_eq
    rw [if_neg hne] at hcount
    split at hcount
    · rename_i hzero
      rw [if_pos hzero, m.toNat_succ_ct]
      omega
    · rename_i hused
      rw [if_neg hused]
      omega
  getIndex_addrs := by
    intro i hi hval
    by_cases hip : i = getIndex ptr
    · rw [hip, Function.update_self]
    · rw [Function.update_of_ne hip] at hval ⊢
      exact m.getIndex_addrs i hi hval
  dvd_values := by
    intro i
    by_cases hip : i = getIndex ptr
    · rwa [hip, Function.update_self]
    · rw [Function.update_of_ne hip]
      exact m.dvd_values i

def clear (m : LargeObjectManager) (ptr : Word) : LargeObjectManager where
  values := Function.update m.values (getIndex ptr) 0
  addrs := Function.update m.addrs (getIndex ptr) 0
  ct := if m.values (getIndex ptr) ≠ 0 then m.ct - 1 else m.ct
  ct_eq := by
    have hcount := inUse_update m.values (getIndex_lt ptr) 0
    have hct := m.ct_eq
    rw [if_pos rfl] at hcount
    split at hcount
    · rename_i hzero
      rw [if_neg (not_not.mpr hzero)]
      omega
    · rename_i hused
      rw [if_pos hused, m.toNat_pred_ct (by omega)]
      omega
  getIndex_addrs := by
    intro i hi hval
    by_cases hip : i = getIndex ptr
    · rw [hip, Function.update_self] at hval
      exact absurd rfl hval
    · rw [Function.update_of_ne hip] at hval ⊢
      exact m.getIndex_addrs i hi hval
  dvd_values := by
    intro i
    by_cases hip : i = getIndex ptr
    · rw [hip, Function.update_self]
      exact Nat.dvd_zero 4
    · rw [Function.update_of_ne hip]
      exact m.dvd_values i

end LargeObjectManager

structure DieHardHeap where
  /-- `_heap` -/
  heap : Word
  /-- `_pInfo` -/
  partitions : Nat → PartitionInfo
  largeObjects : LargeObjectManager
  globalCt : Word
  sentinel : Word
  dlBase : Word
  stackBase : Word
  heapConfigFlags : Word
  memory : Word → Byte

namespace DieHardHeap

/-- `MaxHeapSize` -/
def maxHeapSize : Nat := numberOfClasses * partitionSize

/-- `MaxObjectSize` -/
def maxObjectSize : Nat := 16 * 1024

/-- A new heap at address `heap`; the partitions are full of the sentinel. -/
def initial (heap dlBase stackBase heapConfigFlags : Word) : DieHardHeap where
  heap := heap
  partitions sc :=
    if h : sc < numberOfClasses then .initial sc h (heap + BitVec.ofNat 32 (sc * partitionSize))
    else .initial 0 numberOfClasses_pos heap
  largeObjects := .empty
  globalCt := 0
  sentinel := 0x9efbdbb3#32
  dlBase := dlBase
  stackBase := stackBase
  heapConfigFlags := heapConfigFlags
  memory a := (0x9efbdbb3#32).extractLsb' (8 * ((a - heap).toNat % 4)) 8

variable (h : DieHardHeap)

def isOnHeap (ptr : Word) : Bool :=
  h.heap ≤ ptr ∧ ptr < h.heap + BitVec.ofNat 32 maxHeapSize

/-- `getSizeClass(ptr)` -/
def getSizeClass (ptr : Word) : Nat := (ptr - h.heap).toNat / partitionSize

/-- `sizeClass(sz)` for requests up to `MaxObjectSize` -/
def sizeClass (sz : Word) : Nat := log2 (max sz.toNat 8) - 3

/-- `fill(ptr, sz, 0)` -/
def fillZero (ptr : Word) (sz : Nat) : DieHardHeap :=
  { h with memory := fun a => if (a - ptr).toNat < sz then 0 else h.memory a }

def setPartition (sc : Nat) (p : PartitionInfo) : DieHardHeap :=
  { h with partitions := Function.update h.partitions sc p }

/-- Where a request ends up: at the slot at which the random probes of a partition end, or at the address
that `mmap` answers with. -/
inductive Placement
  | slot (sc objectIndex : Nat)
  | mapped (ptr : Word)

def roundUp (sz : Word) : Word := (sz + 3#32) &&& ~~~ 3#32

theorem toNat_roundUp (sz : Word) : (roundUp sz).toNat = (sz + 3#32).toNat / 4 * 4 := by
  have hshift : roundUp sz = (sz + 3#32) >>> 2 <<< 2 := by
    apply BitVec.eq_of_getLsbD_eq
    intro i hi
    have hmask : (3#32).getLsbD i = decide (i < 2) := by
      revert i
      decide
    simp only [roundUp, BitVec.getLsbD_and, BitVec.getLsbD_not, hmask, BitVec.getLsbD_shiftLeft,
      BitVec.getLsbD_ushiftRight]
    grind
  have hlt := (sz + 3#32).isLt
  rw [hshift, BitVec.toNat_shiftLeft, BitVec.toNat_ushiftRight, Nat.shiftLeft_eq, Nat.shiftRight_eq_div_pow]
  omega

theorem dvd_roundUp (sz : Word) : 4 ∣ (roundUp sz).toNat := by
  rw [toNat_roundUp]
  exact Nat.dvd_mul_left 4 _

theorem le_roundUp {sz : Word} (hne : roundUp sz ≠ 0) : sz.toNat ≤ (roundUp sz).toNat := by
  have hlt := sz.isLt
  have hsum : (sz + 3#32).toNat = (sz.toNat + 3) % 2 ^ 32 := BitVec.toNat_add sz 3#32
  have hpos : (roundUp sz).toNat ≠ 0 := fun hzero => hne (BitVec.eq_of_toNat_eq hzero)
  rw [toNat_roundUp] at hpos ⊢
  omega

def allocateDirect (sz ptr : Word) : Word × DieHardHeap :=
  -- `mmap` is not asked for zero bytes
  if hne : roundUp sz = 0 then (0, h)
  else if ptr = 0 then (0, h)
  else
    let large := h.largeObjects.set ptr (roundUp sz) hne (dvd_roundUp sz)
    (ptr, ({ h with largeObjects := large } : DieHardHeap).fillZero ptr (roundUp sz).toNat)

/-- The partitions from the class of the request up to class `sc` refuse it. -/
def refused (sz : Word) (sc : Nat) : Bool :=
  (List.range sc).all fun k => k < sizeClass sz || (h.partitions k).isFull

/-- `malloc(sz)`. The answer is `none` where the request cannot end up. -/
def malloc (callsite sz : Word) (place : Placement) : Option (Word × DieHardHeap) :=
  let h : DieHardHeap := { h with globalCt := h.globalCt + 1 }
  match place with
  | .slot sc objectIndex =>
    if sz.toNat ≤ maxObjectSize ∧ sizeClass sz ≤ sc ∧ sc < numberOfClasses ∧ h.refused sz sc then
      ((h.partitions sc).allocObject objectIndex callsite h.globalCt).map fun (ptr, p) =>
        (ptr, (h.setPartition sc p).fillZero ptr p.size)
    else none
  | .mapped ptr =>
    if maxObjectSize < sz.toNat ∨ h.refused sz numberOfClasses then some (h.allocateDirect sz ptr)
    else none

def freeDirect (ptr : Word) : DieHardHeap :=
  if h.largeObjects.get ptr = 0 then h else { h with largeObjects := h.largeObjects.clear ptr }

def free (callsite ptr : Word) : DieHardHeap :=
  if ptr = 0 then h
  else if h.isOnHeap ptr then
    h.setPartition (h.getSizeClass ptr)
      ((h.partitions (h.getSizeClass ptr)).freeObject ptr callsite h.globalCt)
  else h.freeDirect ptr

theorem heap_free (callsite ptr : Word) : (h.free callsite ptr).heap = h.heap := by
  rw [free]
  split
  · rfl
  · split
    · rfl
    · rw [freeDirect]
      split <;> rfl

def getAllocCallsite (ptr : Word) : Option Word :=
  if h.isOnHeap ptr then (h.partitions (h.getSizeClass ptr)).getAllocCallsite ptr else some 0

def getObjectID (ptr : Word) : Option Word :=
  if h.isOnHeap ptr then (h.partitions (h.getSizeClass ptr)).getObjectID ptr else some 0

end DieHardHeap

end DieHard.Exterminator
