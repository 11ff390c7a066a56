import DieHard.Heap.MiniHeap
import DieHard.Lib.Blocks

/-!
# Miniheaps of any object size

The miniheap classes are templates over the object size and the number of objects. Small objects share
pages, an object of a page has the page to itself, larger ones fill several pages. In every instance the
index of a slot and its address determine each other.
-/

namespace DieHard

open Blocks

/-- The template parameters that all miniheaps of a program share. -/
structure Build where
  pageSize : Nat
  dieFastOn : Bool
  dieHarderOn : Bool
  /-- `CheckPowerOfTwo<CPUInfo::PageSize>` -/
  pageSize_powerOfTwo : pageSize.isPowerOfTwo

/-- The template parameters of one miniheap. -/
structure MiniHeapType (b : Build) where
  objectSize : Nat
  nObjects : Nat
  objectSize_pos : 0 < objectSize
  /-- "Modulus must be positive." -/
  nObjects_pos : 0 < nObjects
  /-- `CheckPowerOfTwo<ObjectsPerPage>`, and "Object size must be a multiple of page size if it is bigger
  than a page." -/
  objectSize_fits : objectSize.isPowerOfTwo ∧ objectSize ≤ b.pageSize ∨ b.pageSize ∣ objectSize

namespace Build

variable (b : Build)

def computePageNumber (addr : Addr) : Nat := addr >>> staticlog b.pageSize

def getHeap (env : Env) (ptr : Addr) : Option MiniId :=
  (env.pageTable (b.computePageNumber ptr)).map PageTableEntry.heap

def getObjectIndex (env : Env) (ptr : Addr) : Nat :=
  match env.pageTable (b.computePageNumber ptr) with
  | none => 0
  | some entry => entry.objectIndex

end Build

/-- A value that becomes an `unsigned int`. -/
def unsignedInt (n : Nat) : Nat := n % 2 ^ 32

theorem unsignedInt_of_lt {n : Nat} (h : n < 2 ^ 32) : unsignedInt n = n := Nat.mod_eq_of_lt h

namespace MiniHeapType

variable {b : Build} (T : MiniHeapType b)

/-- `ObjectsPerPage`. -/
def objectsPerPage : Nat := if T.objectSize ≤ b.pageSize then b.pageSize / T.objectSize else 1

/-- `PagesPerObject`. -/
def pagesPerObject : Nat := if T.objectSize ≤ b.pageSize then 1 else T.objectSize / b.pageSize

namespace RandomMiniHeapDieHard

def inBounds (m : MiniHeap) (ptr : Addr) : Bool :=
  !(decide (ptr < m.miniHeap) || decide (m.miniHeap + T.nObjects * T.objectSize ≤ ptr) ||
    decide (m.miniHeap = 0))

/-- The index before it becomes an `unsigned int`. -/
def slotIndex (m : MiniHeap) (ptr : Addr) : Nat :=
  let offset := RandomMiniHeapDieHard.computeOffset m ptr
  if T.objectSize.isPowerOfTwo then offset >>> staticlog T.objectSize else offset / T.objectSize

def computeIndex (m : MiniHeap) (ptr : Addr) : Nat := unsignedInt (slotIndex T m ptr)

def getObject (m : MiniHeap) (index : Nat) : Addr :=
  if !m.isHeapActivated then 0 else m.miniHeap + index * T.objectSize

def getSize (m : MiniHeap) (ptr : Addr) : Nat :=
  if !inBounds T m ptr then 0
  else T.objectSize - modulo T.objectSize (RandomMiniHeapDieHard.computeOffset m ptr)

def activate (source : Nat → Addr) (m : MiniHeap) (env : Env) : MiniHeap × Env :=
  if m.isHeapActivated then (m, env)
  else
    let sz := T.nObjects * T.objectSize
    let m := { m with miniHeap := source 0 }
    if m.miniHeap = 0 then ({ m with isHeapActivated := true }, env)
    else
      let env := env.map m.miniHeap sz
      let m := { m with miniHeapBitmap := BitMap.reserve T.nObjects, isHeapActivated := true }
      if b.dieFastOn then
        (m, { env with mem := DieFast.fill env.mem m.miniHeap sz m.freedValue })
      else (m, env)

end RandomMiniHeapDieHard

namespace RandomMiniHeapDieHarder

variable (id : MiniId)

def inBounds (m : MiniHeap) (env : Env) (ptr : Addr) : Bool :=
  m.isHeapActivated && decide (b.getHeap env ptr = some id)

/-- The index before it becomes an `unsigned int`. -/
def slotIndex (env : Env) (ptr : Addr) : Nat :=
  let pageIdx := b.getObjectIndex env ptr
  if T.objectsPerPage = 1 then pageIdx
  else
    let offset := ptr &&& (b.pageSize - 1)
    pageIdx + (offset >>> staticlog T.objectSize)

def computeIndex (env : Env) (ptr : Addr) : Nat := unsignedInt (slotIndex T env ptr)

def setPageFromIndex (m : MiniHeap) (index : Nat) (pageAddr : Addr) : MiniHeap :=
  { m with mapEntryToPage :=
      Function.update m.mapEntryToPage (index >>> staticlog T.objectsPerPage) pageAddr }

def getPageFromIndex (m : MiniHeap) (index : Nat) : Addr :=
  let index := index - modulo T.objectsPerPage index
  m.mapEntryToPage (index >>> staticlog T.objectsPerPage)

def getObject (m : MiniHeap) (index : Nat) : Addr :=
  if !m.isHeapActivated then 0
  else if b.pageSize < T.objectSize then getPageFromIndex T m index
  else
    let whichObject := index &&& (T.objectsPerPage - 1)
    getPageFromIndex T m index + whichObject * T.objectSize

def getSize (m : MiniHeap) (env : Env) (ptr : Addr) : Nat :=
  if b.pageSize ≤ T.objectSize then
    let start := getObject T m (computeIndex T env ptr)
    T.objectSize - (ptr - start)
  else T.objectSize - modulo T.objectSize ptr

def insertPages (objectIndex : Nat) (pagesAddr : Addr) (env : Env) : Env :=
  (List.range T.pagesPerObject).foldl
    (fun env p => env.insert (b.computePageNumber (pagesAddr + p * b.pageSize)) id objectIndex) env

/-- One turn of the mapping loop, with the answer of `MmapWrapper::map`. -/
def mapObjects (source : Nat → Addr) (s : MiniHeap × Env) (turn : Nat) : MiniHeap × Env :=
  let objectIndex := turn * T.objectsPerPage
  let pagesAddr := source turn
  let bytesToAllocate := T.pagesPerObject * b.pageSize
  (setPageFromIndex T s.1 objectIndex pagesAddr,
    insertPages T id objectIndex pagesAddr (s.2.map pagesAddr bytesToAllocate))

/-- The turns of the mapping loop, which counts objects in steps of `ObjectsPerPage`. -/
def mapTurns : Nat := (T.nObjects + T.objectsPerPage - 1) / T.objectsPerPage

def internalActivate (source : Nat → Addr) (m : MiniHeap) (env : Env) : MiniHeap × Env :=
  let m := { m with miniHeapBitmap := BitMap.reserve T.nObjects }
  let s := (List.range (mapTurns T)).foldl (mapObjects T id source) (m, env)
  ({ s.1 with isHeapActivated := true }, s.2)

/-- The loop counts in an `unsigned int`, which starts again from zero when `NObjects` is too large for
it; then the call does not return. -/
def activate (source : Nat → Addr) (m : MiniHeap) (env : Env) : Option (MiniHeap × Env) :=
  if m.isHeapActivated then some (m, env)
  else if T.nObjects + T.objectsPerPage ≤ 2 ^ 32 then some (internalActivate T id source m env)
  else none

end RandomMiniHeapDieHarder

section Variant

variable (id : MiniId)

def inBounds (m : MiniHeap) (env : Env) (ptr : Addr) : Bool :=
  if b.dieHarderOn then RandomMiniHeapDieHarder.inBounds (b := b) id m env ptr
  else RandomMiniHeapDieHard.inBounds T m ptr

def slotIndex (m : MiniHeap) (env : Env) (ptr : Addr) : Nat :=
  if b.dieHarderOn then RandomMiniHeapDieHarder.slotIndex T env ptr
  else RandomMiniHeapDieHard.slotIndex T m ptr

def computeIndex (m : MiniHeap) (env : Env) (ptr : Addr) : Nat :=
  if b.dieHarderOn then RandomMiniHeapDieHarder.computeIndex T env ptr
  else RandomMiniHeapDieHard.computeIndex T m ptr

def getObject (m : MiniHeap) (index : Nat) : Addr :=
  if b.dieHarderOn then RandomMiniHeapDieHarder.getObject T m index
  else RandomMiniHeapDieHard.getObject T m index

def getSize (m : MiniHeap) (env : Env) (ptr : Addr) : Nat :=
  if b.dieHarderOn then RandomMiniHeapDieHarder.getSize T m env ptr
  else RandomMiniHeapDieHard.getSize T m ptr

def activate (source : Nat → Addr) (m : MiniHeap) (env : Env) : Option (MiniHeap × Env) :=
  if b.dieHarderOn then RandomMiniHeapDieHarder.activate T id source m env
  else some (RandomMiniHeapDieHard.activate T source m env)

end Variant

theorem pageSize_pos (b : Build) : 0 < b.pageSize := by
  obtain ⟨k, hk⟩ := b.pageSize_powerOfTwo
  rw [hk]
  exact Nat.two_pow_pos k

theorem objectSize_dvd (h : T.objectSize ≤ b.pageSize) : T.objectSize ∣ b.pageSize := by
  rcases T.objectSize_fits with ⟨hpow, -⟩ | hdvd
  · exact HeapConfig.powerOfTwo_dvd hpow b.pageSize_powerOfTwo h
  · rw [Nat.le_antisymm h (Nat.le_of_dvd T.objectSize_pos hdvd)]

theorem pageSize_dvd (h : b.pageSize ≤ T.objectSize) : b.pageSize ∣ T.objectSize := by
  rcases T.objectSize_fits with ⟨-, hle⟩ | hdvd
  · rw [Nat.le_antisymm hle h]
  · exact hdvd

theorem objectsPerPage_pos : 0 < T.objectsPerPage := by
  rw [objectsPerPage]
  split
  · rename_i h
    exact Nat.div_pos h T.objectSize_pos
  · exact Nat.one_pos

theorem objectsPerPage_powerOfTwo : T.objectsPerPage.isPowerOfTwo := by
  rw [objectsPerPage]
  split
  · rename_i h
    rcases T.objectSize_fits with ⟨hpow, -⟩ | hdvd
    · exact HeapConfig.powerOfTwo_div hpow b.pageSize_powerOfTwo h
    · rw [Nat.le_antisymm h (Nat.le_of_dvd T.objectSize_pos hdvd), Nat.div_self (pageSize_pos b)]
      exact ⟨0, rfl⟩
  · exact ⟨0, rfl⟩

theorem objectsPerPage_mul : T.objectsPerPage * T.objectSize = T.pagesPerObject * b.pageSize := by
  rw [objectsPerPage, pagesPerObject]
  split
  · rename_i h
    rw [Nat.one_mul, Nat.div_mul_cancel (T.objectSize_dvd h)]
  · rename_i h
    rw [Nat.one_mul, Nat.div_mul_cancel (T.pageSize_dvd (by omega))]

/-- The blocks of a miniheap: one for the DieHard variant, one for each mapping of the DieHarder
variant. -/
def layout (m : MiniHeap) : Layout where
  size := T.objectSize
  per := if b.dieHarderOn then T.objectsPerPage else T.nObjects
  count := if b.dieHarderOn then RandomMiniHeapDieHarder.mapTurns T else 1
  base j := if b.dieHarderOn then m.mapEntryToPage j else m.miniHeap
  size_pos := T.objectSize_pos
  per_pos := by
    split
    · exact T.objectsPerPage_pos
    · exact T.nObjects_pos

theorem layout_bytes (h : b.dieHarderOn = true) (m : MiniHeap) :
    (T.layout m).bytes = T.pagesPerObject * b.pageSize := by
  have hper : (T.layout m).per = T.objectsPerPage := if_pos h
  rw [Layout.bytes, hper]
  exact T.objectsPerPage_mul

theorem nObjects_le_slots (m : MiniHeap) : T.nObjects ≤ (T.layout m).slots := by
  by_cases h : b.dieHarderOn = true
  · have hper := T.objectsPerPage_pos
    have hdm := Nat.div_add_mod (T.nObjects + T.objectsPerPage - 1) T.objectsPerPage
    have hml := Nat.mod_lt (T.nObjects + T.objectsPerPage - 1) hper
    simp only [Layout.slots, layout, if_pos h, RandomMiniHeapDieHarder.mapTurns]
    rw [Nat.mul_comm]
    omega
  · simp [Layout.slots, layout, h]

/-- An active miniheap on aligned blocks, with its pages in the page table. -/
structure Laid (id : MiniId) (m : MiniHeap) (env : Env) : Prop where
  activated : m.isHeapActivated = true
  dvd : ∀ j < (T.layout m).count, b.pageSize ∣ (T.layout m).base j
  ne_zero : b.dieHarderOn = false → m.miniHeap ≠ 0
  entry : b.dieHarderOn = true → ∀ j p, (T.layout m).InBlock j p →
    env.pageTable (b.computePageNumber p) = some ⟨id, j * (T.layout m).per⟩

namespace Laid

variable {T} {id : MiniId} {m : MiniHeap} {env : Env} {i j p : Nat}

private theorem and_pageSize (b : Build) (p : Nat) : p &&& (b.pageSize - 1) = p % b.pageSize := by
  obtain ⟨k, hk⟩ := b.pageSize_powerOfTwo
  rw [hk, Nat.and_two_pow_sub_one_eq_mod]

theorem inBounds (h : T.Laid id m env) (hj : (T.layout m).InBlock j p) :
    T.inBounds id m env p = true := by
  by_cases hd : b.dieHarderOn = true
  · have hentry := h.entry hd j p hj
    rw [MiniHeapType.inBounds, if_pos hd, RandomMiniHeapDieHarder.inBounds, h.activated, Bool.true_and,
      decide_eq_true_eq, Build.getHeap, hentry]
    rfl
  · have hne := h.ne_zero (by simpa using hd)
    simp only [Layout.InBlock, Layout.bytes, layout, if_neg hd] at hj
    rw [MiniHeapType.inBounds, if_neg hd]
    simp [RandomMiniHeapDieHard.inBounds, hj, hne]

/-- The index computed for an address of a block is the index of its slot. -/
theorem slotIndex_eq (h : T.Laid id m env) (hj : (T.layout m).InBlock j p) :
    T.slotIndex m env p = (T.layout m).index j p := by
  by_cases hd : b.dieHarderOn = true
  · have hpage := h.dvd j hj.1
    have hbytes := T.layout_bytes hd m
    have hentry := h.entry hd j p hj
    obtain ⟨-, hle, hlt⟩ := hj
    have hper : (T.layout m).per = T.objectsPerPage := if_pos hd
    have hsize : (T.layout m).size = T.objectSize := rfl
    simp only [MiniHeapType.slotIndex, if_pos hd, RandomMiniHeapDieHarder.slotIndex,
      Build.getObjectIndex, hentry, Layout.index]
    by_cases hone : T.objectsPerPage = 1
    · rw [if_pos hone]
      have hsmall : p - (T.layout m).base j < (T.layout m).size := by
        have hmul := T.objectsPerPage_mul
        rw [hone, Nat.one_mul] at hmul
        omega
      rw [Nat.div_eq_of_lt hsmall, Nat.add_zero]
    · -- several objects to a page, so the block is one page
      have hcase : T.objectSize ≤ b.pageSize := by
        by_contra hgt
        exact hone (by rw [objectsPerPage, if_neg hgt])
      have hpow : T.objectSize.isPowerOfTwo := by
        rcases T.objectSize_fits with ⟨hpow, -⟩ | hdvd
        · exact hpow
        · rw [Nat.le_antisymm hcase (Nat.le_of_dvd T.objectSize_pos hdvd)]
          exact b.pageSize_powerOfTwo
      have hpages : T.pagesPerObject = 1 := by rw [pagesPerObject, if_pos hcase]
      rw [hpages, Nat.one_mul] at hbytes
      have hmod : p % b.pageSize = p - (T.layout m).base j := by
        obtain ⟨q, hq⟩ := hpage
        have hp : p = b.pageSize * q + (p - (T.layout m).base j) := by omega
        rw [hp, hq, Nat.mul_add_mod, Nat.add_sub_cancel_left]
        exact Nat.mod_eq_of_lt (by omega)
      rw [if_neg hone, and_pageSize, shiftRight_staticlog hpow, hsize, hmod]
  · obtain ⟨hcount, -, -⟩ := hj
    simp only [layout, if_neg hd] at hcount
    obtain rfl : j = 0 := by omega
    simp only [MiniHeapType.slotIndex, RandomMiniHeapDieHard.slotIndex,
      DieHard.RandomMiniHeapDieHard.computeOffset, Layout.index, layout, if_neg hd, Nat.zero_mul,
      Nat.zero_add]
    split
    · rename_i hpow
      exact shiftRight_staticlog hpow _
    · rfl

/-- The address computed for an index is the address of its slot. -/
theorem getObject_eq (h : T.Laid id m env) (hi : i < (T.layout m).slots) :
    T.getObject m i = (T.layout m).addr i := by
  have hact := h.activated
  by_cases hd : b.dieHarderOn = true
  · have hpow := T.objectsPerPage_powerOfTwo
    have hpage : RandomMiniHeapDieHarder.getPageFromIndex T m i =
        m.mapEntryToPage (i / T.objectsPerPage) := by
      rw [RandomMiniHeapDieHarder.getPageFromIndex, modulo_eq_mod, shiftRight_staticlog hpow]
      have hdm := Nat.div_add_mod i T.objectsPerPage
      have hsub : i - i % T.objectsPerPage = T.objectsPerPage * (i / T.objectsPerPage) := by omega
      rw [hsub, Nat.mul_div_cancel_left _ T.objectsPerPage_pos]
    have hmask : i &&& (T.objectsPerPage - 1) = i % T.objectsPerPage := by
      obtain ⟨k, hk⟩ := hpow
      rw [hk, Nat.and_two_pow_sub_one_eq_mod]
    simp only [MiniHeapType.getObject, if_pos hd, RandomMiniHeapDieHarder.getObject, hact,
      Bool.not_true, Bool.false_eq_true, if_false, Layout.addr, layout, hpage, hmask]
    split
    · rename_i hlarge
      have hone : T.objectsPerPage = 1 := by rw [objectsPerPage, if_neg (by omega)]
      rw [hone, Nat.mod_one, Nat.zero_mul, Nat.add_zero]
    · rfl
  · simp only [Layout.slots, layout, if_neg hd, Nat.one_mul] at hi
    simp only [MiniHeapType.getObject, RandomMiniHeapDieHard.getObject, hact, Bool.not_true,
      Bool.false_eq_true, if_false, Layout.addr, layout, if_neg hd, Nat.mod_eq_of_lt hi]

theorem computeIndex_eq (h : T.Laid id m env) (hp : (T.layout m).Contains i p) (hi : i < 2 ^ 32) :
    T.computeIndex m env p = i := by
  have hslot : T.slotIndex m env p = i := by rw [h.slotIndex_eq hp.inBlock, hp.index_eq]
  rw [← unsignedInt_of_lt hi, ← hslot, MiniHeapType.computeIndex, MiniHeapType.slotIndex]
  split <;> rfl

/-- The size computed for an address of a slot is the space left in the slot. -/
theorem getSize_eq (h : T.Laid id m env) (hp : (T.layout m).Contains i p) (hi : i < 2 ^ 32) :
    T.getSize m env p = T.objectSize - (p - (T.layout m).addr i) := by
  have hsub := hp.sub_addr
  have hsize : (T.layout m).size = T.objectSize := rfl
  rw [hsize] at hsub
  by_cases hd : b.dieHarderOn = true
  · rw [MiniHeapType.getSize, if_pos hd, RandomMiniHeapDieHarder.getSize]
    split
    · have hidx := h.computeIndex_eq hp hi
      have hobj := h.getObject_eq hp.1
      rw [MiniHeapType.computeIndex, if_pos hd] at hidx
      rw [MiniHeapType.getObject, if_pos hd] at hobj
      rw [hidx, hobj]
    · rename_i hsmall
      have hbase := h.dvd _ (Layout.block_lt hp.1)
      obtain ⟨q, hq⟩ := (T.objectSize_dvd (by omega)).trans hbase
      obtain ⟨-, hle, -⟩ := hp.inBlock
      have hp' : p = T.objectSize * q + (p - (T.layout m).base (i / (T.layout m).per)) := by omega
      rw [modulo_eq_mod, hsub]
      conv_lhs => rw [hp', Nat.mul_add_mod]
  · have hin := h.inBounds hp.inBlock
    rw [MiniHeapType.inBounds, if_neg hd] at hin
    have hbase : (T.layout m).base (i / (T.layout m).per) = m.miniHeap := if_neg hd
    rw [MiniHeapType.getSize, if_neg hd, RandomMiniHeapDieHard.getSize, hin, modulo_eq_mod, hsub, hbase]
    rfl

end Laid

end MiniHeapType

end DieHard
