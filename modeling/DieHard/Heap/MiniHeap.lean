import DieHard.Heap.Config
import DieHard.Util.BitMap

/-!
# Miniheaps

A miniheap serves objects of one size from a bitmap and a random index. `RandomMiniHeapDieHard`
keeps its objects in one block; `RandomMiniHeapDieHarder` maps them page by page and finds them
again through a page table that all heaps share.
-/

namespace DieHard

/-- `PageTableEntry`; the table is keyed by page number. -/
structure PageTableEntry where
  heap : MiniId
  objectIndex : Nat
  deriving DecidableEq, Repr

/-- The errors that DieFast prints. -/
inductive Report
  | overflow (ptr : Addr) (offset : Nat)
  | doubleFree (ptr : Addr)
  deriving DecidableEq, Repr

/-- What all heaps of a process share. `mapped` records the ranges handed out by the source of
memory. -/
structure Env where
  mem : Addr → BitVec 8
  pageTable : Nat → Option PageTableEntry
  mapped : List (Addr × Nat)
  reports : List Report

namespace Env

def report (env : Env) (r : Report) : Env := { env with reports := env.reports ++ [r] }

@[simp] theorem report_mem (env : Env) (r : Report) : (env.report r).mem = env.mem := rfl
@[simp] theorem report_pageTable (env : Env) (r : Report) :
    (env.report r).pageTable = env.pageTable := rfl
@[simp] theorem report_mapped (env : Env) (r : Report) : (env.report r).mapped = env.mapped := rfl

def map (env : Env) (base len : Nat) : Env := { env with mapped := (base, len) :: env.mapped }

end Env

/-- Byte `k` of a little-endian word. -/
def byteOf (val : BitVec 64) (k : Nat) : BitVec 8 := (val >>> (8 * k)).setWidth 8

def loadWord (mem : Addr → BitVec 8) (p : Addr) : BitVec 64 :=
  mem (p + 7) ++ mem (p + 6) ++ mem (p + 5) ++ mem (p + 4) ++ mem (p + 3) ++ mem (p + 2) ++
    mem (p + 1) ++ mem p

/-- `memset(ptr, 0, sz)`. -/
def memsetZero (mem : Addr → BitVec 8) (ptr sz : Nat) : Addr → BitVec 8 :=
  fun a => if ptr ≤ a ∧ a < ptr + sz then 0 else mem a

namespace DieFast

/-- How often the loops over a buffer turn: the number of its words becomes an `int`. -/
def words (sz : Nat) : Nat := (BitVec.ofNat 32 (sz / 8)).toInt.toNat

/-- `checkNot`: some word of the buffer differs from `val`. -/
def checkNot (mem : Addr → BitVec 8) (ptr sz : Nat) (val : BitVec 64) : Bool :=
  (List.range (words sz)).any fun i => loadWord mem (ptr + 8 * i) != val

/-- `fill`: store `val` in every word of the buffer. -/
def fill (mem : Addr → BitVec 8) (ptr sz : Nat) (val : BitVec 64) : Addr → BitVec 8 :=
  fun a => if ptr ≤ a ∧ a < ptr + words sz * 8 then byteOf val ((a - ptr) % 8) else mem a

theorem words_eq {sz : Nat} (h : sz / 8 < 2 ^ 31) : words sz = sz / 8 := by
  rw [words, BitVec.toInt_eq_toNat_of_lt, BitVec.toNat_ofNat, Nat.mod_eq_of_lt (by omega),
    Int.toNat_natCast]
  rw [BitVec.toNat_ofNat, Nat.mod_eq_of_lt (by omega)]
  omega

theorem words_le (sz : Nat) : words sz ≤ sz / 8 := by
  have hle := Nat.mod_le (sz / 8) (2 ^ 32)
  rw [words, BitVec.toInt_eq_toNat_cond, BitVec.toNat_ofNat]
  split <;> omega

end DieFast

namespace Env

def computePageNumber (cfg : HeapConfig) (addr : Addr) : Nat := addr >>> staticlog cfg.pageSize

def getHeap (cfg : HeapConfig) (env : Env) (ptr : Addr) : Option MiniId :=
  (env.pageTable (computePageNumber cfg ptr)).map PageTableEntry.heap

def getObjectIndex (cfg : HeapConfig) (env : Env) (ptr : Addr) : Nat :=
  match env.pageTable (computePageNumber cfg ptr) with
  | none => 0
  | some entry => entry.objectIndex

def insert (env : Env) (pageNumber : Nat) (heap : MiniId) (objectIndex : Nat) : Env :=
  { env with pageTable := Function.update env.pageTable pageNumber (some ⟨heap, objectIndex⟩) }

end Env

/-- The fields of a miniheap. `miniHeap` belongs to the DieHard variant and `mapEntryToPage` to the
DieHarder variant. -/
structure MiniHeap where
  isHeapActivated : Bool
  freedValue : BitVec 64
  miniHeapBitmap : BitMap
  miniHeap : Addr
  mapEntryToPage : Nat → Addr

/-- The constructor; `random` is the draw that becomes the freed value. -/
def MiniHeap.new (random : BitVec 64) : MiniHeap :=
  ⟨false, random ||| 1, BitMap.empty, 0, fun _ => 0⟩

variable (cfg : HeapConfig) (id : MiniId)

namespace RandomMiniHeapDieHard

def computeOffset (m : MiniHeap) (ptr : Addr) : Nat := ptr - m.miniHeap

def inBounds (m : MiniHeap) (ptr : Addr) : Bool :=
  !(decide (ptr < m.miniHeap) ||
    decide (m.miniHeap + cfg.nObjects id * getClassSize id.cls ≤ ptr) || decide (m.miniHeap = 0))

def computeIndex (m : MiniHeap) (ptr : Addr) : Nat :=
  let offset := computeOffset m ptr
  if (getClassSize id.cls).isPowerOfTwo then offset >>> staticlog (getClassSize id.cls)
  else offset / getClassSize id.cls

def getObject (m : MiniHeap) (index : Nat) : Addr :=
  if !m.isHeapActivated then 0 else m.miniHeap + index * getClassSize id.cls

def getSize (m : MiniHeap) (ptr : Addr) : Nat :=
  if !inBounds cfg id m ptr then 0
  else getClassSize id.cls - modulo (getClassSize id.cls) (computeOffset m ptr)

/-- `activate`; `source` answers the request for the heap's memory. -/
def activate (source : Nat → Addr) (m : MiniHeap) (env : Env) : MiniHeap × Env :=
  if m.isHeapActivated then (m, env)
  else
    let sz := cfg.nObjects id * getClassSize id.cls
    let m := { m with miniHeap := source 0 }
    if m.miniHeap = 0 then ({ m with isHeapActivated := true }, env)
    else
      let env := env.map m.miniHeap sz
      let m := { m with miniHeapBitmap := BitMap.reserve (cfg.nObjects id), isHeapActivated := true }
      if cfg.dieFastOn then
        (m, { env with mem := DieFast.fill env.mem m.miniHeap sz m.freedValue })
      else (m, env)

end RandomMiniHeapDieHard

namespace RandomMiniHeapDieHarder

def inBounds (m : MiniHeap) (env : Env) (ptr : Addr) : Bool :=
  m.isHeapActivated && decide (env.getHeap cfg ptr = some id)

def computeIndex (env : Env) (ptr : Addr) : Nat :=
  let pageIdx := env.getObjectIndex cfg ptr
  if cfg.objectsPerPage id.cls = 1 then pageIdx
  else
    let offset := ptr &&& (cfg.pageSize - 1)
    pageIdx + (offset >>> staticlog (getClassSize id.cls))

def setPageFromIndex (m : MiniHeap) (index : Nat) (pageAddr : Addr) : MiniHeap :=
  { m with mapEntryToPage :=
      Function.update m.mapEntryToPage (index >>> staticlog (cfg.objectsPerPage id.cls)) pageAddr }

def getPageFromIndex (m : MiniHeap) (index : Nat) : Addr :=
  let index := index - modulo (cfg.objectsPerPage id.cls) index
  m.mapEntryToPage (index >>> staticlog (cfg.objectsPerPage id.cls))

def getObject (m : MiniHeap) (index : Nat) : Addr :=
  if !m.isHeapActivated then 0
  else if cfg.pageSize < getClassSize id.cls then getPageFromIndex cfg id m index
  else
    let whichObject := index &&& (cfg.objectsPerPage id.cls - 1)
    getPageFromIndex cfg id m index + whichObject * getClassSize id.cls

/-- `getSize` of the large and of the small objects. -/
def getSize (m : MiniHeap) (env : Env) (ptr : Addr) : Nat :=
  if cfg.pageSize ≤ getClassSize id.cls then
    let start := getObject cfg id m (computeIndex cfg id env ptr)
    getClassSize id.cls - (ptr - start)
  else getClassSize id.cls - modulo (getClassSize id.cls) ptr

/-- The page table entries for the pages of the objects from `objectIndex` on. -/
def insertPages (objectIndex : Nat) (pagesAddr : Addr) (env : Env) : Env :=
  (List.range (cfg.pagesPerObject id.cls)).foldl
    (fun env p => env.insert (Env.computePageNumber cfg (pagesAddr + p * cfg.pageSize)) id objectIndex)
    env

/-- One turn of the mapping loop, with the answer of `MmapWrapper::map`. -/
def mapObjects (source : Nat → Addr) (s : MiniHeap × Env) (turn : Nat) : MiniHeap × Env :=
  let objectIndex := turn * cfg.objectsPerPage id.cls
  let pagesAddr := source turn
  let bytesToAllocate := cfg.pagesPerObject id.cls * cfg.pageSize
  (setPageFromIndex cfg id s.1 objectIndex pagesAddr,
    insertPages cfg id objectIndex pagesAddr (s.2.map pagesAddr bytesToAllocate))

/-- How often the mapping loop turns: `objectIndex` runs to `NObjects` in steps of
`ObjectsPerPage`. -/
def mapTurns : Nat :=
  (cfg.nObjects id + cfg.objectsPerPage id.cls - 1) / cfg.objectsPerPage id.cls

def internalActivate (source : Nat → Addr) (m : MiniHeap) (env : Env) : MiniHeap × Env :=
  let m := { m with miniHeapBitmap := BitMap.reserve (cfg.nObjects id) }
  let s := (List.range (mapTurns cfg id)).foldl (mapObjects cfg id source) (m, env)
  ({ s.1 with isHeapActivated := true }, s.2)

def activate (source : Nat → Addr) (m : MiniHeap) (env : Env) : MiniHeap × Env :=
  if m.isHeapActivated then (m, env) else internalActivate cfg id source m env

end RandomMiniHeapDieHarder

namespace RandomMiniHeap

def inBounds (m : MiniHeap) (env : Env) (ptr : Addr) : Bool :=
  if cfg.dieHarderOn then RandomMiniHeapDieHarder.inBounds cfg id m env ptr
  else RandomMiniHeapDieHard.inBounds cfg id m ptr

def computeIndex (m : MiniHeap) (env : Env) (ptr : Addr) : Nat :=
  if cfg.dieHarderOn then RandomMiniHeapDieHarder.computeIndex cfg id env ptr
  else RandomMiniHeapDieHard.computeIndex id m ptr

def getObject (m : MiniHeap) (index : Nat) : Addr :=
  if cfg.dieHarderOn then RandomMiniHeapDieHarder.getObject cfg id m index
  else RandomMiniHeapDieHard.getObject id m index

def getSize (m : MiniHeap) (env : Env) (ptr : Addr) : Nat :=
  if cfg.dieHarderOn then RandomMiniHeapDieHarder.getSize cfg id m env ptr
  else RandomMiniHeapDieHard.getSize cfg id m ptr

def activate (source : Nat → Addr) (m : MiniHeap) (env : Env) : MiniHeap × Env :=
  if cfg.dieHarderOn then RandomMiniHeapDieHarder.activate cfg id source m env
  else RandomMiniHeapDieHard.activate cfg id source m env

end RandomMiniHeap

namespace RandomMiniHeapCore

/-- `overflowIndex`: the offset of the first word that is not the freed value. -/
def overflowIndex (m : MiniHeap) (env : Env) (ptr : Addr) : Nat :=
  ((List.range (getClassSize id.cls / 8)).takeWhile
    fun i => loadWord env.mem (ptr + 8 * i) == m.freedValue).length * 8

/-- Report the object at `p` when it does not hold the freed value. -/
def reportIfOverflowed (m : MiniHeap) (env : Env) (p : Addr) : Env :=
  if DieFast.checkNot env.mem p (getClassSize id.cls) m.freedValue then
    env.report (.overflow p (overflowIndex id m env p))
  else env

/-- `checkOverflowError`; the indices are `unsigned int`. Both variants instantiate the core with
its `DieHarderOn` set, so both check. -/
def checkOverflowError (m : MiniHeap) (index : Nat) (env : Env) : Env :=
  let leftIndex := (index + 2 ^ 32 - 1) % 2 ^ 32 % cfg.nObjects id
  let rightIndex := (index + 1) % 2 ^ 32 % cfg.nObjects id
  let env :=
    if m.miniHeapBitmap.isSet leftIndex then env
    else reportIfOverflowed id m env (RandomMiniHeap.getObject cfg id m leftIndex)
  if m.miniHeapBitmap.isSet rightIndex then env
  else reportIfOverflowed id m env (RandomMiniHeap.getObject cfg id m rightIndex)

/-- `malloc` with its random draw; `0` when the drawn slot is taken. -/
def malloc (random : Nat) (m : MiniHeap) (env : Env) : Addr × MiniHeap × Env :=
  let index := modulo (cfg.nObjects id) random
  let r := m.miniHeapBitmap.tryToSet index
  let m := { m with miniHeapBitmap := r.1 }
  if !r.2 then (0, m, env)
  else
    let ptr := RandomMiniHeap.getObject cfg id m index
    let env :=
      if cfg.dieFastOn then checkOverflowError cfg id m index (reportIfOverflowed id m env ptr)
      else env
    (ptr, m, env)

/-- `free`; true iff the object was on this heap and was freed by this call. -/
def free (ptr : Addr) (m : MiniHeap) (env : Env) : Bool × MiniHeap × Env :=
  if !RandomMiniHeap.inBounds cfg id m env ptr then (false, m, env)
  else
    let index := RandomMiniHeap.computeIndex cfg id m env ptr
    let r := m.miniHeapBitmap.reset index
    let m := { m with miniHeapBitmap := r.1 }
    let env := if r.2 || !cfg.dieFastOn then env else env.report (.doubleFree ptr)
    let env := if cfg.dieFastOn then checkOverflowError cfg id m index env else env
    (r.2, m, env)

end RandomMiniHeapCore

namespace RandomMiniHeap

/-- What is written over a freed object, from the freed address on: zeros in the DieHarder variant,
the freed value in the DieHard variant with DieFast. -/
def trash (m : MiniHeap) (ptr : Addr) (mem : Addr → BitVec 8) : Addr → BitVec 8 :=
  if cfg.dieHarderOn then memsetZero mem ptr (getClassSize id.cls)
  else if cfg.dieFastOn then DieFast.fill mem ptr (getClassSize id.cls) m.freedValue
  else mem

/-- `RandomMiniHeapDieHard::free` and `RandomMiniHeapDieHarderBase::free`. -/
def free (ptr : Addr) (m : MiniHeap) (env : Env) : Bool × MiniHeap × Env :=
  let r := RandomMiniHeapCore.free cfg id ptr m env
  if r.1 then (true, r.2.1, { r.2.2 with mem := trash cfg id r.2.1 ptr r.2.2.mem }) else r

end RandomMiniHeap

end DieHard
