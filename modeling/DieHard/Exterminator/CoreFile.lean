import DieHard.Lib.Codec
import DieHard.Exterminator.Heap

/-!
# Core files

When a replica fails, its heap writes itself to a core file, which the patcher maps and reads word by
word: a header, the partitions, and the large objects.
-/

namespace DieHard.Exterminator

open Codec

def bytes (w : Word) : List Byte :=
  [w.extractLsb' 0 8, w.extractLsb' 8 8, w.extractLsb' 16 8, w.extractLsb' 24 8]

def word (a b c d : Byte) : Word := d ++ c ++ b ++ a

def words : List Byte → List Word
  | a :: b :: c :: d :: rest => word a b c d :: words rest
  | _ => []

/-- `n` bytes of memory from address `start` on. -/
def memoryBytes (memory : Word → Byte) (start : Word) (n : Nat) : List Byte :=
  (List.range n).map fun k => memory (start + BitVec.ofNat 32 k)

/-- `dump_bitmap` -/
def BitArray.dumpBitmap (b : BitArray) (elements : Nat) : List Byte :=
  (List.range (elements / 32)).flatMap fun item => bytes (b item)

def SlotInfo.dump (info : SlotInfo) : List Byte :=
  bytes info.id ++ bytes info.allocCallsite ++ bytes info.freeCallsite ++ bytes info.freeTime

/-- `PartitionInfo::dump_heap` -/
def PartitionInfo.dumpHeap (p : PartitionInfo) (memory : Word → Byte) : List Byte :=
  bytes (BitVec.ofNat 32 p.size) ++ bytes (BitVec.ofNat 32 p.elements) ++ bytes p.partitionStart ++
    p.allocated.dumpBitmap p.elements ++ p.hasData.dumpBitmap p.elements ++
    (List.range p.elements).flatMap (fun idx => (p.slotInfo idx).dump) ++
    memoryBytes memory p.partitionStart (p.size * p.elements)

/-- `dump_los` -/
def LargeObjectManager.dumpLos (m : LargeObjectManager) (memory : Word → Byte) : List Byte :=
  bytes m.ct ++ (List.range largeEntries).flatMap fun i =>
    if m.values i ≠ 0 then
      bytes (m.addrs i) ++ bytes (m.values i) ++ memoryBytes memory (m.addrs i) (m.values i).toNat
    else []

/-- `DIEHARD_BAD_REPLICA` -/
def badReplica : Word := 2

namespace DieHardHeap

/-- The flags that `dump_heap` writes. -/
def dumpedFlags (h : DieHardHeap) (corrupt : Bool) : Word :=
  if corrupt then h.heapConfigFlags ||| badReplica else h.heapConfigFlags

/-- `dump_heap` -/
def dumpHeap (h : DieHardHeap) (corrupt : Bool) : List Byte :=
  bytes h.globalCt ++ bytes h.sentinel ++ bytes h.dlBase ++ bytes h.stackBase ++
    bytes (h.dumpedFlags corrupt) ++ bytes (BitVec.ofNat 32 numberOfClasses) ++
    (List.range numberOfClasses).flatMap (fun sc => (h.partitions sc).dumpHeap h.memory) ++
    h.largeObjects.dumpLos h.memory

end DieHardHeap

structure Pinfo where
  size : Word
  sizeInWords : Word
  elements : Word
  vaddrStart : Word
  vaddrEnd : Word
  /-- the words at `bitmap_start` -/
  bitmap : List Word
  hasData : List Word
  slotInfo : List SlotInfo
  /-- the words at `heap_start` -/
  heap : List Word

structure Replica where
  globalAllocs : Word
  sentinelValue : Word
  ptrBase : Word
  stackBase : Word
  heapConfigFlags : Word
  partitions : List Pinfo
  losSize : Word → Option Word
  /-- the words that `los_map` points to -/
  losMap : Word → Option (List Word)

def readSlotInfo : Reader Word SlotInfo := do
  let id ← next
  let allocCallsite ← next
  let freeCallsite ← next
  let freeTime ← next
  pure ⟨id, allocCallsite, freeCallsite, freeTime⟩

/-- `read_partition` -/
def readPartition : Reader Word Pinfo := do
  let size ← next
  let elements ← next
  let vaddrStart ← next
  let bitmap ← take (elements / 32).toNat
  let hasData ← take (elements / 32).toNat
  let slotInfo ← replicate readSlotInfo elements.toNat
  let heap ← take (size / 4 * elements).toNat
  pure ⟨size, size / 4, elements, vaddrStart, vaddrStart + size * elements, bitmap, hasData, slotInfo, heap⟩

structure LosEntry where
  vaddr : Word
  size : Word
  contents : List Word

def readLosEntry : Reader Word LosEntry := do
  let vaddr ← next
  let size ← next
  let contents ← take (size / 4).toNat
  pure ⟨vaddr, size, contents⟩

/-- `los[vaddr] = ...` for one entry after the other, for `los_size` and `los_map` -/
def storeEntries {β : Type} (field : LosEntry → β) (entries : List LosEntry) (los : Word → Option β) :
    Word → Option β :=
  entries.foldl (fun los e => Function.update los e.vaddr (some (field e))) los

/-- `read_core` up to the tables that it computes from the file; the loops count with an `int`. -/
def readFile : Reader Word Replica := do
  let globalAllocs ← next
  let sentinelValue ← next
  let ptrBase ← next
  let stackBase ← next
  let heapConfigFlags ← next
  let numberOfPartitions ← next
  let partitions ← replicate readPartition numberOfPartitions.toInt.toNat
  let numLosEntries ← next
  let entries ← replicate readLosEntry numLosEntries.toInt.toNat
  pure ⟨globalAllocs, sentinelValue, ptrBase, stackBase, heapConfigFlags, partitions,
    storeEntries LosEntry.size entries fun _ => none, storeEntries LosEntry.contents entries fun _ => none⟩

namespace Pinfo

/-- `DXhasData(which)` -/
def dxHasData (p : Pinfo) (which : Nat) : Bool := BitArray.isSet (fun item => p.hasData.getD item 0) which

/-- `check_sentinel` -/
def checkSentinel (p : Pinfo) (sentinelValue : Word) (dx : Nat) : Bool :=
  (List.range p.sizeInWords.toNat).all fun k =>
    p.heap.getD (p.sizeInWords.toNat * dx + k) 0 == sentinelValue

/-- The allocation in each slot, for the table `pmap`. -/
def slots (p : Pinfo) : List (Word × Nat) :=
  (List.range p.elements.toNat).map fun j => ((p.slotInfo.getD j ⟨0, 0, 0, 0⟩).id, j)

end Pinfo

namespace Replica

/-- `make_partition_maps`: the partition and the slot of each allocation; it asserts that no allocation
comes after the last one. -/
def makePartitionMaps (r : Replica) : Option (Word → Option (Nat × Nat)) :=
  let slots := r.partitions.zipIdx.flatMap fun (p, i) => p.slots.map fun (id, j) => (id, i, j)
  if slots.all fun (id, _) => id ≤ r.globalAllocs then
    some (slots.foldl (fun pmap (id, place) => Function.update pmap id (some place)) fun _ => none)
  else none

/-- `verify_canaries`: a slot without data that is not full of the sentinel makes the replica bad. -/
def verifyCanaries (r : Replica) : Replica :=
  let intact := r.partitions.all fun p => (List.range p.elements.toNat).all fun k =>
    p.dxHasData k || p.checkSentinel r.sentinelValue k
  if intact then r else { r with heapConfigFlags := r.heapConfigFlags ||| badReplica }

end Replica

/-- `read_core` -/
def readCore (core : List Byte) : Option (Replica × (Word → Option (Nat × Nat))) := do
  let (r, _) ← readFile (words core)
  let pmap ← r.makePartitionMaps
  pure (r.verifyCanaries, pmap)

end DieHard.Exterminator
