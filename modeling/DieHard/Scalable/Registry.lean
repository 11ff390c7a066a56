import DieHard.FreePool.Queue
import DieHard.Heap.DieHardHeap
import DieHard.Heap.LargeHeap

/-!
# The heap registry

`HeapRegistry` keeps, under the ID of each per-thread heap, a pointer to that heap, and a bound on
the IDs it has seen. `findOwner` asks the registered heaps in the order of their IDs for the size of
an object. Both operations are given one shared access at a time.
-/

namespace DieHard

/-- `_entries` and `_maxThreadId`; an entry without `registered` is `none`. -/
structure HeapRegistry where
  entries : Nat → Option Nat
  maxThreadId : Nat

namespace HeapRegistry

def empty : HeapRegistry := ⟨fun _ => none, 0⟩

/-- Where `registerHeap` stands: before the stores into the entry, before the load of
`_maxThreadId`, and before its compare-exchange. -/
inductive RegisterPc
  | publish
  | loadMax
  | casMax (oldMax : Nat)
  deriving DecidableEq, Repr

/-- The loop test `oldMax < threadId + 1`. -/
def raise (threadId oldMax : Nat) : RegisterPc ⊕ Unit :=
  if oldMax < threadId + 1 then .inl (.casMax oldMax) else .inr ()

/-- One access of `registerHeap(heap, threadId)`. A compare-exchange that succeeds leaves `oldMax` as
it is, so the loop tries once more. -/
def registerStep (pool : PoolConfig) (r : HeapRegistry) (heap threadId : Nat) (spurious : Bool) :
    RegisterPc → HeapRegistry × (RegisterPc ⊕ Unit)
  | .publish =>
    if pool.maxThreads ≤ threadId then (r, .inr ())
    else ({ r with entries := Function.update r.entries threadId (some heap) }, .inl .loadMax)
  | .loadMax => (r, raise threadId r.maxThreadId)
  | .casMax oldMax =>
    if r.maxThreadId = oldMax ∧ spurious = false then
      ({ r with maxThreadId := threadId + 1 }, .inl (.casMax oldMax))
    else (r, raise threadId r.maxThreadId)

/-- Where `findOwner` stands. `ask` begins a call of the entry's `getSize`; `askClass` continues it
at size class `c`, and `askBig` asks the large heap. -/
inductive FindPc
  | loadMax
  | entry (i maxId : Nat)
  | ask (i maxId heap : Nat)
  | askClass (i maxId heap : Nat) (cached : Int) (c : Nat)
  | askBig (i maxId : Nat)
  deriving DecidableEq, Repr

end HeapRegistry

/-- `_cachedSizeClass` of heap `k` becomes `c`. -/
def Process.cacheClass (s : Process) (k c : Nat) : Process :=
  { s with heaps := Function.update s.heaps k { s.heaps k with cachedSizeClass := c } }

namespace HeapRegistry

/-- The first access of `DieHardHeap::getSize`: the page table in the DieHarder variant, the cached
size class otherwise. -/
def askStep (cfg : HeapConfig) (process : Process) (ptr : Addr) (i maxId heap : Nat) :
    FindPc ⊕ Option Nat :=
  if cfg.dieHarderOn then
    if 0 < (process.getSize cfg heap ptr).1 then .inr (some i) else .inl (.askBig i maxId)
  else
    let cached := (process.heaps heap).cachedSizeClass
    if 0 ≤ cached ∧ cached < cfg.maxIndex ∧ 0 < process.classSizeOf cfg heap ptr cached.toNat then
      .inr (some i)
    else .inl (.askClass i maxId heap cached 0)

/-- One access of `findOwner(ptr, excludeThreadId)`. The right alternative is its answer, `none` for
`INVALID_THREAD_ID`. -/
def findStep (cfg : HeapConfig) (r : HeapRegistry) (large : LargeHeap) (process : Process)
    (ptr : Addr) (excludeThreadId : Nat) : FindPc → Process × (FindPc ⊕ Option Nat)
  | .loadMax => (process, .inl (.entry 0 r.maxThreadId))
  | .entry i maxId =>
    if maxId ≤ i then (process, .inr none)
    else if i = excludeThreadId then (process, .inl (.entry (i + 1) maxId))
    else match r.entries i with
      | none => (process, .inl (.entry (i + 1) maxId))
      | some heap => (process, .inl (.ask i maxId heap))
  | .ask i maxId heap => (process, askStep cfg process ptr i maxId heap)
  | .askClass i maxId heap cached c =>
    if cfg.maxIndex ≤ c then (process, .inl (.askBig i maxId))
    else if (c : Int) = cached then (process, .inl (.askClass i maxId heap cached (c + 1)))
    else if 0 < process.classSizeOf cfg heap ptr c then (process.cacheClass heap c, .inr (some i))
    else (process, .inl (.askClass i maxId heap cached (c + 1)))
  | .askBig i maxId =>
    if 0 < large.getSize ptr then (process, .inr (some i))
    else (process, .inl (.entry (i + 1) maxId))

end HeapRegistry

end DieHard
