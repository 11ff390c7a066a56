import DieHard.Heap.Allocation
import DieHard.Scalable.Registry

/-!
# The scalable heap

Each thread has an `OwnershipTrackingHeap` over its own `DieHardHeap` and the shared large heap; a
locked fallback heap serves threads that have none yet. The machine below lets the threads call
`malloc` and `free` in any order and interleaves their accesses to shared state. What a thread does to
its own heap between two such accesses is one step: the bitmaps, counters and lists of miniheaps of a
heap are written by its own thread only.
-/

namespace DieHard

open PerThreadFreeQueue HeapRegistry

/-- The heap that serves threads without a heap. Heap `k + 1` is the `k`-th per-thread heap. -/
def fallbackHeap : Nat := 0

/-- `_threadId` of a per-thread heap: `nextId.fetch_add(1) % MAX_THREADS`. -/
def threadId (pool : PoolConfig) (heap : Nat) : Nat := (heap - 1) % pool.maxThreads

/-- A call of `OwnershipTrackingHeap`. -/
inductive Call
  | malloc (sz : Nat)
  | free (ptr : Addr)
  deriving DecidableEq

/-- The answer of a call that has returned. -/
inductive Answer
  | malloc (ptr : Addr)
  | free (freed : Bool)
  | owner (id : Option Nat)
  deriving DecidableEq

/-- Where a thread stands. `again` marks the second `SuperHeap::free` of `freeSlow`, `slow` a
`findOwner` that `freeSlow` has called. `drainBig` is the callback of a drain after the small heap has
refused the pointer. -/
inductive Pc
  | idle (last : Option Answer)
  | register (call : Call) (pc : RegisterPc)
  | drainHead (sz : Nat)
  | drainTail (sz head : Nat)
  | drain (sz : Nat) (pc : DrainPc)
  | drainBig (sz currentTail currentHead processed : Nat) (ptr : Addr)
  | grow (sz : Nat)
  | getObject (sz : Nat)
  | mapLarge (sz : Nat)
  | freeSmall (again : Bool) (ptr : Addr)
  | freeBig (again : Bool) (ptr : Addr)
  | findOwner (ptr : Addr) (excludeThreadId : Nat) (slow : Bool) (pc : FindPc)
  | push (ptr : Addr) (ownerId : Nat) (pc : PushPc)
  deriving DecidableEq

/-- The fields of an `OwnershipTrackingHeap` and the place of its thread. -/
structure OwnershipTrackingHeap where
  registered : Bool
  allocCount : Nat
  pc : Pc

/-- What a `malloc` has returned: the heap that allocated it, or `none` for the large heap, and the
size asked for. -/
structure Object where
  heap : Option Nat
  size : Nat
  deriving DecidableEq

/-- The state of the process. `live` records the objects that the program holds, `claimed` and
`delivered` the traffic of each queue. -/
structure ScalableHeap where
  process : Process
  large : LargeHeap
  registry : HeapRegistry
  queues : Nat → PerThreadFreeQueue
  nextId : Nat
  threads : Nat → OwnershipTrackingHeap
  live : Addr → Option Object
  claimed : Nat → List Addr
  delivered : Nat → List Addr

namespace ScalableHeap

def initial (process : Process) : ScalableHeap where
  process := process
  large := LargeHeap.empty
  registry := HeapRegistry.empty
  queues _ := PerThreadFreeQueue.empty
  nextId := 0
  threads _ := ⟨false, 0, .idle none⟩
  live _ := none
  claimed _ := []
  delivered _ := []

/-- What a step takes from outside: an answer of the source of memory, the random numbers of a draw,
and whether a weak compare-exchange fails although the values match. -/
structure Choice where
  source : Nat → Addr
  random : Nat × Nat
  spurious : Bool

/-- `create` makes the next per-thread heap. `malloc`, `free` and `findOwner` begin a call on heap
`k`, and `step` is the next access of its thread. -/
inductive Action
  | create
  | malloc (k sz : Nat)
  | free (k : Nat) (ptr : Addr)
  | findOwner (k : Nat) (ptr : Addr) (excludeThreadId : Nat)
  | step (k : Nat) (choice : Choice)

instance : Inhabited Action := ⟨.create⟩

variable (cfg : HeapConfig) (pool : PoolConfig)

def setThread (s : ScalableHeap) (k : Nat) (h : OwnershipTrackingHeap) : ScalableHeap :=
  { s with threads := Function.update s.threads k h }

def setPc (s : ScalableHeap) (k : Nat) (pc : Pc) : ScalableHeap :=
  s.setThread k { s.threads k with pc := pc }

/-- `CombineHeap::malloc` begins. -/
def allocate (sz : Nat) : Pc := if sz ≤ cfg.maxSize then .grow sz else .mapLarge sz

/-- `malloc` of a registered heap: every `DRAIN_CHECK_INTERVAL` calls it looks at its queue first. -/
def countMalloc (sz : Nat) (h : OwnershipTrackingHeap) : OwnershipTrackingHeap :=
  let allocCount := (h.allocCount + 1) % 2 ^ 32
  { h with
    allocCount := allocCount
    pc := if allocCount &&& (pool.drainCheckInterval - 1) = 0 then .drainHead sz
      else allocate cfg sz }

/-- `malloc(sz)` is called; the fallback heap is a plain `CombineHeap`. -/
def callMalloc (k sz : Nat) (h : OwnershipTrackingHeap) : OwnershipTrackingHeap :=
  if k = fallbackHeap then { h with pc := allocate cfg sz }
  else if h.registered then countMalloc cfg pool sz h
  else { h with pc := .register (.malloc sz) .publish }

/-- `doRegister` has returned. -/
def registered (call : Call) (pc : RegisterPc ⊕ Unit) (k : Nat) (h : OwnershipTrackingHeap) :
    OwnershipTrackingHeap :=
  match pc, call with
  | .inl pc, call => { h with pc := .register call pc }
  | .inr (), .malloc sz => countMalloc cfg pool sz { h with registered := true }
  | .inr (), .free ptr =>
    { h with registered := true, pc := .findOwner ptr (threadId pool k) true .loadMax }

/-- Both parts of `CombineHeap::free` have refused the pointer. -/
def refused (k : Nat) (again : Bool) (ptr : Addr) (h : OwnershipTrackingHeap) : Pc :=
  if again || decide (k = fallbackHeap) then .idle (some (.free false))
  else if h.registered then .findOwner ptr (threadId pool k) true .loadMax
  else .register (.free ptr) .publish

/-- `findOwner` has answered. -/
def found (slow : Bool) (ptr : Addr) (owner : Option Nat) : Pc :=
  if slow then
    match owner with
    | none => .freeSmall true ptr
    | some ownerId =>
      if ownerId < pool.maxThreads then .push ptr ownerId .loadHead else .idle (some (.free true))
  else .idle (some (.owner owner))

/-- One access of a drain to the queue of its own thread. -/
def consume (s : ScalableHeap) (k sz : Nat) (pc : DrainPc) : ScalableHeap :=
  let id := threadId pool k
  let r := drainStep pool (s.queues id) pc
  { s with
    queues := Function.update s.queues id r.1
    delivered := Function.update s.delivered id (s.delivered id ++ QueueState.delivers pc) }.setPc k
      (r.2.elim (.drain sz) fun _ => allocate cfg sz)

/-- The next access of heap `k`'s thread at a place of `malloc`. -/
def mallocStep (s : ScalableHeap) (k : Nat) (choice : Choice) : Pc → Option ScalableHeap
  | .drainHead sz =>
    some (s.setPc k (if threadId pool k < pool.maxThreads then
      .drainTail sz (s.queues (threadId pool k)).head else allocate cfg sz))
  | .drainTail sz head =>
    some (s.setPc k (if shouldDrain pool head (s.queues (threadId pool k)).tail then
      .drain sz .loadTail else allocate cfg sz))
  | .drain sz (.callback currentTail currentHead processed ptr) =>
    let r := s.process.free cfg k ptr
    let s := { s with process := r.2 }
    some (if r.1 then consume cfg pool s k sz (.callback currentTail currentHead processed ptr)
      else s.setPc k (.drainBig sz currentTail currentHead processed ptr))
  | .drain sz pc => some (consume cfg pool s k sz pc)
  | .drainBig sz currentTail currentHead processed ptr =>
    some (consume cfg pool { s with large := (s.large.free cfg ptr).2 } k sz
      (.callback currentTail currentHead processed ptr))
  | .grow sz =>
    let h := s.process.random k (requestClass sz)
    if h.needsGrowth cfg then
      let r := RandomHeap.getAnotherMiniHeap cfg k (requestClass sz) choice.source h s.process.env
      some { s with process := s.process.setRandom k (requestClass sz) r.1 r.2 }
    else some (s.setPc k (.getObject sz))
  | .getObject sz =>
    let r := RandomHeap.getObject cfg k (requestClass sz) choice.random
      (s.process.random k (requestClass sz)) s.process.env
    if r.1 = 0 then
      some { s with process := s.process.setRandom k (requestClass sz) r.2.1 r.2.2 }
    else
      let mem := if cfg.dieFastOn then DieFast.fill r.2.2.mem r.1 (getClassSize (requestClass sz))
        (s.process.heaps k).localRandomValue else r.2.2.mem
      some ({ s with
        process := s.process.setRandom k (requestClass sz) r.2.1.addInUse { r.2.2 with mem := mem }
        live := Function.update s.live r.1 (some ⟨some k, sz⟩) }.setPc k
          (.idle (some (.malloc r.1))))
  | .mapLarge sz =>
    let r := s.large.malloc cfg sz (choice.source 0)
    some ({ s with
      large := r.2
      live := Function.update s.live r.1 (some ⟨none, sz⟩) }.setPc k (.idle (some (.malloc r.1))))
  | _ => none

/-- The next access of heap `k`'s thread at a place of `free` or `findOwner`. -/
def freeStep (s : ScalableHeap) (k : Nat) (choice : Choice) : Pc → Option ScalableHeap
  | .freeSmall again ptr =>
    let r := s.process.free cfg k ptr
    some ({ s with process := r.2 }.setPc k
      (if r.1 then .idle (some (.free true)) else .freeBig again ptr))
  | .freeBig again ptr =>
    let r := s.large.free cfg ptr
    some ({ s with large := r.2 }.setPc k
      (if r.1.isSome then .idle (some (.free true)) else refused pool k again ptr (s.threads k)))
  | .findOwner ptr excludeThreadId slow pc =>
    let r := findStep cfg s.registry s.large s.process ptr excludeThreadId pc
    some ({ s with process := r.1 }.setPc k
      (r.2.elim (.findOwner ptr excludeThreadId slow) (found pool slow ptr)))
  | .push ptr ownerId pc =>
    let r := pushStep pool (s.queues ownerId) ptr choice.spurious pc
    some ({ s with
      queues := Function.update s.queues ownerId r.1
      claimed := Function.update s.claimed ownerId
        (s.claimed ownerId ++ QueueState.claims (s.queues ownerId) ptr choice.spurious pc) }.setPc k
          (r.2.elim (.push ptr ownerId) fun _ => .idle (some (.free true))))
  | _ => none

/-- The next access of heap `k`'s thread. -/
def threadStep (s : ScalableHeap) (k : Nat) (choice : Choice) : Option ScalableHeap :=
  match (s.threads k).pc with
  | .register call pc =>
    let r := registerStep pool s.registry k (threadId pool k) choice.spurious pc
    some ({ s with registry := r.1 }.setThread k (registered cfg pool call r.2 k (s.threads k)))
  | .freeSmall again ptr => freeStep cfg pool s k choice (.freeSmall again ptr)
  | .freeBig again ptr => freeStep cfg pool s k choice (.freeBig again ptr)
  | .findOwner ptr e slow pc => freeStep cfg pool s k choice (.findOwner ptr e slow pc)
  | .push ptr ownerId pc => freeStep cfg pool s k choice (.push ptr ownerId pc)
  | pc => mallocStep cfg pool s k choice pc

/-- A call begins. `free` takes the pointer from the program at once. -/
def call (s : ScalableHeap) (k : Nat) (next : ScalableHeap) : Option ScalableHeap :=
  match (s.threads k).pc with
  | .idle _ => if k ≤ s.nextId then some next else none
  | _ => none

def next (s : ScalableHeap) : Action → Option ScalableHeap
  | .create => some { s with nextId := s.nextId + 1 }
  | .malloc k sz => s.call k (s.setThread k (callMalloc cfg pool k sz (s.threads k)))
  | .free k ptr =>
    s.call k (if ptr = 0 then s.setPc k (.idle (some (.free false)))
      else { s with live := Function.update s.live ptr none }.setPc k (.freeSmall false ptr))
  | .findOwner k ptr excludeThreadId =>
    s.call k (s.setPc k (.findOwner ptr excludeThreadId false .loadMax))
  | .step k choice => if k ≤ s.nextId then threadStep cfg pool s k choice else none

end ScalableHeap

end DieHard
