import DieHard.Lib.Transition
import DieHard.Util.Size

/-!
# The per-thread queue of cross-thread frees

`PerThreadFreeQueue` is a ring of `FREE_QUEUE_CAPACITY` pointer slots with a claim counter
`_head` and a published consumption counter `_tail`. A push and a drain are given here one
atomic access at a time; what lies between two accesses is local to the calling thread.
-/

namespace DieHard

/-- The compile-time parameters of the cross-thread free path. -/
structure PoolConfig where
  maxThreads : Nat
  freeBatchSize : Nat
  freeQueueCapacity : Nat
  drainCheckInterval : Nat
  /-- `PerThreadFreeQueue _queues[MAX_THREADS]` -/
  maxThreads_pos : 0 < maxThreads
  /-- `static_assert(std::has_single_bit(static_cast<unsigned>(FREE_QUEUE_CAPACITY)))` -/
  capacity_single_bit : ∃ k < 32, freeQueueCapacity = 2 ^ k

/-- The values that `globalfreepool.h` and `objectownership.h` define by default. -/
def PoolConfig.default : PoolConfig where
  maxThreads := 64
  freeBatchSize := 32
  freeQueueCapacity := 1024
  drainCheckInterval := 16
  maxThreads_pos := by decide
  capacity_single_bit := ⟨10, by decide, by decide⟩

theorem PoolConfig.capacity_pos (cfg : PoolConfig) : 0 < cfg.freeQueueCapacity := by
  obtain ⟨k, _, h⟩ := cfg.capacity_single_bit
  rw [h]
  exact Nat.two_pow_pos k

theorem PoolConfig.capacity_lt (cfg : PoolConfig) : cfg.freeQueueCapacity < sizeRange := by
  obtain ⟨k, hk, h⟩ := cfg.capacity_single_bit
  rw [h]
  exact Nat.pow_lt_pow_right (by decide) (by omega)

/-- The shared fields of a `PerThreadFreeQueue`. -/
structure PerThreadFreeQueue where
  head : Nat
  tail : Nat
  slots : Nat → Addr

namespace PerThreadFreeQueue

/-- The constructor: both counters at zero and every slot `nullptr`. -/
def empty : PerThreadFreeQueue := ⟨0, 0, fun _ => 0⟩

/-- The ring position of a counter value: `index & (FREE_QUEUE_CAPACITY - 1)`. -/
def slotOf (cfg : PoolConfig) (index : Nat) : Nat := index &&& (cfg.freeQueueCapacity - 1)

theorem slotOf_eq_mod (cfg : PoolConfig) (index : Nat) :
    slotOf cfg index = index % cfg.freeQueueCapacity := by
  obtain ⟨k, _, h⟩ := cfg.capacity_single_bit
  rw [slotOf, h, Nat.and_two_pow_sub_one_eq_mod]

theorem slotOf_lt (cfg : PoolConfig) (index : Nat) : slotOf cfg index < cfg.freeQueueCapacity := by
  rw [slotOf_eq_mod]
  exact Nat.mod_lt _ cfg.capacity_pos

theorem slotOf_inj {cfg : PoolConfig} {m n : Nat} (hmn : m ≤ n)
    (hd : n < m + cfg.freeQueueCapacity) (h : slotOf cfg m = slotOf cfg n) : m = n := by
  rw [slotOf_eq_mod, slotOf_eq_mod] at h
  have hm := Nat.div_add_mod m cfg.freeQueueCapacity
  have hn := Nat.div_add_mod n cfg.freeQueueCapacity
  rw [h] at hm
  by_contra hne
  have hlt : m / cfg.freeQueueCapacity < n / cfg.freeQueueCapacity := by
    by_contra hge
    have := Nat.mul_le_mul_left cfg.freeQueueCapacity (Nat.not_lt.mp hge)
    omega
  have := Nat.mul_le_mul_left cfg.freeQueueCapacity hlt
  rw [Nat.mul_succ] at this
  omega

/-- `shouldDrain` on the two counter values it loaded. -/
def shouldDrain (cfg : PoolConfig) (head tail : Nat) : Bool :=
  decide (cfg.freeBatchSize ≤ sizeSub head tail)

/-- Where a call of `push` stands: before the first load of `_head`, before the load of `_tail`,
before the compare-exchange, and before the store into the claimed slot. -/
inductive PushPc
  | loadHead
  | loadTail (currentHead : Nat)
  | casHead (currentHead : Nat)
  | storeSlot (currentHead : Nat)
  deriving DecidableEq, Repr

/-- One atomic access of `push(ptr)`. `spurious` lets `compare_exchange_weak` fail although the
counter matches. The right alternative is the value that the call returns. -/
def pushStep (cfg : PoolConfig) (q : PerThreadFreeQueue) (ptr : Addr) (spurious : Bool) :
    PushPc → PerThreadFreeQueue × (PushPc ⊕ Bool)
  | .loadHead => (q, .inl (.loadTail q.head))
  | .loadTail currentHead =>
    if cfg.freeQueueCapacity ≤ sizeSub currentHead q.tail then (q, .inr false)
    else (q, .inl (.casHead currentHead))
  | .casHead currentHead =>
    if q.head = currentHead ∧ spurious = false then
      ({ q with head := sizeSucc currentHead }, .inl (.storeSlot currentHead))
    else (q, .inl (.loadTail q.head))
  | .storeSlot currentHead =>
    ({ q with slots := Function.update q.slots (slotOf cfg currentHead) ptr }, .inr true)

/-- Where a call of `drain` stands. `currentTail`, `currentHead` and `processed` are its locals;
`clearSlot` and `callback` carry the pointer that was read. -/
inductive DrainPc
  | loadTail
  | loadHead (currentTail : Nat)
  | loadSlot (currentTail currentHead processed : Nat)
  | clearSlot (currentTail currentHead processed : Nat) (ptr : Addr)
  | callback (currentTail currentHead processed : Nat) (ptr : Addr)
  | storeTail (currentTail processed : Nat)
  deriving DecidableEq, Repr

/-- One atomic access of `drain`. At `callback` the caller runs its callback on the pointer. The
right alternative is the number of objects that the call returns. -/
def drainStep (cfg : PoolConfig) (q : PerThreadFreeQueue) :
    DrainPc → PerThreadFreeQueue × (DrainPc ⊕ Nat)
  | .loadTail => (q, .inl (.loadHead q.tail))
  | .loadHead currentTail => (q, .inl (.loadSlot currentTail q.head 0))
  | .loadSlot currentTail currentHead processed =>
    if currentTail < currentHead then
      let ptr := q.slots (slotOf cfg currentTail)
      -- a claimed slot that its producer has not written yet ends the drain
      if ptr = 0 then (q, .inl (.storeTail currentTail processed))
      else (q, .inl (.clearSlot currentTail currentHead processed ptr))
    else (q, .inl (.storeTail currentTail processed))
  | .clearSlot currentTail currentHead processed ptr =>
    ({ q with slots := Function.update q.slots (slotOf cfg currentTail) 0 },
      .inl (.callback currentTail currentHead processed ptr))
  | .callback currentTail currentHead processed _ =>
    (q, .inl (.loadSlot (sizeSucc currentTail) currentHead (processed + 1)))
  | .storeTail currentTail processed => ({ q with tail := currentTail }, .inr processed)

end PerThreadFreeQueue

open PerThreadFreeQueue

/-- A queue with its callers. `claimed` and `delivered` record the pointers in the order their
head indices were claimed and in the order they were handed to callbacks. -/
structure QueueState (ι : Type) where
  queue : PerThreadFreeQueue
  producer : ι → Option (Addr × PushPc)
  consumer : Option DrainPc
  claimed : List Addr
  delivered : List Addr

namespace QueueState

variable {ι : Type} [DecidableEq ι]

def initial : QueueState ι := ⟨empty, fun _ => none, none, [], []⟩

/-- `push i ptr` and `drain` begin a call; `produce` and `consume` take its next atomic access. -/
inductive Action (ι : Type)
  | push (i : ι) (ptr : Addr)
  | produce (i : ι) (spurious : Bool)
  | drain
  | consume
  deriving DecidableEq

instance : Inhabited (Action ι) := ⟨.drain⟩

def claims (q : PerThreadFreeQueue) (ptr : Addr) (spurious : Bool) : PushPc → List Addr
  | .casHead currentHead => if q.head = currentHead ∧ spurious = false then [ptr] else []
  | _ => []

def delivers : DrainPc → List Addr
  | .callback _ _ _ ptr => [ptr]
  | _ => []

def next (cfg : PoolConfig) (s : QueueState ι) : Action ι → Option (QueueState ι)
  | .push i ptr =>
    match s.producer i with
    | none =>
      if ptr = 0 then none
      else some { s with producer := Function.update s.producer i (some (ptr, .loadHead)) }
    | some _ => none
  | .produce i spurious =>
    match s.producer i with
    | none => none
    | some (ptr, pc) =>
      let r := pushStep cfg s.queue ptr spurious pc
      some { s with
        queue := r.1
        producer := Function.update s.producer i (r.2.elim (fun pc' => some (ptr, pc')) fun _ => none)
        claimed := s.claimed ++ claims s.queue ptr spurious pc }
  | .drain =>
    match s.consumer with
    | none => some { s with consumer := some .loadTail }
    | some _ => none
  | .consume =>
    match s.consumer with
    | none => none
    | some pc =>
      let r := drainStep cfg s.queue pc
      some { s with
        queue := r.1
        consumer := r.2.elim some fun _ => none
        delivered := s.delivered ++ delivers pc }

end QueueState

end DieHard
