import DieHard.Scalable.Calls

/-!
# Objects of the fallback heap

Before a thread has its own heap the fallback heap serves its requests. `getSize` asks the fallback
heap when the heap of the thread does not know a pointer; `free` asks the registry instead, which the
fallback heap never enters. So nothing but the fallback heap's own `free` clears a bit of its bitmaps.
-/

namespace DieHard

open Blocks PerThreadFreeQueue HeapRegistry Transition

theorem Process.Freed.bit_of_ne {cfg : HeapConfig} {s s' : Process} {x y : Slot} {p : Addr}
    (hf : s.Freed cfg x p s') (hne : y ≠ x) : s'.bit y = s.bit y := by
  simp [hf.bit_eq, hne]

theorem Process.Took.bit_of_set {cfg : HeapConfig} {s s' : Process} {x y : Slot}
    (ht : s.Took cfg x s') (hb : s.bit y = true) : s'.bit y = true := by
  simp [ht.bit_eq, hb]

namespace ScalableHeap

variable {cfg : HeapConfig} {pool : PoolConfig} {s s' : ScalableHeap}

/-- The access is the fallback heap's own `free` of an address in slot `x`. -/
def FreedByFallback (cfg : HeapConfig) (s : ScalableHeap) (x : Slot) (a : Action) : Prop :=
  ∃ c again p, a = .step fallbackHeap c ∧ (s.threads fallbackHeap).pc = .freeSmall again p ∧
    s.process.InObject cfg fallbackHeap p x

/-- A step other than the fallback heap's own `free` clears no bit of the fallback heap. -/
theorem Inv.keeps_fallback_bit {a : Action} (h : Inv cfg pool s) (hs : Step cfg pool s a s') {x : Slot}
    (hx : x.id.owner = fallbackHeap) (hb : s.process.bit x = true)
    (hno : ¬ FreedByFallback cfg s x a) : s'.process.bit x = true := by
  cases hs with
  | deliver hpc hy hf =>
    -- only a per-thread heap drains a queue
    rename_i k c sz t head n ptr y process
    have hk : k ≠ fallbackHeap := by
      have hok := h.threads k
      rwa [hpc] at hok
    have hne : x ≠ y := by
      rintro rfl
      exact hk (hy.1.symm.trans hx)
    exact (hf.bit_of_ne hne).trans hb
  | freeHit hpc hy hf =>
    rename_i k c again ptr y process
    by_cases hne : x = y
    · subst hne
      obtain rfl : k = fallbackHeap := hy.1.symm.trans hx
      exact absurd ⟨c, again, ptr, rfl, hpc, hy⟩ hno
    · exact (hf.bit_of_ne hne).trans hb
  | callbackMiss _ _ hc => exact (hc.bit_eq x).trans hb
  | grow _ hg => exact (hg.grew.bit_eq x).trans hb
  | take _ _ _ ht => exact ht.bit_of_set hb
  | freeMiss _ _ hc => exact (hc.bit_eq x).trans hb
  | findOwner _ _ hc => exact (hc.bit_eq x).trans hb
  | _ => exact hb

section Runs

variable {ok : ScalableHeap → Action → Prop} {init : ScalableHeap}

/-- With action `a` a thread that has its own heap frees the object at `ptr`, which the fallback heap
has allocated in slot `x`. -/
structure FreesFallbackObject (e : Execution (next cfg pool) ok init) (a t : Nat) (ptr : Addr)
    (x : Slot) : Prop where
  action : e.action a = .free t ptr
  lt_length : a < e.length
  thread : t ≠ fallbackHeap
  live : ∃ sz, (e.state a).live ptr = some ⟨some fallbackHeap, sz⟩
  owner : x.id.owner = fallbackHeap
  addr : ((e.state a).process.layout cfg x.id).addr x.index = ptr
  bit : (e.state a).process.bit x = true

/-- Slot `x` is free at moment `m`, and the fallback heap's own `free` has not been called for it since
action `a`. -/
structure ReturnedToFallback (e : Execution (next cfg pool) ok init) (a m : Nat) (x : Slot) : Prop where
  le : a ≤ m
  le_length : m ≤ e.length
  other : ∀ k, a ≤ k → k < m → ¬ FreedByFallback cfg (e.state k) x (e.action k)
  clear : (e.state m).process.bit x = false

def Settled (pool : PoolConfig) (s : ScalableHeap) : Prop :=
  (∀ k ≤ s.nextId, (s.threads k).pc.isIdle) ∧
    ∀ id < pool.maxThreads, (s.queues id).head = (s.queues id).tail

instance (pool : PoolConfig) (s : ScalableHeap) : Decidable (Settled pool s) :=
  inferInstanceAs (Decidable (_ ∧ _))

/-- Once nothing is running or waiting any more, every object of the fallback heap that a thread with
its own heap has freed is back. -/
def ReturnsFallbackObjects (e : Execution (next cfg pool) ok init) : Prop :=
  ∀ a t ptr x, FreesFallbackObject e a t ptr x → Settled pool (e.state e.length) →
    ∃ m, ReturnedToFallback e a m x

variable {localRandom : Nat → BitVec 64} {random : Nat → Nat → Nat → BitVec 64}
  {mem : Addr → BitVec 8} {mapped : List (Addr × Nat)}

theorem Execution.keeps_fallback_bit
    (e : Execution (next cfg pool) (MemoryOk cfg) (start localRandom random mem mapped)) {a m : Nat}
    {x : Slot} (ham : a ≤ m) (hm : m ≤ e.length) (hx : x.id.owner = fallbackHeap)
    (hb : (e.state a).process.bit x = true)
    (hno : ∀ k, a ≤ k → k < m → ¬ FreedByFallback cfg (e.state k) x (e.action k)) :
    (e.state m).process.bit x = true := by
  have hok : ∀ s a, MemoryOk cfg s a → MemoryOk cfg s a := fun _ _ h => h
  apply e.keeps (I := fun _ s => s.process.bit x = true) ham hb
  intro k hak hkm hbit
  have hinv := Execution.inv e hok (k := k) (by omega)
  have hstep := Execution.stepAt e hok (k := k) (by omega)
  exact hinv.keeps_fallback_bit hstep hx hbit (hno k hak hkm)

/-- In no run does a free by a thread with its own heap give an object back to the fallback heap. -/
theorem never_returnedToFallback
    (e : Execution (next cfg pool) (MemoryOk cfg) (start localRandom random mem mapped)) :
    ¬ ∃ a t ptr x m, FreesFallbackObject e a t ptr x ∧ ReturnedToFallback e a m x := by
  rintro ⟨a, t, ptr, x, m, hfree, hret⟩
  have hset := Execution.keeps_fallback_bit e hret.le hret.le_length hfree.owner hfree.bit hret.other
  rw [hret.clear] at hset
  cases hset

end Runs

def earlyObject : List Action :=
  [.malloc fallbackHeap 16] ++ accesses fallbackHeap 3 4096 (0, 0) ++ [.create, .free 1 4096] ++
    accesses 1 11 0 (0, 0)

private theorem guarded_earlyObject : Guarded (next (.libdieharder false false) .default)
    (fun s a => MemoryOk (.libdieharder false false) s a ∧ True) blank earlyObject :=
  guarded_of_small (guarded_of_bool (by decide +kernel))

def earlyObjectExecution : Execution (next (.libdieharder false false) .default)
    (MemoryOk (.libdieharder false false)) blank :=
  .ofRun earlyObject (by decide +kernel) (guarded_earlyObject.mono fun _ _ h => h.1)

/-- The call of heap 1 returns false, nothing is queued, and the object is still allocated. -/
theorem not_returnsFallbackObjects : ¬ ReturnsFallbackObjects earlyObjectExecution := by
  intro h
  have hfree : FreesFallbackObject earlyObjectExecution 5 1 4096 ⟨⟨fallbackHeap, 0, 0⟩, 0⟩ :=
    ⟨rfl, by decide, by decide, ⟨16, by decide +kernel⟩, rfl, by decide +kernel, by decide +kernel⟩
  obtain ⟨m, hret⟩ := h 5 1 4096 _ hfree (by decide +kernel)
  have hset := Execution.keeps_fallback_bit earlyObjectExecution hret.le hret.le_length hfree.owner
    hfree.bit hret.other
  rw [hret.clear] at hset
  cases hset

end ScalableHeap

end DieHard
