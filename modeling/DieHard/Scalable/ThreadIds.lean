import DieHard.Scalable.Forwarding
import DieHard.Scalable.Pending

/-!
# Thread IDs that repeat

`ThreadIdManager` hands out IDs modulo `MAX_THREADS`, and an ID is the place of a heap in the registry
and of its queue in the pool. While no heap enters itself over another one, every free of another
heap's object goes to the queue that only this heap drains, and comes out of it at most once. The heap
that follows the first `MAX_THREADS` ones breaks this.
-/

namespace DieHard

open PerThreadFreeQueue HeapRegistry Transition

namespace ScalableHeap

variable {cfg : HeapConfig} {pool : PoolConfig} {s : ScalableHeap}

theorem Registered.drains (h : Registered cfg pool s) (hinv : Inv cfg pool s) {k heap : Nat}
    (hheap : (s.threads heap).registered = true) (hk : (s.threads k).pc.draining.isSome)
    (hid : threadId pool k = threadId pool heap) : k = heap := by
  have hpc := hinv.threads k
  have hdrains : k ≠ fallbackHeap ∧ (s.threads k).pc.allocating = true := by
    cases hd : (s.threads k).pc with
    | drain sz pc =>
      rw [hd] at hpc
      exact ⟨hpc, rfl⟩
    | drainBig sz t hd' n ptr =>
      rw [hd] at hpc
      exact ⟨hpc, rfl⟩
    | _ => simp [hd, Pc.draining] at hk
  by_contra hne
  exact h.threadId_ne (h.past k hdrains.1 hdrains.2) hheap hne hid

section Runs

variable {ok : ScalableHeap → Action → Prop} {init : ScalableHeap}

/-- IDs that repeat do no harm. -/
structure IdsHarmless (e : Execution (next cfg pool) ok init) : Prop where
  /-- A free by the thread of another heap puts the pointer into the queue of the heap that allocated
  the object. -/
  forward : ∀ a b t ptr heap sz answer, heap ≠ fallbackHeap → t ≠ fallbackHeap → t ≠ heap →
    (e.state a).live ptr = some ⟨some heap, sz⟩ → e.action a = .free t ptr →
    Returns e t a b answer → answer = .free true ∧ Queued pool (e.state (b + 1)) heap ptr
  /-- Nobody else drains the queue of a registered heap. -/
  drains : ∀ m ≤ e.length, ∀ k heap, ((e.state m).threads heap).registered = true →
    ((e.state m).threads k).pc.draining.isSome → threadId pool k = threadId pool heap → k = heap
  /-- All queues together deliver a pointer at most as often as it has been freed. -/
  delivered : ∀ m ≤ e.length, ∀ ptr ≠ 0,
    ∑ id ∈ Finset.range pool.maxThreads, ((e.state m).delivered id).count ptr ≤
      Nat.count (fun k => (e.action k).isFree ptr) m
  /-- A registered heap that looks up an object of another heap finds that heap. -/
  lookup : ∀ a b t ptr heap sz answer, heap ≠ fallbackHeap → t ≠ heap →
    ((e.state a).threads t).registered = true → (e.state a).live ptr = some ⟨some heap, sz⟩ →
    e.action a = .findOwner t ptr (threadId pool t) → Returns e t a b answer →
    answer = .owner (some (threadId pool heap)) ∧
      (e.state a).registry.entries (threadId pool heap) = some heap

variable {localRandom : Nat → BitVec 64} {random : Nat → Nat → Nat → BitVec 64}
  {mem : Addr → BitVec 8} {mapped : List (Addr × Nat)}

theorem Execution.tokens_le (e : Execution (next cfg pool) ok (start localRandom random mem mapped))
    (hok : ∀ s a, ok s a → MemoryOk cfg s a ∧ KeepsEntries pool s a) {m : Nat} (hm : m ≤ e.length)
    {ptr : Addr} (hptr : ptr ≠ 0) :
    (e.state m).tokens pool ptr ≤ Nat.count (fun k => (e.action k).isFree ptr) m := by
  have hmem (s : ScalableHeap) (a : Action) (ho : ok s a) : MemoryOk cfg s a := (hok s a ho).1
  apply e.keeps (I := fun m s => s.tokens pool ptr ≤ Nat.count (fun k => (e.action k).isFree ptr) m)
    (Nat.zero_le m)
  · rw [e.initial]
    exact (tokens_initial _ hptr).le
  · intro k _ hkm hle
    have hstep := tokens_step (Execution.inv e hmem (k := k) (by omega))
      (Execution.registered e hok (k := k) (by omega)) (Execution.idleBeyond e hmem (by omega))
      (hok _ _ (e.guarded k (by omega))).2 (Execution.stepAt e hmem (by omega)) hptr
    rw [Nat.count_succ]
    have hbool : (if (e.action k).isFree ptr = true then 1 else 0) = ((e.action k).isFree ptr).toNat := by
      cases (e.action k).isFree ptr <;> rfl
    omega

theorem delivered_le_kept (s : ScalableHeap) (id : Nat) (ptr : Addr) :
    (s.delivered id).count ptr ≤ (s.queueState id).kept pool ptr :=
  (Nat.le_add_right _ _).trans (Nat.le_add_right _ _)

/-- IDs that repeat do no harm in a run in which no heap enters the registry where another heap stands,
lookups of the DieHarder variant ask owners only and no push finds its queue full. -/
theorem idsHarmless
    (e : Execution (next cfg pool) (Forwards cfg pool) (start localRandom random mem mapped)) :
    IdsHarmless e := by
  have hmem (s : ScalableHeap) (a : Action) (ho : Forwards cfg pool s a) : MemoryOk cfg s a := ho.1
  have hok (s : ScalableHeap) (a : Action) (ho : Forwards cfg pool s a) :
      MemoryOk cfg s a ∧ KeepsEntries pool s a := ⟨ho.1, ho.2.1⟩
  refine ⟨(lookupExact e).forward, ?_, ?_, ?_⟩
  · intro m hm k heap hheap hk hid
    exact (Execution.registered e hok hm).drains (Execution.inv e hmem hm) hheap hk hid
  · intro m hm ptr hptr
    have hkept : ∑ id ∈ Finset.range pool.maxThreads, ((e.state m).delivered id).count ptr ≤
        ∑ id ∈ Finset.range pool.maxThreads, ((e.state m).queueState id).kept pool ptr :=
      Finset.sum_le_sum fun id _ => delivered_le_kept _ id ptr
    exact hkept.trans ((Nat.le_add_right _ _).trans (Execution.tokens_le e hok hm hptr))
  · intro a b t ptr heap sz answer ho hne hflag hl hact hret
    have hab := hret.lt
    have hlen := hret.lt_length
    have ha : a ≤ e.length := by omega
    have hreg := Execution.registered e hok ha
    -- the heap of a live object is registered, so its ID is not the one of the caller
    obtain ⟨x, hactive, -, rfl, -, -⟩ := (Execution.inv e hmem ha).live ptr heap sz hl
    have howner := hreg.owner _ hactive ho
    exact ⟨(lookupExact e).answer a b t ptr _ _ sz answer ho hl hact
      (hreg.threadId_ne hflag howner hne) hret, (hreg.known _ howner).1⟩

end Runs

theorem idsHarmless_forwarded : IdsHarmless forwardedExecution := idsHarmless forwardedExecution

/-- Heap 1 allocates an object, and heap 65 registers under the ID of heap 1; then heap 2 frees the
object. -/
def sixtyFiveHeaps : List Action :=
  List.replicate 65 .create ++ [.malloc 1 16] ++ accesses 1 7 4096 (0, 0) ++
    [.malloc 65 16] ++ accesses 65 2 0 (0, 0) ++ [.free 2 4096] ++ accesses 2 32 0 (0, 0)

private theorem guarded_sixtyFiveHeaps : Guarded (next (.libdieharder false false) .default)
    (fun s a => MemoryOk (.libdieharder false false) s a ∧ True) blank sixtyFiveHeaps :=
  guarded_of_small (guarded_of_bool (by decide +kernel))

def sixtyFiveExecution : Execution (next (.libdieharder false false) .default)
    (MemoryOk (.libdieharder false false)) blank :=
  .ofRun sixtyFiveHeaps (by decide +kernel) (guarded_sixtyFiveHeaps.mono fun _ _ h => h.1)

/-- The lookup of heap 2 asks heap 65 in the place of heap 1, and the call returns false. -/
theorem not_idsHarmless_sixtyFive : ¬ IdsHarmless sixtyFiveExecution := by
  intro h
  have hret : Returns sixtyFiveExecution 2 76 108 (.free false) :=
    .of_isIdle (by decide) (by decide +kernel) (by decide +kernel) (by decide +kernel)
  have hforward := h.forward 76 108 2 4096 1 16 _ (by decide) (by decide) (by decide)
    (by decide +kernel) rfl hret
  exact absurd hforward.1 (by decide)

end ScalableHeap

end DieHard
