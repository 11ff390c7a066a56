import DieHard.Scalable.Machine

/-!
# The steps of the scalable heap

On fresh memory every step of a well-formed state is one of the steps below. Each says what it does to
the bitmaps: most leave every bit alone, an allocation sets the bit of one clear slot, and a free
clears the bit of the one slot that contains its pointer.
-/

namespace DieHard

open Blocks PerThreadFreeQueue HeapRegistry

variable {cfg : HeapConfig} {pool : PoolConfig}

/-- No slot is taken or released and no miniheap is added. -/
structure Process.Calm (s s' : Process) : Prop where
  layout : s.SameLayout s'
  bit_eq : ∀ y, s'.bit y = s.bit y

theorem Process.Calm.refl (s : Process) : s.Calm s := ⟨.refl s, fun _ => rfl⟩

theorem Process.Calm.placed {s s' : Process} (hc : s.Calm s') (h : Placed cfg s) : Placed cfg s' := by
  refine h.transfer hc.layout ?_
  intro id i hi
  have hbit := hc.bit_eq ⟨id, i⟩
  rw [show s'.bit ⟨id, i⟩ = true from hi] at hbit
  exact h.bits id i hbit.symm

theorem Process.calm_env {s : Process} {env : Env} {mem : Addr → BitVec 8}
    (hw : s.env.Wrote mem env) : s.Calm ⟨s.heaps, env⟩ := ⟨.env hw, fun _ => rfl⟩

theorem Process.calm_cacheClass (s : Process) (k c : Nat) : s.Calm (s.cacheClass k c) := by
  have hrandom (k' cls' : Nat) :
      ((s.cacheClass k c).heaps k').heaps cls' = (s.heaps k').heaps cls' := by
    by_cases hk : k' = k
    · subst hk
      simp [cacheClass]
    · simp [cacheClass, hk]
  refine ⟨⟨?_, rfl, rfl⟩, ?_⟩
  · intro k' cls'
    rw [hrandom]
    exact .refl _
  · intro y
    rw [Process.bit, Process.mini, hrandom]
    rfl

theorem findStep_calm (r : HeapRegistry) (large : LargeHeap) (s : Process) (ptr : Addr) (e : Nat)
    (pc : FindPc) : s.Calm (findStep cfg r large s ptr e pc).1 := by
  cases pc with
  | loadMax => exact .refl s
  | entry i maxId =>
    simp only [findStep]
    split
    · exact .refl s
    · split
      · exact .refl s
      · split <;> exact .refl s
  | ask i maxId heap => exact .refl s
  | askClass i maxId heap cached c =>
    simp only [findStep]
    split
    · exact .refl s
    · split
      · exact .refl s
      · split
        · exact s.calm_cacheClass heap c
        · exact .refl s
  | askBig i maxId =>
    simp only [findStep]
    split <;> exact .refl s

namespace ScalableHeap

/-- The `len` bytes at `base` share nothing with the pages of large objects. -/
def AvoidsLarge (cfg : HeapConfig) (large : LargeHeap) (base len : Nat) : Prop :=
  ∀ a, large.get a ≠ 0 → Apart base len a cfg.pageSize

def AvoidsLargeLayout (cfg : HeapConfig) (large : LargeHeap) (L : Layout) : Prop :=
  ∀ j < L.count, AvoidsLarge cfg large (L.base j) L.bytes

/-- The source of memory answers with aligned blocks that are disjoint from all that is mapped: the
blocks of the miniheaps and the pages of the large objects. -/
def MemoryOk (cfg : HeapConfig) (s : ScalableHeap) : Action → Prop
  | .step k choice => match (s.threads k).pc with
    | .grow sz => (s.process.random k (requestClass sz)).needsGrowth cfg = true →
      s.process.env.Fresh cfg
        ⟨k, requestClass sz, (s.process.random k (requestClass sz)).miniHeapsInUse⟩ choice.source ∧
      AvoidsLargeLayout cfg s.large (cfg.sourceLayout
        ⟨k, requestClass sz, (s.process.random k (requestClass sz)).miniHeapsInUse⟩ choice.source)
    | .mapLarge sz => choice.source 0 ≠ 0 ∧ cfg.pageSize ∣ choice.source 0 ∧
      (∀ r ∈ s.process.env.mapped,
        Apart (choice.source 0) (LargeHeap.extent cfg sz) r.1 r.2) ∧
      AvoidsLarge cfg s.large (choice.source 0) (LargeHeap.extent cfg sz)
    | _ => True
  | _ => True

/-- What growth of a heap does. -/
structure Grows (cfg : HeapConfig) (s : ScalableHeap) (k : Nat) (process : Process) : Prop where
  grew : s.process.Grew cfg process
  owner : ∀ id, process.Active cfg id → ¬ s.process.Active cfg id → id.owner = k
  unused : ∀ id, process.Active cfg id → ¬ s.process.Active cfg id → ∀ j p,
    (process.layout cfg id).InBlock j p → s.large.get p = 0

/-- What an action does, access by access, with the tests that select the access. -/
inductive Step (cfg : HeapConfig) (pool : PoolConfig) (s : ScalableHeap) :
    Action → ScalableHeap → Prop
  | create : Step cfg pool s .create { s with nextId := s.nextId + 1 }
  | malloc {k sz last} : (s.threads k).pc = .idle last → k ≤ s.nextId →
      Step cfg pool s (.malloc k sz) (s.setThread k (callMalloc cfg pool k sz (s.threads k)))
  | freeNull {k last} : (s.threads k).pc = .idle last → k ≤ s.nextId →
      Step cfg pool s (.free k 0) (s.setPc k (.idle (some (.free false))))
  | free {k ptr last} : (s.threads k).pc = .idle last → k ≤ s.nextId → ptr ≠ 0 →
      Step cfg pool s (.free k ptr)
        ({ s with live := Function.update s.live ptr none }.setPc k (.freeSmall false ptr))
  | find {k ptr e last} : (s.threads k).pc = .idle last → k ≤ s.nextId →
      Step cfg pool s (.findOwner k ptr e) (s.setPc k (.findOwner ptr e false .loadMax))
  | register {k c call pc} : (s.threads k).pc = .register call pc → k ≤ s.nextId →
      Step cfg pool s (.step k c)
        ({ s with registry :=
            (registerStep pool s.registry k (threadId pool k) c.spurious pc).1 }.setThread k
          (registered cfg pool call
            (registerStep pool s.registry k (threadId pool k) c.spurious pc).2 k (s.threads k)))
  | drainHead {k c sz pc} : (s.threads k).pc = .drainHead sz →
      pc = .drainTail sz (s.queues (threadId pool k)).head ∨ pc = allocate cfg sz →
      Step cfg pool s (.step k c) (s.setPc k pc)
  | drainTail {k c sz head pc} : (s.threads k).pc = .drainTail sz head →
      pc = .drain sz .loadTail ∨ pc = allocate cfg sz →
      Step cfg pool s (.step k c) (s.setPc k pc)
  | consume {k c sz pc} : (s.threads k).pc = .drain sz pc → QueueState.delivers pc = [] →
      Step cfg pool s (.step k c) (consume cfg pool s k sz pc)
  | deliver {k c sz t h n ptr x process} :
      (s.threads k).pc = .drain sz (.callback t h n ptr) → s.process.InObject cfg k ptr x →
      s.process.Freed cfg x ptr process →
      Step cfg pool s (.step k c)
        (ScalableHeap.consume cfg pool { s with process := process } k sz (.callback t h n ptr))
  | callbackMiss {k c sz t h n ptr process} :
      (s.threads k).pc = .drain sz (.callback t h n ptr) →
      (∀ x, ¬ s.process.InObject cfg k ptr x) → s.process.Calm process →
      Step cfg pool s (.step k c)
        ({ s with process := process }.setPc k (.drainBig sz t h n ptr))
  | deliverBig {k c sz t h n ptr} : (s.threads k).pc = .drainBig sz t h n ptr →
      Step cfg pool s (.step k c)
        (ScalableHeap.consume cfg pool { s with large := (s.large.free cfg ptr).2 } k sz
          (.callback t h n ptr))
  | grow {k c sz process} : (s.threads k).pc = .grow sz → Grows cfg s k process →
      Step cfg pool s (.step k c) { s with process := process }
  | room {k c sz} : (s.threads k).pc = .grow sz →
      s.process.Active cfg ⟨k, requestClass sz, 0⟩ →
      Step cfg pool s (.step k c) (s.setPc k (.getObject sz))
  | taken {k c sz} : (s.threads k).pc = .getObject sz → Step cfg pool s (.step k c) s
  | take {k c sz x process} : (s.threads k).pc = .getObject sz → x.id.owner = k →
      x.id.cls = requestClass sz → s.process.Took cfg x process →
      Step cfg pool s (.step k c)
        ({ s with
          process := process
          live := Function.update s.live ((s.process.layout cfg x.id).addr x.index)
            (some ⟨some k, sz⟩) }.setPc k
          (.idle (some (.malloc ((s.process.layout cfg x.id).addr x.index)))))
  | mapLarge {k c sz} : (s.threads k).pc = .mapLarge sz → c.source 0 ≠ 0 →
      (∀ r ∈ s.process.env.mapped,
        Apart (c.source 0) (LargeHeap.extent cfg sz) r.1 r.2) →
      AvoidsLarge cfg s.large (c.source 0) (LargeHeap.extent cfg sz) →
      Step cfg pool s (.step k c)
        ({ s with
          large := LargeHeap.set cfg (c.source 0) sz s.large
          live := Function.update s.live (c.source 0) (some ⟨none, sz⟩) }.setPc k
            (.idle (some (.malloc (c.source 0)))))
  | freeHit {k c again ptr x process} : (s.threads k).pc = .freeSmall again ptr →
      s.process.InObject cfg k ptr x → s.process.Freed cfg x ptr process →
      Step cfg pool s (.step k c)
        ({ s with process := process }.setPc k (.idle (some (.free true))))
  | freeMiss {k c again ptr process} : (s.threads k).pc = .freeSmall again ptr →
      (∀ x, ¬ s.process.InObject cfg k ptr x) → s.process.Calm process →
      Step cfg pool s (.step k c) ({ s with process := process }.setPc k (.freeBig again ptr))
  | largeHit {k c again ptr} : (s.threads k).pc = .freeBig again ptr → s.large.get ptr ≠ 0 →
      Step cfg pool s (.step k c)
        ({ s with large := LargeHeap.clear cfg ptr s.large }.setPc k (.idle (some (.free true))))
  | largeMiss {k c again ptr} : (s.threads k).pc = .freeBig again ptr → k ≤ s.nextId →
      s.large.get ptr = 0 →
      Step cfg pool s (.step k c) (s.setPc k (refused pool k again ptr (s.threads k)))
  | findOwner {k c ptr e slow pc process r} : (s.threads k).pc = .findOwner ptr e slow pc →
      findStep cfg s.registry s.large s.process ptr e pc = (process, r) → s.process.Calm process →
      Step cfg pool s (.step k c)
        ({ s with process := process }.setPc k
          (r.elim (.findOwner ptr e slow) (found pool slow ptr)))
  | push {k c ptr ownerId pc} : (s.threads k).pc = .push ptr ownerId pc →
      Step cfg pool s (.step k c)
        ({ s with
          queues := Function.update s.queues ownerId
            (pushStep pool (s.queues ownerId) ptr c.spurious pc).1
          claimed := Function.update s.claimed ownerId
            (s.claimed ownerId ++ QueueState.claims (s.queues ownerId) ptr c.spurious pc) }.setPc k
          ((pushStep pool (s.queues ownerId) ptr c.spurious pc).2.elim (.push ptr ownerId)
            fun _ => .idle (some (.free true))))

end ScalableHeap

end DieHard
