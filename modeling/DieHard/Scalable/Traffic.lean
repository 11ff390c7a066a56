import DieHard.FreePool.Fifo
import DieHard.Scalable.Calls
import DieHard.Scalable.Lookup

/-!
# The queues of the scalable heap

While heaps keep their entries, each queue of the pool behaves as a queue with any number of producers
and one consumer: every step of the threads is one of its steps or none. What holds of such a queue
therefore holds of all queues of the pool.
-/

namespace DieHard

open PerThreadFreeQueue HeapRegistry Transition

/-- What a thread does at the queue `id` as a producer. -/
def Pc.pushing (id : Nat) : Pc → Option (Addr × PushPc)
  | .push ptr ownerId pc => if ownerId = id then some (ptr, pc) else none
  | _ => none

/-- What a thread does at its own queue as the consumer. -/
def Pc.draining : Pc → Option DrainPc
  | .drain _ pc => some pc
  | .drainBig _ currentTail currentHead processed ptr =>
    some (.callback currentTail currentHead processed ptr)
  | _ => none

def Pc.offQueue : Pc → Bool
  | .push _ _ _ | .drain _ _ | .drainBig _ _ _ _ _ => false
  | _ => true

theorem Pc.pushing_of_offQueue {pc : Pc} (h : pc.offQueue) (id : Nat) : pc.pushing id = none := by
  cases pc with
  | push ptr ownerId pc => cases h
  | _ => rfl

theorem Pc.draining_of_offQueue {pc : Pc} (h : pc.offQueue) : pc.draining = none := by
  cases pc with
  | drain sz pc => cases h
  | drainBig sz t hd n ptr => cases h
  | _ => rfl

namespace ScalableHeap

variable {cfg : HeapConfig} {pool : PoolConfig} {s s' : ScalableHeap}

/-- The queue `id` with its producers and with the heap of its registry entry as its consumer. -/
def queueState (s : ScalableHeap) (id : Nat) : QueueState Nat where
  queue := s.queues id
  producer t := (s.threads t).pc.pushing id
  consumer := (s.registry.entries id).bind fun k => (s.threads k).pc.draining
  claimed := s.claimed id
  delivered := s.delivered id

section Views

variable {id k : Nat} {t : OwnershipTrackingHeap}

private theorem producers_set (ht : s'.threads = Function.update s.threads k t) :
    (s'.queueState id).producer =
      Function.update (s.queueState id).producer k (t.pc.pushing id) := by
  funext j
  simp only [queueState, ht]
  by_cases hj : j = k
  · subst hj
    simp only [Function.update_self]
  · simp only [Function.update_of_ne hj]

private theorem consumer_set (ht : s'.threads = Function.update s.threads k t)
    (hr : s'.registry = s.registry) (hd : t.pc.draining = (s.threads k).pc.draining) :
    (s'.queueState id).consumer = (s.queueState id).consumer := by
  simp only [queueState, ht, hr]
  congr 1
  funext j
  by_cases hj : j = k
  · subst hj
    rw [Function.update_self, hd]
  · rw [Function.update_of_ne hj]

private theorem queueState_set (ht : s'.threads = Function.update s.threads k t)
    (hr : s'.registry = s.registry) (hd : t.pc.draining = (s.threads k).pc.draining) :
    s'.queueState id = ⟨s'.queues id, Function.update (s.queueState id).producer k (t.pc.pushing id),
      (s.queueState id).consumer, s'.claimed id, s'.delivered id⟩ := by
  rw [← producers_set ht, ← consumer_set ht hr hd]
  rfl

private theorem queueState_move (ht : s'.threads = Function.update s.threads k t)
    (hq : s'.queues id = s.queues id) (hc : s'.claimed id = s.claimed id)
    (hd : s'.delivered id = s.delivered id) (hr : s'.registry = s.registry)
    (hp : t.pc.pushing id = (s.threads k).pc.pushing id)
    (hdrain : t.pc.draining = (s.threads k).pc.draining) : s'.queueState id = s.queueState id := by
  rw [queueState_set ht hr hdrain, hq, hc, hd, hp,
    show (s.threads k).pc.pushing id = (s.queueState id).producer k from rfl, Function.update_eq_self]
  rfl

end Views

theorem offQueue_allocate (cfg : HeapConfig) (sz : Nat) : (allocate cfg sz).offQueue := by
  rw [allocate]
  split <;> rfl

theorem offQueue_countMalloc (sz : Nat) (h : OwnershipTrackingHeap) :
    (countMalloc cfg pool sz h).pc.offQueue := by
  simp only [countMalloc]
  split
  · rfl
  · exact offQueue_allocate cfg sz

theorem offQueue_callMalloc (k sz : Nat) (h : OwnershipTrackingHeap) :
    (callMalloc cfg pool k sz h).pc.offQueue := by
  rw [callMalloc]
  split
  · exact offQueue_allocate cfg sz
  · split
    · exact offQueue_countMalloc sz h
    · rfl

theorem offQueue_registered (call : Call) (pc : RegisterPc ⊕ Unit) (k : Nat)
    (h : OwnershipTrackingHeap) : (registered cfg pool call pc k h).pc.offQueue := by
  rcases pc with pc | ⟨⟩
  · rfl
  · cases call with
    | malloc sz => exact offQueue_countMalloc sz _
    | free ptr => rfl

theorem offQueue_refused (k : Nat) (again : Bool) (ptr : Addr) (h : OwnershipTrackingHeap) :
    (refused pool k again ptr h).offQueue := by
  rw [refused]
  split
  · rfl
  · split <;> rfl

theorem found_cases (pool : PoolConfig) (slow : Bool) (ptr : Addr) (owner : Option Nat) :
    (∃ id, owner = some id ∧ slow = true ∧ found pool slow ptr owner = .push ptr id .loadHead) ∨
      (found pool slow ptr owner).offQueue := by
  cases slow with
  | false => exact Or.inr rfl
  | true =>
    cases owner with
    | none => exact Or.inr rfl
    | some ownerId =>
      by_cases hid : ownerId < pool.maxThreads
      · exact Or.inl ⟨ownerId, rfl, rfl, by simp [found, hid]⟩
      · exact Or.inr (by simp [found, hid, Pc.offQueue])

private theorem consumer_other (h : Inv cfg pool s) {k id : Nat} {t : OwnershipTrackingHeap}
    (ht : s'.threads = Function.update s.threads k t) (hr : s'.registry = s.registry)
    (hid : id ≠ threadId pool k) : (s'.queueState id).consumer = (s.queueState id).consumer := by
  simp only [queueState, ht, hr]
  rcases he : s.registry.entries id with _ | j
  · rfl
  · have hj : j ≠ k := by
      rintro rfl
      exact hid (h.entries id j he).2.1.symm
    simp only [Option.bind_some, Function.update_of_ne hj]

private theorem pushing_of_allocating {pc : Pc} (h : pc.allocating = true) (id : Nat) :
    pc.pushing id = none := by
  cases pc with
  | push ptr ownerId pc => cases h
  | _ => rfl

/-- One access of a drain is one step of the consumer of its queue. -/
private theorem queueState_consume (h : Inv cfg pool s) (hreg : Registered cfg pool s) {k sz : Nat}
    {pc : DrainPc} (hk : k ≠ fallbackHeap) (hpc : (s.threads k).pc.draining = some pc)
    (hpast : (s.threads k).pc.allocating = true) (process : Process) (large : LargeHeap) (id : Nat) :
    (consume cfg pool { s with process := process, large := large } k sz pc).queueState id =
        s.queueState id ∨
      ∃ b, QueueState.next pool (s.queueState id) b = some
        ((consume cfg pool { s with process := process, large := large } k sz pc).queueState id) := by
  generalize hs' : consume cfg pool { s with process := process, large := large } k sz pc = s'
  have hthreads : s'.threads = Function.update s.threads k { s.threads k with
      pc := (drainStep pool (s.queues (threadId pool k)) pc).2.elim (.drain sz)
        fun _ => allocate cfg sz } := by
    rw [← hs']
    rfl
  have hregistry : s'.registry = s.registry := by rw [← hs']; rfl
  have hproducers : (s'.queueState id).producer = (s.queueState id).producer := by
    rw [producers_set hthreads]
    have hnone : ((drainStep pool (s.queues (threadId pool k)) pc).2.elim (Pc.drain sz)
        fun _ => allocate cfg sz).pushing id = none := by
      rcases (drainStep pool (s.queues (threadId pool k)) pc).2 with pc' | n
      · rfl
      · exact Pc.pushing_of_offQueue (offQueue_allocate cfg sz) id
    rw [hnone, ← pushing_of_allocating hpast id]
    exact Function.update_eq_self _ _
  by_cases hid : id = threadId pool k
  · subst hid
    have hentry := (hreg.known k (hreg.past k hk hpast)).1
    have hconsumer : (s.queueState (threadId pool k)).consumer = some pc := by
      simp only [queueState, hentry, Option.bind_some, hpc]
    have hconsumer' : (s'.queueState (threadId pool k)).consumer =
        (drainStep pool (s.queues (threadId pool k)) pc).2.elim some fun _ => none := by
      simp only [queueState, hregistry, hentry, Option.bind_some, hthreads, Function.update_self]
      rcases (drainStep pool (s.queues (threadId pool k)) pc).2 with pc' | n
      · rfl
      · exact Pc.draining_of_offQueue (offQueue_allocate cfg sz)
    refine Or.inr ⟨.consume, ?_⟩
    simp only [QueueState.next, hconsumer, Option.some.injEq]
    rw [show s'.queueState (threadId pool k) = ⟨s'.queues (threadId pool k),
      (s'.queueState (threadId pool k)).producer, (s'.queueState (threadId pool k)).consumer,
      s'.claimed (threadId pool k), s'.delivered (threadId pool k)⟩ from rfl, hproducers, hconsumer',
      ← hs']
    simp only [queueState, consume, setPc, setThread, Function.update_self]
  · refine Or.inl ?_
    rw [show s'.queueState id = ⟨s'.queues id, (s'.queueState id).producer,
      (s'.queueState id).consumer, s'.claimed id, s'.delivered id⟩ from rfl, hproducers,
      consumer_other h hthreads hregistry hid, ← hs']
    simp only [queueState, consume, setPc, setThread, Function.update_of_ne hid]

section Step

variable {k : Nat} {t : OwnershipTrackingHeap} {id : Nat}

private theorem queueState_offQueue (ht : s'.threads = Function.update s.threads k t)
    (hq : s'.queues = s.queues) (hc : s'.claimed = s.claimed) (hd : s'.delivered = s.delivered)
    (hr : s'.registry = s.registry) (hold : (s.threads k).pc.offQueue) (hnew : t.pc.offQueue) :
    s'.queueState id = s.queueState id := by
  refine queueState_move ht (congrFun hq id) (congrFun hc id) (congrFun hd id) hr ?_ ?_
  · rw [Pc.pushing_of_offQueue hold, Pc.pushing_of_offQueue hnew]
  · rw [Pc.draining_of_offQueue hold, Pc.draining_of_offQueue hnew]

private theorem queueState_register (hreg : Registered cfg pool s) {c : Choice} {call : Call}
    {pc : RegisterPc} (hpc : (s.threads k).pc = .register call pc)
    (hkeeps : KeepsEntries pool s (.step k c)) (hnew : t.pc.offQueue) :
    ({ s with registry := (registerStep pool s.registry k (threadId pool k) c.spurious pc).1 }.setThread
      k t).queueState id = s.queueState id := by
  have hregisters := registers_registerStep (hreg.publishing k call pc hpc) c.spurious
  generalize registerStep pool s.registry k (threadId pool k) c.spurious pc = r at hregisters
  have hold : (s.threads k).pc.offQueue := by rw [hpc]; rfl
  have hsame : ({ s with registry := r.1 }.setThread k t).queueState id =
      { s.queueState id with
        consumer := (r.1.entries id).bind fun j => (Function.update s.threads k t j).pc.draining } := by
    have hproducers : (({ s with registry := r.1 } : ScalableHeap).setThread k t |>.queueState id).producer =
        Function.update (s.queueState id).producer k (t.pc.pushing id) := producers_set rfl
    rw [Pc.pushing_of_offQueue hnew, ← Pc.pushing_of_offQueue hold id] at hproducers
    rw [show (s.queueState id).producer = fun j => (s.threads j).pc.pushing id from rfl,
      Function.update_eq_self] at hproducers
    simp only [queueState] at hproducers ⊢
    rw [hproducers]
    rfl
  rw [hsame]
  have hconsumer : (r.1.entries id).bind (fun j => (Function.update s.threads k t j).pc.draining) =
      (s.queueState id).consumer := by
    by_cases hid : id = threadId pool k
    · subst hid
      simp only [queueState, hregisters.entry, Option.bind_some, Function.update_self,
        Pc.draining_of_offQueue hnew]
      rcases he : s.registry.entries (threadId pool k) with _ | heap
      · rfl
      · obtain rfl := hreg.entry_self hpc hkeeps he
        exact (Pc.draining_of_offQueue hold).symm
    · simp only [queueState, hregisters.other id hid]
      rcases he : s.registry.entries id with _ | j
      · rfl
      · simp only [Option.bind_some]
        by_cases hj : j = k
        · subst hj
          rw [Function.update_self, Pc.draining_of_offQueue hnew, Pc.draining_of_offQueue hold]
        · rw [Function.update_of_ne hj]
  rw [hconsumer]

/-- The drain of a heap begins. -/
private theorem queueState_drain (h : Inv cfg pool s) (hreg : Registered cfg pool s) {sz head : Nat}
    (hk : k ≠ fallbackHeap) (hpc : (s.threads k).pc = .drainTail sz head) :
    (s.setPc k (.drain sz .loadTail)).queueState id = s.queueState id ∨
      ∃ b, QueueState.next pool (s.queueState id) b =
        some ((s.setPc k (.drain sz .loadTail)).queueState id) := by
  have hproducers : ((s.setPc k (.drain sz .loadTail)).queueState id).producer =
      (s.queueState id).producer := by
    rw [producers_set (k := k) rfl, show (s.queueState id).producer =
      Function.update (s.queueState id).producer k ((s.threads k).pc.pushing id) from
      (Function.update_eq_self _ _).symm, Function.update_idem, hpc]
    rfl
  by_cases hid : id = threadId pool k
  · subst hid
    have hentry := (hreg.known k (hreg.past k hk (by rw [hpc]; rfl))).1
    have hconsumer : (s.queueState (threadId pool k)).consumer = none := by
      simp only [queueState, hentry, Option.bind_some, hpc, Pc.draining]
    refine Or.inr ⟨.drain, ?_⟩
    simp only [QueueState.next, hconsumer, Option.some.injEq]
    simp only [queueState] at hproducers ⊢
    rw [hproducers]
    simp only [setPc, setThread, hentry, Option.bind_some, Function.update_self, Pc.draining]
  · refine Or.inl ?_
    have hconsumer : ((s.setPc k (.drain sz .loadTail)).queueState id).consumer =
        (s.queueState id).consumer := consumer_other h rfl rfl hid
    simp only [queueState] at hproducers hconsumer ⊢
    rw [hproducers, hconsumer]
    rfl

private theorem queueState_push {process : Process} {ptr ownerId : Nat}
    (hold : (s.threads k).pc.offQueue) (hptr : ptr ≠ 0) :
    ({ s with process := process }.setPc k (.push ptr ownerId .loadHead)).queueState id =
        s.queueState id ∨
      ∃ b, QueueState.next pool (s.queueState id) b =
        some (({ s with process := process }.setPc k (.push ptr ownerId .loadHead)).queueState id) := by
  have hset : ({ s with process := process }.setPc k (.push ptr ownerId .loadHead)).queueState id =
      ⟨s.queues id, Function.update (s.queueState id).producer k
        ((Pc.push ptr ownerId .loadHead).pushing id), (s.queueState id).consumer, s.claimed id,
        s.delivered id⟩ :=
    queueState_set (t := { s.threads k with pc := .push ptr ownerId .loadHead }) rfl rfl
      (Pc.draining_of_offQueue hold).symm
  have hnone : (s.queueState id).producer k = none := Pc.pushing_of_offQueue hold id
  by_cases hid : ownerId = id
  · refine Or.inr ⟨.push k ptr, ?_⟩
    rw [hset]
    simp only [QueueState.next, hnone, if_neg hptr, Option.some.injEq, Pc.pushing, if_pos hid]
    rfl
  · refine Or.inl ?_
    rw [hset]
    simp only [Pc.pushing, if_neg hid]
    rw [← hnone, Function.update_eq_self]
    rfl

/-- One access of a push. -/
private theorem queueState_produce {ptr ownerId : Nat} {pc : PushPc} (spurious : Bool)
    (hpc : (s.threads k).pc = .push ptr ownerId pc)
    (ht : s'.threads = Function.update s.threads k { s.threads k with
      pc := (pushStep pool (s.queues ownerId) ptr spurious pc).2.elim (.push ptr ownerId)
        fun _ => .idle (some (.free true)) })
    (hq : s'.queues = Function.update s.queues ownerId
      (pushStep pool (s.queues ownerId) ptr spurious pc).1)
    (hc : s'.claimed = Function.update s.claimed ownerId
      (s.claimed ownerId ++ QueueState.claims (s.queues ownerId) ptr spurious pc))
    (hd : s'.delivered = s.delivered) (hr : s'.registry = s.registry) :
    s'.queueState id = s.queueState id ∨
      ∃ b, QueueState.next pool (s.queueState id) b = some (s'.queueState id) := by
  have hdrain : ((pushStep pool (s.queues ownerId) ptr spurious pc).2.elim (Pc.push ptr ownerId)
      fun _ => .idle (some (.free true))).draining = (s.threads k).pc.draining := by
    rw [hpc]
    rcases (pushStep pool (s.queues ownerId) ptr spurious pc).2 with pc' | b <;> rfl
  by_cases hid : ownerId = id
  · subst hid
    have hproducer : (s.queueState ownerId).producer k = some (ptr, pc) := by
      simp only [queueState, hpc, Pc.pushing, if_true]
    have hpushing : ((pushStep pool (s.queues ownerId) ptr spurious pc).2.elim (Pc.push ptr ownerId)
        fun _ => .idle (some (.free true))).pushing ownerId =
        (pushStep pool (s.queues ownerId) ptr spurious pc).2.elim (fun pc' => some (ptr, pc'))
          fun _ => none := by
      rcases (pushStep pool (s.queues ownerId) ptr spurious pc).2 with pc' | b
      · exact if_pos rfl
      · rfl
    refine Or.inr ⟨.produce k spurious, ?_⟩
    rw [queueState_set ht hr hdrain, hpushing, hq, hc, hd]
    simp only [QueueState.next, hproducer, Function.update_self]
    rfl
  · refine Or.inl (queueState_move ht ?_ ?_ (congrFun hd id) hr ?_ hdrain)
    · rw [hq, Function.update_of_ne (Ne.symm hid)]
    · rw [hc, Function.update_of_ne (Ne.symm hid)]
    · rw [hpc]
      rcases (pushStep pool (s.queues ownerId) ptr spurious pc).2 with pc' | b
      · simp only [Sum.elim_inl, Pc.pushing, if_neg hid]
      · simp only [Sum.elim_inr, Pc.pushing, if_neg hid]

end Step

/-- Every step is one step of each queue, or none. -/
theorem queueState_step (h : Inv cfg pool s) (hreg : Registered cfg pool s) {a : Action}
    (hkeeps : KeepsEntries pool s a) (hs : Step cfg pool s a s') (id : Nat) :
    s'.queueState id = s.queueState id ∨
      ∃ b, QueueState.next pool (s.queueState id) b = some (s'.queueState id) := by
  cases hs with
  | create => exact Or.inl rfl
  | malloc hpc _ =>
    exact Or.inl (queueState_offQueue rfl rfl rfl rfl rfl (by rw [hpc]; rfl) (offQueue_callMalloc _ _ _))
  | freeNull hpc _ => exact Or.inl (queueState_offQueue rfl rfl rfl rfl rfl (by rw [hpc]; rfl) rfl)
  | free hpc _ _ => exact Or.inl (queueState_offQueue rfl rfl rfl rfl rfl (by rw [hpc]; rfl) rfl)
  | find hpc _ => exact Or.inl (queueState_offQueue rfl rfl rfl rfl rfl (by rw [hpc]; rfl) rfl)
  | register hpc _ =>
    exact Or.inl (queueState_register hreg hpc hkeeps (offQueue_registered _ _ _ _))
  | drainHead hpc hto =>
    refine Or.inl (queueState_offQueue rfl rfl rfl rfl rfl (by rw [hpc]; rfl) ?_)
    rcases hto with rfl | rfl
    · rfl
    · exact offQueue_allocate cfg _
  | @drainTail k c sz head pc hpc hto =>
    have hold : (s.threads k).pc.offQueue := by rw [hpc]; rfl
    rcases hto with rfl | rfl
    · have hk := h.threads k
      rw [hpc] at hk
      exact queueState_drain h hreg hk hpc
    · exact Or.inl (queueState_offQueue rfl rfl rfl rfl rfl hold (offQueue_allocate cfg sz))
  | @consume k c sz pc hpc _ =>
    have hk := h.threads k
    rw [hpc] at hk
    exact queueState_consume h hreg hk (by rw [hpc]; rfl) (by rw [hpc]; rfl) s.process s.large id
  | @deliver k c sz t hd n ptr x process hpc _ _ =>
    have hk := h.threads k
    rw [hpc] at hk
    exact queueState_consume h hreg hk (by rw [hpc]; rfl) (by rw [hpc]; rfl) process s.large id
  | callbackMiss hpc _ _ =>
    exact Or.inl (queueState_move rfl rfl rfl rfl rfl (by rw [hpc]; rfl) (by rw [hpc]; rfl))
  | @deliverBig k c sz t hd n ptr hpc =>
    have hk := h.threads k
    rw [hpc] at hk
    exact queueState_consume h hreg hk (by rw [hpc]; rfl) (by rw [hpc]; rfl) s.process _ id
  | grow _ _ => exact Or.inl rfl
  | room hpc _ => exact Or.inl (queueState_offQueue rfl rfl rfl rfl rfl (by rw [hpc]; rfl) rfl)
  | taken _ => exact Or.inl rfl
  | take hpc _ _ _ => exact Or.inl (queueState_offQueue rfl rfl rfl rfl rfl (by rw [hpc]; rfl) rfl)
  | mapLarge hpc _ _ _ => exact Or.inl (queueState_offQueue rfl rfl rfl rfl rfl (by rw [hpc]; rfl) rfl)
  | freeHit hpc _ _ => exact Or.inl (queueState_offQueue rfl rfl rfl rfl rfl (by rw [hpc]; rfl) rfl)
  | freeMiss hpc _ _ => exact Or.inl (queueState_offQueue rfl rfl rfl rfl rfl (by rw [hpc]; rfl) rfl)
  | largeHit hpc _ => exact Or.inl (queueState_offQueue rfl rfl rfl rfl rfl (by rw [hpc]; rfl) rfl)
  | largeMiss hpc _ _ =>
    exact Or.inl (queueState_offQueue rfl rfl rfl rfl rfl (by rw [hpc]; rfl) (offQueue_refused _ _ _ _))
  | @findOwner k c ptr e slow pc process r hpc hr _ =>
    have hold : (s.threads k).pc.offQueue := by rw [hpc]; rfl
    have hk := h.threads k
    rw [hpc] at hk
    rcases r with pc' | owner
    · exact Or.inl (queueState_offQueue rfl rfl rfl rfl rfl hold rfl)
    · rcases found_cases pool slow ptr owner with ⟨ownerId, rfl, rfl, hpush⟩ | hoff
      · rw [Sum.elim_inr, hpush]
        exact queueState_push hold (hk.1 rfl).2
      · exact Or.inl (queueState_offQueue rfl rfl rfl rfl rfl hold hoff)
  | @push k c ptr ownerId pc hpc => exact queueState_produce c.spurious hpc rfl rfl rfl rfl rfl

section Reach

variable {process : Process} {ok : ScalableHeap → Action → Prop}

theorem queueState_reach (hp : Placed cfg process) (hno : ∀ id, ¬ process.Active cfg id)
    (hok : ∀ s a, ok s a → MemoryOk cfg s a ∧ KeepsEntries pool s a)
    (hr : Reach (next cfg pool) ok (initial process) s) (id : Nat) :
    Reach (QueueState.next pool) (fun _ _ => True) QueueState.initial (s.queueState id) := by
  refine hr.simulate (f := fun s => s.queueState id) ?_
  intro r a r' hr ho hn
  have hinv := inv_reach hp hno (fun s a ho => (hok s a ho).1) hr
  have hs := step_of_next hinv (hok r a ho).1 hn
  rcases queueState_step hinv (registered_reach hp hno hok hr) (hok r a ho).2 hs id with he | ⟨b, hb⟩
  · exact Or.inl he
  · exact Or.inr ⟨b, trivial, hb⟩

theorem queueInv_reach (hp : Placed cfg process) (hno : ∀ id, ¬ process.Active cfg id)
    (hok : ∀ s a, ok s a → MemoryOk cfg s a ∧ KeepsEntries pool s a)
    (hr : Reach (next cfg pool) ok (initial process) s) {id : Nat}
    (hwrap : (s.claimed id).length < sizeRange) : QueueState.Inv pool (s.queueState id) :=
  QueueState.inv_reach (queueState_reach hp hno hok hr id) hwrap

end Reach

theorem Step.claimed_grows {a : Action} (hs : Step cfg pool s a s') (id : Nat) :
    s.claimed id <+: s'.claimed id := by
  cases hs with
  | @push k c ptr ownerId pc hpc =>
    by_cases hid : id = ownerId
    · subst hid
      simp only [setPc, setThread, Function.update_self]
      exact List.prefix_append _ _
    · simp only [setPc, setThread, Function.update_of_ne hid]
      exact List.prefix_refl _
  | _ => exact List.prefix_refl _

end ScalableHeap

end DieHard
