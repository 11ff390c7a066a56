import DieHard.Scalable.Protocol

/-!
# The balance of frees and releases

A free is pending from its call until the heap that allocated the object has cleared its bit: it is with
a thread, or its pointer waits in the queue of the heap. Each access of the protocol keeps the number of
frees equal to the number of releases and pending frees.
-/

namespace DieHard

open Blocks PerThreadFreeQueue HeapRegistry Transition

/-- The pointer that the next access gives to the thread's own heap. -/
def Pc.releasing : Pc → Option Addr
  | .freeSmall _ ptr => some ptr
  | .drain _ (.callback _ _ _ ptr) => some ptr
  | _ => none

def Pc.storing : Pc → Option Addr
  | .push ptr _ (.storeSlot _) => some ptr
  | _ => none

namespace ScalableHeap

variable {cfg : HeapConfig} {pool : PoolConfig} {s s' : ScalableHeap}

/-- The action releases `ptr`: `SuperHeap::free` of its thread returns true. -/
def releases (cfg : HeapConfig) (s : ScalableHeap) (ptr : Addr) : Action → Bool
  | .step k _ => (s.threads k).pc.releasing == some ptr && (s.process.free cfg k ptr).1
  | _ => false

/-- The action stores `ptr` in a queue. -/
def stores (s : ScalableHeap) (ptr : Addr) : Action → Bool
  | .step k _ => (s.threads k).pc.storing == some ptr
  | _ => false

def drains (s : ScalableHeap) : Action → Bool
  | .step k _ => (s.threads k).pc.draining.isSome
  | _ => false

/-- The copies of `ptr` that wait in the queues. -/
def waiting (pool : PoolConfig) (s : ScalableHeap) (ptr : Addr) : Nat :=
  ∑ id ∈ Finset.range pool.maxThreads, (s.queueState id).undelivered pool ptr

/-- The frees of `ptr` that are not released yet. -/
def pending (pool : PoolConfig) (s : ScalableHeap) (ptr : Addr) : Nat :=
  s.inFlight ptr + s.waiting pool ptr

/-- Slot `x` is allocated and begins at `ptr`. -/
structure AllocatedAt (cfg : HeapConfig) (s : ScalableHeap) (x : Slot) (ptr : Addr) : Prop where
  bit : s.process.bit x = true
  addr : (s.process.layout cfg x.id).addr x.index = ptr

/-- A free of the object in slot `x` by heap `k`'s thread is on its way: to its own heap, or to the queue
of the heap that allocated it. -/
def Aims (pool : PoolConfig) (ptr : Addr) (x : Slot) (k : Nat) (pc : Pc) : Prop :=
  k = x.id.owner ∧ pc = .freeSmall false ptr ∨
    k ≠ x.id.owner ∧ Forwarding pool ptr x.id.owner x.id.cls k pc

/-- Every allocated slot has its object with the program or one pending free, and what is with the
program or pending is an allocated slot. -/
structure Accounted (cfg : HeapConfig) (pool : PoolConfig) (s : ScalableHeap) : Prop where
  balance : ∀ x ptr, AllocatedAt cfg s x ptr →
    (if s.live ptr = none then 0 else 1) + s.pending pool ptr = 1
  live : ∀ ptr, s.live ptr ≠ none → ∃ x, AllocatedAt cfg s x ptr
  freeing : ∀ k ptr, (s.threads k).pc.freeing = some ptr →
    ∃ x, AllocatedAt cfg s x ptr ∧ Aims pool ptr x k (s.threads k).pc
  inHand : ∀ k ptr, (s.threads k).pc.inHand = some ptr → ∃ x, AllocatedAt cfg s x ptr ∧ x.id.owner = k
  queued : ∀ id < pool.maxThreads, ∀ j < pool.freeQueueCapacity, (s.queues id).slots j ≠ 0 →
    ∃ x, AllocatedAt cfg s x ((s.queues id).slots j) ∧ threadId pool x.id.owner = id
  small : ∀ k sz t h n ptr, (s.threads k).pc ≠ .drainBig sz t h n ptr

section AllocatedAt

variable {x y : Slot} {ptr : Addr}

theorem AllocatedAt.contains (h : AllocatedAt cfg s x ptr) (hp : Placed cfg s.process) :
    (s.process.layout cfg x.id).Contains x.index ptr := by
  rw [← h.addr]
  exact Layout.contains_addr (hp.bit_slot h.bit)

theorem AllocatedAt.ne_zero (h : AllocatedAt cfg s x ptr) (hp : Placed cfg s.process) : ptr ≠ 0 := by
  rw [← h.addr]
  exact hp.addr_ne_zero (hp.bit_active h.bit) (hp.bit_slot h.bit)

theorem AllocatedAt.eq_of_contains (h : AllocatedAt cfg s x ptr) (hp : Placed cfg s.process)
    (ha : s.process.Active cfg y.id) (hy : (s.process.layout cfg y.id).Contains y.index ptr) : x = y :=
  hp.slot_eq (hp.bit_active h.bit) ha (h.contains hp) hy

theorem AllocatedAt.unique (h : AllocatedAt cfg s x ptr) (hy : AllocatedAt cfg s y ptr)
    (hp : Placed cfg s.process) : x = y :=
  h.eq_of_contains hp (hp.bit_active hy.bit) (hy.contains hp)

theorem AllocatedAt.step {a : Action} (h : AllocatedAt cfg s x ptr) (hp : Placed cfg s.process)
    (hs : Step cfg pool s a s') (hb : s'.process.bit x = true) : AllocatedAt cfg s' x ptr := by
  refine ⟨hb, ?_⟩
  rw [hs.extends.layout_eq _ (hp.bit_active h.bit)]
  exact h.addr

end AllocatedAt

theorem Inv.free_fst (h : Inv cfg pool s) {k : Nat} {ptr : Addr} :
    (s.process.free cfg k ptr).1 = true ↔ ∃ x, s.process.InObject cfg k ptr x := by
  rcases h.placed.free_cases k ptr with ⟨x, process, hx, hfree, -⟩ | ⟨hno, env, hfree, -⟩
  · rw [hfree]
    exact ⟨fun _ => ⟨x, hx⟩, fun _ => rfl⟩
  · rw [hfree]
    exact ⟨Bool.noConfusion, fun hx => absurd hx (not_exists.mpr hno)⟩

theorem AllocatedAt.free_fst {x : Slot} {ptr : Addr} (h : AllocatedAt cfg s x ptr)
    (hinv : Inv cfg pool s) {k : Nat} : (s.process.free cfg k ptr).1 = decide (x.id.owner = k) := by
  rw [Bool.eq_iff_iff, hinv.free_fst, decide_eq_true_eq]
  constructor
  · rintro ⟨y, howner, hb, hy⟩
    rwa [h.eq_of_contains hinv.placed (hinv.placed.bit_active hb) hy]
  · intro howner
    exact ⟨x, howner, h.bit, h.contains hinv.placed⟩

theorem Forwarding.freeing {ptr : Addr} {owner cls k : Nat} {pc : Pc}
    (h : Forwarding pool ptr owner cls k pc) : pc.freeing = some ptr := by
  cases pc with
  | freeSmall again p =>
    obtain ⟨rfl, -⟩ := h
    rfl
  | freeBig again p =>
    obtain ⟨rfl, -⟩ := h
    rfl
  | register call pc =>
    obtain rfl : call = .free ptr := h
    rfl
  | findOwner p e slow pc =>
    obtain ⟨rfl, -, rfl, -⟩ := h
    rfl
  | push p id pc =>
    obtain ⟨rfl, -⟩ := h
    rfl
  | _ => exact h.elim

theorem Aims.freeing {ptr : Addr} {x : Slot} {k : Nat} {pc : Pc} (h : Aims pool ptr x k pc) :
    pc.freeing = some ptr := by
  rcases h with ⟨-, rfl⟩ | ⟨-, h⟩
  · rfl
  · exact Forwarding.freeing h

section Steps

variable {a : Action} {ptr : Addr}

theorem releases_of_freeing {k : Nat} {c : Choice} (hf : (s.threads k).pc.freeing ≠ some ptr)
    (hd : (s.threads k).pc.draining = none) : releases cfg s ptr (.step k c) = false := by
  have hne : (s.threads k).pc.releasing ≠ some ptr := by
    cases hpc : (s.threads k).pc with
    | freeSmall again p =>
      rw [hpc] at hf
      exact hf
    | drain sz pc =>
      rw [hpc] at hd
      cases hd
    | _ => exact Option.some_ne_none _ ∘ Eq.symm
  rw [releases, beq_eq_false_iff_ne.mpr hne, Bool.false_and]

theorem storing_eq_some {pc : Pc} :
    pc.storing = some ptr ↔ ∃ id n, pc = .push ptr id (.storeSlot n) := by
  constructor
  · intro h
    cases pc with
    | push p id pc =>
      cases pc with
      | storeSlot n =>
        obtain rfl := Option.some.inj h
        exact ⟨id, n, rfl⟩
      | _ => cases h
    | _ => cases h
  · rintro ⟨id, n, rfl⟩
    rfl

theorem freeing_of_storing {pc : Pc} (h : pc.storing = some ptr) : pc.freeing = some ptr := by
  obtain ⟨id, n, rfl⟩ := storing_eq_some.mp h
  rfl

/-- An access of a free: the free goes on, its own heap releases the object, or a push stores the
pointer. -/
theorem Sound.aims_access (h : Sound cfg pool s) (h' : Sound cfg pool s') (hd : cfg.dieHarderOn = false)
    {k : Nat} {c : Choice} {x : Slot} (hs : Step cfg pool s (.step k c) s')
    (hfull : NotFull pool s (.step k c)) (hx : AllocatedAt cfg s x ptr)
    (haims : Aims pool ptr x k (s.threads k).pc) :
    Aims pool ptr x k (s'.threads k).pc ∧ releases cfg s ptr (.step k c) = false ∧
        stores s ptr (.step k c) = false ∨
      (s'.threads k).pc = .idle (some (.free true)) ∧
        releases cfg s ptr (.step k c) = !stores s ptr (.step k c) := by
  rcases haims with ⟨rfl, hpc⟩ | ⟨hne, hforward⟩
  · have hfree := hx.free_fst h.inv (k := x.id.owner)
    rw [decide_eq_true rfl] at hfree
    rcases hs.atFreeSmall hpc with ⟨y, -, -, hpc'⟩ | ⟨hno, -⟩
    · refine Or.inr ⟨hpc', ?_⟩
      simp [releases, stores, hpc, hfree, Pc.releasing, Pc.storing]
    · exact absurd ⟨rfl, hx.bit, hx.contains h.inv.placed⟩ (hno x)
  · have hfree := hx.free_fst h.inv (k := k)
    rw [decide_eq_false (Ne.symm hne)] at hfree
    have hrel : releases cfg s ptr (.step k c) = false := by rw [releases, hfree, Bool.and_false]
    have hactive := h.inv.placed.bit_active hx.bit
    have hk : k ≠ fallbackHeap := by
      rintro rfl
      have hidle := h.orderly.fallback
      rw [hs.not_idle] at hidle
      cases hidle
    rw [hrel]
    by_cases hstore : stores s ptr (.step k c) = true
    · rw [stores, beq_iff_eq] at hstore
      obtain ⟨id, n, hpc⟩ := storing_eq_some.mp hstore
      refine Or.inr ⟨(hs.atPush hpc).2, ?_⟩
      simp [stores, hpc, Pc.storing]
    · rw [Bool.not_eq_true] at hstore
      rcases forwarding_access h.inv h.registered h'.registered hs (asksOwner_of_dieHard hd s _) hfull
        hactive (hx.contains h.inv.placed) (h.orderly.owner _ hactive) hk hne hforward with
        hgo | ⟨-, -, id, n, hpc⟩
      · exact Or.inl ⟨Or.inr ⟨hne, hgo⟩, rfl, hstore⟩
      · rw [hpc] at hforward
        rw [stores, hpc, hforward.1] at hstore
        exact absurd hstore (by simp [Pc.storing])

theorem Accounted.freeing_step (h : Accounted cfg pool s) (hsound : Sound cfg pool s)
    (hsound' : Sound cfg pool s') (hd : cfg.dieHarderOn = false) {k : Nat} {c : Choice}
    (hs : Step cfg pool s (.step k c) s') (hfull : NotFull pool s (.step k c))
    (hf : (s.threads k).pc.freeing = some ptr) :
    (if (s'.threads k).pc.freeing = some ptr then 1 else 0) +
      (releases cfg s ptr (.step k c)).toNat + (stores s ptr (.step k c)).toNat = 1 := by
  obtain ⟨x, hx, haims⟩ := h.freeing k ptr hf
  rcases hsound.aims_access hsound' hd hs hfull hx haims with ⟨haims', hrel, hstore⟩ | ⟨hidle, hrel⟩
  · rw [if_pos haims'.freeing, hrel, hstore]
    rfl
  · have hdone : (Pc.idle (some (.free true))).freeing ≠ some ptr := by simp [Pc.freeing]
    rw [hidle, if_neg hdone, hrel]
    cases stores s ptr (.step k c) <;> rfl

/-- A free is in flight from its call until its own heap releases it or a push stores it. -/
theorem Accounted.inFlight_step (h : Accounted cfg pool s) (hsound : Sound cfg pool s)
    (hsound' : Sound cfg pool s') (hd : cfg.dieHarderOn = false) (hs : Step cfg pool s a s')
    (hfull : NotFull pool s a) (hptr : ptr ≠ 0) :
    s'.inFlight ptr + (releases cfg s ptr a && !drains s a).toNat + (stores s ptr a).toNat =
      s.inFlight ptr + (a.isFree ptr).toNat := by
  have hbeyond := hsound.orderly.beyond
  cases a with
  | create =>
    cases hs with
    | create => rw [inFlight_create hbeyond]; rfl
  | malloc k sz =>
    have hcount := hs.inFlight hbeyond (beq_self_eq_true k) ptr
    cases hs with
    | malloc hpc _ =>
      rw [setThread_self, freeing_callMalloc, hpc] at hcount
      exact hcount
  | free k q =>
    have hcount := hs.inFlight hbeyond (beq_self_eq_true k) ptr
    cases hs with
    | freeNull hpc _ =>
      rw [setPc_pc, hpc] at hcount
      rw [Action.isFree, beq_eq_false_iff_ne.mpr (Ne.symm hptr)]
      exact hcount
    | free hpc _ _ =>
      rw [setPc_pc, hpc] at hcount
      by_cases hq : q = ptr
      · simpa [hq, Pc.freeing, releases, stores, Action.isFree] using hcount
      · simpa [beq_eq_false_iff_ne.mpr hq, hq, Pc.freeing, releases, stores, Action.isFree] using hcount
  | findOwner k q e =>
    have hcount := hs.inFlight hbeyond (beq_self_eq_true k) ptr
    rw [hs.atFind] at hcount
    cases hs with
    | find hpc _ =>
      rw [hpc] at hcount
      exact hcount
  | step k c =>
    have hcount := hs.inFlight hbeyond (beq_self_eq_true k) ptr
    by_cases hf : (s.threads k).pc.freeing = some ptr
    · have hturn := h.freeing_step hsound hsound' hd hs hfull hf
      have hdrains : drains s (.step k c) = false := by
        rw [drains, Pc.draining_of_freeing hf]
        rfl
      rw [if_pos hf] at hcount
      simp only [hdrains, Bool.not_false, Bool.and_true, Action.isFree, Bool.toNat_false]
      omega
    · have hf' : (s'.threads k).pc.freeing ≠ some ptr := fun hf' => hf (hs.carries.freeing ptr hf')
      have hrel : (releases cfg s ptr (.step k c) && !drains s (.step k c)) = false := by
        cases hd : (s.threads k).pc.draining with
        | none => rw [releases_of_freeing hf hd, Bool.false_and]
        | some pc => simp [drains, hd]
      have hstore : stores s ptr (.step k c) = false := by
        rw [stores, beq_eq_false_iff_ne]
        exact fun hstoring => hf (freeing_of_storing hstoring)
      rw [if_neg hf, if_neg hf'] at hcount
      rw [hrel, hstore]
      exact hcount

def received (pool : PoolConfig) (s : ScalableHeap) (ptr : Addr) : Nat :=
  ∑ id ∈ Finset.range pool.maxThreads, (s.delivered id).count ptr

theorem kept_sum (pool : PoolConfig) (s : ScalableHeap) (ptr : Addr) :
    ∑ id ∈ Finset.range pool.maxThreads, (s.queueState id).kept pool ptr =
      s.received pool ptr + s.waiting pool ptr := by
  rw [received, waiting, ← Finset.sum_add_distrib]
  exact Finset.sum_congr rfl fun id _ => QueueState.kept_eq _ _ _

theorem received_consume (k sz : Nat) (pc : DrainPc) (process : Process) (large : LargeHeap) :
    (consume cfg pool { s with process := process, large := large } k sz pc).received pool ptr =
      s.received pool ptr + (QueueState.delivers pc).count ptr := by
  have hqueue (id : Nat) :
      ((consume cfg pool { s with process := process, large := large } k sz pc).delivered id).count ptr =
        (s.delivered id).count ptr +
          if id = threadId pool k then (QueueState.delivers pc).count ptr else 0 := by
    by_cases hid : id = threadId pool k
    · subst hid
      simp [consume, setPc, setThread]
    · simp [consume, setPc, setThread, hid]
  rw [received, received, Finset.sum_congr rfl fun id _ => hqueue id, Finset.sum_add_distrib,
    Finset.sum_ite_eq', if_pos (Finset.mem_range.mpr (threadId_lt pool k))]

/-- A callback receives a pointer exactly if the heap releases it. -/
theorem Accounted.received_step (h : Accounted cfg pool s) (hinv : Inv cfg pool s)
    (hs : Step cfg pool s a s') :
    s'.received pool ptr = s.received pool ptr + (releases cfg s ptr a && drains s a).toNat := by
  have hquiet (hd : drains s a = false) (hsame : s'.delivered = s.delivered) :
      s'.received pool ptr = s.received pool ptr + (releases cfg s ptr a && drains s a).toNat := by
    rw [hd, Bool.and_false, received, hsame]
    rfl
  cases hs with
  | @consume k c sz pc hpc hdelivers =>
    have hrel : releases cfg s ptr (.step k c) = false := by
      rw [releases, hpc]
      cases pc with
      | callback t hd n p => cases hdelivers
      | _ => rfl
    rw [hrel, Bool.false_and]
    exact (received_consume k sz pc s.process s.large).trans (by rw [hdelivers]; rfl)
  | @deliver k c sz t hd n p x process hpc hx _ =>
    have hfree : (s.process.free cfg k p).1 = true := hinv.free_fst.mpr ⟨x, hx⟩
    rw [received_consume]
    by_cases hp : p = ptr
    · simp [releases, drains, hpc, hp ▸ hfree, hp, Pc.releasing, Pc.draining, QueueState.delivers]
    · simp [releases, hpc, hp, Pc.releasing, QueueState.delivers]
  | @callbackMiss k c sz t hd n p process hpc hno _ =>
    have hfree : (s.process.free cfg k p).1 = false := by
      rw [← Bool.not_eq_true, hinv.free_fst, not_exists]
      exact hno
    by_cases hp : p = ptr
    · simp [releases, hpc, hp ▸ hfree, Pc.releasing, received, setPc, setThread]
    · simp [releases, hpc, hp, Pc.releasing, received, setPc, setThread]
  | deliverBig hpc => exact absurd hpc (h.small _ _ _ _ _ _)
  | drainHead hpc _ | drainTail hpc _ | grow hpc _ | room hpc _ | taken hpc | register hpc _ =>
    exact hquiet (by simp [drains, hpc, Pc.draining]) rfl
  | take hpc _ _ _ | mapLarge hpc _ _ _ | freeHit hpc _ _ | freeMiss hpc _ _ | largeHit hpc _
  | largeMiss hpc _ _ | findOwner hpc _ _ | push hpc =>
    exact hquiet (by simp [drains, hpc, Pc.draining]) rfl
  | _ => exact hquiet rfl rfl

/-- A store adds its pointer to the copies. -/
theorem Accounted.kept_sum_step (h : Accounted cfg pool s) (hsound : Sound cfg pool s)
    (hs : Step cfg pool s a s') (hptr : ptr ≠ 0) :
    ∑ id ∈ Finset.range pool.maxThreads, (s'.queueState id).kept pool ptr =
      ∑ id ∈ Finset.range pool.maxThreads, (s.queueState id).kept pool ptr + (stores s ptr a).toNat := by
  have hkeeps := hsound.orderly.keepsEntries hsound.inv hs
  rcases kept_step hsound.inv hsound.registered hkeeps hs with ⟨hsame, hpushes⟩ | ⟨k, p, id, n, hstore⟩
  · have hno : stores s ptr a = false := by
      cases a with
      | step k c =>
        rw [stores, beq_eq_false_iff_ne]
        intro hstoring
        obtain ⟨id, n, hpc⟩ := storing_eq_some.mp hstoring
        have hidle := (hs.atPush hpc).2
        rw [hpushes k ptr id n hpc] at hidle
        cases hidle
      | _ => rfl
    rw [hno, Finset.sum_congr rfl fun id _ => hsame ptr hptr id]
    rfl
  · have hown : ∃ c, a = .step k c := by
      refine (hs.busy (by simp [hstore.pc])).resolve_left ?_
      intro he
      have hidle := hstore.pc'
      rw [he, hstore.pc] at hidle
      cases hidle
    obtain ⟨c, rfl⟩ := hown
    have hid : id < pool.maxThreads := by
      obtain ⟨x, -, ⟨-, hpc⟩ | ⟨-, hforward⟩⟩ := h.freeing k p (by rw [hstore.pc]; rfl)
      · rw [hstore.pc] at hpc
        cases hpc
      · rw [hstore.pc] at hforward
        rw [hforward.2]
        exact threadId_lt pool _
    have hslot := (hsound.queues id hid).storing_slot (i := k) (p := p) (n := n)
      (by simp [queueState, hstore.pc, Pc.pushing]) hptr
    have hqueue (j : Nat) : (s'.queueState j).kept pool ptr = (s.queueState j).kept pool ptr +
        if j = id then (stores s ptr (.step k c)).toNat else 0 := by
      by_cases hj : j = id
      · subst hj
        have hkept := hstore.kept ptr hptr
        rw [if_neg hslot.1] at hkept
        by_cases hp : p = ptr
        · simpa [stores, hstore.pc, Pc.storing, hp, hslot.2] using hkept
        · simpa [stores, hstore.pc, Pc.storing, hp, beq_eq_false_iff_ne.mpr hp] using hkept
      · rw [hstore.other ptr hptr j hj, if_neg hj, Nat.add_zero]
    rw [Finset.sum_congr rfl fun j _ => hqueue j, Finset.sum_add_distrib, Finset.sum_ite_eq',
      if_pos (Finset.mem_range.mpr hid)]

theorem Accounted.pending_step (h : Accounted cfg pool s) (hsound : Sound cfg pool s)
    (hsound' : Sound cfg pool s') (hd : cfg.dieHarderOn = false) (hs : Step cfg pool s a s')
    (hfull : NotFull pool s a) (hptr : ptr ≠ 0) :
    s'.pending pool ptr + (releases cfg s ptr a).toNat = s.pending pool ptr + (a.isFree ptr).toNat := by
  have hflight := h.inFlight_step hsound hsound' hd hs hfull hptr
  have hkept := h.kept_sum_step hsound hs hptr
  rw [kept_sum, kept_sum, h.received_step hsound.inv hs] at hkept
  have hsplit : (releases cfg s ptr a && !drains s a).toNat + (releases cfg s ptr a && drains s a).toNat =
      (releases cfg s ptr a).toNat := by
    cases releases cfg s ptr a <;> cases drains s a <;> rfl
  rw [pending, pending]
  omega

end Steps

end ScalableHeap

end DieHard
