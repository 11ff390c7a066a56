import DieHard.Scalable.Balance
import DieHard.Scalable.ThreadIds

/-!
# Objects are accounted for

Each action of the protocol leaves the slots alone, takes one for a new object or releases one that is
pending. So in every state an allocated slot has its object with the program or one pending free.
-/

namespace DieHard

open Blocks PerThreadFreeQueue HeapRegistry Transition

namespace ScalableHeap

variable {cfg : HeapConfig} {pool : PoolConfig} {s s' : ScalableHeap} {a : Action} {ptr : Addr} {x : Slot}

/-- What an action does to the slots and to the objects of the program. -/
inductive Effect (cfg : HeapConfig) (s s' : ScalableHeap) (a : Action) : Prop
  | quiet (bits : ∀ y, s'.process.bit y = s.process.bit y) (live : s'.live = s.live)
      (releases : ∀ ptr, releases cfg s ptr a = false) (frees : ∀ ptr ≠ 0, a.isFree ptr = false)
  | free {k : Nat} {ptr : Addr} (action : a = .free k ptr)
      (bits : ∀ y, s'.process.bit y = s.process.bit y) (live : s'.live = Function.update s.live ptr none)
  | take {x : Slot} {object : Object} (active : s.process.Active cfg x.id)
      (index_lt : x.index < (s.process.layout cfg x.id).slots) (clear : s.process.bit x = false)
      (bits : ∀ y, s'.process.bit y = (s.process.bit y || decide (y = x)))
      (live : s'.live = Function.update s.live ((s.process.layout cfg x.id).addr x.index) (some object))
      (releases : ∀ ptr, releases cfg s ptr a = false) (frees : ∀ ptr, a.isFree ptr = false)
  | release {x : Slot} {ptr : Addr} (allocated : AllocatedAt cfg s x ptr)
      (bits : ∀ y, s'.process.bit y = (s.process.bit y && decide (y ≠ x))) (live : s'.live = s.live)
      (releases : ∀ q, releases cfg s q a = decide (ptr = q)) (frees : ∀ ptr, a.isFree ptr = false)

private theorem quiet_step {k : Nat} {c : Choice} (hbits : ∀ y, s'.process.bit y = s.process.bit y)
    (hlive : s'.live = s.live) (hpc : (s.threads k).pc.releasing = none) :
    Effect cfg s s' (.step k c) :=
  .quiet hbits hlive (fun ptr => by rw [releases, hpc]; rfl) fun _ _ => rfl

private theorem quiet_miss (hinv : Inv cfg pool s) {k : Nat} {c : Choice}
    (hbits : ∀ y, s'.process.bit y = s.process.bit y) (hlive : s'.live = s.live)
    (hpc : (s.threads k).pc.releasing = some ptr) (hno : ∀ x, ¬ s.process.InObject cfg k ptr x) :
    Effect cfg s s' (.step k c) := by
  have hfree : (s.process.free cfg k ptr).1 = false := by
    rw [← Bool.not_eq_true, hinv.free_fst, not_exists]
    exact hno
  refine .quiet hbits hlive ?_ fun _ _ => rfl
  intro q
  by_cases hq : ptr = q
  · rw [releases, ← hq, hfree, Bool.and_false]
  · rw [releases, hpc, beq_eq_false_iff_ne.mpr (fun he => hq (Option.some.inj he)), Bool.false_and]

private theorem release_hit (hinv : Inv cfg pool s) {k : Nat} {c : Choice} {process : Process}
    (hx : AllocatedAt cfg s x ptr) {y : Slot} (hy : s.process.InObject cfg k ptr y)
    (hf : s.process.Freed cfg y ptr process) (hbits : s'.process = process) (hlive : s'.live = s.live)
    (hpc : (s.threads k).pc.releasing = some ptr) : Effect cfg s s' (.step k c) := by
  obtain rfl := hx.eq_of_contains hinv.placed (hinv.placed.bit_active hy.2.1) hy.2.2
  have hfree : (s.process.free cfg k ptr).1 = true := hinv.free_fst.mpr ⟨x, hy⟩
  refine .release hx (fun y => by rw [hbits]; exact hf.bit_eq y) hlive ?_ fun _ => rfl
  intro q
  by_cases hq : ptr = q
  · rw [releases, hpc, ← hq, hfree, decide_eq_true rfl, beq_self_eq_true, Bool.true_and]
  · rw [releases, hpc, beq_eq_false_iff_ne.mpr (fun he => hq (Option.some.inj he)), Bool.false_and,
      decide_eq_false hq]

/-- Every action of the protocol has one of the effects. -/
theorem Accounted.effect (h : Accounted cfg pool s) (hsound : Sound cfg pool s)
    (hs : Step cfg pool s a s') : Effect cfg s s' a := by
  have hinv := hsound.inv
  cases hs with
  | create => exact .quiet (fun _ => rfl) rfl (fun _ => rfl) fun _ _ => rfl
  | malloc _ _ => exact .quiet (fun _ => rfl) rfl (fun _ => rfl) fun _ _ => rfl
  | freeNull _ _ =>
    exact .quiet (fun _ => rfl) rfl (fun _ => rfl) fun ptr hptr => beq_eq_false_iff_ne.mpr hptr.symm
  | free _ _ _ => exact .free rfl (fun _ => rfl) rfl
  | find _ _ => exact .quiet (fun _ => rfl) rfl (fun _ => rfl) fun _ _ => rfl
  | register hpc _ => exact quiet_step (fun _ => rfl) rfl (by rw [hpc]; rfl)
  | drainHead hpc _ => exact quiet_step (fun _ => rfl) rfl (by rw [hpc]; rfl)
  | drainTail hpc _ => exact quiet_step (fun _ => rfl) rfl (by rw [hpc]; rfl)
  | @consume k c sz pc hpc hdelivers =>
    refine quiet_step (fun _ => rfl) rfl ?_
    rw [hpc]
    cases pc with
    | callback t hd n p => cases hdelivers
    | _ => rfl
  | @deliver k c sz t hd n p y process hpc hy hf =>
    obtain ⟨x, hx, -⟩ := h.inHand k p (by rw [hpc]; rfl)
    exact release_hit hinv hx hy hf rfl rfl (by rw [hpc]; rfl)
  | callbackMiss hpc hno hc => exact quiet_miss hinv hc.bit_eq rfl (by rw [hpc]; rfl) hno
  | deliverBig hpc => exact quiet_step (fun _ => rfl) rfl (by rw [hpc]; rfl)
  | grow hpc hg => exact quiet_step hg.grew.bit_eq rfl (by rw [hpc]; rfl)
  | room hpc _ => exact quiet_step (fun _ => rfl) rfl (by rw [hpc]; rfl)
  | taken hpc => exact quiet_step (fun _ => rfl) rfl (by rw [hpc]; rfl)
  | take hpc _ _ ht =>
    exact .take ht.active (ht.index_lt.trans_le (HeapConfig.nObjects_le_slots _ _)) ht.clear ht.bit_eq rfl
      (fun ptr => by rw [releases, hpc]; rfl) fun _ => rfl
  | @mapLarge k c sz hpc _ _ _ =>
    have hlarge := hinv.threads k
    rw [hpc] at hlarge
    exact absurd (hsound.orderly.size k sz (by rw [hpc]; rfl)) (Nat.not_le.mpr hlarge)
  | @freeHit k c again p y process hpc hy hf =>
    obtain ⟨x, hx, -⟩ := h.freeing k p (by rw [hpc]; rfl)
    exact release_hit hinv hx hy hf rfl rfl (by rw [hpc]; rfl)
  | freeMiss hpc hno hc => exact quiet_miss hinv hc.bit_eq rfl (by rw [hpc]; rfl) hno
  | largeHit hpc _ => exact quiet_step (fun _ => rfl) rfl (by rw [hpc]; rfl)
  | largeMiss hpc _ _ => exact quiet_step (fun _ => rfl) rfl (by rw [hpc]; rfl)
  | findOwner hpc _ hc => exact quiet_step hc.bit_eq rfl (by rw [hpc]; rfl)
  | push hpc => exact quiet_step (fun _ => rfl) rfl (by rw [hpc]; rfl)

theorem Sound.inFlight_pos_iff (h : Sound cfg pool s) :
    0 < s.inFlight ptr ↔ ∃ k, (s.threads k).pc.freeing = some ptr := by
  rw [inFlight, Nat.pos_iff_ne_zero, Nat.count_ne_iff_exists]
  constructor
  · rintro ⟨k, -, hk⟩
    exact ⟨k, hk⟩
  · rintro ⟨k, hk⟩
    refine ⟨k, ?_, hk⟩
    by_contra hlt
    rw [Pc.freeing_of_isIdle (h.orderly.beyond k (by omega))] at hk
    cases hk

theorem Sound.entry_of_draining (h : Sound cfg pool s) {k : Nat} {pc : DrainPc}
    (hpc : (s.threads k).pc.draining = some pc) : s.registry.entries (threadId pool k) = some k := by
  have hok := h.inv.threads k
  cases hplace : (s.threads k).pc with
  | drain sz d =>
    rw [hplace] at hok
    exact (h.registered.known k (h.registered.past k hok (by rw [hplace]; rfl))).1
  | drainBig sz t hd n p =>
    rw [hplace] at hok
    exact (h.registered.known k (h.registered.past k hok (by rw [hplace]; rfl))).1
  | _ =>
    rw [hplace] at hpc
    cases hpc

theorem Sound.waiting_pos_iff (h : Sound cfg pool s) : 0 < s.waiting pool ptr ↔
    (∃ id < pool.maxThreads, ∃ j < pool.freeQueueCapacity, (s.queues id).slots j = ptr) ∨
      ∃ k, (s.threads k).pc.inHand = some ptr := by
  rw [waiting, Finset.sum_pos_iff]
  constructor
  · rintro ⟨id, hid, hpos⟩
    rw [Finset.mem_range] at hid
    rcases (h.queues id hid).undelivered_pos_iff.mp hpos with hslot | hhand
    · exact Or.inl ⟨id, hid, hslot⟩
    · obtain ⟨pc, hpc, hhand⟩ := Option.bind_eq_some_iff.mp hhand
      obtain ⟨k, -, hk⟩ := Option.bind_eq_some_iff.mp hpc
      exact Or.inr ⟨k, Option.bind_eq_some_iff.mpr ⟨pc, hk, hhand⟩⟩
  · rintro (⟨id, hid, hslot⟩ | ⟨k, hk⟩)
    · exact ⟨id, Finset.mem_range.mpr hid, (h.queues id hid).undelivered_pos_iff.mpr (Or.inl hslot)⟩
    · obtain ⟨pc, hpc, hhand⟩ := Option.bind_eq_some_iff.mp hk
      have hid := threadId_lt pool k
      refine ⟨threadId pool k, Finset.mem_range.mpr hid, (h.queues _ hid).undelivered_pos_iff.mpr ?_⟩
      have hentry := h.entry_of_draining hpc
      exact Or.inr (Option.bind_eq_some_iff.mpr ⟨pc, Option.bind_eq_some_iff.mpr ⟨k, hentry, hpc⟩, hhand⟩)

theorem Sound.pending_pos_iff (h : Sound cfg pool s) : 0 < s.pending pool ptr ↔
    (∃ k, (s.threads k).pc.freeing = some ptr) ∨
      (∃ id < pool.maxThreads, ∃ j < pool.freeQueueCapacity, (s.queues id).slots j = ptr) ∨
      ∃ k, (s.threads k).pc.inHand = some ptr := by
  rw [← h.waiting_pos_iff, ← h.inFlight_pos_iff, pending]
  omega

theorem Accounted.allocated_of_pending (h : Accounted cfg pool s) (hsound : Sound cfg pool s)
    (hptr : ptr ≠ 0) (hpos : 0 < s.pending pool ptr) : ∃ x, AllocatedAt cfg s x ptr := by
  rcases hsound.pending_pos_iff.mp hpos with ⟨k, hk⟩ | ⟨id, hid, j, hj, rfl⟩ | ⟨k, hk⟩
  · obtain ⟨x, hx, -⟩ := h.freeing k ptr hk
    exact ⟨x, hx⟩
  · obtain ⟨x, hx, -⟩ := h.queued id hid j hj hptr
    exact ⟨x, hx⟩
  · obtain ⟨x, hx, -⟩ := h.inHand k ptr hk
    exact ⟨x, hx⟩

/-- A drain turns to the large heap when its own heap refuses the pointer. -/
theorem Step.big_of (hs : Step cfg pool s a s') {k sz t hd n : Nat}
    (hb : (s'.threads k).pc = .drainBig sz t hd n ptr) :
    (s.threads k).pc = .drainBig sz t hd n ptr ∨
      (s.threads k).pc = .drain sz (.callback t hd n ptr) ∧ ∀ x, ¬ s.process.InObject cfg k ptr x := by
  have hoff {pc : Pc} (hpc : pc.offQueue) (he : pc = .drainBig sz t hd n ptr) : False := by
    rw [he] at hpc
    cases hpc
  have hdrained {size : Nat} (r : DrainPc ⊕ Nat)
      (he : r.elim (Pc.drain size) (fun _ => allocate cfg size) = .drainBig sz t hd n ptr) : False := by
    rcases r with pc' | m
    · cases he
    · exact hoff (offQueue_allocate cfg size) he
  have hpushed {p id : Nat} (r : PushPc ⊕ Bool)
      (he : r.elim (Pc.push p id) (fun _ => .idle (some (.free true))) = .drainBig sz t hd n ptr) :
      False := by
    rcases r with pc' | b <;> cases he
  cases hby : a.isBy k with
  | false =>
    rw [hs.other hby] at hb
    exact Or.inl hb
  | true =>
    obtain ⟨size, rfl⟩ | ⟨q, rfl⟩ | ⟨q, e, rfl⟩ | ⟨c, rfl⟩ := Action.isBy_cases hby
    · cases hs with
      | malloc _ _ =>
        rw [setThread_self] at hb
        exact (hoff (offQueue_callMalloc _ _ _) hb).elim
    · cases hs with
      | freeNull _ _ | free _ _ _ =>
        rw [setPc_pc] at hb
        cases hb
    · rw [hs.atFind] at hb
      cases hb
    · cases hs with
      | register _ _ =>
        rw [setThread_self] at hb
        exact (hoff (offQueue_registered _ _ _ _) hb).elim
      | drainHead _ hto | drainTail _ hto =>
        rw [setPc_pc] at hb
        rcases hto with rfl | rfl
        · cases hb
        · exact (hoff (offQueue_allocate _ _) hb).elim
      | consume _ _ | deliver _ _ _ | deliverBig _ =>
        rw [ScalableHeap.consume, setPc_pc] at hb
        exact (hdrained _ hb).elim
      | callbackMiss hpc hno _ =>
        rw [setPc_pc] at hb
        cases hb
        exact Or.inr ⟨hpc, hno⟩
      | grow _ _ | taken _ => exact Or.inl hb
      | room _ _ | take _ _ _ _ | mapLarge _ _ _ _ | freeHit _ _ _ | freeMiss _ _ _ | largeHit _ _ =>
        rw [setPc_pc] at hb
        cases hb
      | largeMiss _ _ _ =>
        rw [setPc_pc] at hb
        exact (hoff (offQueue_refused _ _ _ _) hb).elim
      | @findOwner _ _ p e slow _ _ r _ _ _ =>
        rw [setPc_pc] at hb
        rcases r with pc' | owner
        · cases hb
        · rcases found_cases pool slow p owner with ⟨id, -, -, hpush⟩ | hfound
          · rw [Sum.elim_inr, hpush] at hb
            cases hb
          · exact (hoff hfound hb).elim
      | push _ =>
        rw [setPc_pc] at hb
        exact (hpushed _ hb).elim

section Step

/-- What one action of a run comes with. -/
structure Turn (cfg : HeapConfig) (pool : PoolConfig) (s : ScalableHeap) (a : Action)
    (s' : ScalableHeap) : Prop where
  sound : Sound cfg pool s
  sound' : Sound cfg pool s'
  step : Step cfg pool s a s'
  notFull : NotFull pool s a
  protocol : Protocol cfg pool s a

variable (h : Accounted cfg pool s) (hd : cfg.dieHarderOn = false) (t : Turn cfg pool s a s')
include h hd t

theorem Accounted.pending_turn (hptr : ptr ≠ 0) :
    s'.pending pool ptr + (releases cfg s ptr a).toNat = s.pending pool ptr + (a.isFree ptr).toNat :=
  h.pending_step t.sound t.sound' hd t.step t.notFull hptr

theorem Accounted.keeps (hx : AllocatedAt cfg s x ptr)
    (hdue : s'.live ptr ≠ none ∨ 0 < s'.pending pool ptr) : AllocatedAt cfg s' x ptr := by
  have hp := t.sound.inv.placed
  apply hx.step hp t.step
  cases h.effect t.sound t.step with
  | quiet bits _ _ _ => exact (bits x).trans hx.bit
  | free _ bits _ => exact (bits x).trans hx.bit
  | take _ _ _ bits _ _ _ => rw [bits x, hx.bit, Bool.true_or]
  | @release y q hy bits live releases frees =>
    rw [bits x, hx.bit, Bool.true_and, decide_eq_true_eq]
    rintro rfl
    obtain rfl : q = ptr := hy.addr.symm.trans hx.addr
    -- the release was the one thing that the slot had pending
    have hturn := h.pending_turn hd t (hx.ne_zero hp)
    have hbalance := h.balance x q hx
    rw [releases, decide_eq_true rfl, frees] at hturn
    simp only [Bool.toNat_true, Bool.toNat_false] at hturn
    rw [live] at hdue
    split_ifs at hbalance with hlive
    · rcases hdue with hdue | hdue
      · exact hdue hlive
      · omega
    · omega

theorem Accounted.balance_step (hx : AllocatedAt cfg s' x ptr) :
    (if s'.live ptr = none then 0 else 1) + s'.pending pool ptr = 1 := by
  have hp := t.sound.inv.placed
  have hptr := hx.ne_zero t.sound'.inv.placed
  have hturn := h.pending_turn hd t hptr
  -- a slot that was allocated before has been at the same address
  have hback (hb : s.process.bit x = true) : AllocatedAt cfg s x ptr := by
    refine ⟨hb, ?_⟩
    rw [← t.step.extends.layout_eq _ (hp.bit_active hb)]
    exact hx.addr
  cases h.effect t.sound t.step with
  | quiet bits live releases frees =>
    have hbalance := h.balance x ptr (hback ((bits x).symm.trans hx.bit))
    rw [releases, frees ptr hptr] at hturn
    rw [live]
    simp only [Bool.toNat_false] at hturn
    omega
  | @free k q action bits live =>
    have hbalance := h.balance x ptr (hback ((bits x).symm.trans hx.bit))
    subst action
    rw [live]
    by_cases hq : q = ptr
    · subst hq
      have hprotocol := t.protocol.2.resolve_left hptr
      rw [if_neg hprotocol] at hbalance
      simp only [releases, Action.isFree, beq_self_eq_true, Bool.toNat_true, Bool.toNat_false] at hturn
      rw [Function.update_self, if_pos rfl]
      omega
    · simp only [releases, Action.isFree, beq_eq_false_iff_ne.mpr hq, Bool.toNat_false] at hturn
      rw [Function.update_of_ne (Ne.symm hq)]
      omega
  | @take y object active index_lt clear bits live releases frees =>
    rw [releases, frees] at hturn
    simp only [Bool.toNat_false, Nat.add_zero] at hturn
    rw [live, hturn]
    by_cases hy : x = y
    · subst hy
      -- what is with the program or pending stands in an allocated slot, and this one was clear
      have haddr : (s.process.layout cfg x.id).addr x.index = ptr := by
        rw [← t.step.extends.layout_eq _ active]
        exact hx.addr
      have hnone (z : Slot) : ¬ AllocatedAt cfg s z ptr := by
        intro hz
        have heq := hz.eq_of_contains hp active (haddr ▸ Layout.contains_addr index_lt)
        rw [← heq, hz.bit] at clear
        cases clear
      have hpending : s.pending pool ptr = 0 := by
        by_contra hne
        obtain ⟨z, hz⟩ := h.allocated_of_pending t.sound hptr (Nat.pos_of_ne_zero hne)
        exact hnone z hz
      rw [haddr, Function.update_self, if_neg (Option.some_ne_none object), hpending]
    · have hb : s.process.bit x = true := by
        have hbit := bits x
        rwa [hx.bit, decide_eq_false hy, Bool.or_false, eq_comm] at hbit
      have hne : ptr ≠ (s.process.layout cfg y.id).addr y.index := by
        rintro rfl
        exact hy ((hback hb).eq_of_contains hp active (Layout.contains_addr index_lt))
      rw [Function.update_of_ne hne]
      exact h.balance x ptr (hback hb)
  | @release y q hy bits live releases frees =>
    have hbit := bits x
    rw [hx.bit, eq_comm, Bool.and_eq_true, decide_eq_true_eq] at hbit
    have hne : q ≠ ptr := by
      rintro rfl
      exact hbit.2 ((hback hbit.1).unique hy hp)
    have hbalance := h.balance x ptr (hback hbit.1)
    rw [releases, decide_eq_false hne, frees] at hturn
    simp only [Bool.toNat_false] at hturn
    rw [live]
    omega

theorem Accounted.live_step (hl : s'.live ptr ≠ none) : ∃ x, AllocatedAt cfg s' x ptr := by
  have hkept (hl : s.live ptr ≠ none) (hl' : s'.live ptr ≠ none) : ∃ x, AllocatedAt cfg s' x ptr := by
    obtain ⟨x, hx⟩ := h.live ptr hl
    exact ⟨x, h.keeps hd t hx (Or.inl hl')⟩
  cases h.effect t.sound t.step with
  | quiet _ live _ _ => exact hkept (live ▸ hl) hl
  | @free k q _ _ live =>
    refine hkept ?_ hl
    intro hnone
    apply hl
    rw [live]
    by_cases hq : ptr = q
    · rw [hq, Function.update_self]
    · rwa [Function.update_of_ne hq]
  | @take y object active index_lt _ bits live _ _ =>
    by_cases hy : ptr = (s.process.layout cfg y.id).addr y.index
    · refine ⟨y, by rw [bits y, decide_eq_true rfl, Bool.or_true], ?_⟩
      rw [t.step.extends.layout_eq _ active, hy]
    · refine hkept ?_ hl
      rwa [live, Function.update_of_ne hy] at hl
  | release _ _ live _ _ => exact hkept (live ▸ hl) hl

theorem Accounted.freeing_turn {k : Nat} (hf : (s'.threads k).pc.freeing = some ptr) :
    ∃ x, AllocatedAt cfg s' x ptr ∧ Aims pool ptr x k (s'.threads k).pc := by
  have hdue : 0 < s'.pending pool ptr := t.sound'.pending_pos_iff.mpr (Or.inl ⟨k, hf⟩)
  rcases t.step.freeing_of hf with hold | ⟨rfl, hne, hpc'⟩
  · obtain ⟨x, hx, haims⟩ := h.freeing k ptr hold
    refine ⟨x, h.keeps hd t hx (Or.inr hdue), ?_⟩
    have hbusy : ∀ last, (s.threads k).pc ≠ .idle last := by
      intro last hlast
      rw [hlast] at hold
      cases hold
    rcases t.step.busy hbusy with he | ⟨c, rfl⟩
    · rwa [he]
    · rcases t.sound.aims_access t.sound' hd t.step t.notFull hx haims with ⟨haims', -⟩ | ⟨hidle, -⟩
      · exact haims'
      · rw [hidle] at hf
        cases hf
  · -- a call begins
    obtain ⟨x, hx⟩ := h.live ptr (t.protocol.2.resolve_left hne)
    refine ⟨x, h.keeps hd t hx (Or.inr hdue), ?_⟩
    rw [hpc']
    by_cases hk : k = x.id.owner
    · exact Or.inl ⟨hk, rfl⟩
    · exact Or.inr ⟨hk, rfl, rfl⟩

theorem Accounted.inHand_turn {k : Nat} (hp : (s'.threads k).pc.inHand = some ptr) :
    ∃ x, AllocatedAt cfg s' x ptr ∧ x.id.owner = k := by
  have hdue : 0 < s'.pending pool ptr := t.sound'.pending_pos_iff.mpr (Or.inr (Or.inr ⟨k, hp⟩))
  rcases t.step.inHand_of hp with hold | ⟨hne, j, hj, rfl⟩
  · obtain ⟨x, hx, howner⟩ := h.inHand k ptr hold
    exact ⟨x, h.keeps hd t hx (Or.inr hdue), howner⟩
  · obtain ⟨x, hx, hid⟩ := h.queued _ (threadId_lt pool k) j hj hne
    have hx' := h.keeps hd t hx (Or.inr hdue)
    refine ⟨x, hx', ?_⟩
    -- the heap that drains the queue is the one that its pointers belong to
    have hactive := t.sound'.inv.placed.bit_active hx'.bit
    have hregistered := t.sound'.registered.owner _ hactive (t.sound'.orderly.owner _ hactive)
    obtain ⟨pc, hpc, -⟩ := Option.bind_eq_some_iff.mp hp
    exact (t.sound'.registered.drains t.sound'.inv hregistered
      (Option.isSome_iff_exists.mpr ⟨pc, hpc⟩) hid.symm).symm

theorem Accounted.queued_turn {id j : Nat} (hid : id < pool.maxThreads) (hj : j < pool.freeQueueCapacity)
    (hne : (s'.queues id).slots j ≠ 0) :
    ∃ x, AllocatedAt cfg s' x ((s'.queues id).slots j) ∧ threadId pool x.id.owner = id := by
  have hdue : 0 < s'.pending pool ((s'.queues id).slots j) :=
    t.sound'.pending_pos_iff.mpr (Or.inr (Or.inl ⟨id, hid, j, hj, rfl⟩))
  rcases t.step.slots_of hne with hold | ⟨k, n, hpc⟩
  · rw [hold] at hne hdue ⊢
    obtain ⟨x, hx, howner⟩ := h.queued id hid j hj hne
    exact ⟨x, h.keeps hd t hx (Or.inr hdue), howner⟩
  · obtain ⟨x, hx, ⟨-, hown⟩ | ⟨-, hforward⟩⟩ := h.freeing k _ (by rw [hpc]; rfl)
    · rw [hpc] at hown
      cases hown
    · rw [hpc] at hforward
      exact ⟨x, h.keeps hd t hx (Or.inr hdue), hforward.2.symm⟩

omit hd in
theorem Accounted.small_turn (k sz tl hd n : Nat) (p : Addr) :
    (s'.threads k).pc ≠ .drainBig sz tl hd n p := by
  intro hb
  rcases t.step.big_of hb with hold | ⟨hpc, hno⟩
  · exact h.small k sz tl hd n p hold
  · obtain ⟨x, hx, howner⟩ := h.inHand k p (by rw [hpc]; rfl)
    exact hno x ⟨howner, hx.bit, hx.contains t.sound.inv.placed⟩

theorem Accounted.step : Accounted cfg pool s' where
  balance _ _ hx := h.balance_step hd t hx
  live _ hl := h.live_step hd t hl
  freeing _ _ hf := h.freeing_turn hd t hf
  inHand _ _ hp := h.inHand_turn hd t hp
  queued _ hid _ hj hne := h.queued_turn hd t hid hj hne
  small := h.small_turn t

end Step

theorem accounted_initial {process : Process} (hno : ∀ x : Slot, process.bit x = false) :
    Accounted cfg pool (initial process) where
  balance x _ hx := by
    have hb : process.bit x = true := hx.bit
    rw [hno] at hb
    cases hb
  live _ hl := absurd rfl hl
  freeing _ _ hf := by cases hf
  inHand _ _ hp := by cases hp
  queued _ _ _ _ hne := absurd rfl hne
  small _ _ _ _ _ _ hb := by cases hb

end ScalableHeap

end DieHard
