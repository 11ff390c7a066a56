import DieHard.Scalable.Accounts

/-!
# Every free is released once

In a run of the protocol the bitmaps, the queues and the objects of the program agree in every state. A
lookup names the heap that allocated the object, every callback of a drain releases its object, and each
free is followed by one release.
-/

namespace DieHard

open Blocks PerThreadFreeQueue HeapRegistry Transition

namespace ScalableHeap

variable {cfg : HeapConfig} {pool : PoolConfig} {s : ScalableHeap} {ptr : Addr}

/-- A free of `ptr` is in flight. -/
def InFlight (s : ScalableHeap) (ptr : Addr) : Prop := ∃ k, (s.threads k).pc.freeing = some ptr

/-- `ptr` stands in the queue of the heap or is in the hand of its drain. -/
def Waiting (pool : PoolConfig) (s : ScalableHeap) (heap : Nat) (ptr : Addr) : Prop :=
  (∃ j < pool.freeQueueCapacity, (s.queues (threadId pool heap)).slots j = ptr) ∨
    (s.threads heap).pc.inHand = some ptr

/-- The bitmaps say which objects the program holds and which frees are pending. -/
structure BitmapsExact (cfg : HeapConfig) (pool : PoolConfig) (s : ScalableHeap) : Prop where
  bit_iff : ∀ x : Slot, s.process.Active cfg x.id → x.index < (s.process.layout cfg x.id).slots →
    (s.process.bit x = true ↔
      (∃ sz, s.live ((s.process.layout cfg x.id).addr x.index) = some ⟨some x.id.owner, sz⟩) ∨
        InFlight s ((s.process.layout cfg x.id).addr x.index) ∨
        Waiting pool s x.id.owner ((s.process.layout cfg x.id).addr x.index))
  live : ∀ ptr object, s.live ptr = some object →
    ∃ x, AllocatedAt cfg s x ptr ∧ object.heap = some x.id.owner
  inFlight : ∀ ptr, InFlight s ptr → s.live ptr = none ∧ ∃ x, AllocatedAt cfg s x ptr
  waiting : ∀ heap ptr, heap ≠ fallbackHeap → heap ≤ s.nextId → ptr ≠ 0 → Waiting pool s heap ptr →
    s.live ptr = none ∧ ¬ InFlight s ptr ∧ ∃ x, AllocatedAt cfg s x ptr ∧ x.id.owner = heap

section State

variable (h : Accounted cfg pool s) (hs : Sound cfg pool s)
include hs

theorem Sound.waiting_pos {heap : Nat} (hw : Waiting pool s heap ptr) : 0 < s.waiting pool ptr := by
  rw [hs.waiting_pos_iff]
  rcases hw with ⟨j, hj, hslot⟩ | hhand
  · exact Or.inl ⟨_, threadId_lt pool heap, j, hj, hslot⟩
  · exact Or.inr ⟨heap, hhand⟩

include h

theorem Accounted.pending_le (hptr : ptr ≠ 0) : s.pending pool ptr ≤ 1 := by
  by_contra hlt
  obtain ⟨x, hx⟩ := h.allocated_of_pending hs hptr (by omega)
  have hbalance := h.balance x ptr hx
  omega

theorem Accounted.live_none (hptr : ptr ≠ 0) (hpos : 0 < s.pending pool ptr) : s.live ptr = none := by
  obtain ⟨x, hx⟩ := h.allocated_of_pending hs hptr hpos
  have hbalance := h.balance x ptr hx
  by_contra hne
  rw [if_neg hne] at hbalance
  omega

theorem Accounted.live_owner {object : Object} (hl : s.live ptr = some object) :
    ∃ x, AllocatedAt cfg s x ptr ∧ object.heap = some x.id.owner := by
  obtain ⟨x, hx⟩ := h.live ptr (by rw [hl]; exact Option.some_ne_none object)
  refine ⟨x, hx, ?_⟩
  rcases object with ⟨_ | heap, sz⟩
  · exact absurd rfl (hs.orderly.live ptr _ hl)
  · obtain ⟨y, hactive, hindex, howner, -, haddr⟩ := hs.inv.live ptr heap sz hl
    have heq := hx.eq_of_contains hs.inv.placed hactive (haddr ▸ Layout.contains_addr hindex)
    rw [heq, howner]

theorem Accounted.waiting_owner {heap : Nat} (hne : heap ≠ fallbackHeap) (hle : heap ≤ s.nextId)
    (hptr : ptr ≠ 0) (hw : Waiting pool s heap ptr) :
    ∃ x, AllocatedAt cfg s x ptr ∧ x.id.owner = heap := by
  rcases hw with ⟨j, hj, rfl⟩ | hhand
  · obtain ⟨x, hx, hid⟩ := h.queued _ (threadId_lt pool heap) j hj hptr
    have hactive := hs.inv.placed.bit_active hx.bit
    have howner := hs.orderly.owner _ hactive
    have hentry := (hs.registered.known _ (hs.registered.owner _ hactive howner)).1
    exact ⟨x, hx, hs.orderly.threadId_inj howner hne (hs.orderly.entries _ _ hentry) hle hid⟩
  · exact h.inHand heap ptr hhand

theorem Accounted.bitmapsExact : BitmapsExact cfg pool s := by
  have hp := hs.inv.placed
  refine ⟨?_, fun ptr object hl => h.live_owner hs hl, ?_, ?_⟩
  · intro x hactive hindex
    have hself (y : Slot) (hy : AllocatedAt cfg s y ((s.process.layout cfg x.id).addr x.index)) :
        y = x := hy.eq_of_contains hp hactive (Layout.contains_addr hindex)
    constructor
    · intro hb
      have hx : AllocatedAt cfg s x ((s.process.layout cfg x.id).addr x.index) := ⟨hb, rfl⟩
      have hbalance := h.balance x _ hx
      rcases hl : s.live ((s.process.layout cfg x.id).addr x.index) with _ | object
      · have hpos : 0 < s.pending pool ((s.process.layout cfg x.id).addr x.index) := by
          rw [hl, if_pos rfl] at hbalance
          omega
        rcases hs.pending_pos_iff.mp hpos with hfree | ⟨id, hid, j, hj, hslot⟩ | ⟨k, hk⟩
        · exact Or.inr (Or.inl hfree)
        · obtain ⟨y, hy, howner⟩ := h.queued id hid j hj (by rw [hslot]; exact hx.ne_zero hp)
          rw [hslot] at hy
          rw [hself y hy] at howner
          exact Or.inr (Or.inr (Or.inl ⟨j, hj, by rw [howner, hslot]⟩))
        · obtain ⟨y, hy, howner⟩ := h.inHand k _ hk
          rw [hself y hy] at howner
          exact Or.inr (Or.inr (Or.inr (by rw [howner, hk])))
      · obtain ⟨y, hy, hheap⟩ := h.live_owner hs hl
        rw [hself y hy] at hheap
        refine Or.inl ⟨object.size, ?_⟩
        rw [← hheap]
    · rintro (⟨sz, hl⟩ | ⟨k, hk⟩ | hw)
      · obtain ⟨y, hy⟩ := h.live _ (by rw [hl]; exact Option.some_ne_none _)
        rw [← hself y hy]
        exact hy.bit
      · obtain ⟨y, hy, -⟩ := h.freeing k _ hk
        rw [← hself y hy]
        exact hy.bit
      · have hpos : 0 < s.pending pool ((s.process.layout cfg x.id).addr x.index) :=
          Nat.lt_add_left _ (hs.waiting_pos hw)
        obtain ⟨y, hy⟩ := h.allocated_of_pending hs (hp.addr_ne_zero hactive hindex) hpos
        rw [← hself y hy]
        exact hy.bit
  · rintro ptr ⟨k, hk⟩
    obtain ⟨x, hx, -⟩ := h.freeing k ptr hk
    exact ⟨h.live_none hs (hx.ne_zero hp) (hs.pending_pos_iff.mpr (Or.inl ⟨k, hk⟩)), x, hx⟩
  · intro heap ptr hne hle hptr hw
    have hpos := hs.waiting_pos hw
    refine ⟨h.live_none hs hptr (Nat.lt_add_left _ hpos), ?_, h.waiting_owner hs hne hle hptr hw⟩
    rintro hfree
    have hflight := hs.inFlight_pos_iff.mpr hfree
    have hle := h.pending_le hs hptr
    rw [pending] at hle
    omega

end State

theorem not_returned_of_size {pc : Pc} {sz : Nat} (h : pc.size = some sz) :
    pc ≠ .idle (some (.malloc ptr)) := by
  rintro rfl
  cases h

theorem not_returned_of_freeing {pc : Pc} {p : Addr} (h : pc.freeing = some p) :
    pc ≠ .idle (some (.malloc ptr)) := by
  rintro rfl
  cases h

theorem refused_not_returned (k : Nat) (again : Bool) (p : Addr) (h : OwnershipTrackingHeap) :
    refused pool k again p h ≠ .idle (some (.malloc ptr)) := by
  rw [refused]
  split
  · simp
  · split <;> simp

theorem found_not_returned (slow : Bool) (p : Addr) (owner : Option Nat) :
    found pool slow p owner ≠ .idle (some (.malloc ptr)) := by
  cases slow with
  | false => simp [found]
  | true =>
    cases owner with
    | none => simp [found]
    | some ownerId =>
      simp only [found, if_true]
      split <;> simp

/-- A `malloc` returns with the slot that it takes or with a large object. -/
theorem Step.returned_of {s' : ScalableHeap} {k : Nat} {c : Choice} (hs : Step cfg pool s (.step k c) s')
    (hr : (s'.threads k).pc = .idle (some (.malloc ptr))) :
    (∃ x : Slot, s.process.Active cfg x.id ∧ x.index < (s.process.layout cfg x.id).slots ∧
      s.process.bit x = false ∧ (s.process.layout cfg x.id).addr x.index = ptr) ∨
      ∃ sz, (s.threads k).pc = .mapLarge sz := by
  cases hs with
  | take _ _ _ ht =>
    rw [setPc_pc] at hr
    cases hr
    exact Or.inl ⟨_, ht.active, ht.index_lt.trans_le (HeapConfig.nObjects_le_slots _ _), ht.clear, rfl⟩
  | mapLarge hpc _ _ _ => exact Or.inr ⟨_, hpc⟩
  | grow hpc _ | taken hpc =>
    rw [hpc] at hr
    cases hr
  | @register k c call pc _ _ =>
    rw [setThread_self] at hr
    cases call with
    | malloc sz => exact absurd hr (not_returned_of_size ((size_registered _ _ pc _ _).trans rfl))
    | free p => exact absurd hr (not_returned_of_freeing ((freeing_registered _ _ pc _ _).trans rfl))
  | drainHead _ hto | drainTail _ hto =>
    rw [setPc_pc] at hr
    rcases hto with rfl | rfl
    · cases hr
    · exact absurd hr (not_returned_of_size (size_allocate _ _))
  | consume _ _ | deliver _ _ _ | deliverBig _ =>
    rw [ScalableHeap.consume, setPc_pc] at hr
    exact absurd hr (not_returned_of_size (size_drained _ _ _))
  | callbackMiss _ _ _ | room _ _ | freeHit _ _ _ | freeMiss _ _ _ | largeHit _ _ =>
    rw [setPc_pc] at hr
    cases hr
  | largeMiss _ _ _ =>
    rw [setPc_pc] at hr
    exact absurd hr (refused_not_returned _ _ _ _)
  | @findOwner _ _ _ _ _ _ _ r _ _ _ =>
    rw [setPc_pc] at hr
    rcases r with pc' | owner
    · cases hr
    · exact absurd hr (found_not_returned _ _ _)
  | @push _ c p id pc _ =>
    rw [setPc_pc] at hr
    generalize (pushStep pool (s.queues id) p c.spurious pc).2 = r at hr
    rcases r with pc' | b <;> cases hr

section Runs

variable {ok : ScalableHeap → Action → Prop} {init : ScalableHeap}

/-- The cross-thread free protocol does what it is for. -/
structure FreesOnce (e : Execution (next cfg pool) ok init) : Prop where
  bitmaps : ∀ m ≤ e.length, BitmapsExact cfg pool (e.state m)
  /-- A new object is neither held by the program nor pending. -/
  fresh : ∀ m < e.length, ∀ k c ptr, e.action m = .step k c →
    ((e.state (m + 1)).threads k).pc = .idle (some (.malloc ptr)) →
    (e.state m).live ptr = none ∧ ¬ InFlight (e.state m) ptr ∧
      ∀ heap, ¬ Waiting pool (e.state m) heap ptr
  /-- A lookup during a free names the heap that allocated the object. -/
  owner : ∀ a m t ptr p exclude slow pc heap sz owner, e.action a = .free t ptr →
    (e.state a).live ptr = some ⟨some heap, sz⟩ → a < m → m < e.length →
    (∀ j, a < j → j ≤ m → ((e.state j).threads t).pc.isIdle = false) →
    ((e.state m).threads t).pc = .findOwner p exclude slow pc →
    (findStep cfg (e.state m).registry (e.state m).large (e.state m).process p exclude pc).2 =
      .inr owner → owner = some (threadId pool heap)
  /-- `SuperHeap::free` returns true to every callback. -/
  callback : ∀ m ≤ e.length, ∀ k sz t h n ptr,
    ((e.state m).threads k).pc = .drain sz (.callback t h n ptr) →
    ((e.state m).process.free cfg k ptr).1 = true
  /-- Behind a free the object is released once, or it is still pending. -/
  once : ∀ a m t ptr, e.action a = .free t ptr → ptr ≠ 0 → a < m → m ≤ e.length →
    (∀ j, a < j → j < m → (e.action j).isFree ptr = false) →
    Nat.count (fun j => a < j ∧ releases cfg (e.state j) ptr (e.action j) = true) m +
      (e.state m).pending pool ptr = 1

variable {localRandom : Nat → BitVec 64} {random : Nat → Nat → Nat → BitVec 64}
  {mem : Addr → BitVec 8} {mapped : List (Addr × Nat)}
  (e : Execution (next cfg pool) (Cooperates cfg pool) (start localRandom random mem mapped))
  (hd : cfg.dieHarderOn = false) (hwrap : Unwrapped pool (e.state e.length))
include hd hwrap

omit hd in
theorem Execution.turn {k : Nat} (hk : k < e.length) :
    Turn cfg pool (e.state k) (e.action k) (e.state (k + 1)) where
  sound := Execution.sound e hwrap hk.le
  sound' := Execution.sound e hwrap hk
  step := Execution.stepAt e (fun _ _ h => h.1) hk
  notFull := (e.guarded k hk).2.1
  protocol := (e.guarded k hk).2.2

theorem Execution.accounted {k : Nat} (hk : k ≤ e.length) : Accounted cfg pool (e.state k) := by
  apply e.keeps (I := fun _ s => Accounted cfg pool s) (Nat.zero_le k)
  · rw [e.initial]
    apply accounted_initial
    have hplaced : Placed cfg (.initial localRandom random mem mapped) := placed_initial _ _ _ _
    intro x
    rw [← Bool.not_eq_true]
    exact fun hb => start_not_active x.id (hplaced.bit_active hb)
  · intro j _ hjk h
    exact h.step hd (Execution.turn e hwrap (by omega))

private theorem fresh_of_cooperates {m k : Nat} {c : Choice} (hm : m < e.length)
    (hact : e.action m = .step k c)
    (hpc : ((e.state (m + 1)).threads k).pc = .idle (some (.malloc ptr))) :
    (e.state m).live ptr = none ∧ ¬ InFlight (e.state m) ptr ∧
      ∀ heap, ¬ Waiting pool (e.state m) heap ptr := by
  have t := Execution.turn e hwrap hm
  have h := Execution.accounted e hd hwrap hm.le
  have hplaced := t.sound.inv.placed
  have hs := t.step
  rw [hact] at hs
  rcases hs.returned_of hpc with ⟨x, hactive, hindex, hclear, rfl⟩ | ⟨sz, hlarge⟩
  · have hptr := hplaced.addr_ne_zero hactive hindex
    have hnone (y : Slot) :
        ¬ AllocatedAt cfg (e.state m) y (((e.state m).process.layout cfg x.id).addr x.index) := by
      intro hy
      have heq := hy.eq_of_contains hplaced hactive (Layout.contains_addr hindex)
      rw [← heq, hy.bit] at hclear
      cases hclear
    have hpending : ¬ 0 < (e.state m).pending pool
        (((e.state m).process.layout cfg x.id).addr x.index) := by
      intro hpos
      obtain ⟨y, hy⟩ := h.allocated_of_pending t.sound hptr hpos
      exact hnone y hy
    refine ⟨?_, ?_, ?_⟩
    · by_contra hl
      obtain ⟨y, hy⟩ := h.live _ hl
      exact hnone y hy
    · intro hfree
      exact hpending (t.sound.pending_pos_iff.mpr (Or.inl hfree))
    · intro heap hw
      exact hpending (Nat.lt_add_left _ (t.sound.waiting_pos hw))
  · have hok := t.sound.inv.threads k
    rw [hlarge] at hok
    exact absurd (t.sound.orderly.size k sz (by rw [hlarge]; rfl)) (Nat.not_le.mpr hok)

private theorem owner_of_cooperates {a m t : Nat} {p : Addr} {exclude : Nat} {slow : Bool}
    {pc : FindPc} {heap sz : Nat} {owner : Option Nat} (hact : e.action a = .free t ptr)
    (hl : (e.state a).live ptr = some ⟨some heap, sz⟩) (ham : a < m) (hm : m < e.length)
    (hbusy : ∀ j, a < j → j ≤ m → ((e.state j).threads t).pc.isIdle = false)
    (hpc : ((e.state m).threads t).pc = .findOwner p exclude slow pc)
    (hr : (findStep cfg (e.state m).registry (e.state m).large (e.state m).process p exclude pc).2 =
      .inr owner) : owner = some (threadId pool heap) := by
  -- the call is still under way
  have hfreeing : ((e.state m).threads t).pc.freeing = some ptr := by
    apply e.keeps (I := fun j s => (s.threads t).pc.freeing = some ptr) ham
    · have hs := Execution.stepAt e (fun _ _ h => h.1) (k := a) (by omega)
      have hfirst := hbusy (a + 1) (by omega) ham
      rw [hact] at hs
      rw [hs.atFree fun last hlast => by rw [hlast] at hfirst; cases hfirst]
      rfl
    · intro k hak hkm hf
      have hcall := Execution.turn e hwrap (k := k) (by omega)
      have hlater := hbusy (k + 1) (by omega) hkm
      rcases hcall.step.busy fun last hlast => (by rw [hlast] at hf; cases hf) with he | ⟨c, hc⟩
      · rwa [he]
      · obtain ⟨x, hx, haims⟩ := (Execution.accounted e hd hwrap (k := k) (by omega)).freeing t ptr hf
        have hs := hcall.step
        have hfull := hcall.notFull
        rw [hc] at hs hfull
        rcases hcall.sound.aims_access hcall.sound' hd hs hfull hx haims with ⟨haims', -⟩ | ⟨hidle, -⟩
        · exact haims'.freeing
        · rw [hidle] at hlater
          cases hlater
  have hcall := Execution.turn e hwrap hm
  obtain ⟨x, hx, haims⟩ := (Execution.accounted e hd hwrap hm.le).freeing t ptr hfreeing
  rw [hpc] at haims
  obtain ⟨-, hown⟩ | ⟨-, rfl, rfl, -, hne, hreaches⟩ := haims
  · cases hown
  · have hplaced := hcall.sound.inv.placed
    have hactive := hplaced.bit_active hx.bit
    have hok := hcall.sound.inv.threads t
    rw [hpc] at hok
    have hanswer := reachesOr_findStep hcall.sound.inv hcall.sound.registered hactive
      (hx.contains hplaced) (hcall.sound.orderly.owner _ hactive) hne
      (fun _ _ _ _ hd' => by rw [hd] at hd'; cases hd') hreaches hok.2
    rw [hr] at hanswer
    -- the slot is the one that the object had when it was freed
    obtain ⟨y, hy, hindex, hheap, -, haddr⟩ :=
      (Execution.inv e (fun _ _ h => h.1) (k := a) (by omega)).live p heap sz hl
    have hext := Execution.extends e (fun _ _ h => h.1) ham.le hm.le
    have heq := hx.eq_of_contains hplaced (hext.active _ hy)
      (hext.contains hy (haddr ▸ Layout.contains_addr hindex))
    rw [hanswer, heq, hheap]

private theorem callback_of_cooperates {m k sz t h n : Nat} (hm : m ≤ e.length)
    (hpc : ((e.state m).threads k).pc = .drain sz (.callback t h n ptr)) :
    ((e.state m).process.free cfg k ptr).1 = true := by
  obtain ⟨x, hx, howner⟩ := (Execution.accounted e hd hwrap hm).inHand k ptr (by rw [hpc]; rfl)
  rw [hx.free_fst (Execution.sound e hwrap hm).inv, howner, decide_eq_true rfl]

private theorem once_of_cooperates {a m t : Nat} (hact : e.action a = .free t ptr) (hptr : ptr ≠ 0)
    (ham : a < m) (hm : m ≤ e.length) (hno : ∀ j, a < j → j < m → (e.action j).isFree ptr = false) :
    Nat.count (fun j => a < j ∧ releases cfg (e.state j) ptr (e.action j) = true) m +
      (e.state m).pending pool ptr = 1 := by
  apply e.keeps (I := fun m s => Nat.count (fun j => a < j ∧
    releases cfg (e.state j) ptr (e.action j) = true) m + s.pending pool ptr = 1) ham
  · have hcall := Execution.turn e hwrap (k := a) (by omega)
    have haccounted := Execution.accounted e hd hwrap (k := a) (by omega)
    have hturn := haccounted.pending_turn hd hcall hptr
    have hprotocol := hcall.protocol
    rw [hact] at hturn hprotocol
    simp only [releases, Action.isFree, beq_self_eq_true, Bool.toNat_true, Bool.toNat_false] at hturn
    -- the object was with the program, so no other free of it was pending
    have hlive := hprotocol.2.resolve_left hptr
    obtain ⟨x, hx⟩ := haccounted.live ptr hlive
    have hbalance := haccounted.balance x ptr hx
    rw [if_neg hlive] at hbalance
    rw [Nat.count_of_forall_not fun j hj h => absurd h.1 (by omega)]
    change 0 + (e.state (a + 1)).pending pool ptr = 1
    omega
  · intro k hak hkm hsum
    have hturn := (Execution.accounted e hd hwrap (k := k) (by omega)).pending_turn hd
      (Execution.turn e hwrap (k := k) (by omega)) hptr
    rw [hno k (by omega) hkm, Bool.toNat_false] at hturn
    rw [Nat.count_succ]
    cases hrel : releases cfg (e.state k) ptr (e.action k) with
    | false =>
      rw [hrel, Bool.toNat_false] at hturn
      rw [if_neg fun h => Bool.noConfusion h.2]
      omega
    | true =>
      rw [hrel, Bool.toNat_true] at hturn
      rw [if_pos ⟨by omega, rfl⟩]
      omega

theorem freesOnce : FreesOnce e where
  bitmaps _ hm := (Execution.accounted e hd hwrap hm).bitmapsExact (Execution.sound e hwrap hm)
  fresh _ hm _ _ _ hact hpc := fresh_of_cooperates e hd hwrap hm hact hpc
  owner _ _ _ _ _ _ _ _ _ _ _ hact hl ham hm hbusy hpc hr :=
    owner_of_cooperates e hd hwrap hact hl ham hm hbusy hpc hr
  callback _ hm _ _ _ _ _ _ hpc := callback_of_cooperates e hd hwrap hm hpc
  once _ _ _ _ hact hptr ham hm hno := once_of_cooperates e hd hwrap hact hptr ham hm hno

end Runs

/-- A ring of one slot whose owner looks at it in every `malloc`. -/
def eager : PoolConfig := { oneSlot with freeBatchSize := 1, drainCheckInterval := 1 }

/-- Heap 2 frees an object of heap 1, and the next `malloc` of heap 1 drains it. -/
def firstDrained : List Action :=
  [.create, .create, .malloc 1 16] ++ accesses 1 9 4096 (0, 0) ++ [.free 2 4096] ++
    accesses 2 14 0 (0, 0) ++ [.malloc 1 16] ++ accesses 1 11 0 (0, 1)

private theorem guarded_firstDrained : Guarded (next (.libdieharder false false) eager)
    (Cooperates (.libdieharder false false) eager) blank firstDrained :=
  guarded_of_small (guarded_of_bool (by decide +kernel))

def firstDrainedExecution : Execution (next (.libdieharder false false) eager)
    (Cooperates (.libdieharder false false) eager) blank :=
  .ofRun firstDrained (by decide +kernel) guarded_firstDrained

theorem freesOnce_firstDrained : FreesOnce firstDrainedExecution :=
  freesOnce firstDrainedExecution rfl (by decide +kernel)

end ScalableHeap

end DieHard
