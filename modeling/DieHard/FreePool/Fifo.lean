import DieHard.FreePool.Steps
import Mathlib.Data.Nat.Count

/-!
# The queue is a bounded first-in first-out queue

The counters stay a capacity apart, a producer writes only into a delivered slot, and the callbacks
see the claimed pointers in claim order. A drain that begins while every producer is idle delivers
all that was pending, in a number of its own steps that depends on the capacity only.
-/

namespace DieHard

open PerThreadFreeQueue Transition

namespace QueueState

variable {ι : Type} {cfg : PoolConfig} {s s' : QueueState ι}

/-- `0 <= _head - _tail <= FREE_QUEUE_CAPACITY`. -/
def Bounded (cfg : PoolConfig) (s : QueueState ι) : Prop :=
  s.queue.tail ≤ s.queue.head ∧ s.queue.head - s.queue.tail ≤ cfg.freeQueueCapacity

/-- A producer about to store finds its slot empty, and every earlier pointer of that slot has been
handed to a callback. -/
def StoresIntoDelivered (cfg : PoolConfig) (s : QueueState ι) : Prop :=
  ∀ i ptr n, s.producer i = some (ptr, .storeSlot n) →
    s.queue.slots (slotOf cfg n) = 0 ∧
      ∀ m < n, slotOf cfg m = slotOf cfg n → m < s.delivered.length

/-- The callbacks have seen a prefix of the claimed pointers, all of them stored. The `n`-th claimed
pointer belongs to head index `n`. -/
def DeliversInOrder (s : QueueState ι) : Prop :=
  s.delivered <+: s.claimed ∧ s.queue.head = s.claimed.length ∧
    ∀ i ptr n, s.producer i = some (ptr, .storeSlot n) →
      s.claimed[n]? = some ptr ∧ s.delivered.length ≤ n

theorem Inv.bounded (h : Inv cfg s) : Bounded cfg s := by
  have hhead := h.head_eq
  have htail := h.tail_le.trans h.delivered_le
  have hpending := h.pending_le
  refine ⟨by omega, by omega⟩

theorem Inv.storesIntoDelivered (h : Inv cfg s) : StoresIntoDelivered cfg s := by
  intro i ptr n hi
  have hf := h.producers i
  rw [hi] at hf
  refine ⟨hf.2.2.2, ?_⟩
  intro m hm hslot
  have hn := h.storing_lt ⟨i, ptr, hi⟩
  by_contra hge
  exact absurd (h.slot_inj (Nat.not_lt.mp hge) (hm.trans hn) hf.2.1 hn hslot) hm.ne

theorem Inv.deliversInOrder (h : Inv cfg s) : DeliversInOrder s := by
  refine ⟨h.delivered_grows, h.head_eq, ?_⟩
  intro i ptr n hi
  have hf := h.producers i
  rw [hi] at hf
  exact ⟨hf.2.2.1, hf.2.1⟩

/-- Steps that a drain can still take before the pointers it is to deliver are out. -/
def stepsLeft (cfg : PoolConfig) : DrainPc → Nat
  | .loadTail => 3 * cfg.freeQueueCapacity + 4
  | .loadHead _ => 3 * cfg.freeQueueCapacity + 3
  | .loadSlot t h _ => 3 * (h - t) + 2
  | .clearSlot t h _ _ => 3 * (h - t) + 1
  | .callback t h _ _ => 3 * (h - t)
  | .storeTail _ _ => 0

/-- The drain has seen a head that covers the first `goal` indices, and is not at its end. -/
def Covers (goal : Nat) : DrainPc → Prop
  | .loadTail => True
  | .loadHead _ => True
  | .loadSlot _ h _ => goal ≤ h
  | .clearSlot _ h _ _ => goal ≤ h
  | .callback _ h _ _ => goal ≤ h
  | .storeTail _ _ => False

/-- A drain on its way to deliver the first `goal` indices after `taken` of its steps: either they
are out, or none of them waits for its producer and the drain has not given up. -/
def Draining (cfg : PoolConfig) (goal taken : Nat) (s : QueueState ι) : Prop :=
  goal ≤ s.claimed.length ∧ (goal ≤ s.delivered.length ∨
    ((∀ n, s.Storing n → goal ≤ n) ∧ ∃ pc, s.consumer = some pc ∧ Covers goal pc ∧
      stepsLeft cfg pc + taken ≤ 3 * cfg.freeQueueCapacity + 4))

def isConsume : Action ι → Bool
  | .consume => true
  | _ => false

theorem Inv.next_slot_filled (h : Inv cfg s) {goal : Nat}
    (hgoal : goal ≤ s.claimed.length) (hlt : s.delivered.length < goal)
    (hs : ∀ n, s.Storing n → goal ≤ n) (hhand : ∀ n, ¬ s.InHand n) :
    s.queue.slots (slotOf cfg s.delivered.length) ≠ 0 := by
  obtain ⟨ptr, hptr⟩ : ∃ ptr, s.claimed[s.delivered.length]? = some ptr :=
    ⟨_, List.getElem?_eq_getElem (by omega)⟩
  rcases h.pending _ ptr (Nat.le_refl _) hptr with hst | hin | hslot
  · exact absurd (hs _ hst) (by omega)
  · exact absurd hin (hhand _)
  · rw [hslot]
    exact h.nonnull ptr (List.mem_of_getElem? hptr)

variable [DecidableEq ι]

private theorem storing_setProducer {i : ι} {v : Option (Addr × PushPc)} {goal : Nat}
    (hs : ∀ n, s.Storing n → goal ≤ n) (hv : ∀ p n, v = some (p, .storeSlot n) → goal ≤ n) :
    ∀ n, (s.setProducer i v).Storing n → goal ≤ n := by
  rintro n ⟨j, p, hj⟩
  by_cases hji : j = i
  · subst j
    simp only [setProducer, Function.update_self] at hj
    exact hv p n hj
  · simp only [setProducer, Function.update_of_ne hji] at hj
    exact hs n ⟨j, p, hj⟩

private theorem Draining.of_delivered {goal taken : Nat} {a : Action ι}
    (h : goal ≤ s.claimed.length) (hd : goal ≤ s.delivered.length) (hs : Step cfg s a s') :
    Draining cfg goal taken s' :=
  ⟨h.trans hs.claimed_grows.length_le, Or.inl (hd.trans hs.delivered_grows.length_le)⟩

/-- One step of anyone keeps a drain on its way; a step of the consumer is counted. -/
theorem Draining.step {goal taken : Nat} {a : Action ι} (h : Draining cfg goal taken s)
    (hinv : Inv cfg s) (hs : Step cfg s a s') (hwrap : s.claimed.length < sizeRange) :
    Draining cfg goal (taken + if isConsume a then 1 else 0) s' := by
  obtain ⟨hgoal, hd | ⟨hst, pc, hc, hcov, hleft⟩⟩ := h
  · exact Draining.of_delivered hgoal hd hs
  refine ⟨hgoal.trans hs.claimed_grows.length_le, ?_⟩
  by_cases hdone : goal ≤ s.delivered.length
  · exact Or.inl (hdone.trans hs.delivered_grows.length_le)
  have hcons := hinv.consumers
  cases hs with
  | call _ _ | loadHead _ | full _ _ | room _ _ | retry _ =>
    exact Or.inr ⟨storing_setProducer hst (by simp), pc, hc, hcov, hleft⟩
  | @claim i _ ptr _ =>
    refine Or.inr ⟨?_, pc, hc, hcov, hleft⟩
    refine storing_setProducer (s := s) (i := i) hst ?_
    intro p n hn
    simp only [Option.some.injEq, Prod.mk.injEq, PushPc.storeSlot.injEq] at hn
    rw [← hn.2, hinv.head_eq]
    exact hgoal
  | @store i _ _ _ _ =>
    exact Or.inr ⟨storing_setProducer (s := s) (i := i) hst (by simp), pc, hc, hcov, hleft⟩
  | drain hn => simp [hc] at hn
  | drainTail hn =>
    rw [hn] at hc
    cases hc
    simp only [stepsLeft] at hleft
    refine Or.inr ⟨hst, _, rfl, trivial, ?_⟩
    simp only [stepsLeft, isConsume, if_true]
    omega
  | @drainHead t hn =>
    rw [hn] at hc hcons
    cases hc
    have hpend := hinv.pending_le
    have hhead := hinv.head_eq
    have ht := hcons.1.trans hcons.2.symm
    refine Or.inr ⟨hst, _, rfl, ?_, ?_⟩
    · simp only [Covers]
      omega
    · simp only [stepsLeft, isConsume, if_true] at hleft ⊢
      omega
  | @finish t hd n hn hnull =>
    rw [hn] at hc hcons
    cases hc
    -- the next pending slot is filled, so the drain cannot stop here
    have ht : t = s.delivered.length := hcons.1
    have hhand : ∀ n, ¬ s.InHand n := by simp [InHand, hn]
    have hfilled := hinv.next_slot_filled hgoal (by omega) hst hhand
    simp only [Covers] at hcov
    rw [ht] at hnull
    exact absurd (hnull (by omega)) hfilled
  | take hn hlt _ =>
    rw [hn] at hc
    cases hc
    simp only [stepsLeft] at hleft
    refine Or.inr ⟨hst, _, rfl, hcov, ?_⟩
    simp only [stepsLeft, isConsume, if_true]
    omega
  | clear hn =>
    rw [hn] at hc
    cases hc
    simp only [stepsLeft] at hleft
    refine Or.inr ⟨hst, _, rfl, hcov, ?_⟩
    simp only [stepsLeft, isConsume, if_true]
    omega
  | @deliver t hd n ptr hn =>
    rw [hn] at hc hcons
    cases hc
    have hsucc : sizeSucc t = t + 1 := sizeSucc_of_lt (by have := hcons.2.1; have := hcons.2.2.1; omega)
    have hlt := hcons.2.1
    refine Or.inr ⟨hst, _, rfl, hcov, ?_⟩
    simp only [stepsLeft] at hleft
    simp only [stepsLeft, isConsume, if_true, hsucc]
    omega
  | publish hn =>
    rw [hn] at hc
    cases hc
    exact hcov.elim

/-- One step of anyone while the call of producer `i` is running: the call goes on without a claim, it
claims the next head index, or it returns. -/
theorem Step.call_cases {a : Action ι} {i : ι} {ptr : Addr} {pc : PushPc} (hs : Step cfg s a s')
    (hi : s.producer i = some (ptr, pc)) :
    (∃ pc', s'.producer i = some (ptr, pc') ∧ (∀ n, pc' = .storeSlot n ↔ pc = .storeSlot n) ∧
      ((∃ sp, a = .produce i sp) → s'.claimed = s.claimed)) ∨
    ((∀ n, pc ≠ .storeSlot n) ∧ s'.producer i = some (ptr, .storeSlot s.queue.head) ∧
      (∃ sp, a = .produce i sp) ∧ s'.claimed = s.claimed ++ [ptr]) ∨
    s'.producer i = none := by
  cases hs with
  | @call j p hj _ =>
    have hij : i ≠ j := by
      rintro rfl
      simp [hj] at hi
    exact Or.inl ⟨pc, by simp [setProducer, hij, hi], fun _ => Iff.rfl, fun _ => rfl⟩
  | @loadHead j sp p hj | @room j sp p h hj _ | @retry j sp p h hj =>
    by_cases hij : i = j
    · subst hij
      rw [hj, Option.some.injEq, Prod.mk.injEq] at hi
      obtain ⟨rfl, rfl⟩ := hi
      exact Or.inl ⟨_, by simp [setProducer]; rfl, by simp, fun _ => rfl⟩
    · exact Or.inl ⟨pc, by simp [setProducer, hij, hi], fun _ => Iff.rfl, fun _ => rfl⟩
  | @full j sp p h hj _ =>
    by_cases hij : i = j
    · subst hij
      exact Or.inr (Or.inr (by simp [setProducer]))
    · exact Or.inl ⟨pc, by simp [setProducer, hij, hi], fun _ => Iff.rfl, fun _ => rfl⟩
  | @claim j sp p hj =>
    by_cases hij : i = j
    · subst hij
      rw [hj, Option.some.injEq, Prod.mk.injEq] at hi
      obtain ⟨rfl, rfl⟩ := hi
      exact Or.inr (Or.inl ⟨by simp, by simp, ⟨sp, rfl⟩, rfl⟩)
    · refine Or.inl ⟨pc, by simp [hij, hi], fun _ => Iff.rfl, ?_⟩
      rintro ⟨sp', hsp⟩
      simp only [Action.produce.injEq] at hsp
      exact absurd hsp.1.symm hij
  | @store j sp p n hj =>
    by_cases hij : i = j
    · subst hij
      exact Or.inr (Or.inr (by simp))
    · exact Or.inl ⟨pc, by simp [hij, hi], fun _ => Iff.rfl, fun _ => rfl⟩
  | _ => exact Or.inl ⟨pc, hi, fun _ => Iff.rfl, fun _ => rfl⟩

theorem Step.claimed_cases {a : Action ι} (hs : Step cfg s a s') :
    s'.claimed = s.claimed ∨ ∃ i sp ptr pc, a = .produce i sp ∧ s.producer i = some (ptr, pc) ∧
      s'.claimed = s.claimed ++ [ptr] := by
  cases hs with
  | claim hi => exact Or.inr ⟨_, _, _, _, rfl, hi, rfl⟩
  | _ => exact Or.inl rfl

/-- A call that runs after a step ran before it, or the step has begun it. -/
theorem Step.running {a : Action ι} {i : ι} {ptr : Addr} {pc : PushPc} (hs : Step cfg s a s')
    (hi : s'.producer i = some (ptr, pc)) :
    (∃ pc', s.producer i = some (ptr, pc')) ∨ a = .push i ptr := by
  cases hp : s.producer i with
  | some v =>
    obtain ⟨p, pc'⟩ := v
    obtain ⟨_, hr, -⟩ | ⟨-, hr, -⟩ | hr := hs.call_cases hp
    · rw [hr, Option.some.injEq, Prod.mk.injEq] at hi
      exact Or.inl ⟨pc', by rw [hi.1]⟩
    · rw [hr, Option.some.injEq, Prod.mk.injEq] at hi
      exact Or.inl ⟨pc', by rw [hi.1]⟩
    · rw [hr] at hi
      cases hi
  | none =>
    refine Or.inr ?_
    have hother (j : ι) (v : Option (Addr × PushPc)) (hj : s.producer j ≠ none)
        (h : Function.update s.producer j v i = some (ptr, pc)) : False := by
      have hij : i ≠ j := fun h => hj (h ▸ hp)
      rw [Function.update_of_ne hij, hp] at h
      cases h
    cases hs with
    | @call j p hj _ =>
      by_cases hij : i = j
      · subst hij
        simp only [setProducer, Function.update_self, Option.some.injEq, Prod.mk.injEq] at hi
        rw [hi.1]
      · simp [setProducer, hij, hp] at hi
    | loadHead hj | full hj _ | room hj _ | claim hj | retry hj | store hj =>
      exact (hother _ _ (by simp [hj]) hi).elim
    | _ =>
      rw [hp] at hi
      cases hi

section Runs

variable {ok : QueueState ι → Action ι → Prop}
  (e : Execution (next cfg) ok (initial : QueueState ι))

theorem claimed_mono {a b : Nat} (hab : a ≤ b) (hb : b ≤ e.length) :
    (e.state a).claimed <+: (e.state b).claimed :=
  e.keeps (I := fun _ s => (e.state a).claimed <+: s.claimed) hab (List.prefix_refl _)
    fun k _ hk ih => ih.trans (step_of_next (e.step k (by omega))).claimed_grows

theorem delivered_mono {a b : Nat} (hab : a ≤ b) (hb : b ≤ e.length) :
    (e.state a).delivered <+: (e.state b).delivered :=
  e.keeps (I := fun _ s => (e.state a).delivered <+: s.delivered) hab (List.prefix_refl _)
    fun k _ hk ih => ih.trans (step_of_next (e.step k (by omega))).delivered_grows

theorem inv_of_execution (hwrap : (e.state e.length).claimed.length < sizeRange) {k : Nat}
    (hk : k ≤ e.length) : Inv cfg (e.state k) :=
  inv_reach (e.reach hk) ((claimed_mono e hk (Nat.le_refl _)).length_le.trans_lt hwrap)

/-- The steps that the consumer took after moment `a` and before moment `b`. -/
def consumed (a b : Nat) : Nat := Nat.count (fun k => a < k ∧ isConsume (e.action k)) b

/-- From its call on, a drain that began among idle producers is on its way. -/
theorem draining_of_call (hwrap : (e.state e.length).claimed.length < sizeRange) {a b : Nat}
    (hab : a < b) (hb : b ≤ e.length) (hcall : e.action a = .drain)
    (hidle : ∀ i, (e.state a).producer i = none) :
    Draining cfg (e.state a).claimed.length (consumed e a b) (e.state b) := by
  refine e.keeps (I := fun k s => Draining cfg (e.state a).claimed.length (consumed e a k) s)
    hab ?_ ?_
  · have hstep := step_of_next (e.step a (by omega))
    rw [hcall] at hstep
    generalize hs' : e.state (a + 1) = s' at hstep
    cases hstep with
    | drain _ =>
      have hnone : consumed e a (a + 1) = 0 := Nat.count_iff_forall_not.mpr (by omega)
      refine ⟨Nat.le_refl _, Or.inr ⟨?_, .loadTail, rfl, trivial, ?_⟩⟩
      · rintro n ⟨i, p, hi⟩
        simp [hidle i] at hi
      · simp only [stepsLeft, hnone]
        omega
  · intro k hak hkb ih
    have hinv := inv_of_execution e hwrap (k := k) (by omega)
    have hw := (claimed_mono e (a := k) (b := e.length) (by omega) (Nat.le_refl _)).length_le
    have hcount : consumed e a (k + 1) =
        consumed e a k + if isConsume (e.action k) then 1 else 0 := by
      have hk : a < k := hak
      simp only [consumed, Nat.count_succ, hk, true_and]
    rw [hcount]
    exact ih.step hinv (step_of_next (e.step k (by omega))) (by omega)

/-- When such a drain has returned, or has taken its bound of steps, all that was pending at its
call has been delivered. -/
theorem drained (hwrap : (e.state e.length).claimed.length < sizeRange) {a b : Nat}
    (hab : a < b) (hb : b ≤ e.length) (hcall : e.action a = .drain)
    (hidle : ∀ i, (e.state a).producer i = none)
    (hend : (e.state b).consumer = none ∨ 3 * cfg.freeQueueCapacity + 4 ≤ consumed e a b) :
    (e.state a).claimed <+: (e.state b).delivered := by
  have hinv := inv_of_execution e hwrap hb
  have hclaimed := claimed_mono e hab.le hb
  refine List.prefix_of_prefix_length_le hclaimed hinv.delivered_grows ?_
  obtain ⟨-, hd | ⟨-, pc, hc, hcov, hleft⟩⟩ := draining_of_call e hwrap hab hb hcall hidle
  · exact hd
  · exfalso
    rcases hend with hnone | hbound
    · rw [hnone] at hc
      cases hc
    · cases pc with
      | storeTail _ _ => exact hcov
      | callback t h n ptr =>
        have hf := hinv.consumers
        rw [hc] at hf
        have := hf.2.1
        simp only [stepsLeft] at hleft
        omega
      | _ =>
        simp only [stepsLeft] at hleft
        omega

/-- The call `push(ptr)` that producer `i` begins at moment `a` goes on until moment `b`. -/
structure Calls (i : ι) (ptr : Addr) (a b : Nat) : Prop where
  begins : e.action a = .push i ptr
  lt : a < b
  running : ∀ k, a < k → k ≤ b → ((e.state k).producer i).map Prod.fst = some ptr

/-- That call returns `result` at moment `b`. -/
structure Returns (i : ι) (ptr : Addr) (a b : Nat) (result : Bool) : Prop where
  lt_length : b < e.length
  calls : Calls e i ptr a b
  returns : ∃ spurious pc, e.action b = .produce i spurious ∧ (e.state b).producer i = some (ptr, pc) ∧
    (pushStep cfg (e.state b).queue ptr spurious pc).2 = .inr result

/-- The access of producer `i` at moment `c` claims the next head index for `ptr`. -/
def ClaimsAt (i : ι) (ptr : Addr) (c : Nat) : Prop :=
  (∃ spurious, e.action c = .produce i spurious) ∧
    (e.state (c + 1)).claimed = (e.state c).claimed ++ [ptr]

/-- Between the moments `a` and `b` producer `i` claims one head index, and the slot of this index holds
`ptr` after moment `b`. -/
def Pushed (i : ι) (ptr : Addr) (a b : Nat) : Prop :=
  ∃! c, a < c ∧ c < b ∧ ClaimsAt e i ptr c ∧
    (e.state (b + 1)).queue.slots (slotOf cfg (e.state c).claimed.length) = ptr

def Refused (i : ι) (ptr : Addr) (a b : Nat) : Prop := ∀ c, a < c → c < b → ¬ ClaimsAt e i ptr c

/-- How far a call has come at moment `k`: before its claim, or with the index that it has claimed. -/
def CallAt (i : ι) (ptr : Addr) (a k : Nat) (s : QueueState ι) : Prop :=
  ∃ pc, s.producer i = some (ptr, pc) ∧
    ((∀ n, pc ≠ .storeSlot n) ∧ Refused e i ptr a k ∨
      ∃ c, a < c ∧ c < k ∧ ClaimsAt e i ptr c ∧ pc = .storeSlot (e.state c).claimed.length ∧
        ∀ c', a < c' → c' < k → ClaimsAt e i ptr c' → c' = c)

variable {e} {i : ι} {ptr : Addr} {a b k : Nat}

theorem Calls.exists_pc (h : Calls e i ptr a b) (hak : a < k) (hkb : k ≤ b) :
    ∃ pc, (e.state k).producer i = some (ptr, pc) := by
  obtain ⟨⟨p, pc⟩, hpc, rfl⟩ := Option.map_eq_some_iff.mp (h.running k hak hkb)
  exact ⟨pc, hpc⟩

theorem Refused.of_not_claimsAt (h : Refused e i ptr a k) (hk : ¬ ClaimsAt e i ptr k) :
    Refused e i ptr a (k + 1) := by
  intro c hac hck
  rcases Nat.lt_succ_iff_lt_or_eq.mp hck with hlt | rfl
  · exact h c hac hlt
  · exact hk

theorem not_claimsAt_of_eq (h : (∃ sp, e.action k = .produce i sp) →
    (e.state (k + 1)).claimed = (e.state k).claimed) : ¬ ClaimsAt e i ptr k := by
  rintro ⟨hact, hclaimed⟩
  rw [h hact] at hclaimed
  simp at hclaimed

/-- From its beginning on, a call that has not returned is before its claim or has claimed one index. -/
theorem Calls.callAt (hwrap : (e.state e.length).claimed.length < sizeRange) (h : Calls e i ptr a b)
    (hb : b ≤ e.length) : CallAt e i ptr a b (e.state b) := by
  refine e.keeps (I := fun k s => CallAt e i ptr a k s) h.lt ?_ ?_
  · obtain ⟨pc, hpc⟩ := h.exists_pc (k := a + 1) (by omega) h.lt
    have hs := step_of_next (e.step a (by have := h.lt; omega))
    rw [h.begins] at hs
    refine ⟨.loadHead, ?_, Or.inl ⟨by simp, by intro c hac hca; omega⟩⟩
    generalize e.state (a + 1) = s' at hs
    cases hs with
    | call _ _ => simp [setProducer]
  · rintro k hak hkb ⟨pc, hpc, hcall⟩
    have hs := step_of_next (e.step k (by omega))
    obtain ⟨pc₁, hrun⟩ := h.exists_pc (k := k + 1) (by omega) hkb
    obtain ⟨pc', hpc', hstore, hclaimed⟩ | ⟨hstore, hpc', hact, hclaimed⟩ | hnone := hs.call_cases hpc
    · have hnot : ¬ ClaimsAt e i ptr k := not_claimsAt_of_eq hclaimed
      refine ⟨pc', hpc', hcall.imp ?_ ?_⟩
      · rintro ⟨hno, hrefused⟩
        exact ⟨fun n hn => hno n ((hstore n).mp hn), hrefused.of_not_claimsAt hnot⟩
      · rintro ⟨c, hac, hck, hc, hn, huniq⟩
        refine ⟨c, hac, by omega, hc, (hstore _).mpr hn, ?_⟩
        intro c' hac' hck' hc'
        rcases Nat.lt_succ_iff_lt_or_eq.mp hck' with hlt | rfl
        · exact huniq c' hac' hlt hc'
        · exact absurd hc' hnot
    · have hhead := (inv_of_execution e hwrap (k := k) (by omega)).head_eq
      refine ⟨_, hpc', Or.inr ⟨k, hak, by omega, ⟨hact, hclaimed⟩, by rw [hhead], ?_⟩⟩
      rcases hcall with ⟨-, hrefused⟩ | ⟨c, -, -, -, hn, -⟩
      · intro c' hac' hck' hc'
        rcases Nat.lt_succ_iff_lt_or_eq.mp hck' with hlt | rfl
        · exact absurd hc' (hrefused c' hac' hlt)
        · rfl
      · exact absurd hn (hstore _)
    · rw [hnone] at hrun
      cases hrun

/-- A call that returns true has claimed one index and stored its pointer there; one that returns false has
claimed none. -/
theorem Returns.pushed_or_refused {result : Bool}
    (hwrap : (e.state e.length).claimed.length < sizeRange) (h : Returns e i ptr a b result) :
    result = true ∧ Pushed e i ptr a b ∨ result = false ∧ Refused e i ptr a b := by
  have hb := h.lt_length
  obtain ⟨pc, hpc, hcall⟩ := h.calls.callAt hwrap hb.le
  obtain ⟨sp, pc', hact, hpc', hr⟩ := h.returns
  obtain rfl : pc = pc' := by simpa [hpc] using hpc'
  have hn := e.step b hb
  rw [hact] at hn
  simp only [next, hpc, Option.some.injEq] at hn
  rcases hcall with ⟨hno, hrefused⟩ | ⟨c, hac, hcb, hc, rfl, huniq⟩
  · refine Or.inr ⟨?_, hrefused⟩
    cases pc with
    | storeSlot n => exact absurd rfl (hno n)
    | loadHead => simp [pushStep] at hr
    | loadTail n =>
      simp only [pushStep] at hr
      split at hr <;> simp_all
    | casHead n =>
      simp only [pushStep] at hr
      split at hr <;> simp at hr
  · refine Or.inl ⟨by simpa [pushStep] using hr.symm, c, ⟨hac, hcb, hc, ?_⟩, ?_⟩
    · rw [← hn]
      simp [pushStep]
    · rintro c' ⟨hac', hcb', hc', -⟩
      exact huniq c' hac' hcb' hc'

theorem exists_calls (hk : k ≤ e.length) {pc : PushPc} (hpc : (e.state k).producer i = some (ptr, pc)) :
    ∃ a, Calls e i ptr a k := by
  induction k generalizing pc with
  | zero =>
    rw [e.initial] at hpc
    cases hpc
  | succ k ih =>
    rcases (step_of_next (e.step k (by omega))).running hpc with ⟨pc', hpc'⟩ | hact
    · obtain ⟨a, ha⟩ := ih (by omega) hpc'
      refine ⟨a, ha.begins, by have := ha.lt; omega, ?_⟩
      intro j haj hjk
      rcases Nat.le_succ_iff.mp hjk with hle | rfl
      · exact ha.running j haj hle
      · rw [hpc, Option.map_some]
    · refine ⟨k, hact, by omega, ?_⟩
      intro j hkj hjk
      obtain rfl : j = k + 1 := by omega
      rw [hpc, Option.map_some]

/-- Each claimed pointer is that of a call which has claimed its index for it. -/
theorem exists_claimsAt (hk : k ≤ e.length) {n : Nat} (hn : (e.state k).claimed[n]? = some ptr) :
    ∃ i a c, c < k ∧ Calls e i ptr a c ∧ ClaimsAt e i ptr c ∧ (e.state c).claimed.length = n := by
  induction k with
  | zero =>
    rw [e.initial] at hn
    simp [initial] at hn
  | succ k ih =>
    have hs := step_of_next (e.step k (by omega))
    have hold (h : (e.state (k + 1)).claimed = (e.state k).claimed) :
        ∃ i a c, c < k + 1 ∧ Calls e i ptr a c ∧ ClaimsAt e i ptr c ∧ (e.state c).claimed.length = n := by
      rw [h] at hn
      obtain ⟨i, a, c, hc, hrest⟩ := ih (by omega) hn
      exact ⟨i, a, c, by omega, hrest⟩
    by_cases hlt : n < (e.state k).claimed.length
    · have hn' : (e.state k).claimed[n]? = some ptr := by
        obtain ⟨l, hl⟩ := hs.claimed_grows
        rwa [← hl, List.getElem?_append_left hlt] at hn
      obtain ⟨i, a, c, hc, hrest⟩ := ih (by omega) hn'
      exact ⟨i, a, c, by omega, hrest⟩
    · rcases hs.claimed_cases with hsame | ⟨i, sp, p, pc, hact, hi, hclaimed⟩
      · exact hold hsame
      · rw [hclaimed, List.getElem?_append_right (Nat.not_lt.mp hlt)] at hn
        obtain ⟨hzero, rfl⟩ : n - (e.state k).claimed.length = 0 ∧ p = ptr := by
          rw [List.getElem?_singleton] at hn
          split at hn <;> simp_all
        obtain ⟨a, ha⟩ := exists_calls (by omega) hi
        exact ⟨i, a, k, by omega, ha, ⟨⟨sp, hact⟩, hclaimed⟩, by omega⟩

theorem Calls.not_refused (hwrap : (e.state e.length).claimed.length < sizeRange) {c : Nat}
    (h : Calls e i ptr a c) (hc : ClaimsAt e i ptr c) : ¬ Returns e i ptr a b false := by
  intro hr
  have hb := hr.lt_length
  have hcb : c < b := by
    by_contra hge
    obtain ⟨pc, hpc⟩ := hr.calls.exists_pc hr.calls.lt (Nat.le_refl b)
    obtain ⟨sp, pc', hact, hpc', hret⟩ := hr.returns
    have hn := e.step b hb
    rw [hact] at hn
    simp only [next, hpc', Option.some.injEq, hret, Sum.elim_inr] at hn
    rcases Nat.lt_or_eq_of_le (Nat.not_lt.mp hge) with hlt | rfl
    · -- the call has returned before moment `c`
      obtain ⟨pc₁, hpc₁⟩ := h.exists_pc (k := b + 1) (by have := hr.calls.lt; omega) hlt
      rw [← hn] at hpc₁
      simp at hpc₁
    · -- an access that returns claims nothing
      obtain ⟨-, hclaimed⟩ := hc
      rw [← hn] at hclaimed
      cases pc' <;> simp_all [pushStep, claims]
  rcases hr.pushed_or_refused hwrap with ⟨htrue, -⟩ | ⟨-, hrefused⟩
  · cases htrue
  · exact hrefused c h.lt hcb hc

/-- A correct bounded queue of many producers and one consumer, in every run of fewer than
`2 ^ 64` successful pushes. -/
theorem execution_boundedFifo (e : Execution (next cfg) ok (initial : QueueState ι))
    (hwrap : (e.state e.length).claimed.length < sizeRange) :
    (∀ k ≤ e.length, Bounded cfg (e.state k) ∧ StoresIntoDelivered cfg (e.state k) ∧
      DeliversInOrder (e.state k)) ∧
    (∀ i ptr a b result, Returns e i ptr a b result →
      result = true ∧ Pushed e i ptr a b ∨ result = false ∧ Refused e i ptr a b) ∧
    (∀ k ≤ e.length, ∀ n ptr, (e.state k).claimed[n]? = some ptr →
      ∃ i a c, c < k ∧ Calls e i ptr a c ∧ ClaimsAt e i ptr c ∧ (e.state c).claimed.length = n ∧
        ∀ b, ¬ Returns e i ptr a b false) ∧
    ∀ a b, a < b → b ≤ e.length → e.action a = .drain →
      (∀ i, (e.state a).producer i = none) →
      ((∃ c, a < c ∧ c ≤ b ∧ (e.state c).consumer = none) ∨
        3 * cfg.freeQueueCapacity + 4 ≤ consumed e a b) →
      (e.state a).claimed <+: (e.state b).delivered := by
  refine ⟨?_, ?_, ?_, ?_⟩
  · intro k hk
    have hinv := inv_of_execution e hwrap hk
    exact ⟨hinv.bounded, hinv.storesIntoDelivered, hinv.deliversInOrder⟩
  · intro i ptr a b result h
    exact h.pushed_or_refused hwrap
  · intro k hk n ptr hn
    obtain ⟨i, a, c, hc, hcalls, hclaims, hlength⟩ := exists_claimsAt hk hn
    exact ⟨i, a, c, hc, hcalls, hclaims, hlength, fun b => hcalls.not_refused hwrap hclaims⟩
  · intro a b hab hb hcall hidle hend
    rcases hend with ⟨c, hac, hcb, hnone⟩ | hbound
    · have hdone := drained e hwrap hac (hcb.trans hb) hcall hidle (Or.inl hnone)
      exact hdone.trans (delivered_mono e hcb hb)
    · exact drained e hwrap hab hb hcall hidle (Or.inr hbound)

end Runs

/-- Two pushes that overlap, then a drain. -/
def overlappingPushes : List (Action Bool) :=
  [.push true 16, .push false 32, .produce true false, .produce false false, .produce false false,
    .produce false false, .produce true false, .produce true false, .produce true false,
    .produce true false, .produce true false, .produce false false,
    .drain, .consume, .consume, .consume, .consume, .consume, .consume, .consume, .consume, .consume,
    .consume]

def overlapExecution :
    Execution (next .default) (fun _ _ => True) (initial : QueueState Bool) :=
  .ofRun overlappingPushes (by decide) (guarded_true _ _ _)

theorem returns_overlap : Returns overlapExecution false 32 1 11 true := by
  have hrunning : ∀ k < 12, 1 < k → ((overlapExecution.state k).producer false).map Prod.fst = some 32 := by
    decide +kernel
  refine ⟨by decide, ⟨by decide, by decide, ?_⟩, false, .storeSlot 0, by decide, by decide, by decide⟩
  intro k hk hb
  exact hrunning k (by omega) hk

theorem execution_boundedFifo_overlap :
    Returns overlapExecution false 32 1 11 true ∧ Pushed overlapExecution false 32 1 11 ∧
      (overlapExecution.state 12).claimed = [32, 16] ∧
      (overlapExecution.state 12).claimed <+: (overlapExecution.state 23).delivered := by
  obtain ⟨-, hreturns, -, hdrain⟩ := execution_boundedFifo overlapExecution (by decide)
  refine ⟨returns_overlap, ?_, by decide, ?_⟩
  · rcases hreturns _ _ _ _ _ returns_overlap with ⟨-, hpushed⟩ | ⟨hfalse, -⟩
    · exact hpushed
    · cases hfalse
  · exact hdrain 12 23 (by decide) (by decide) (by decide) (by decide)
      (Or.inl ⟨23, by decide, by decide, by decide⟩)

end QueueState

end DieHard
