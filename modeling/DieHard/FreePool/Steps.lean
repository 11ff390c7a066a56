import DieHard.FreePool.Invariant

/-!
# The steps of a queue

Every action is one of the atomic accesses below. Each access keeps the queue invariant while
fewer than `2 ^ 64` indices are claimed, so the invariant holds in every reachable state.
-/

namespace DieHard

open PerThreadFreeQueue

namespace QueueState

variable {ι : Type} [DecidableEq ι] {cfg : PoolConfig} {s s' : QueueState ι}

/-- The state after producer `i` has moved to `v` and nothing else has changed. -/
def setProducer (s : QueueState ι) (i : ι) (v : Option (Addr × PushPc)) : QueueState ι :=
  { s with producer := Function.update s.producer i v }

/-- What an action does, access by access, with the tests that select the access. -/
inductive Step (cfg : PoolConfig) (s : QueueState ι) : Action ι → QueueState ι → Prop
  | call {i ptr} : s.producer i = none → ptr ≠ 0 →
      Step cfg s (.push i ptr) (s.setProducer i (some (ptr, .loadHead)))
  | loadHead {i sp ptr} : s.producer i = some (ptr, .loadHead) →
      Step cfg s (.produce i sp) (s.setProducer i (some (ptr, .loadTail s.queue.head)))
  | full {i sp ptr h} : s.producer i = some (ptr, .loadTail h) →
      cfg.freeQueueCapacity ≤ sizeSub h s.queue.tail →
      Step cfg s (.produce i sp) (s.setProducer i none)
  | room {i sp ptr h} : s.producer i = some (ptr, .loadTail h) →
      sizeSub h s.queue.tail < cfg.freeQueueCapacity →
      Step cfg s (.produce i sp) (s.setProducer i (some (ptr, .casHead h)))
  | claim {i sp ptr} : s.producer i = some (ptr, .casHead s.queue.head) →
      Step cfg s (.produce i sp) { s with
        queue := { s.queue with head := sizeSucc s.queue.head }
        producer := Function.update s.producer i (some (ptr, .storeSlot s.queue.head))
        claimed := s.claimed ++ [ptr] }
  | retry {i sp ptr h} : s.producer i = some (ptr, .casHead h) →
      Step cfg s (.produce i sp) (s.setProducer i (some (ptr, .loadTail s.queue.head)))
  | store {i sp ptr n} : s.producer i = some (ptr, .storeSlot n) →
      Step cfg s (.produce i sp) { s with
        queue := { s.queue with slots := Function.update s.queue.slots (slotOf cfg n) ptr }
        producer := Function.update s.producer i none }
  | drain : s.consumer = none → Step cfg s .drain { s with consumer := some .loadTail }
  | drainTail : s.consumer = some .loadTail →
      Step cfg s .consume { s with consumer := some (.loadHead s.queue.tail) }
  | drainHead {t} : s.consumer = some (.loadHead t) →
      Step cfg s .consume { s with consumer := some (.loadSlot t s.queue.head 0) }
  | finish {t h n} : s.consumer = some (.loadSlot t h n) →
      (t < h → s.queue.slots (slotOf cfg t) = 0) →
      Step cfg s .consume { s with consumer := some (.storeTail t n) }
  | take {t h n} : s.consumer = some (.loadSlot t h n) → t < h →
      s.queue.slots (slotOf cfg t) ≠ 0 →
      Step cfg s .consume
        { s with consumer := some (.clearSlot t h n (s.queue.slots (slotOf cfg t))) }
  | clear {t h n ptr} : s.consumer = some (.clearSlot t h n ptr) →
      Step cfg s .consume { s with
        queue := { s.queue with slots := Function.update s.queue.slots (slotOf cfg t) 0 }
        consumer := some (.callback t h n ptr) }
  | deliver {t h n ptr} : s.consumer = some (.callback t h n ptr) →
      Step cfg s .consume { s with
        consumer := some (.loadSlot (sizeSucc t) h (n + 1))
        delivered := s.delivered ++ [ptr] }
  | publish {t n} : s.consumer = some (.storeTail t n) →
      Step cfg s .consume { s with queue := { s.queue with tail := t }, consumer := none }

private theorem step_of_produce {i : ι} {sp : Bool}
    (h : next cfg s (.produce i sp) = some s') : Step cfg s (.produce i sp) s' := by
  cases hp : s.producer i with
  | none => simp [next, hp] at h
  | some v =>
    obtain ⟨ptr, pc⟩ := v
    simp only [next, hp, Option.some.injEq] at h
    subst h
    cases pc with
    | loadHead =>
      simp only [claims, List.append_nil]
      exact .loadHead hp
    | loadTail c =>
      simp only [claims, List.append_nil]
      by_cases hfull : cfg.freeQueueCapacity ≤ sizeSub c s.queue.tail
      · simp only [pushStep, if_pos hfull]
        exact .full hp hfull
      · simp only [pushStep, if_neg hfull]
        exact .room hp (by omega)
    | casHead c =>
      by_cases hcas : s.queue.head = c ∧ sp = false
      · simp only [claims, pushStep, if_pos hcas]
        obtain ⟨rfl, -⟩ := hcas
        exact .claim hp
      · simp only [claims, pushStep, if_neg hcas, List.append_nil]
        exact .retry hp
    | storeSlot c =>
      simp only [claims, List.append_nil]
      exact .store hp

private theorem step_of_consume (h : next cfg s .consume = some s') :
    Step cfg s .consume s' := by
  cases hc : s.consumer with
  | none => simp [next, hc] at h
  | some pc =>
    simp only [next, hc, Option.some.injEq] at h
    subst h
    cases pc with
    | loadTail =>
      simp only [delivers, List.append_nil]
      exact .drainTail hc
    | loadHead t =>
      simp only [delivers, List.append_nil]
      exact .drainHead hc
    | loadSlot t hd n =>
      simp only [delivers, List.append_nil]
      by_cases hlt : t < hd
      · by_cases hnull : s.queue.slots (slotOf cfg t) = 0
        · simp only [drainStep, if_pos hlt, if_pos hnull]
          exact .finish hc fun _ => hnull
        · simp only [drainStep, if_pos hlt, if_neg hnull]
          exact .take hc hlt hnull
      · simp only [drainStep, if_neg hlt]
        exact .finish hc fun hlt' => absurd hlt' hlt
    | clearSlot t hd n ptr =>
      simp only [delivers, List.append_nil]
      exact .clear hc
    | callback t hd n ptr => exact .deliver hc
    | storeTail t n =>
      simp only [delivers, List.append_nil]
      exact .publish hc

theorem step_of_next {a : Action ι} (h : next cfg s a = some s') : Step cfg s a s' := by
  cases a with
  | push i ptr =>
    cases hp : s.producer i with
    | some v => simp [next, hp] at h
    | none =>
      by_cases hptr : ptr = 0
      · simp [next, hp, hptr] at h
      · simp only [next, hp, if_neg hptr, Option.some.injEq] at h
        subst h
        exact .call hp hptr
  | produce i sp => exact step_of_produce h
  | drain =>
    cases hc : s.consumer with
    | some pc => simp [next, hc] at h
    | none =>
      simp only [next, hc, Option.some.injEq] at h
      subst h
      exact .drain hc
  | consume => exact step_of_consume h

theorem room_of_sizeSub {h t cap : Nat} (hh : h < sizeRange) (hr : sizeSub h t < cap) :
    h < t + cap := by
  rcases Nat.lt_or_ge h t with hlt | hge
  · omega
  · rw [sizeSub_of_le hge hh] at hr
    omega

/-- Every step keeps the invariant until the counters wrap around. -/
theorem Inv.step {a : Action ι} (h : Inv cfg s) (hs : Step cfg s a s')
    (hwrap : s'.claimed.length < sizeRange) : Inv cfg s' := by
  cases hs with
  | call hi hptr => exact h.setProducer hptr (by simp) (by simp [hi])
  | @loadHead i sp ptr hi =>
    have hf := h.producers i
    rw [hi] at hf
    exact h.setProducer ⟨hf, h.head_eq.le⟩ (by simp) (by simp [hi])
  | full hi _ => exact h.setProducer trivial (by simp) (by simp [hi])
  | @room i sp ptr c hi hroom =>
    have hf := h.producers i
    rw [hi] at hf
    have hw : s.claimed.length < sizeRange := hwrap
    have hlt := room_of_sizeSub (hf.2.trans_lt hw) hroom
    exact h.setProducer ⟨hf.1, hf.2, hlt⟩ (by simp) (by simp [hi])
  | claim hi =>
    rw [h.head_eq] at hi ⊢
    exact h.claim hi (by simpa using hwrap)
  | @retry i sp ptr c hi =>
    have hf := h.producers i
    rw [hi] at hf
    exact h.setProducer ⟨hf.1, h.head_eq.le⟩ (by simp) (by simp [hi])
  | store hi => exact h.store hi
  | drain hc =>
    have hf := h.consumers
    rw [hc] at hf
    exact h.setConsumer hf (by simp [InHand, hc])
  | drainTail hc =>
    have hf := h.consumers
    rw [hc] at hf
    exact h.setConsumer ⟨hf, hf⟩ (by simp [InHand, hc])
  | drainHead hc =>
    have hf := h.consumers
    rw [hc] at hf
    have hle := h.delivered_le
    have hhead := h.head_eq
    exact h.setConsumer ⟨hf.1, by rw [hf.1]; omega, hhead.le⟩ (by simp [InHand, hc])
  | finish hc _ =>
    have hf := h.consumers
    rw [hc] at hf
    exact h.setConsumer hf.1 (by simp [InHand, hc])
  | take hc hlt hnull =>
    have hf := h.consumers
    rw [hc] at hf
    exact h.setConsumer ⟨hf.1, hlt, hf.2.2, rfl, hnull⟩ (by simp [InHand, hc])
  | clear hc => exact h.clear hc
  | deliver hc => exact h.deliver hc hwrap
  | publish hc => exact h.publish hc

theorem Step.claimed_grows {a : Action ι} (h : Step cfg s a s') :
    s.claimed <+: s'.claimed := by
  cases h with
  | claim _ => exact List.prefix_append _ _
  | _ => exact List.prefix_refl _

theorem Step.delivered_grows {a : Action ι} (h : Step cfg s a s') :
    s.delivered <+: s'.delivered := by
  cases h with
  | deliver _ => exact List.prefix_append _ _
  | _ => exact List.prefix_refl _

variable {ok : QueueState ι → Action ι → Prop}

theorem inv_reach (h : Transition.Reach (next cfg) ok initial s)
    (hwrap : s.claimed.length < sizeRange) : Inv cfg s := by
  induction h with
  | refl => exact inv_initial
  | step _ _ hn ih =>
    have hs := step_of_next hn
    exact (ih (hs.claimed_grows.length_le.trans_lt hwrap)).step hs hwrap

end QueueState

end DieHard
