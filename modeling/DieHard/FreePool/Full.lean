import DieHard.FreePool.Fifo

/-!
# When a push may report a full queue

The full test subtracts a freshly loaded tail from a head that may be older. When the tail is not
beyond that head, a failed push has met a full queue. When it is, the unsigned difference wraps
around and the push fails on a queue with room.
-/

namespace DieHard

open PerThreadFreeQueue Transition

namespace QueueState

variable {ι : Type} {cfg : PoolConfig} {s : QueueState ι}

/-- The value that the push of producer `i` returns with its next access, if it returns there. -/
def pushReturns (cfg : PoolConfig) (s : QueueState ι) (i : ι) (spurious : Bool) : Option Bool :=
  (s.producer i).bind fun v => (pushStep cfg s.queue v.1 spurious v.2).2.getRight?

def fullTestHead : PushPc → Option Nat
  | .loadTail currentHead => some currentHead
  | _ => none

def HeadNotPassed (s : QueueState ι) : Action ι → Prop
  | .produce i _ => ∀ v ∈ s.producer i, ∀ currentHead ∈ fullTestHead v.2, s.queue.tail ≤ currentHead
  | _ => True

instance (s : QueueState ι) : (a : Action ι) → Decidable (HeadNotPassed s a)
  | .push _ _ => isTrue trivial
  | .produce i _ => inferInstanceAs (Decidable (∀ v ∈ s.producer i, ∀ currentHead ∈ fullTestHead v.2,
      s.queue.tail ≤ currentHead))
  | .drain => isTrue trivial
  | .consume => isTrue trivial

theorem full_of_pushReturns {i : ι} {spurious : Bool}
    (h : pushReturns cfg s i spurious = some false) :
    ∃ ptr currentHead, s.producer i = some (ptr, .loadTail currentHead) ∧
      cfg.freeQueueCapacity ≤ sizeSub currentHead s.queue.tail := by
  obtain ⟨⟨ptr, pc⟩, hp, hr⟩ := Option.bind_eq_some_iff.mp h
  cases pc with
  | loadHead => simp [pushStep] at hr
  | loadTail currentHead =>
    refine ⟨ptr, currentHead, hp, ?_⟩
    by_contra hroom
    simp [pushStep, if_neg hroom] at hr
  | casHead currentHead =>
    by_cases hcas : s.queue.head = currentHead ∧ spurious = false
    · simp [pushStep, if_pos hcas] at hr
    · simp [pushStep, if_neg hcas] at hr
  | storeSlot currentHead => simp [pushStep] at hr

theorem Inv.full (h : Inv cfg s) {i : ι} {ptr : Addr} {currentHead : Nat}
    (hwrap : s.claimed.length < sizeRange)
    (hi : s.producer i = some (ptr, .loadTail currentHead)) (hle : s.queue.tail ≤ currentHead)
    (hfull : cfg.freeQueueCapacity ≤ sizeSub currentHead s.queue.tail) :
    cfg.freeQueueCapacity ≤ s.queue.head - s.queue.tail := by
  have hf := h.producers i
  rw [hi] at hf
  have hhead := h.head_eq
  have hc := hf.2
  rw [sizeSub_of_le hle (by omega)] at hfull
  omega

variable [DecidableEq ι]

/-- Whenever a push returns `false`, the queue held at least its capacity of claimed, undrained
entries at some moment between the call and the return. -/
def FailsOnlyWhenFull {ok : QueueState ι → Action ι → Prop}
    (e : Execution (next cfg) ok (initial : QueueState ι)) : Prop :=
  ∀ a b i ptr spurious, a < b → b < e.length → e.action a = .push i ptr →
    (∀ k ≤ b, a < k → (e.state k).producer i ≠ none) →
    e.action b = .produce i spurious → pushReturns cfg (e.state b) i spurious = some false →
    ∃ m ≤ b + 1, a ≤ m ∧
      cfg.freeQueueCapacity ≤ (e.state m).queue.head - (e.state m).queue.tail

/-- In a run whose full tests all use a head that the tail has not passed, a push fails only on a
full queue. -/
theorem failsOnlyWhenFull_of_headNotPassed
    (e : Execution (next cfg) HeadNotPassed (initial : QueueState ι))
    (hwrap : (e.state e.length).claimed.length < sizeRange) : FailsOnlyWhenFull e := by
  intro a b i ptr spurious hab hb _ _ hact hret
  obtain ⟨p, currentHead, hi, hfull⟩ := full_of_pushReturns hret
  have hinv := inv_of_execution e hwrap hb.le
  have hguard := e.guarded b hb
  rw [hact] at hguard
  have hw := (claimed_mono e hb.le (Nat.le_refl _)).length_le.trans_lt hwrap
  exact ⟨b, Nat.le_succ b, hab.le, hinv.full hw hi (hguard _ hi currentHead rfl) hfull⟩

def lonePush : Execution (next .default) HeadNotPassed (initial : QueueState Bool) :=
  .ofRun [.push true 16, .produce true false, .produce true false, .produce true false,
    .produce true false] (by decide) (guarded_of_bool (by decide))

theorem failsOnlyWhenFull_lonePush : FailsOnlyWhenFull lonePush :=
  failsOnlyWhenFull_of_headNotPassed lonePush (by decide)

/-- `true` loads the head; `false` pushes and the consumer drains that pointer; then `true` loads
the tail, which has passed its head. -/
def passedHead : List (Action Bool) :=
  [.push true 16, .produce true false,
    .push false 32, .produce false false, .produce false false, .produce false false,
    .produce false false,
    .drain, .consume, .consume, .consume, .consume, .consume, .consume, .consume,
    .produce true false]

def passedHeadExecution :
    Execution (next .default) (fun _ _ => True) (initial : QueueState Bool) :=
  .ofRun passedHead (by decide) (guarded_true _ _ _)

/-- The push of `true` fails although the ring of 1024 slots never held more than one entry. -/
theorem not_failsOnlyWhenFull_passedHead :
    (∀ m ≤ 16, (passedHeadExecution.state m).queue.head -
      (passedHeadExecution.state m).queue.tail ≤ 1) ∧
    ¬ FailsOnlyWhenFull passedHeadExecution := by
  have hfew : ∀ m ≤ 16, (passedHeadExecution.state m).queue.head -
      (passedHeadExecution.state m).queue.tail ≤ 1 := by decide
  refine ⟨hfew, ?_⟩
  intro h
  obtain ⟨m, hm, -, hfull⟩ := h 0 15 true 16 false (by decide) (by decide) (by decide)
    (by decide) (by decide) (by decide)
  exact absurd (hfull.trans (hfew m hm)) (by decide)

end QueueState

end DieHard
