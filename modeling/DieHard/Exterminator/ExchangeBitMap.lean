import DieHard.Exterminator.Partition
import DieHard.Util.AtomicThreads

/-!
# Threads on one exchange-based `BitMap`

With `DIEHARD_MULTITHREADED` the loops of `tryToSet` and `reset` swap the whole word and look afterwards
whether it was the word they had read. An exchange that finds another word has already replaced it. The
bitmap is linearizable in the runs in which every exchange finds the word that was read, or the word that
it writes.
-/

namespace DieHard.Exterminator

open Transition Linearizability

/-- The bitmap, an array of `unsigned long`, and the threads that use it. -/
structure ExchangeThreads where
  bits : BitArray
  threads : Threads SetCall Bool (LoopVars Word)

inductive ExchangeStep
  | call (thread : Nat) (call : SetCall)
  | load (thread : Nat)
  | exchange (thread : Nat)
  | ret (thread : Nat)

namespace ExchangeThreads

/-- What a thread does with the word it has read. `isSet` has no loop. -/
def proceed (id : Nat) (c : SetCall) (oldvalue : Word) : Place SetCall Bool (LoopVars Word) :=
  match c with
  | .tryToSet i => .running id c (.loaded oldvalue (oldvalue ||| BitArray.mask i))
  | .reset i => .running id c (.loaded oldvalue (oldvalue &&& ~~~ BitArray.mask i))
  | .isSet i => .returning id c (decide (oldvalue &&& BitArray.mask i ≠ 0))

/-- The result of an operation that leaves its loop. `reset` is `void`: its return carries false. -/
def result (oldvalue : Word) : SetCall → Bool
  | .tryToSet i => decide (oldvalue &&& BitArray.mask i = 0)
  | .reset _ => false
  | .isSet i => decide (oldvalue &&& BitArray.mask i ≠ 0)

def next (s : ExchangeThreads) : ExchangeStep → Option ExchangeThreads
  | .call t c =>
    match s.threads.place t with
    | .idle => some { s with threads := s.threads.call t c .start }
    | _ => none
  | .load t =>
    match s.threads.place t with
    | .running id c .start =>
      some { s with threads := s.threads.goTo t (proceed id c (s.bits (c.index / 32))) }
    | _ => none
  | .exchange t =>
    match s.threads.place t with
    | .running id c (.loaded oldvalue newvalue) => some {
        bits := Function.update s.bits (c.index / 32) newvalue
        threads := s.threads.goTo t
          (if s.bits (c.index / 32) = oldvalue then .returning id c (result oldvalue c)
          else .running id c .start) }
    | _ => none
  | .ret t =>
    match s.threads.place t with
    | .returning id _ r => some { s with threads := s.threads.ret t id r }
    | _ => none

/-- The indices are below the number of elements. -/
def ok (nelts : Nat) (_ : ExchangeThreads) : ExchangeStep → Prop
  | .call _ c => c.index < nelts
  | .load _ => True
  | .exchange _ => True
  | .ret _ => True

/-- A thread about to exchange finds the word that it has read, or the one that it writes. -/
def Finds (b : BitArray) : Place SetCall Bool (LoopVars Word) → Prop
  | .running _ c (.loaded oldvalue newvalue) =>
    b (c.index / 32) = oldvalue ∨ b (c.index / 32) = newvalue
  | .running _ _ .start => True
  | .returning _ _ _ => True
  | .idle => True

def Undisturbed (s : ExchangeThreads) : ExchangeStep → Prop
  | .call _ _ => True
  | .load _ => True
  | .exchange t => Finds s.bits (s.threads.place t)
  | .ret _ => True

instance (nelts : Nat) (s : ExchangeThreads) (a : ExchangeStep) : Decidable (s.ok nelts a) :=
  match a with
  | .call _ c => inferInstanceAs (Decidable (c.index < nelts))
  | .load _ => instDecidableTrue
  | .exchange _ => instDecidableTrue
  | .ret _ => instDecidableTrue

instance (b : BitArray) (p : Place SetCall Bool (LoopVars Word)) : Decidable (Finds b p) :=
  match p with
  | .running _ c (.loaded oldvalue newvalue) =>
    inferInstanceAs (Decidable (b (c.index / 32) = oldvalue ∨ b (c.index / 32) = newvalue))
  | .running _ _ .start => instDecidableTrue
  | .returning _ _ _ => instDecidableTrue
  | .idle => instDecidableTrue

instance (s : ExchangeThreads) (a : ExchangeStep) : Decidable (s.Undisturbed a) :=
  match a with
  | .call _ _ => instDecidableTrue
  | .load _ => instDecidableTrue
  | .exchange t => inferInstanceAs (Decidable (Finds s.bits (s.threads.place t)))
  | .ret _ => instDecidableTrue

def members (nelts : Nat) (b : BitArray) : Finset Nat :=
  (Finset.range nelts).filter fun i => b.isSet i = true

/-- The operation on a finite set of indices; `reset` has no result. -/
def apply (s : Finset Nat) : SetCall → Finset Nat × Bool
  | .tryToSet i => (insert i s, decide (i ∉ s))
  | .reset i => (s.erase i, false)
  | .isSet i => (s, decide (i ∈ s))

/-- The operations have an order, the bits are those of the set after it, and of several `tryToSet` on a
clear bit that is not reset exactly one returns true. -/
def Linearized (nelts : Nat) (base : Finset Nat) (s : ExchangeThreads) : Prop :=
  (∃ L, Linearization apply base s.threads.history L ∧
    ∀ i < nelts, s.bits.isSet i = decide (i ∈ after apply base L)) ∧
  ∀ i ∉ base, (∀ id, .inv id (.reset i) ∉ s.threads.history) →
    AtomicThreads.OneWinner s.threads.history i true

/-- What an operation is to write. -/
def written (oldvalue : Word) : SetCall → Option Word
  | .tryToSet i => some (oldvalue ||| BitArray.mask i)
  | .reset i => some (oldvalue &&& ~~~ BitArray.mask i)
  | .isSet _ => none

def Holds (nelts : Nat) (m : Finset Nat) (b : BitArray) : Prop :=
  ∀ i < nelts, b.isSet i = decide (i ∈ m)

section Effect

variable {nelts : Nat} {m : Finset Nat} {b : BitArray} {c : SetCall}

theorem actsOn_apply (i : Nat) : AtomicThreads.ActsOn apply i true := by
  refine ⟨?_, fun _ => rfl⟩
  intro s c
  cases c <;> rfl

theorem result_eq (hb : Holds nelts m b) (hc : c.index < nelts) :
    result (b (c.index / 32)) c = (apply m c).2 := by
  have hbit := hb c.index hc
  cases c with
  | tryToSet i =>
    have hiff : b (i / 32) &&& BitArray.mask i ≠ 0 ↔ i ∈ m := decide_eq_decide.mp hbit
    rw [result, apply, decide_eq_decide, ← hiff, not_not]
    rfl
  | reset i => rfl
  | isSet i => exact hbit

theorem holds_written (hb : Holds nelts m b) {v : Word}
    (hv : written (b (c.index / 32)) c = some v) :
    Holds nelts (apply m c).1 (Function.update b (c.index / 32) v) := by
  intro j hj
  cases c with
  | tryToSet i =>
    obtain rfl := Option.some.inj hv
    have hset := b.isSet_set i j
    rw [hb j hj] at hset
    exact hset.trans (by simp [apply, Bool.or_comm])
  | reset i =>
    obtain rfl := Option.some.inj hv
    have hreset := b.isSet_reset i j
    rw [hb j hj] at hreset
    exact hreset.trans (by simp [apply, Bool.and_comm])
  | isSet i => contradiction

end Effect

def Ok (nelts : Nat) (c : SetCall) : LoopVars Word → Prop
  | .start => c.index < nelts
  | .loaded oldvalue newvalue => c.index < nelts ∧ written oldvalue c = some newvalue

structure Inv (nelts : Nat) (base : Finset Nat) (s : ExchangeThreads)
    (L : List (Entry SetCall Bool)) : Prop where
  ordered : s.threads.Ordered apply base (Ok nelts) L
  holds : Holds nelts (after apply base L) s.bits

section Runs

variable {nelts : Nat} {base : Finset Nat} {s s' : ExchangeThreads}
  {L : List (Entry SetCall Bool)} {t id : Nat} {c : SetCall}

theorem inv_start (h : s.threads = .start) : Inv nelts (members nelts s.bits) s [] := by
  refine ⟨h ▸ Threads.ordered_start, ?_⟩
  intro i hi
  simp [after, members, hi]

theorem Inv.loaded (h : Inv nelts base s L) (hplace : s.threads.place t = .running id c .start) :
    ∃ L', Inv nelts base
      { s with threads := s.threads.goTo t (proceed id c (s.bits (c.index / 32))) } L' := by
  have hlt : c.index < nelts := (h.ordered.running hplace).2.2
  cases c with
  | tryToSet i => exact ⟨L, h.ordered.goOn hplace ⟨hlt, rfl⟩, h.holds⟩
  | reset i => exact ⟨L, h.ordered.goOn hplace ⟨hlt, rfl⟩, h.holds⟩
  | isSet i =>
    refine ⟨_, h.ordered.commit hplace (result_eq h.holds hlt), ?_⟩
    rw [after_concat]
    exact h.holds

theorem Inv.exchanged (h : Inv nelts base s L) {oldvalue newvalue : Word}
    (hplace : s.threads.place t = .running id c (.loaded oldvalue newvalue))
    (hfinds : s.bits (c.index / 32) = oldvalue ∨ s.bits (c.index / 32) = newvalue) :
    ∃ L', Inv nelts base
      ⟨Function.update s.bits (c.index / 32) newvalue, s.threads.goTo t
        (if s.bits (c.index / 32) = oldvalue then .returning id c (result oldvalue c)
        else .running id c .start)⟩ L' := by
  obtain ⟨hlt, hwritten⟩ := (h.ordered.running hplace).2.2
  by_cases hsame : s.bits (c.index / 32) = oldvalue
  · rw [if_pos hsame]
    rw [← hsame] at hwritten
    refine ⟨_, h.ordered.commit hplace (hsame ▸ result_eq h.holds hlt), ?_⟩
    rw [after_concat]
    exact holds_written h.holds hwritten
  · rw [if_neg hsame, ← hfinds.resolve_left hsame, Function.update_eq_self]
    exact ⟨L, h.ordered.goOn hplace hlt, h.holds⟩

theorem Inv.next (h : Inv nelts base s L) {a : ExchangeStep} (hok : ok nelts s a)
    (hund : s.Undisturbed a) (hs : s.next a = some s') : ∃ L', Inv nelts base s' L' := by
  cases a with
  | call t c =>
    simp only [ExchangeThreads.next] at hs
    split at hs
    · obtain rfl := Option.some.inj hs
      exact ⟨L, h.ordered.call t hok, h.holds⟩
    · contradiction
  | load t =>
    simp only [ExchangeThreads.next] at hs
    split at hs
    · rename_i hplace
      obtain rfl := Option.some.inj hs
      exact h.loaded hplace
    · contradiction
  | exchange t =>
    simp only [ExchangeThreads.next] at hs
    split at hs
    · rename_i hplace
      obtain rfl := Option.some.inj hs
      rw [Undisturbed, hplace] at hund
      exact h.exchanged hplace hund
    · contradiction
  | ret t =>
    simp only [ExchangeThreads.next] at hs
    split at hs
    · rename_i hplace
      obtain rfl := Option.some.inj hs
      exact ⟨L, h.ordered.ret hplace, h.holds⟩
    · contradiction

theorem Inv.linearized (h : Inv nelts base s L) : Linearized nelts base s := by
  refine ⟨⟨L, h.ordered.lin, h.holds⟩, ?_⟩
  intro i hi hno
  exact AtomicThreads.oneWinner (actsOn_apply i) h.ordered.lin h.ordered.calls
    (decide_eq_false hi) hno

end Runs

/-- In every run of undisturbed exchanges the operations are linearized. -/
theorem reach_linearized {nelts : Nat} {s₀ s : ExchangeThreads} (hstart : s₀.threads = .start)
    (h : Reach next (fun s a => s.ok nelts a ∧ s.Undisturbed a) s₀ s) :
    Linearized nelts (members nelts s₀.bits) s := by
  have hinv : ∃ L, Inv nelts (members nelts s₀.bits) s L := by
    apply h.invariant (I := fun s => ∃ L, Inv nelts (members nelts s₀.bits) s L)
    · exact ⟨[], inv_start hstart⟩
    · intro r a r' hi hok hs
      obtain ⟨L, hL⟩ := hi
      exact hL.next hok.1 hok.2 hs
  obtain ⟨L, hL⟩ := hinv
  exact hL.linearized

def clear : ExchangeThreads := ⟨fun _ => 0, .start⟩

def twoWords : List ExchangeStep :=
  [.call 0 (.tryToSet 0), .load 0, .call 1 (.tryToSet 32), .load 1, .exchange 0, .exchange 1, .ret 1, .ret 0]

theorem linearized_twoWords :
    Linearized 33 (members 33 clear.bits) (final next clear twoWords) := by
  apply reach_linearized rfl
  exact reach_final (guarded_of_bool rfl) rfl

def stale : List ExchangeStep :=
  [.call 0 (.tryToSet 0), .load 0, .call 1 (.tryToSet 1), .load 1, .exchange 1, .ret 1, .exchange 0,
    .load 0, .exchange 0, .ret 0]

theorem history_stale : (final next clear stale).threads.history =
    [.inv 0 (.tryToSet 0), .inv 1 (.tryToSet 1), .ret 1 true, .ret 0 false] := rfl

/-- The update of thread 1 is lost, and thread 0 returns false for the bit it has set. -/
theorem not_linearized : ¬ ∀ nelts s₀ s, s₀.threads = .start → Reach next (ok nelts) s₀ s →
    Linearized nelts (members nelts s₀.bits) s := by
  intro h
  have hreach : Reach next (ok 2) clear (final next clear stale) :=
    reach_final (guarded_of_bool rfl) rfl
  have hlin := h 2 clear _ rfl hreach
  rw [Linearized, history_stale] at hlin
  have hwinner := (hlin.2 0 (by simp [members, clear, BitArray.isSet]) (by simp)).wins
  obtain ⟨id, hinv, hret⟩ := hwinner ⟨0, by simp [SetCall.makes]⟩ (by simp [SetCall.makes])
  simp [SetCall.makes] at hinv hret
  omega

end ExchangeThreads

end DieHard.Exterminator
