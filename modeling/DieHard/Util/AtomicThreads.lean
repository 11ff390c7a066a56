import DieHard.Util.AtomicBitMap
import DieHard.Lib.Linearizability

/-!
# Threads on one `AtomicBitMap`

Any number of threads call `tryToSet`, `reset` and `isSet`; a step is one atomic load or one
compare-exchange, which may fail spuriously. An operation takes effect where the loop is left: at the
load that finds the bit as it should become, or at the exchange that changes it.
-/

namespace DieHard

open Transition Linearizability

inductive SetCall
  | tryToSet (index : Nat)
  | reset (index : Nat)
  | isSet (index : Nat)
  deriving DecidableEq

namespace SetCall

def index : SetCall → Nat
  | .tryToSet i => i
  | .reset i => i
  | .isSet i => i

/-- The operation on a finite set of indices. -/
def apply (s : Finset Nat) : SetCall → Finset Nat × Bool
  | .tryToSet i => (insert i s, decide (i ∉ s))
  | .reset i => (s.erase i, decide (i ∈ s))
  | .isSet i => (s, decide (i ∈ s))

/-- The operation that makes the bit of `i` equal to `v`. -/
def makes (i : Nat) : Bool → SetCall
  | true => .tryToSet i
  | false => .reset i

end SetCall

/-- The local variables of a loop: before the first load, or the value that was loaded and the value that
is to replace it. -/
inductive LoopVars (W : Type)
  | start
  | loaded (oldvalue newvalue : W)

structure AtomicThreads where
  bitmap : BitMap
  threads : Threads SetCall Bool (LoopVars (BitVec 64))

inductive AtomicStep
  | call (thread : Nat) (call : SetCall)
  | load (thread : Nat)
  | exchange (thread : Nat) (spurious : Bool)
  | ret (thread : Nat)

namespace AtomicThreads

def item (c : SetCall) : Nat := (computeItemPosition c.index).1

def mask (c : SetCall) : BitVec 64 := BitMap.getMask (computeItemPosition c.index).2

/-- The body of the loop: the thread leaves with false, or goes on to the exchange. -/
def tryOrLeave (id : Nat) (c : SetCall) (oldvalue : BitVec 64) :
    Option (BitVec 64) → Place SetCall Bool (LoopVars (BitVec 64))
  | none => .returning id c false
  | some newvalue => .running id c (.loaded oldvalue newvalue)

/-- What a thread does with the value of its word. -/
def proceed (id : Nat) (c : SetCall) (oldvalue : BitVec 64) :
    Place SetCall Bool (LoopVars (BitVec 64)) :=
  match c with
  | .tryToSet _ => tryOrLeave id c oldvalue (AtomicBitMap.setBody (mask c) oldvalue)
  | .reset _ => tryOrLeave id c oldvalue (AtomicBitMap.resetBody (mask c) oldvalue)
  | .isSet _ => .returning id c (decide (oldvalue &&& mask c ≠ 0))

def next (s : AtomicThreads) : AtomicStep → Option AtomicThreads
  | .call t c =>
    match s.threads.place t with
    | .idle => some { s with threads := s.threads.call t c .start }
    | _ => none
  | .load t =>
    match s.threads.place t with
    | .running id c .start =>
      some { s with threads := s.threads.goTo t (proceed id c (s.bitmap.bitarray (item c))) }
    | _ => none
  | .exchange t spurious =>
    match s.threads.place t with
    | .running id c (.loaded oldvalue newvalue) =>
      if s.bitmap.bitarray (item c) = oldvalue ∧ spurious = false then
        some {
          bitmap := { s.bitmap with
            bitarray := Function.update s.bitmap.bitarray (item c) newvalue }
          threads := s.threads.goTo t (.returning id c true) }
      else
        some { s with threads := s.threads.goTo t (proceed id c (s.bitmap.bitarray (item c))) }
    | _ => none
  | .ret t =>
    match s.threads.place t with
    | .returning id _ r => some { s with threads := s.threads.ret t id r }
    | _ => none

/-- The indices are below the reserved number of elements. -/
def ok (nelts : Nat) (_ : AtomicThreads) : AtomicStep → Prop
  | .call _ c => c.index < nelts
  | .load _ => True
  | .exchange _ _ => True
  | .ret _ => True

/-- A reserved bitmap of any contents, and no operation yet. -/
structure Start (nelts : Nat) (s : AtomicThreads) : Prop where
  elements_eq : s.bitmap.elements = roundUp nelts
  threads_eq : s.threads = .start

def members (nelts : Nat) (b : BitMap) : Finset Nat :=
  (Finset.range nelts).filter fun i => AtomicBitMap.isSet b i = true

/-- Of the calls that make the bit of `i` equal to `v`, where it was not and no call makes it otherwise,
at most one returns true, and when all of them have returned one has. -/
structure OneWinner (H : List (Event SetCall Bool)) (i : Nat) (v : Bool) : Prop where
  unique : ∀ id id', .inv id (.makes i v) ∈ H → .inv id' (.makes i v) ∈ H →
    .ret id true ∈ H → .ret id' true ∈ H → id = id'
  wins : (∃ id, .inv id (.makes i v) ∈ H) → (∀ id, .inv id (.makes i v) ∈ H → ∃ r, .ret id r ∈ H) →
    ∃ id, .inv id (.makes i v) ∈ H ∧ .ret id true ∈ H

/-- The operations have an order, the bits are those of the set after it, and of competing calls exactly
one wins. -/
def Linearized (nelts : Nat) (base : Finset Nat) (s : AtomicThreads) : Prop :=
  (∃ L, Linearization SetCall.apply base s.threads.history L ∧
    ∀ i < nelts, AtomicBitMap.isSet s.bitmap i = decide (i ∈ after SetCall.apply base L)) ∧
  ∀ i v, decide (i ∈ base) = !v → (∀ id, .inv id (.makes i !v) ∉ s.threads.history) →
    OneWinner s.threads.history i v

/-- Every run with indices below `nelts` is linearizable. -/
def Linearizable (nelts : Nat) : Prop :=
  ∀ s₀ s, Start nelts s₀ → Reach next (ok nelts) s₀ s →
    Linearized nelts (members nelts s₀.bitmap) s

section Winners

/-- An object that changes its set as the operations do, and answers those that make the bit of `i` equal
to `v` as the set does. -/
structure ActsOn (apply : Finset Nat → SetCall → Finset Nat × Bool) (i : Nat) (v : Bool) : Prop where
  fst_eq : ∀ s c, (apply s c).1 = (SetCall.apply s c).1
  snd_eq : ∀ s, (apply s (.makes i v)).2 = (SetCall.apply s (.makes i v)).2

variable {base : Finset Nat} {H : List (Event SetCall Bool)} {L : List (Entry SetCall Bool)}
  {i : Nat} {v : Bool} {apply : Finset Nat → SetCall → Finset Nat × Bool}

theorem actsOn_apply : ActsOn SetCall.apply i v := ⟨fun _ _ => rfl, fun _ => rfl⟩

theorem apply_makes (ha : ActsOn apply i v) (s : Finset Nat) :
    (apply s (.makes i v)).2 = decide (decide (i ∈ s) ≠ v) ∧
      decide (i ∈ (apply s (.makes i v)).1) = v := by
  rw [ha.fst_eq, ha.snd_eq]
  cases v <;> simp [SetCall.makes, SetCall.apply]

theorem apply_other (ha : ActsOn apply i v) (s : Finset Nat) {c : SetCall}
    (h : ∀ u, c ≠ .makes i u) : (i ∈ (apply s c).1 ↔ i ∈ s) := by
  rw [ha.fst_eq]
  have htrue := h true
  have hfalse := h false
  cases c <;> simp_all [SetCall.makes, SetCall.apply, eq_comm]

theorem not_makes {e : Entry SetCall Bool} (h : e.call ≠ .makes i v) (h' : e.call ≠ .makes i !v) :
    ∀ u, e.call ≠ .makes i u := by
  intro u
  by_cases hu : u = v
  · rwa [hu]
  · rwa [Bool.eq_not_of_ne hu]

theorem loses_of_settled (ha : ActsOn apply i v) (hl : Legal apply base L)
    (hbit : decide (i ∈ base) = v) (hno : ∀ e ∈ L, e.call ≠ .makes i !v) :
    ∀ e ∈ L, e.call = .makes i v → e.result = false := by
  induction L generalizing base with
  | nil => simp
  | cons d L ih =>
    have hbit' : decide (i ∈ (apply base d.call).1) = v := by
      by_cases hd : d.call = .makes i v
      · rw [hd]
        exact (apply_makes ha base).2
      · rw [← hbit, decide_eq_decide]
        exact apply_other ha base (not_makes hd (hno d List.mem_cons_self))
    intro e he hcall
    cases List.mem_cons.mp he with
    | inl hfirst =>
      rw [hfirst, hl.1, ← hfirst, hcall, (apply_makes ha base).1, hbit]
      simp
    | inr hlater =>
      exact ih hl.2 hbit' (fun e he => hno e (List.mem_cons_of_mem d he)) e hlater hcall

/-- The first call that makes the bit has changed it, and no other has. -/
theorem exists_winner (ha : ActsOn apply i v) (hl : Legal apply base L)
    (hbit : decide (i ∈ base) = !v) (hno : ∀ e ∈ L, e.call ≠ .makes i !v) (hsome : ∃ e ∈ L, e.call = .makes i v) :
    ∃ e ∈ L, e.call = .makes i v ∧ e.result = true ∧
      ∀ d ∈ L, d.call = .makes i v → d.result = true → d = e := by
  induction L generalizing base with
  | nil => simp at hsome
  | cons d L ih =>
    have hno' : ∀ e ∈ L, e.call ≠ .makes i !v := fun e he => hno e (List.mem_cons_of_mem d he)
    by_cases hd : d.call = .makes i v
    · refine ⟨d, List.mem_cons_self, hd, ?_, ?_⟩
      · rw [hl.1, hd, (apply_makes ha base).1, hbit]
        simp
      · intro e he hcall hresult
        cases List.mem_cons.mp he with
        | inl hfirst => exact hfirst
        | inr hlater =>
          have hsettled : decide (i ∈ (apply base d.call).1) = v := by
            rw [hd]
            exact (apply_makes ha base).2
          rw [loses_of_settled ha hl.2 hsettled hno' e hlater hcall] at hresult
          contradiction
    · have hbit' : decide (i ∈ (apply base d.call).1) = !v := by
        rw [← hbit, decide_eq_decide]
        exact apply_other ha base (not_makes hd (hno d List.mem_cons_self))
      have hsome' : ∃ e ∈ L, e.call = .makes i v := by
        obtain ⟨e, he, hcall⟩ := hsome
        cases List.mem_cons.mp he with
        | inl hfirst => exact absurd (hfirst ▸ hcall) hd
        | inr hlater => exact ⟨e, hlater, hcall⟩
      obtain ⟨e, he, hcall, hresult, hunique⟩ := ih hl.2 hbit' hno' hsome'
      refine ⟨e, List.mem_cons_of_mem d he, hcall, hresult, ?_⟩
      intro d' hd' hcall' hresult'
      cases List.mem_cons.mp hd' with
      | inl hfirst => exact absurd (hfirst ▸ hcall') hd
      | inr hlater => exact hunique d' hlater hcall' hresult'

/-- In a history with one call for each identity, a linearization has one winner. -/
theorem oneWinner (ha : ActsOn apply i v) (h : Linearization apply base H L)
    (hcalls : ∀ id c c', .inv id c ∈ H → .inv id c' ∈ H → c = c') (hbit : decide (i ∈ base) = !v)
    (hno : ∀ id, .inv id (.makes i !v) ∉ H) : OneWinner H i v := by
  have hno' : ∀ e ∈ L, e.call ≠ .makes i !v := by
    intro e he hcall
    exact hno e.id (hcall ▸ h.invoked e he)
  have hentry {id : Nat} {r : Bool} (hinv : .inv id (.makes i v) ∈ H) (hret : .ret id r ∈ H) :
      ⟨id, .makes i v, r⟩ ∈ L := by
    obtain ⟨c, hc⟩ := h.returned id r hret
    rwa [hcalls id _ c hinv (h.invoked _ hc)]
  constructor
  · intro id id' hinv hinv' hret hret'
    obtain ⟨e, -, -, -, hunique⟩ := exists_winner ha h.legal hbit hno' ⟨_, hentry hinv hret, rfl⟩
    have heq := (hunique _ (hentry hinv hret) rfl rfl).trans
      (hunique _ (hentry hinv' hret') rfl rfl).symm
    exact congrArg Entry.id heq
  · intro hsome hall
    obtain ⟨id, hinv⟩ := hsome
    obtain ⟨r, hret⟩ := hall id hinv
    obtain ⟨e, he, hcall, hresult, -⟩ := exists_winner ha h.legal hbit hno' ⟨_, hentry hinv hret, rfl⟩
    have hinv' : .inv e.id (.makes i v) ∈ H := hcall ▸ h.invoked e he
    obtain ⟨r', hret'⟩ := hall e.id hinv'
    have heq : r' = e.result := congrArg Entry.result (h.entry_eq (hentry hinv' hret') he rfl)
    rw [hresult] at heq
    exact ⟨e.id, hinv', heq ▸ hret'⟩

end Winners

section Effect

variable {nelts : Nat} {m : Finset Nat} {b : BitMap}

/-- The operation without other threads. -/
def alone (b : BitMap) : SetCall → BitMap × Bool
  | .tryToSet i => LongBitMap.tryToSet b i
  | .reset i => LongBitMap.reset b i
  | .isSet i => (b, LongBitMap.isSet b i)

/-- `b` after the exchange. -/
def exchanged (b : BitMap) (c : SetCall) (newvalue : BitVec 64) : BitMap :=
  { b with bitarray := Function.update b.bitarray (item c) newvalue }

theorem loop_cases {body : BitVec 64 → Option (BitVec 64)} {c : SetCall} {r : BitMap × Bool}
    (hloop : ∀ attempts, AtomicBitMap.exchangeLoop body (item c) b attempts (b.bitarray (item c)) =
      if r.2 = false ∨ false ∈ attempts then some r else none) :
    ((∀ id, tryOrLeave id c (b.bitarray (item c)) (body (b.bitarray (item c))) =
        .returning id c r.2) ∧ r.1 = b) ∨
      ∃ newvalue, (∀ id, tryOrLeave id c (b.bitarray (item c)) (body (b.bitarray (item c))) =
        .running id c (.loaded (b.bitarray (item c)) newvalue)) ∧
          r = (exchanged b c newvalue, true) := by
  cases hbody : body (b.bitarray (item c)) with
  | none =>
    have hrun := hloop []
    rw [AtomicBitMap.exchangeLoop_of_none hbody, eq_comm, Option.ite_none_right_eq_some] at hrun
    rw [Option.some.inj hrun.2]
    exact .inl ⟨fun _ => rfl, rfl⟩
  | some newvalue =>
    have hrun := hloop [false]
    rw [AtomicBitMap.exchangeLoop_of_some hbody, if_pos (List.mem_singleton_self _), eq_comm,
      Option.ite_none_right_eq_some] at hrun
    exact .inr ⟨newvalue, fun _ => rfl, Option.some.inj hrun.2⟩

theorem proceed_cases (b : BitMap) (c : SetCall) :
    ((∀ id, proceed id c (b.bitarray (item c)) = .returning id c (alone b c).2) ∧
        (alone b c).1 = b) ∨
      ∃ newvalue, (∀ id, proceed id c (b.bitarray (item c)) =
        .running id c (.loaded (b.bitarray (item c)) newvalue)) ∧
          alone b c = (exchanged b c newvalue, true) := by
  cases c with
  | tryToSet i => exact loop_cases (AtomicBitMap.tryToSet_eq b i)
  | reset i => exact loop_cases (AtomicBitMap.reset_eq b i)
  | isSet i => exact .inl ⟨fun _ => rfl, rfl⟩

theorem holds_alone (hn : nelts ≤ 2 ^ 38) (hb : BitMaps.Holds nelts m b) {c : SetCall}
    (hc : c.index < nelts) :
    (alone b c).2 = (SetCall.apply m c).2 ∧
      BitMaps.Holds nelts (SetCall.apply m c).1 (alone b c).1 := by
  cases c with
  | tryToSet i =>
    have hlt : i < 2 ^ 38 := Nat.lt_of_lt_of_le hc hn
    rw [alone, LongBitMap.tryToSet_eq hlt, BitMap.tryToSet_snd, hb.isSet_eq i hc]
    exact ⟨by simp [SetCall.apply], hb.tryToSet i⟩
  | reset i =>
    have hlt : i < 2 ^ 38 := Nat.lt_of_lt_of_le hc hn
    rw [alone, LongBitMap.reset_eq hlt, BitMap.reset_snd, hb.isSet_eq i hc]
    exact ⟨rfl, hb.reset i⟩
  | isSet i =>
    have hlt : i < 2 ^ 38 := Nat.lt_of_lt_of_le hc hn
    rw [alone, LongBitMap.isSet_eq hlt, hb.isSet_eq i hc]
    exact ⟨rfl, hb⟩

end Effect

/-- The index is below the reserved number, and what was loaded led to the exchange. -/
def Ok (nelts : Nat) (c : SetCall) : LoopVars (BitVec 64) → Prop
  | .start => c.index < nelts
  | .loaded oldvalue newvalue =>
    c.index < nelts ∧ ∀ id, proceed id c oldvalue = .running id c (.loaded oldvalue newvalue)

structure Inv (nelts : Nat) (base : Finset Nat) (s : AtomicThreads)
    (L : List (Entry SetCall Bool)) : Prop where
  ordered : s.threads.Ordered SetCall.apply base (Ok nelts) L
  holds : BitMaps.Holds nelts (after SetCall.apply base L) s.bitmap

section Order

variable {nelts : Nat} {base : Finset Nat} {s s' : AtomicThreads} {L : List (Entry SetCall Bool)}
  {t id : Nat} {c : SetCall} {vars : LoopVars (BitVec 64)}

theorem Ok.index_lt (h : Ok nelts c vars) : c.index < nelts := by
  cases vars with
  | start => exact h
  | loaded oldvalue newvalue => exact h.1

theorem inv_start (hn : nelts ≤ 2 ^ 38) (h : Start nelts s) :
    Inv nelts (members nelts s.bitmap) s [] := by
  refine ⟨h.threads_eq ▸ Threads.ordered_start, ?_, h.elements_eq⟩
  intro i hi
  rw [after, members, ← LongBitMap.isSet_eq (hi.trans_le hn)]
  simp [hi, AtomicBitMap.isSet, LongBitMap.isSet]

theorem Inv.loaded (hn : nelts ≤ 2 ^ 38) (h : Inv nelts base s L)
    (hplace : s.threads.place t = .running id c vars) :
    ∃ L', Inv nelts base { s with
      threads := s.threads.goTo t (proceed id c (s.bitmap.bitarray (item c))) } L' := by
  have hlt := (h.ordered.running hplace).2.2.index_lt
  obtain ⟨hresult, hholds⟩ := holds_alone hn h.holds hlt
  have hcases := proceed_cases s.bitmap c
  cases hcases with
  | inl hleave =>
    rw [hleave.1]
    rw [hleave.2] at hholds
    refine ⟨_, h.ordered.commit hplace hresult, ?_⟩
    rw [after_concat]
    exact hholds
  | inr htry =>
    obtain ⟨newvalue, hproceed, -⟩ := htry
    rw [hproceed]
    exact ⟨L, h.ordered.goOn hplace ⟨hlt, hproceed⟩, h.holds⟩

theorem Inv.succeeded (hn : nelts ≤ 2 ^ 38) (h : Inv nelts base s L) {newvalue : BitVec 64}
    (hplace : s.threads.place t = .running id c (.loaded (s.bitmap.bitarray (item c)) newvalue)) :
    ∃ L', Inv nelts base
      ⟨exchanged s.bitmap c newvalue, s.threads.goTo t (.returning id c true)⟩ L' := by
  obtain ⟨hlt, hloaded⟩ := (h.ordered.running hplace).2.2
  obtain ⟨hresult, hholds⟩ := holds_alone hn h.holds hlt
  cases proceed_cases s.bitmap c with
  | inl hleave =>
    have hfalse := hloaded id
    rw [hleave.1] at hfalse
    contradiction
  | inr htry =>
    obtain ⟨newvalue', hproceed, halone⟩ := htry
    have hsame := hloaded id
    rw [hproceed] at hsame
    injection hsame with _ _ hvars
    injection hvars with _ hnew
    rw [halone, hnew] at hholds hresult
    refine ⟨_, h.ordered.commit hplace hresult, ?_⟩
    rw [after_concat]
    exact hholds

theorem Inv.next (hn : nelts ≤ 2 ^ 38) (h : Inv nelts base s L) {a : AtomicStep}
    (hok : ok nelts s a) (hs : s.next a = some s') : ∃ L', Inv nelts base s' L' := by
  cases a with
  | call t c =>
    simp only [AtomicThreads.next] at hs
    split at hs
    · obtain rfl := Option.some.inj hs
      exact ⟨L, h.ordered.call t hok, h.holds⟩
    · contradiction
  | load t =>
    simp only [AtomicThreads.next] at hs
    split at hs
    · rename_i hplace
      obtain rfl := Option.some.inj hs
      exact h.loaded hn hplace
    · contradiction
  | exchange t spurious =>
    simp only [AtomicThreads.next] at hs
    split at hs
    · rename_i hplace
      split at hs
      · rename_i hsame
        obtain rfl := Option.some.inj hs
        rw [← hsame.1] at hplace
        exact h.succeeded hn hplace
      · obtain rfl := Option.some.inj hs
        exact h.loaded hn hplace
    · contradiction
  | ret t =>
    simp only [AtomicThreads.next] at hs
    split at hs
    · rename_i hplace
      obtain rfl := Option.some.inj hs
      exact ⟨L, h.ordered.ret hplace, h.holds⟩
    · contradiction

theorem Inv.linearized (hn : nelts ≤ 2 ^ 38) (h : Inv nelts base s L) : Linearized nelts base s := by
  refine ⟨⟨L, h.ordered.lin, ?_⟩, ?_⟩
  · intro i hi
    rw [← h.holds.isSet_eq i hi, ← LongBitMap.isSet_eq (hi.trans_le hn)]
    rfl
  · intro i v hbit hno
    exact oneWinner actsOn_apply h.ordered.lin h.ordered.calls hbit hno

end Order

section Failure

variable {nelts : Nat} {s : AtomicThreads}

/-- The operation `c` of an idle thread has changed the bitmap into `b` and returned `r`. -/
def answered (s : AtomicThreads) (c : SetCall) (b : BitMap) (r : Bool) : AtomicThreads where
  bitmap := b
  threads := { s.threads with
    history := s.threads.history ++ [.inv s.threads.calls c] ++ [.ret s.threads.calls r]
    calls := s.threads.calls + 1 }

/-- A thread that runs alone does the operation alone. -/
theorem reach_alone {t : Nat} {c : SetCall} (hidle : s.threads.place t = .idle)
    (hc : c.index < nelts) :
    Reach next (ok nelts) s (s.answered c (alone s.bitmap c).1 (alone s.bitmap c).2) := by
  have hcalled : Reach next (ok nelts) s { s with threads := s.threads.call t c .start } := by
    apply Reach.refl.step (a := AtomicStep.call t c) hc
    rw [next, hidle]
  have hloaded : Reach next (ok nelts) s { s with
      threads := (s.threads.call t c .start).goTo t
        (proceed s.threads.calls c (s.bitmap.bitarray (item c))) } := by
    apply hcalled.step (a := AtomicStep.load t) trivial
    simp [next]
  have hreturn {b : BitMap} {r : Bool} (hr : Reach next (ok nelts) s
      ⟨b, (s.threads.call t c .start).goTo t (.returning s.threads.calls c r)⟩) :
      Reach next (ok nelts) s (s.answered c b r) := by
    apply hr.step (a := AtomicStep.ret t) trivial
    simp [next, Threads.call, Threads.goTo, Threads.ret, answered, ← hidle]
  cases proceed_cases s.bitmap c with
  | inl hleave =>
    rw [hleave.1] at hloaded
    rw [hleave.2]
    exact hreturn hloaded
  | inr htry =>
    obtain ⟨newvalue, hproceed, halone⟩ := htry
    rw [hproceed] at hloaded
    rw [halone]
    apply hreturn
    apply hloaded.step (a := AtomicStep.exchange t false) trivial
    simp [next, exchanged]

def zeros (nelts : Nat) : AtomicThreads := ⟨⟨fun _ => 0, roundUp nelts⟩, .start⟩

/-- Index `j` and then index `i` have been set, the second without success. -/
def twoSets (i j : Nat) (r : Bool) : List (Event SetCall Bool) :=
  [.inv 0 (.tryToSet j)] ++ [.ret 0 r] ++ [.inv 1 (.tryToSet i)] ++ [.ret 1 false]

theorem no_linearization {base : Finset Nat} {i j : Nat} {r : Bool} (hne : i ≠ j) (hclear : i ∉ base) :
    ¬ ∃ L, Linearization SetCall.apply base (twoSets i j r) L := by
  intro hlin
  obtain ⟨L, hlin⟩ := hlin
  have hcalls {id : Nat} {c : SetCall} : .inv id c ∈ twoSets i j r ↔
      id = 0 ∧ c = .tryToSet j ∨ id = 1 ∧ c = .tryToSet i := by
    simp [twoSets]
  have hrets {id : Nat} {v : Bool} : .ret id v ∈ twoSets i j r ↔
      id = 0 ∧ v = r ∨ id = 1 ∧ v = false := by
    simp [twoSets]
  have hcall {id : Nat} : .inv id (.makes i true) ∈ twoSets i j r ↔ id = 1 := by
    simp [hcalls, SetCall.makes, hne]
  have hwinner := oneWinner actsOn_apply hlin (i := i) (v := true) ?_ (decide_eq_false hclear) ?_
  · obtain ⟨id, hinv, hret⟩ := hwinner.wins ⟨1, hcall.mpr rfl⟩ (by simp [hcall, hrets])
    simp [hcall.mp hinv, hrets] at hret
  · intro id c c' hc hc'
    rw [hcalls] at hc hc'
    grind
  · simp [hcalls, SetCall.makes]

theorem exists_not_linearized (h : 2 ^ 38 < nelts) :
    ∃ s, Reach next (ok nelts) (zeros nelts) s ∧
      ¬ ∃ L, Linearization SetCall.apply (members nelts (zeros nelts).bitmap) s.threads.history L := by
  have hfirst : Reach next (ok nelts) (zeros nelts) ((zeros nelts).answered (.tryToSet 0)
      (alone (zeros nelts).bitmap (.tryToSet 0)).1 (alone (zeros nelts).bitmap (.tryToSet 0)).2) :=
    reach_alone (t := 0) rfl (Nat.zero_lt_of_lt h)
  have hsecond := hfirst.trans (reach_alone (t := 0) (c := .tryToSet (2 ^ 38)) rfl h)
  have hfails (b : BitMap) :
      (alone (alone b (.tryToSet 0)).1 (.tryToSet (2 ^ 38))).2 = false := by
    rw [alone, alone, LongBitMap.tryToSet_snd, BitMaps.isSet_overflow, Bool.not_true]
  refine ⟨_, hsecond, ?_⟩
  have hclear : 2 ^ 38 ∉ members nelts (zeros nelts).bitmap := by
    simp [members, zeros, AtomicBitMap.isSet]
  have hzero : 2 ^ 38 ≠ 0 := (Nat.two_pow_pos 38).ne'
  have hnone := no_linearization (r := (alone (zeros nelts).bitmap (.tryToSet 0)).2) hzero hclear
  rw [twoSets, ← hfails (zeros nelts).bitmap] at hnone
  exact hnone

/-- The bitmap is linearizable if and only if no more than 2³⁸ elements are reserved. -/
theorem linearizable_iff (nelts : Nat) : Linearizable nelts ↔ nelts ≤ 2 ^ 38 := by
  constructor
  · intro h
    by_contra hlarge
    obtain ⟨s, hr, hnot⟩ := exists_not_linearized (Nat.lt_of_not_le hlarge)
    have hstart : Start nelts (zeros nelts) := ⟨rfl, rfl⟩
    obtain ⟨L, hlin, -⟩ := (h _ s hstart hr).1
    exact hnot ⟨L, hlin⟩
  · intro hn s₀ s hstart hr
    have hinv : ∃ L, Inv nelts (members nelts s₀.bitmap) s L := by
      apply hr.invariant (I := fun s => ∃ L, Inv nelts (members nelts s₀.bitmap) s L)
      · exact ⟨[], inv_start hn hstart⟩
      · intro r a r' hi hok hs
        obtain ⟨L, hL⟩ := hi
        exact hL.next hn hok hs
    obtain ⟨L, hL⟩ := hinv
    exact hL.linearized hn

/-- With one element more it is not. -/
theorem not_linearizable : ¬ Linearizable (2 ^ 38 + 1) := by
  intro h
  obtain ⟨s, hr, hnot⟩ := exists_not_linearized (Nat.lt_succ_self (2 ^ 38))
  obtain ⟨L, hlin, -⟩ := (h _ s ⟨rfl, rfl⟩ hr).1
  exact hnot ⟨L, hlin⟩

end Failure

end AtomicThreads

end DieHard
