import DieHard.Lib.Linearizability
import DieHard.Lib.Transition

/-!
# Spin locks

A thread exchanges the word of the lock until it was free, works on the data in single accesses, and frees the
lock with a store. An operation takes effect at one of its accesses inside of the lock; before it and after it
the section writes nothing that an operation without the lock reads. Such operations are linearizable, a free
lock leaves the data of the sequential object, and no thread waits for good.
-/

namespace Spinlock

open Linearizability Transition

universe u v w x

/-- The accesses of a section: those before the one at which the operation takes effect, which the thread
follows by what it reads, that one, and the writes that are left. -/
inductive Code (S : Type u) (R : Type v)
  | access (write : S → S) (go : S → Code S R)
  | effect (write : S → S) (result : S → R) (rest : List (S → S))

/-- An operation takes the lock for a section, or reads the data once without it. -/
inductive Op (S : Type u) (R : Type v)
  | locked (code : Code S R)
  | single (read : S → R)

variable {S : Type u} {R : Type v} {C : Type w} {B : Type x}

def writeAll (rest : List (S → S)) (d : S) : S := rest.foldl (fun d write => write d) d

def Code.run : Code S R → S → S × R
  | .access write go, d => (go d).run (write d)
  | .effect write result rest, d => (writeAll rest (write d), result d)

def Op.run : Op S R → S → S × R
  | .locked code, d => code.run d
  | .single read, d => (d, read d)

def Code.Silent (view : S → B) : Code S R → Prop
  | .access write go => (∀ d, view (write d) = view d) ∧ ∀ d, (go d).Silent view
  | .effect _ _ rest => ∀ write ∈ rest, ∀ d, view (write d) = view d

def Op.Sees (view : S → B) : Op S R → Prop
  | .locked code => code.Silent view
  | .single read => ∀ d d', view d = view d' → read d = read d'

theorem view_writeAll {view : S → B} {rest : List (S → S)} (h : ∀ write ∈ rest, ∀ d, view (write d) = view d)
    (d : S) : view (writeAll rest d) = view d := by
  induction rest generalizing d with
  | nil => rfl
  | cons write rest ih =>
    have hrest := ih (fun write' hw => h write' (List.mem_cons_of_mem write hw)) (write d)
    exact hrest.trans (h write List.mem_cons_self d)

/-- Where a thread is in an operation that has not taken effect. -/
inductive Vars (S : Type u) (R : Type v)
  | outside
  | inside (code : Code S R)

structure Locked (S : Type u) (C : Type w) (R : Type v) where
  mutex : Bool
  data : S
  threads : Threads C R (Vars S R)
  /-- The writes that a thread has left inside of the lock when its operation has taken effect. -/
  rest : Nat → Option (List (S → S))

inductive Step (C : Type w)
  | call (thread : Nat) (call : C)
  | exchange (thread : Nat)
  | access (thread : Nat)
  | unlock (thread : Nat)
  | read (thread : Nat)
  | ret (thread : Nat)

namespace Locked

variable (ops : C → Op S R)

def start (d : S) : Locked S C R := ⟨false, d, .start, fun _ => none⟩

def next (s : Locked S C R) : Step C → Option (Locked S C R)
  | .call t c =>
    match s.threads.place t with
    | .idle => some { s with threads := s.threads.call t c .outside }
    | _ => none
  | .exchange t =>
    match s.threads.place t with
    | .running id c .outside =>
      match ops c with
      | .locked code =>
        -- an exchange that finds the lock taken is repeated
        if s.mutex then some s
        else some { s with mutex := true, threads := s.threads.goTo t (.running id c (.inside code)) }
      | .single _ => none
    | _ => none
  | .access t =>
    match s.threads.place t with
    | .running id c (.inside (.access write go)) => some { s with
        data := write s.data
        threads := s.threads.goTo t (.running id c (.inside (go s.data))) }
    | .running id c (.inside (.effect write result rest)) => some { s with
        data := write s.data
        threads := s.threads.goTo t (.returning id c (result s.data))
        rest := Function.update s.rest t (some rest) }
    | .returning _ _ _ =>
      match s.rest t with
      | some (write :: rest) => some { s with
          data := write s.data
          rest := Function.update s.rest t (some rest) }
      | _ => none
    | _ => none
  | .unlock t =>
    match s.rest t with
    | some [] => some { s with mutex := false, rest := Function.update s.rest t none }
    | _ => none
  | .read t =>
    match s.threads.place t with
    | .running id c .outside =>
      match ops c with
      | .locked _ => none
      | .single read => some { s with threads := s.threads.goTo t (.returning id c (read s.data)) }
    | _ => none
  | .ret t =>
    match s.threads.place t, s.rest t with
    | .returning id _ r, none => some { s with threads := s.threads.ret t id r }
    | _, _ => none

def apply (d : S) (c : C) : S × R := (ops c).run d

def Inside (s : Locked S C R) (t : Nat) : Prop :=
  (∃ id c code, s.threads.place t = .running id c (.inside code)) ∨ s.rest t ≠ none

/-- At most one thread is inside of the lock. The operations have an order; the sequential object after it has the
view of the data, and when the lock is free it is the data. -/
structure Linearized (view : S → B) (base : S) (s : Locked S C R) : Prop where
  exclusive : ∀ t u, s.Inside t → s.Inside u → t = u
  ordered : ∃ L, Linearization (apply ops) base s.threads.history L ∧
    view s.data = view (after (apply ops) base L) ∧
    (s.mutex = false → s.data = after (apply ops) base L)

/-- What a thread inside of the lock still does leads to the data of the sequential object. -/
inductive Carries (s : Locked S C R) (d : S) (t : Nat) : Prop
  | working {id c code} (place : s.threads.place t = .running id c (.inside code))
      (run : code.run s.data = apply ops d c)
  | leaving {rest} (rest_eq : s.rest t = some rest) (run : writeAll rest s.data = d)

/-- The lock is free, or one thread has it. -/
inductive Owned (s : Locked S C R) (d : S) : Prop
  | free (mutex : s.mutex = false) (data : s.data = d) (outside : ∀ t, ¬ s.Inside t)
  | held (t : Nat) (mutex : s.mutex = true) (carries : s.Carries ops d t) (alone : ∀ u, s.Inside u → u = t)

/-- A thread with writes left has taken effect, and the view does not change any more. -/
structure Leaves (view : S → B) (s : Locked S C R) (t : Nat) (rest : List (S → S)) : Prop where
  place : ∃ id c r, s.threads.place t = .returning id c r
  silent : ∀ write ∈ rest, ∀ d, view (write d) = view d

def Ok (view : S → B) (_ : C) : Vars S R → Prop
  | .outside => True
  | .inside code => code.Silent view

structure Inv (view : S → B) (base : S) (s : Locked S C R) (L : List (Entry C R)) : Prop where
  ordered : s.threads.Ordered (apply ops) base (Ok view) L
  view_eq : view s.data = view (after (apply ops) base L)
  owned : s.Owned ops (after (apply ops) base L)
  leaves : ∀ t rest, s.rest t = some rest → s.Leaves view t rest

/-- Only thread `t` moves. -/
def Others (s s' : Locked S C R) (t : Nat) : Prop :=
  ∀ u, u ≠ t → s'.threads.place u = s.threads.place u ∧ s'.rest u = s.rest u

variable {ops} {view : S → B} {base d : S} {s s' : Locked S C R} {L L' : List (Entry C R)} {t u id : Nat} {c : C}
  {r : R} {code : Code S R} {write : S → S} {rest : List (S → S)}

theorem others_goTo (s : Locked S C R) (t : Nat) (p : Place C R (Vars S R)) (mutex : Bool) (d : S) :
    s.Others ⟨mutex, d, s.threads.goTo t p, s.rest⟩ t :=
  fun _ hu => ⟨Function.update_of_ne hu .., rfl⟩

theorem others_rest (s : Locked S C R) (t : Nat) (rest : Option (List (S → S))) (mutex : Bool) (d : S) :
    s.Others ⟨mutex, d, s.threads, Function.update s.rest t rest⟩ t :=
  fun _ hu => ⟨rfl, Function.update_of_ne hu ..⟩

theorem others_effect (s : Locked S C R) (t : Nat) (p : Place C R (Vars S R)) (rest : Option (List (S → S)))
    (mutex : Bool) (d : S) : s.Others ⟨mutex, d, s.threads.goTo t p, Function.update s.rest t rest⟩ t :=
  fun _ hu => ⟨Function.update_of_ne hu .., Function.update_of_ne hu ..⟩

theorem Others.inside_iff (h : s.Others s' t) (hu : u ≠ t) : s'.Inside u ↔ s.Inside u := by
  rw [Inside, Inside, (h u hu).1, (h u hu).2]

theorem Others.alone (h : s.Others s' t) (halone : ∀ u, s.Inside u → u = t) (u : Nat) (hu : s'.Inside u) :
    u = t := by
  by_contra hne
  exact hne (halone u ((h.inside_iff hne).mp hu))

theorem Others.leaves (h : s.Others s' t) (hleaves : ∀ u rest, s.rest u = some rest → s.Leaves view u rest)
    (ht : ∀ rest, s'.rest t = some rest → s'.Leaves view t rest) (u : Nat) (rest : List (S → S))
    (hu : s'.rest u = some rest) : s'.Leaves view u rest := by
  by_cases hne : u = t
  · subst hne
    exact ht rest hu
  · obtain ⟨hplace, hrest⟩ := h u hne
    have hold := hleaves u rest (hrest ▸ hu)
    exact ⟨hplace ▸ hold.place, hold.silent⟩

theorem inside_of_place (hplace : s.threads.place t = .running id c (.inside code)) : s.Inside t :=
  Or.inl ⟨id, c, code, hplace⟩

theorem inside_of_rest (hrest : s.rest t = some rest) : s.Inside t := Or.inr (hrest ▸ Option.some_ne_none rest)

theorem Owned.of_inside (h : s.Owned ops d) (ht : s.Inside t) :
    s.mutex = true ∧ s.Carries ops d t ∧ ∀ u, s.Inside u → u = t := by
  cases h with
  | free _ _ outside => exact absurd ht (outside t)
  | held t' mutex carries alone =>
    obtain rfl := alone t ht
    exact ⟨mutex, carries, alone⟩

theorem Inv.rest_eq_none (h : Inv ops view base s L) (hp : ∀ id c r, s.threads.place t ≠ .returning id c r) :
    s.rest t = none := by
  cases hrest : s.rest t with
  | none => rfl
  | some rest =>
    obtain ⟨id, c, r, hplace⟩ := (h.leaves t rest hrest).place
    exact absurd hplace (hp id c r)

theorem Inv.carries_place (h : Inv ops view base s L)
    (hplace : s.threads.place t = .running id c (.inside code)) :
    code.run s.data = apply ops (after (apply ops) base L) c := by
  have hrest : s.rest t = none := h.rest_eq_none fun id c r => by simp [hplace]
  cases (h.owned.of_inside (inside_of_place hplace)).2.1 with
  | working place run =>
    cases hplace.symm.trans place
    exact run
  | leaving rest_eq run => cases hrest.symm.trans rest_eq

theorem Inv.carries_rest (h : Inv ops view base s L) (hrest : s.rest t = some rest) :
    writeAll rest s.data = after (apply ops) base L := by
  obtain ⟨id, c, r, hplace⟩ := (h.leaves t rest hrest).place
  cases (h.owned.of_inside (inside_of_rest hrest)).2.1 with
  | working place _ => cases hplace.symm.trans place
  | leaving rest_eq run =>
    cases hrest.symm.trans rest_eq
    exact run

theorem inv_start (d : S) : Inv ops view d (start d : Locked S C R) [] where
  ordered := Threads.ordered_start
  view_eq := rfl
  owned := .free rfl rfl fun t h => by simp [Inside, start, Threads.start] at h
  leaves _ _ h := nomatch h

/-- A thread outside of the lock goes from one place to another. -/
theorem Inv.outside (h : Inv ops view base s L) (hrest : s.rest t = none) {threads : Threads C R (Vars S R)}
    {p : Place C R (Vars S R)} (hplace : threads.place = Function.update s.threads.place t p)
    (hp : ∀ id c code, p ≠ .running id c (.inside code))
    (hold : ∀ id c code, s.threads.place t ≠ .running id c (.inside code))
    (hordered : threads.Ordered (apply ops) base (Ok view) L')
    (hafter : after (apply ops) base L' = after (apply ops) base L) :
    Inv ops view base { s with threads := threads } L' := by
  have hothers : s.Others { s with threads := threads } t := by
    intro u hu
    exact ⟨by rw [hplace, Function.update_of_ne hu], rfl⟩
  have hinside (u : Nat) : Inside { s with threads := threads } u ↔ s.Inside u := by
    by_cases hu : u = t
    · subst hu
      simp only [Inside, hplace, Function.update_self, hp, hold]
    · exact hothers.inside_iff hu
  refine ⟨hordered, hafter ▸ h.view_eq, ?_, hothers.leaves h.leaves fun rest ht => ?_⟩
  · rw [hafter]
    cases h.owned with
    | free mutex data outside => exact .free mutex data fun u hu => outside u ((hinside u).mp hu)
    | held u mutex carries alone =>
      refine .held u mutex ?_ fun u' hu' => alone u' ((hinside u').mp hu')
      cases carries with
      | working place run =>
        have hu : u ≠ t := fun heq => hold _ _ _ (heq ▸ place)
        exact .working ((hothers u hu).1.trans place) run
      | leaving rest_eq run => exact .leaving rest_eq run
  · cases hrest.symm.trans ht

/-- The exchange finds the lock free. -/
theorem Inv.lock (h : Inv ops view base s L) (hplace : s.threads.place t = .running id c .outside)
    (hfree : s.mutex = false) (hop : ops c = .locked code) (hsilent : code.Silent view) :
    Inv ops view base { s with
      mutex := true
      threads := s.threads.goTo t (.running id c (.inside code)) } L := by
  have hrest : s.rest t = none := h.rest_eq_none fun id c r => by simp [hplace]
  have hothers := s.others_goTo t (.running id c (.inside code)) true s.data
  cases h.owned with
  | held u mutex _ _ => cases hfree.symm.trans mutex
  | free _ data outside =>
    refine ⟨h.ordered.goOn hplace hsilent, h.view_eq, ?_, hothers.leaves h.leaves fun rest ht => ?_⟩
    · refine .held t rfl (.working (Threads.place_goTo ..) ?_) ?_
      · rw [data, apply, hop]
        rfl
      · exact hothers.alone fun u hu => absurd hu (outside u)
    · cases hrest.symm.trans ht

/-- The thread that has the lock goes on. -/
theorem Inv.access (h : Inv ops view base s L) {go : S → Code S R}
    (hplace : s.threads.place t = .running id c (.inside (.access write go))) :
    Inv ops view base { s with
      data := write s.data
      threads := s.threads.goTo t (.running id c (.inside (go s.data))) } L := by
  obtain ⟨-, -, hsilent, hgo⟩ := h.ordered.running hplace
  obtain ⟨hmutex, -, halone⟩ := h.owned.of_inside (inside_of_place hplace)
  have hrest : s.rest t = none := h.rest_eq_none fun id c r => by simp [hplace]
  have hothers := s.others_goTo t (.running id c (.inside (go s.data))) s.mutex (write s.data)
  refine ⟨h.ordered.goOn hplace (hgo s.data), (hsilent s.data).trans h.view_eq, ?_,
    hothers.leaves h.leaves fun rest ht => ?_⟩
  · exact .held t hmutex (.working (Threads.place_goTo ..) (h.carries_place hplace)) (hothers.alone halone)
  · cases hrest.symm.trans ht

/-- The operation takes effect. -/
theorem Inv.effect (h : Inv ops view base s L) {result : S → R}
    (hplace : s.threads.place t = .running id c (.inside (.effect write result rest))) :
    ∃ L', Inv ops view base { s with
      data := write s.data
      threads := s.threads.goTo t (.returning id c (result s.data))
      rest := Function.update s.rest t (some rest) } L' := by
  obtain ⟨-, -, hsilent⟩ := h.ordered.running hplace
  obtain ⟨hmutex, -, halone⟩ := h.owned.of_inside (inside_of_place hplace)
  have hrun : (writeAll rest (write s.data), result s.data) = apply ops (after (apply ops) base L) c :=
    h.carries_place hplace
  have hothers := s.others_effect t (.returning id c (result s.data)) (some rest) s.mutex (write s.data)
  have hwritten : writeAll rest (write s.data) = (apply ops (after (apply ops) base L) c).1 := congrArg Prod.fst hrun
  refine ⟨_, h.ordered.commit hplace (congrArg Prod.snd hrun), ?_, ?_, hothers.leaves h.leaves fun rest' ht => ?_⟩
  · rw [after_concat, ← hwritten]
    exact (view_writeAll hsilent (write s.data)).symm
  · rw [after_concat, ← hwritten]
    exact .held t hmutex (.leaving (Function.update_self ..) rfl) (hothers.alone halone)
  · cases (Function.update_self ..).symm.trans ht
    exact ⟨⟨id, c, _, Threads.place_goTo ..⟩, hsilent⟩

theorem Inv.leave (h : Inv ops view base s L) (hrest : s.rest t = some (write :: rest)) :
    Inv ops view base { s with data := write s.data, rest := Function.update s.rest t (some rest) } L := by
  obtain ⟨hplace, hsilent⟩ := h.leaves t _ hrest
  obtain ⟨hmutex, -, halone⟩ := h.owned.of_inside (inside_of_rest hrest)
  have hothers := s.others_rest t (some rest) s.mutex (write s.data)
  refine ⟨h.ordered, (hsilent write List.mem_cons_self s.data).trans h.view_eq, ?_,
    hothers.leaves h.leaves fun rest' ht => ?_⟩
  · exact .held t hmutex (.leaving (Function.update_self ..) (h.carries_rest hrest)) (hothers.alone halone)
  · cases (Function.update_self ..).symm.trans ht
    exact ⟨hplace, fun write' hw => hsilent write' (List.mem_cons_of_mem write hw)⟩

theorem Inv.unlock (h : Inv ops view base s L) (hrest : s.rest t = some []) :
    Inv ops view base { s with mutex := false, rest := Function.update s.rest t none } L := by
  obtain ⟨id, c, r, hplace⟩ := (h.leaves t _ hrest).place
  obtain ⟨-, -, halone⟩ := h.owned.of_inside (inside_of_rest hrest)
  have hothers := s.others_rest t none false s.data
  refine ⟨h.ordered, h.view_eq, .free rfl (h.carries_rest hrest) ?_, hothers.leaves h.leaves fun rest' ht => ?_⟩
  · intro u hu
    obtain rfl := hothers.alone halone u hu
    cases hu with
    | inl hrunning =>
      obtain ⟨id', c', code, hrunning⟩ := hrunning
      cases hplace.symm.trans hrunning
    | inr hne => exact hne (Function.update_self ..)
  · cases (Function.update_self ..).symm.trans ht

theorem Inv.read (h : Inv ops view base s L) (hplace : s.threads.place t = .running id c .outside)
    {read : S → R} (hop : ops c = .single read) (hsees : ∀ d d', view d = view d' → read d = read d') :
    ∃ L', Inv ops view base { s with threads := s.threads.goTo t (.returning id c (read s.data)) } L' := by
  have hread : read s.data = (apply ops (after (apply ops) base L) c).2 := by
    rw [apply, hop]
    exact hsees _ _ h.view_eq
  refine ⟨_, h.outside (h.rest_eq_none fun id c r => by simp [hplace]) rfl ?_ ?_ (h.ordered.commit hplace hread) ?_⟩
  · simp
  · simp [hplace]
  · rw [after_concat, apply, hop]
    rfl

theorem Inv.next (h : Inv ops view base s L) (hops : ∀ c, (ops c).Sees view) {a : Step C}
    (hn : s.next ops a = some s') : ∃ L', Inv ops view base s' L' := by
  cases a with
  | call t c =>
    simp only [Locked.next] at hn
    split at hn
    · rename_i hplace
      cases hn
      refine ⟨L, h.outside (h.rest_eq_none fun id c r => by simp [hplace]) rfl ?_ ?_
        (h.ordered.call t trivial) rfl⟩
      · simp
      · simp [hplace]
    · contradiction
  | exchange t =>
    simp only [Locked.next] at hn
    split at hn
    · rename_i id c hplace
      split at hn
      · rename_i code hop
        split at hn
        · cases hn
          exact ⟨L, h⟩
        · rename_i hfree
          cases hn
          have hsees := hops c
          rw [hop] at hsees
          exact ⟨L, h.lock hplace (Bool.eq_false_of_not_eq_true hfree) hop hsees⟩
      · contradiction
    · contradiction
  | access t =>
    simp only [Locked.next] at hn
    split at hn
    · rename_i hplace
      cases hn
      exact ⟨L, h.access hplace⟩
    · rename_i hplace
      cases hn
      exact h.effect hplace
    · split at hn
      · rename_i hrest
        cases hn
        exact ⟨L, h.leave hrest⟩
      · contradiction
    · contradiction
  | unlock t =>
    simp only [Locked.next] at hn
    split at hn
    · rename_i hrest
      cases hn
      exact ⟨L, h.unlock hrest⟩
    · contradiction
  | read t =>
    simp only [Locked.next] at hn
    split at hn
    · rename_i id c hplace
      split at hn
      · contradiction
      · rename_i read hop
        cases hn
        have hsees := hops c
        rw [hop] at hsees
        exact h.read hplace hop hsees
    · contradiction
  | ret t =>
    simp only [Locked.next] at hn
    split at hn
    · rename_i id c r hplace hrest
      cases hn
      refine ⟨L, h.outside hrest rfl ?_ ?_ (h.ordered.ret hplace) rfl⟩
      · simp
      · simp [hplace]
    · contradiction

theorem Inv.linearized (h : Inv ops view base s L) : s.Linearized ops view base := by
  refine ⟨?_, L, h.ordered.lin, h.view_eq, ?_⟩
  · intro t u ht hu
    exact ((h.owned.of_inside ht).2.2 u hu).symm
  · intro hfree
    cases h.owned with
    | free _ data _ => exact data
    | held _ mutex _ _ => cases hfree.symm.trans mutex

theorem exists_inv {ok : Locked S C R → Step C → Prop} (hops : ∀ c, (ops c).Sees view)
    (hr : Reach (next ops) ok (start base) s) : ∃ L, Inv ops view base s L := by
  apply hr.invariant (I := fun s => ∃ L, Inv ops view base s L)
  · exact ⟨[], inv_start base⟩
  · intro r a r' hi _ hn
    obtain ⟨L, hL⟩ := hi
    exact hL.next hops hn

theorem linearized_of_reach {ok : Locked S C R → Step C → Prop} (hops : ∀ c, (ops c).Sees view)
    (hr : Reach (next ops) ok (start base) s) : s.Linearized ops view base := by
  obtain ⟨L, hL⟩ := exists_inv hops hr
  exact hL.linearized

/-- The operation of a thread. -/
def pending : Place C R (Vars S R) → Option Nat
  | .idle => none
  | .running id _ _ => some id
  | .returning id _ _ => some id

/-- A run in which only thread `t` moves. -/
def Alone (ops : C → Op S R) (t : Nat) (s s' : Locked S C R) : Prop :=
  Reach (next ops) (fun _ _ => True) s s' ∧ s.Others s' t

theorem alone_refl : Alone ops t s s := ⟨.refl, fun _ _ => ⟨rfl, rfl⟩⟩

theorem Alone.cons {s'' : Locked S C R} {a : Step C} (hn : s.next ops a = some s') (hothers : s.Others s' t)
    (h : Alone ops t s' s'') : Alone ops t s s'' := by
  refine ⟨(Reach.refl.step trivial hn).trans h.1, ?_⟩
  intro u hu
  exact ⟨(h.2 u hu).1.trans (hothers u hu).1, (h.2 u hu).2.trans (hothers u hu).2⟩

/-- A thread that has taken effect can free the lock. -/
theorem exists_unlocked (hplace : s.threads.place t = .returning id c r) (hrest : s.rest t = some rest) :
    ∃ s', Alone ops t s s' ∧ s'.mutex = false ∧ s'.rest t = none ∧ s'.threads = s.threads := by
  induction rest generalizing s with
  | nil =>
    refine ⟨{ s with mutex := false, rest := Function.update s.rest t none },
      alone_refl.cons (a := .unlock t) ?_ (s.others_rest t none false s.data), rfl, Function.update_self .., rfl⟩
    rw [next, hrest]
  | cons write rest ih =>
    obtain ⟨s', halone, hfree, hnone, hthreads⟩ := ih (s := { s with
      data := write s.data
      rest := Function.update s.rest t (some rest) }) hplace (Function.update_self ..)
    refine ⟨s', halone.cons (a := .access t) ?_ (s.others_rest t (some rest) s.mutex (write s.data)), hfree, hnone,
      hthreads⟩
    simp only [next, hplace, hrest]

/-- A thread that has the lock can end its section. -/
theorem exists_returning (hplace : s.threads.place t = .running id c (.inside code)) (hrest : s.rest t = none) :
    ∃ s' r, Alone ops t s s' ∧ s'.mutex = false ∧ s'.rest t = none ∧ s'.threads.place t = .returning id c r := by
  induction code generalizing s with
  | access write go ih =>
    obtain ⟨s', r, halone, hend⟩ := ih s.data (s := { s with
      data := write s.data
      threads := s.threads.goTo t (.running id c (.inside (go s.data))) }) (Threads.place_goTo ..) hrest
    refine ⟨s', r, halone.cons (a := .access t) ?_ (s.others_goTo t _ s.mutex (write s.data)), hend⟩
    simp only [next, hplace]
  | effect write result rest =>
    obtain ⟨s', halone, hfree, hnone, hthreads⟩ := exists_unlocked (s := { s with
      data := write s.data
      threads := s.threads.goTo t (.returning id c (result s.data))
      rest := Function.update s.rest t (some rest) }) (Threads.place_goTo ..) (Function.update_self ..)
    refine ⟨s', result s.data,
      halone.cons (a := .access t) ?_ (s.others_effect t _ (some rest) s.mutex (write s.data)), hfree, hnone, ?_⟩
    · simp only [next, hplace]
    · rw [hthreads]
      exact Threads.place_goTo ..

/-- The thread that has the lock can free it while another waits. -/
theorem Inv.exists_free (h : Inv ops view base s L) (ht : ¬ s.Inside t) :
    ∃ s', Reach (Locked.next ops) (fun _ _ => True) s s' ∧ s'.mutex = false ∧
      s'.threads.place t = s.threads.place t ∧ s'.rest t = s.rest t := by
  cases h.owned with
  | free mutex _ _ => exact ⟨s, .refl, mutex, rfl, rfl⟩
  | held u _ carries _ =>
    have hne : t ≠ u := by
      intro heq
      apply ht
      cases carries with
      | working place _ => exact inside_of_place (heq ▸ place)
      | leaving rest_eq _ => exact inside_of_rest (heq ▸ rest_eq)
    cases carries with
    | working place _ =>
      have hrest : s.rest u = none := h.rest_eq_none fun id c r => by simp [place]
      obtain ⟨s', r, halone, hfree, -⟩ := exists_returning place hrest
      exact ⟨s', halone.1, hfree, halone.2 t hne⟩
    | leaving rest_eq _ =>
      obtain ⟨id, c, r, hplace⟩ := (h.leaves u _ rest_eq).place
      obtain ⟨s', halone, hfree, -⟩ := exists_unlocked hplace rest_eq
      exact ⟨s', halone.1, hfree, halone.2 t hne⟩

/-- A thread that finds the lock free can end its operation. -/
theorem exists_answered (hplace : s.threads.place t = .running id c .outside) (hrest : s.rest t = none)
    (hfree : s.mutex = false) :
    ∃ s' r, Alone ops t s s' ∧ s'.rest t = none ∧ s'.threads.place t = .returning id c r := by
  cases hop : ops c with
  | locked code =>
    obtain ⟨s', r, halone, -, hend⟩ := exists_returning (s := { s with
      mutex := true
      threads := s.threads.goTo t (.running id c (.inside code)) }) (Threads.place_goTo ..) hrest
    refine ⟨s', r, halone.cons (a := .exchange t) ?_ (s.others_goTo t _ true s.data), hend⟩
    simp only [next, hplace, hop, hfree]
    rfl
  | single read =>
    refine ⟨{ s with threads := s.threads.goTo t (.returning id c (read s.data)) }, read s.data,
      alone_refl.cons (a := .read t) ?_ (s.others_goTo t _ s.mutex s.data), hrest, Threads.place_goTo ..⟩
    simp only [next, hplace, hop]

theorem ret_mem (hplace : s.threads.place t = .returning id c r) (hrest : s.rest t = none) :
    ∃ s', Reach (next ops) (fun _ _ => True) s s' ∧ .ret id r ∈ s'.threads.history := by
  refine ⟨{ s with threads := s.threads.ret t id r }, Reach.refl.step (a := .ret t) trivial ?_,
    List.mem_append_right _ (List.mem_singleton_self _)⟩
  simp only [next, hplace, hrest]

/-- No operation waits for good: whatever the threads have done, each that has begun can still return. -/
theorem exists_ret {ok : Locked S C R → Step C → Prop} (hops : ∀ c, (ops c).Sees view)
    (hr : Reach (next ops) ok (start base) s) (hp : pending (s.threads.place t) = some id) :
    ∃ s' r, Reach (next ops) (fun _ _ => True) s s' ∧ .ret id r ∈ s'.threads.history := by
  obtain ⟨L, h⟩ := exists_inv hops hr
  -- the thread goes on to its last access, and then returns
  have hend : ∃ s' c r, Reach (next ops) (fun _ _ => True) s s' ∧ s'.rest t = none ∧
      s'.threads.place t = .returning id c r := by
    cases hplace : s.threads.place t with
    | idle => simp [hplace, pending] at hp
    | running id' c vars =>
      obtain rfl : id' = id := by simpa [hplace, pending] using hp
      have hrest : s.rest t = none := h.rest_eq_none fun id c r => by simp [hplace]
      cases vars with
      | outside =>
        have hout : ¬ s.Inside t := by simp [Inside, hplace, hrest]
        obtain ⟨s₁, hfirst, hfree, hplace₁, hrest₁⟩ := h.exists_free hout
        obtain ⟨s', r, halone, hend⟩ := exists_answered (hplace₁.trans hplace) (hrest₁.trans hrest) hfree
        exact ⟨s', c, r, hfirst.trans halone.1, hend⟩
      | inside code =>
        obtain ⟨s', r, halone, -, hend⟩ := exists_returning hplace hrest
        exact ⟨s', c, r, halone.1, hend⟩
    | returning id' c r =>
      obtain rfl : id' = id := by simpa [hplace, pending] using hp
      cases hrest : s.rest t with
      | none => exact ⟨s, c, r, .refl, hrest, hplace⟩
      | some rest =>
        obtain ⟨s', halone, -, hnone, hthreads⟩ := exists_unlocked hplace hrest
        exact ⟨s', c, r, halone.1, hnone, hthreads ▸ hplace⟩
  obtain ⟨s₁, c, r, hfirst, hrest, hplace⟩ := hend
  obtain ⟨s', hlast, hmem⟩ := ret_mem hplace hrest
  exact ⟨s', r, hfirst.trans hlast, hmem⟩

end Locked

end Spinlock
