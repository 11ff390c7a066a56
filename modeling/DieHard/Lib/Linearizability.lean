import Mathlib.Tactic

/-!
# Linearizability

A history records the calls of concurrent operations and their returns. A linearization puts the
operations that have taken effect in one order, in which the sequential object gives each its result and
no operation comes before one that had returned when it was called. It grows with the history: an
operation is appended to the order at the moment it takes effect. Threads that call operations one after
another keep such an order when each step either leaves its operation running or lets it take effect.
-/

namespace Linearizability

universe u v w x

inductive Event (C : Type u) (R : Type v)
  | inv (id : Nat) (call : C)
  | ret (id : Nat) (result : R)

/-- An operation that has taken effect. -/
structure Entry (C : Type u) (R : Type v) where
  id : Nat
  call : C
  result : R

variable {S : Type w} {C : Type u} {R : Type v}

def Legal (apply : S → C → S × R) : S → List (Entry C R) → Prop
  | _, [] => True
  | s, e :: L => e.result = (apply s e.call).2 ∧ Legal apply (apply s e.call).1 L

def after (apply : S → C → S × R) : S → List (Entry C R) → S
  | s, [] => s
  | s, e :: L => after apply (apply s e.call).1 L

section Sequential

variable {apply : S → C → S × R} {s : S} {L : List (Entry C R)} {e : Entry C R}

@[simp] theorem after_concat : after apply s (L ++ [e]) = (apply (after apply s L) e.call).1 := by
  induction L generalizing s with
  | nil => rfl
  | cons d L ih => exact ih

theorem legal_concat :
    Legal apply s (L ++ [e]) ↔ Legal apply s L ∧ e.result = (apply (after apply s L) e.call).2 := by
  induction L generalizing s with
  | nil => simp [Legal, after]
  | cons d L ih => simp [Legal, after, ih, and_assoc]

end Sequential

/-- Operation `a` had returned when `b` was called. -/
def Precedes (H : List (Event C R)) (a b : Nat) : Prop :=
  ∃ r c, [Event.ret a r, Event.inv b c].Sublist H

/-- `L` is an order of the operations of `H` that have taken effect. -/
structure Linearization (apply : S → C → S × R) (s : S) (H : List (Event C R))
    (L : List (Entry C R)) : Prop where
  legal : Legal apply s L
  nodup : (L.map Entry.id).Nodup
  invoked : ∀ e ∈ L, .inv e.id e.call ∈ H
  returned : ∀ id r, .ret id r ∈ H → ∃ c, ⟨id, c, r⟩ ∈ L
  order : ∀ a ∈ L, ∀ b ∈ L, Precedes H a.id b.id → [a, b].Sublist L

theorem pair_sublist_concat {α : Type u} {x y z : α} {l : List α} (h : [x, y].Sublist (l ++ [z])) :
    [x, y].Sublist l ∨ x ∈ l ∧ y = z := by
  obtain ⟨l₁, l₂, happend, h₁, h₂⟩ := List.sublist_append_iff.mp h
  rcases List.sublist_singleton.mp h₂ with rfl | rfl
  · rw [List.append_nil] at happend
    exact .inl (happend ▸ h₁)
  · have hxy : [x] ++ [y] = l₁ ++ [z] := happend
    obtain ⟨hx, hy⟩ := List.append_inj' hxy rfl
    rw [← hx, List.singleton_sublist] at h₁
    exact .inr ⟨h₁, List.singleton_inj.mp hy⟩

section Representation

variable {T : Type x} {apply : S → C → S × R} {apply' : T → C → T × R} {repr : T → S} {H : List (Event C R)}
  {L : List (Entry C R)}

theorem after_repr (h : ∀ t c, (apply (repr t) c).1 = repr (apply' t c).1) (t : T) :
    after apply (repr t) L = repr (after apply' t L) := by
  induction L generalizing t with
  | nil => rfl
  | cons e L ih => rw [after, h, ih, after]

theorem legal_repr (h : ∀ t c, (apply (repr t) c).1 = repr (apply' t c).1)
    (hresult : ∀ t c, (apply (repr t) c).2 = (apply' t c).2) (t : T) :
    Legal apply (repr t) L ↔ Legal apply' t L := by
  induction L generalizing t with
  | nil => exact Iff.rfl
  | cons e L ih => rw [Legal, Legal, h, hresult, ih]

theorem Linearization.of_repr (h : ∀ t c, (apply (repr t) c).1 = repr (apply' t c).1)
    (hresult : ∀ t c, (apply (repr t) c).2 = (apply' t c).2) {t : T} (hlin : Linearization apply (repr t) H L) :
    Linearization apply' t H L :=
  { hlin with legal := (legal_repr h hresult t).mp hlin.legal }

end Representation

section Growth

variable {apply : S → C → S × R} {s : S} {H : List (Event C R)} {L : List (Entry C R)}

theorem linearization_nil : Linearization apply s [] [] := by
  refine ⟨trivial, List.nodup_nil, ?_, ?_, ?_⟩ <;> simp

/-- A new call changes nothing. -/
theorem Linearization.invoke (h : Linearization apply s H L) {id : Nat} (c : C)
    (hnew : ∀ e ∈ L, e.id ≠ id) : Linearization apply s (H ++ [.inv id c]) L := by
  refine ⟨h.legal, h.nodup, ?_, ?_, ?_⟩
  · intro e he
    exact List.mem_append_left _ (h.invoked e he)
  · intro a r hr
    apply h.returned
    simpa using hr
  · rintro a ha b hb ⟨r, c', hlater⟩
    apply h.order a ha b hb
    cases pair_sublist_concat hlater with
    | inl hold => exact ⟨r, c', hold⟩
    | inr hlast =>
      injection hlast.2 with hid
      exact absurd hid (hnew b hb)

/-- The operation of an open call takes effect. -/
theorem Linearization.commit (h : Linearization apply s H L) {id : Nat} {c : C}
    (hinv : .inv id c ∈ H) (hnew : ∀ e ∈ L, e.id ≠ id) :
    Linearization apply s H (L ++ [⟨id, c, (apply (after apply s L) c).2⟩]) := by
  refine ⟨legal_concat.mpr ⟨h.legal, rfl⟩, ?_, ?_, ?_, ?_⟩
  · rw [List.map_append, List.map_singleton, List.nodup_append_comm, List.singleton_append,
      List.nodup_cons]
    refine ⟨?_, h.nodup⟩
    intro hmem
    obtain ⟨e, he, hid⟩ := List.mem_map.mp hmem
    exact hnew e he hid
  · intro e he
    cases List.mem_append.mp he with
    | inl hold => exact h.invoked e hold
    | inr hlast => rwa [List.mem_singleton.mp hlast]
  · intro a r hr
    obtain ⟨c', hc⟩ := h.returned a r hr
    exact ⟨c', List.mem_append_left _ hc⟩
  · intro a ha b hb hbefore
    cases List.mem_append.mp ha with
    | inl hold =>
      cases List.mem_append.mp hb with
      | inl hold' => exact (h.order a hold b hold' hbefore).trans (List.sublist_append_left _ _)
      | inr hlast =>
        rw [List.mem_singleton.mp hlast]
        exact (List.singleton_sublist.mpr hold).append (List.Sublist.refl _)
    | inr hlast =>
      -- the operation has not returned, so it precedes no other
      obtain ⟨r, c', hprec⟩ := hbefore
      obtain ⟨c'', hc⟩ := h.returned a.id r (hprec.subset List.mem_cons_self)
      exact absurd (by rw [List.mem_singleton.mp hlast]) (hnew _ hc)

/-- An operation that has taken effect returns its result. -/
theorem Linearization.respond (h : Linearization apply s H L) {id : Nat} {c : C} {r : R}
    (hmem : ⟨id, c, r⟩ ∈ L) : Linearization apply s (H ++ [.ret id r]) L := by
  refine ⟨h.legal, h.nodup, ?_, ?_, ?_⟩
  · intro e he
    exact List.mem_append_left _ (h.invoked e he)
  · intro a r' hr
    cases List.mem_append.mp hr with
    | inl hold => exact h.returned a r' hold
    | inr hlast =>
      injection List.mem_singleton.mp hlast with hid hresult
      exact ⟨c, hid ▸ hresult ▸ hmem⟩
  · rintro a ha b hb ⟨r', c', hlater⟩
    apply h.order a ha b hb
    cases pair_sublist_concat hlater with
    | inl hold => exact ⟨r', c', hold⟩
    | inr hlast => nomatch hlast.2

theorem Linearization.entry_eq (h : Linearization apply s H L) {d e : Entry C R} (hd : d ∈ L)
    (he : e ∈ L) (hid : d.id = e.id) : d = e :=
  List.inj_on_of_nodup_map h.nodup hd he hid

end Growth

/-- Where a thread is: between its operations, in one with its local variables, or after the last access
of one. -/
inductive Place (C : Type u) (R : Type v) (V : Type x)
  | idle
  | running (id : Nat) (call : C) (vars : V)
  | returning (id : Nat) (call : C) (result : R)

/-- The threads, their history and the number of calls so far, from which each call has its identity. -/
structure Threads (C : Type u) (R : Type v) (V : Type x) where
  place : Nat → Place C R V
  history : List (Event C R)
  calls : Nat

namespace Threads

variable {V : Type x}

def start : Threads C R V := ⟨fun _ => .idle, [], 0⟩

/-- Thread `t` is at `p`. -/
def goTo (s : Threads C R V) (t : Nat) (p : Place C R V) : Threads C R V :=
  { s with place := Function.update s.place t p }

@[simp] theorem place_goTo (s : Threads C R V) (t : Nat) (p : Place C R V) :
    (s.goTo t p).place t = p := Function.update_self ..

@[simp] theorem goTo_goTo (s : Threads C R V) (t : Nat) (p q : Place C R V) :
    (s.goTo t p).goTo t q = s.goTo t q := by
  simp [goTo]

/-- Thread `t` calls `c` and begins with `vars`. -/
def call (s : Threads C R V) (t : Nat) (c : C) (vars : V) : Threads C R V where
  place := Function.update s.place t (.running s.calls c vars)
  history := s.history ++ [.inv s.calls c]
  calls := s.calls + 1

@[simp] theorem place_call (s : Threads C R V) (t : Nat) (c : C) (vars : V) :
    (s.call t c vars).place t = .running s.calls c vars := Function.update_self ..

/-- The operation `id` of thread `t` returns `r`. -/
def ret (s : Threads C R V) (t id : Nat) (r : R) : Threads C R V :=
  { s with
    place := Function.update s.place t .idle
    history := s.history ++ [.ret id r] }

/-- What is known of a thread by its place. An operation that is running has no place in the order. -/
def PlaceOk (Ok : C → V → Prop) (H : List (Event C R)) (L : List (Entry C R)) :
    Place C R V → Prop
  | .idle => True
  | .running id c vars => .inv id c ∈ H ∧ (∀ e ∈ L, e.id ≠ id) ∧ Ok c vars
  | .returning id c r => ⟨id, c, r⟩ ∈ L

def runningId : Place C R V → Option Nat
  | .running id _ _ => some id
  | _ => none

/-- `L` is an order of the operations that have taken effect, and the local variables of the others are
`Ok`. -/
structure Ordered (apply : S → C → S × R) (s₀ : S) (Ok : C → V → Prop) (s : Threads C R V)
    (L : List (Entry C R)) : Prop where
  lin : Linearization apply s₀ s.history L
  fresh : ∀ id c, .inv id c ∈ s.history → id < s.calls
  calls : ∀ id c c', .inv id c ∈ s.history → .inv id c' ∈ s.history → c = c'
  places : ∀ t, PlaceOk Ok s.history L (s.place t)
  apart : ∀ t u id, runningId (s.place t) = some id → runningId (s.place u) = some id → t = u

variable {apply : S → C → S × R} {s₀ : S} {Ok : C → V → Prop} {s : Threads C R V}
  {H : List (Event C R)} {L : List (Entry C R)} {t id : Nat} {c : C} {vars vars' : V} {r : R}
  {p : Place C R V}

theorem PlaceOk.append (h : PlaceOk Ok H L p) (ev : Event C R) : PlaceOk Ok (H ++ [ev]) L p := by
  cases p with
  | idle => trivial
  | running id c vars => exact ⟨List.mem_append_left _ h.1, h.2⟩
  | returning id c r => exact h

/-- Another operation has taken effect. -/
theorem PlaceOk.commit (h : PlaceOk Ok H L p) {e : Entry C R} (hother : runningId p ≠ some e.id) :
    PlaceOk Ok H (L ++ [e]) p := by
  cases p with
  | idle => trivial
  | running id c vars =>
    refine ⟨h.1, ?_, h.2.2⟩
    intro d hd
    cases List.mem_append.mp hd with
    | inl hold => exact h.2.1 d hold
    | inr hlast =>
      rw [List.mem_singleton.mp hlast]
      intro heq
      exact hother (congrArg some heq.symm)
  | returning id c r => exact List.mem_append_left _ h

theorem places_update {place : Nat → Place C R V} (hp : PlaceOk Ok H L p)
    (hothers : ∀ u, u ≠ t → PlaceOk Ok H L (place u)) :
    ∀ u, PlaceOk Ok H L (Function.update place t p u) := by
  rw [Function.forall_update_iff place fun _ q => PlaceOk Ok H L q]
  exact ⟨hp, hothers⟩

/-- Threads stay apart when one goes on with its own operation, or with one that no thread runs. -/
theorem Ordered.apart_update (h : Ordered apply s₀ Ok s L)
    (hp : ∀ id, runningId p = some id → runningId (s.place t) = some id ∨
      ∀ u, runningId (s.place u) ≠ some id) (u w id : Nat)
    (hu : runningId (Function.update s.place t p u) = some id)
    (hw : runningId (Function.update s.place t p w) = some id) : u = w := by
  have hold {u : Nat} (hut : u ≠ t) (hu : runningId (s.place u) = some id)
      (hpid : runningId p = some id) : False := by
    cases hp id hpid with
    | inl hsame => exact hut (h.apart u t id hu hsame)
    | inr hnew => exact hnew u hu
  by_cases hut : u = t
  · by_cases hwt : w = t
    · rw [hut, hwt]
    · rw [hut, Function.update_self] at hu
      rw [Function.update_of_ne hwt] at hw
      exact (hold hwt hw hu).elim
  · rw [Function.update_of_ne hut] at hu
    by_cases hwt : w = t
    · rw [hwt, Function.update_self] at hw
      exact (hold hut hu hw).elim
    · rw [Function.update_of_ne hwt] at hw
      exact h.apart u w id hu hw

theorem ordered_start : Ordered apply s₀ Ok (start : Threads C R V) [] := by
  refine ⟨linearization_nil, ?_, ?_, ?_, ?_⟩ <;> simp [start, PlaceOk, runningId]

theorem Ordered.call (h : Ordered apply s₀ Ok s L) (t : Nat) (hok : Ok c vars) :
    Ordered apply s₀ Ok (s.call t c vars) L := by
  have hnew : ∀ e ∈ L, e.id ≠ s.calls := by
    intro e he
    exact (h.fresh _ _ (h.lin.invoked e he)).ne
  have hmem {id : Nat} {d : C} (hd : .inv id d ∈ (s.call t c vars).history) :
      .inv id d ∈ s.history ∨ id = s.calls ∧ d = c := by
    simpa [Threads.call] using hd
  constructor
  · exact h.lin.invoke c hnew
  · intro id d hd
    cases hmem hd with
    | inl hold => exact Nat.lt_succ_of_lt (h.fresh id d hold)
    | inr hlast => exact hlast.1 ▸ Nat.lt_succ_self _
  · intro id d d' hd hd'
    cases hmem hd with
    | inl hold =>
      cases hmem hd' with
      | inl hold' => exact h.calls id d d' hold hold'
      | inr hlast => exact absurd hlast.1 (h.fresh id d hold).ne
    | inr hlast =>
      cases hmem hd' with
      | inl hold' => exact absurd hlast.1 (h.fresh id d' hold').ne
      | inr hlast' => rw [hlast.2, hlast'.2]
  · apply places_update
    · exact ⟨List.mem_append_right _ List.mem_cons_self, hnew, hok⟩
    · intro u _
      exact (h.places u).append _
  · apply h.apart_update
    intro id hid
    obtain rfl := Option.some.inj hid
    right
    intro u hu
    cases hplace : s.place u with
    | running id c' vars' =>
      rw [hplace] at hu
      have hp := h.places u
      rw [hplace] at hp
      exact (h.fresh id c' hp.1).ne (Option.some.inj hu)
    | _ =>
      rw [hplace] at hu
      contradiction

theorem Ordered.running (h : Ordered apply s₀ Ok s L) (hplace : s.place t = .running id c vars) :
    .inv id c ∈ s.history ∧ (∀ e ∈ L, e.id ≠ id) ∧ Ok c vars := by
  have hp := h.places t
  rwa [hplace] at hp

theorem Ordered.goOn (h : Ordered apply s₀ Ok s L) (hplace : s.place t = .running id c vars)
    (hok : Ok c vars') : Ordered apply s₀ Ok (s.goTo t (.running id c vars')) L := by
  obtain ⟨hinv, hnew, -⟩ := h.running hplace
  refine ⟨h.lin, h.fresh, h.calls, ?_, ?_⟩
  · exact places_update ⟨hinv, hnew, hok⟩ fun u _ => h.places u
  · apply h.apart_update
    intro id' hid
    left
    rw [hplace]
    exact hid

/-- A step lets its operation take effect. -/
theorem Ordered.commit (h : Ordered apply s₀ Ok s L) (hplace : s.place t = .running id c vars)
    (hr : r = (apply (after apply s₀ L) c).2) :
    Ordered apply s₀ Ok (s.goTo t (.returning id c r)) (L ++ [⟨id, c, r⟩]) := by
  obtain ⟨hinv, hnew, -⟩ := h.running hplace
  refine ⟨hr ▸ h.lin.commit hinv hnew, h.fresh, h.calls, ?_, ?_⟩
  · apply places_update
    · exact List.mem_append_right _ List.mem_cons_self
    · intro u hu
      apply (h.places u).commit
      intro hrunning
      exact hu (h.apart u t id hrunning (by rw [hplace, runningId]))
  · apply h.apart_update
    intro id' hid
    contradiction

theorem Ordered.ret (h : Ordered apply s₀ Ok s L) (hplace : s.place t = .returning id c r) :
    Ordered apply s₀ Ok (s.ret t id r) L := by
  have hmem : ⟨id, c, r⟩ ∈ L := by
    have hp := h.places t
    rwa [hplace] at hp
  have hinv {a : Nat} {d : C} (hd : .inv a d ∈ (s.ret t id r).history) : .inv a d ∈ s.history := by
    simpa [Threads.ret] using hd
  refine ⟨h.lin.respond hmem, ?_, ?_, ?_, ?_⟩
  · intro a d hd
    exact h.fresh a d (hinv hd)
  · intro a d d' hd hd'
    exact h.calls a d d' (hinv hd) (hinv hd')
  · apply places_update
    · trivial
    · intro u _
      exact (h.places u).append _
  · apply h.apart_update
    intro id' hid
    contradiction

end Threads

end Linearizability
