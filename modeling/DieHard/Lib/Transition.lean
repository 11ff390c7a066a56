import Mathlib.Tactic
import Mathlib.Data.List.GetD
import Mathlib.Data.Nat.Count

/-!
# Labelled machines

A machine is a partial step function on states and actions. A guard selects the steps a run
may take. Reachability, finite runs, executions with named moments and simulations are stated
once here for every machine.
-/

namespace Transition

universe u v

variable {σ : Type u} {α : Type v}

/-- Reachability from a state by steps that satisfy the guard in the state they leave. -/
inductive Reach (next : σ → α → Option σ) (ok : σ → α → Prop) (s : σ) : σ → Prop
  | refl : Reach next ok s s
  | step {t r : σ} {a : α} : Reach next ok s t → ok t a → next t a = some r → Reach next ok s r

section Reachability

variable {next : σ → α → Option σ} {ok : σ → α → Prop} {s t r : σ}

theorem Reach.trans (h : Reach next ok s t) (k : Reach next ok t r) : Reach next ok s r := by
  induction k with
  | refl => exact h
  | step _ hok hn ih => exact ih.step hok hn

theorem Reach.mono {ok' : σ → α → Prop} (h : Reach next ok s t)
    (hm : ∀ r a, ok r a → ok' r a) : Reach next ok' s t := by
  induction h with
  | refl => exact .refl
  | step _ hok hn ih => exact ih.step (hm _ _ hok) hn

theorem Reach.invariant {I : σ → Prop} (h : Reach next ok s t) (h0 : I s)
    (hs : ∀ r a r', I r → ok r a → next r a = some r' → I r') : I t := by
  induction h with
  | refl => exact h0
  | step _ hok hn ih => exact hs _ _ _ ih hok hn

theorem Reach.invariant_of_reach {I : σ → Prop} (h : Reach next ok s t) (h0 : I s)
    (hs : ∀ r a r', Reach next ok s r → I r → ok r a → next r a = some r' → I r') : I t := by
  induction h with
  | refl => exact h0
  | step hr hok hn ih => exact hs _ _ _ hr ih hok hn

end Reachability

def run (next : σ → α → Option σ) : σ → List α → Option σ
  | s, [] => some s
  | s, a :: as => (next s a).bind fun t => run next t as

@[simp] theorem run_nil (next : σ → α → Option σ) (s : σ) : run next s [] = some s := rfl

theorem run_cons (next : σ → α → Option σ) (s : σ) (a : α) (as : List α) :
    run next s (a :: as) = (next s a).bind fun t => run next t as := rfl

theorem run_append (next : σ → α → Option σ) (s : σ) (as bs : List α) :
    run next s (as ++ bs) = (run next s as).bind fun t => run next t bs := by
  induction as generalizing s with
  | nil => rfl
  | cons a as ih =>
    simp only [List.cons_append, run_cons, ih]
    cases next s a <;> rfl

theorem run_append_some {next : σ → α → Option σ} {s t : σ} {as bs : List α}
    (h : run next s as = some t) : run next s (as ++ bs) = run next t bs := by
  rw [run_append, h]
  rfl

def final (next : σ → α → Option σ) (s : σ) (as : List α) : σ := (run next s as).getD s

theorem run_eq_final {next : σ → α → Option σ} {s : σ} {as : List α}
    (h : (run next s as).isSome) : run next s as = some (final next s as) := by
  obtain ⟨t, ht⟩ := Option.isSome_iff_exists.mp h
  rw [final, ht, Option.getD_some]

def Guarded (next : σ → α → Option σ) (ok : σ → α → Prop) : σ → List α → Prop
  | _, [] => True
  | s, a :: as => ok s a ∧ ∀ t, next s a = some t → Guarded next ok t as

theorem Guarded.strengthen {next : σ → α → Option σ} {ok ok' : σ → α → Prop} {I : σ → Prop} {s : σ}
    {as : List α} (h : Guarded next ok s as) (h0 : I s)
    (hs : ∀ r a r', I r → ok r a → next r a = some r' → I r')
    (hok : ∀ r a, I r → ok r a → ok' r a) : Guarded next ok' s as := by
  induction as generalizing s with
  | nil => trivial
  | cons a as ih =>
    refine ⟨hok s a h0 h.1, ?_⟩
    intro t ht
    exact ih (h.2 t ht) (hs s a t h0 h.1 ht)

theorem Guarded.mono {next : σ → α → Option σ} {ok ok' : σ → α → Prop} {s : σ} {as : List α}
    (h : Guarded next ok s as) (hok : ∀ r a, ok r a → ok' r a) : Guarded next ok' s as :=
  h.strengthen (I := fun _ => True) trivial (fun _ _ _ _ _ _ => trivial) fun r a _ => hok r a

theorem Guarded.append {next : σ → α → Option σ} {ok : σ → α → Prop} {s : σ} {as bs : List α}
    (h : Guarded next ok s as) (h' : ∀ t, run next s as = some t → Guarded next ok t bs) :
    Guarded next ok s (as ++ bs) := by
  induction as generalizing s with
  | nil => exact h' s rfl
  | cons a as ih =>
    refine ⟨h.1, ?_⟩
    intro t ht
    apply ih (h.2 t ht)
    intro r hr
    apply h'
    rw [run_cons, ht]
    exact hr

theorem reach_of_run {next : σ → α → Option σ} {ok : σ → α → Prop} {s t : σ} {as : List α}
    (hg : Guarded next ok s as) (h : run next s as = some t) : Reach next ok s t := by
  induction as generalizing s with
  | nil =>
    cases h
    exact .refl
  | cons a as ih =>
    rw [run_cons] at h
    obtain ⟨r, hr, ht⟩ := Option.bind_eq_some_iff.mp h
    exact (Reach.refl.step hg.1 hr).trans (ih (hg.2 r hr) ht)

theorem reach_final {next : σ → α → Option σ} {ok : σ → α → Prop} {s : σ} {as : List α}
    (hg : Guarded next ok s as) (h : (run next s as).isSome) : Reach next ok s (final next s as) :=
  reach_of_run hg (run_eq_final h)

/-- Decide a guard along a run. -/
def guardedBool (next : σ → α → Option σ) (ok : σ → α → Prop) [∀ s a, Decidable (ok s a)] :
    σ → List α → Bool
  | _, [] => true
  | s, a :: as => decide (ok s a) && (next s a).all fun t => guardedBool next ok t as

theorem guarded_of_bool {next : σ → α → Option σ} {ok : σ → α → Prop} [∀ s a, Decidable (ok s a)]
    {s : σ} {as : List α} (h : guardedBool next ok s as = true) : Guarded next ok s as := by
  induction as generalizing s with
  | nil => trivial
  | cons a as ih =>
    simp only [guardedBool, Bool.and_eq_true, decide_eq_true_eq] at h
    refine ⟨h.1, ?_⟩
    intro t ht
    rw [ht] at h
    exact ih h.2

/-- A finite execution names its moments: `state k` is left by `action k`. -/
structure Execution (next : σ → α → Option σ) (ok : σ → α → Prop) (init : σ) where
  length : Nat
  state : Nat → σ
  action : Nat → α
  initial : state 0 = init
  guarded : ∀ k, k < length → ok (state k) (action k)
  step : ∀ k, k < length → next (state k) (action k) = some (state (k + 1))

namespace Execution

variable {next : σ → α → Option σ} {ok : σ → α → Prop} {init : σ}

theorem reach (e : Execution next ok init) {k : Nat} (hk : k ≤ e.length) :
    Reach next ok init (e.state k) := by
  induction k with
  | zero =>
    rw [e.initial]
    exact .refl
  | succ k ih => exact (ih (by omega)).step (e.guarded k (by omega)) (e.step k (by omega))

def reguard (e : Execution next ok init) {ok' : σ → α → Prop}
    (h : ∀ k < e.length, ok' (e.state k) (e.action k)) : Execution next ok' init :=
  { e with guarded := h }

/-- One more step at the end. -/
def snoc (e : Execution next ok init) (a : α) (t : σ) (hok : ok (e.state e.length) a)
    (hn : next (e.state e.length) a = some t) : Execution next ok init where
  length := e.length + 1
  state k := if k ≤ e.length then e.state k else t
  action k := if k < e.length then e.action k else a
  initial := e.initial
  guarded k hk := by
    rw [if_pos (by omega)]
    split
    · rename_i hlt
      exact e.guarded k hlt
    · rename_i hge
      rwa [show k = e.length by omega]
  step k hk := by
    rw [if_pos (by omega)]
    split
    · rename_i hlt
      rw [if_pos (by omega)]
      exact e.step k hlt
    · rename_i hge
      rw [if_neg (by omega), show k = e.length by omega]
      exact hn

theorem exists_of_reach [Inhabited α] {t : σ} (h : Reach next ok init t) :
    ∃ e : Execution next ok init, e.state e.length = t := by
  induction h with
  | refl => exact ⟨⟨0, fun _ => init, fun _ => default, rfl, by simp, by simp⟩, rfl⟩
  | step _ hok hn ih =>
    obtain ⟨e, rfl⟩ := ih
    refine ⟨e.snoc _ _ hok hn, ?_⟩
    simp [snoc]

theorem keeps (e : Execution next ok init) {I : Nat → σ → Prop} {a b : Nat}
    (hab : a ≤ b) (h0 : I a (e.state a))
    (hs : ∀ k, a ≤ k → k < b → I k (e.state k) → I (k + 1) (e.state (k + 1))) :
    I b (e.state b) := by
  induction b, hab using Nat.le_induction with
  | base => exact h0
  | succ b hab ih =>
    refine hs b hab (by omega) (ih ?_)
    intro k hk hkb
    exact hs k hk (by omega)

/-- The rank rule: a rank that no step raises and every chosen step lowers bounds the number of chosen
steps before the goal. -/
theorem goal_of_rank (e : Execution next ok init) (P : σ → Prop) (rank : σ → Nat)
    (goal : Nat → Prop) (chosen : α → Bool) {a m : Nat} (ham : a ≤ m) (h0 : P (e.state a))
    (hs : ∀ k, a ≤ k → k < m → P (e.state k) → goal k ∨ P (e.state (k + 1)) ∧
      rank (e.state (k + 1)) + (chosen (e.action k)).toNat ≤ rank (e.state k))
    (hm : rank (e.state a) < Nat.count (fun k => a ≤ k ∧ chosen (e.action k)) m) :
    ∃ k, a ≤ k ∧ k < m ∧ goal k ∧ ∀ j, a ≤ j → j ≤ k → P (e.state j) := by
  have hrun : (∃ k, a ≤ k ∧ k < m ∧ goal k ∧ ∀ j, a ≤ j → j ≤ k → P (e.state j)) ∨
      (∀ j, a ≤ j → j ≤ m → P (e.state j)) ∧ rank (e.state m) +
        Nat.count (fun k => a ≤ k ∧ chosen (e.action k)) m ≤ rank (e.state a) := by
    clear hm
    induction m, ham using Nat.le_induction with
    | base =>
      refine Or.inr ⟨?_, ?_⟩
      · intro j haj hja
        rwa [Nat.le_antisymm hja haj]
      · rw [Nat.count_of_forall_not fun k hk h => absurd h.1 (Nat.not_le.mpr hk)]
        exact Nat.le_refl _
    | succ m ham ih =>
      rcases ih fun k hak hkm => hs k hak (by omega) with ⟨k, hak, hkm, hrest⟩ | ⟨hP, hrank⟩
      · exact Or.inl ⟨k, hak, by omega, hrest⟩
      · rcases hs m ham (by omega) (hP m ham (Nat.le_refl m)) with hgoal | ⟨hnext, hle⟩
        · exact Or.inl ⟨m, ham, Nat.lt_succ_self m, hgoal, hP⟩
        · refine Or.inr ⟨?_, ?_⟩
          · intro j haj hjm
            rcases Nat.of_le_succ hjm with hj | rfl
            · exact hP j haj hj
            · exact hnext
          · rw [Nat.count_succ]
            cases hc : chosen (e.action m) <;> simp_all <;> omega
  rcases hrun with hgoal | ⟨-, hle⟩
  · exact hgoal
  · omega

end Execution

def Ended (next : σ → α → Option σ) (ok : σ → α → Prop) (s : σ) : Prop := ∀ a, ok s a → next s a = none

section Termination

variable {next : σ → α → Option σ} {ok : σ → α → Prop} {init : σ} {rank : σ → Nat}

/-- A rank that every step lowers bounds the length of every execution. -/
theorem Execution.length_le_rank (e : Execution next ok init)
    (hs : ∀ s a t, ok s a → next s a = some t → rank t < rank s) : e.length ≤ rank init := by
  have hk : ∀ k ≤ e.length, rank (e.state k) + k ≤ rank init := by
    intro k
    induction k with
    | zero =>
      intro _
      simp [e.initial]
    | succ k ih =>
      intro hk
      have hlt := hs _ _ _ (e.guarded k (by omega)) (e.step k (by omega))
      have hle := ih (by omega)
      omega
  have hle := hk e.length (Nat.le_refl _)
  omega

theorem exists_ended (hs : ∀ s a t, ok s a → next s a = some t → rank t < rank s) (s : σ) :
    ∃ t, Reach next ok s t ∧ Ended next ok t := by
  induction hr : rank s using Nat.strong_induction_on generalizing s with
  | _ n ih =>
    by_cases hend : Ended next ok s
    · exact ⟨s, .refl, hend⟩
    · simp only [Ended, not_forall] at hend
      obtain ⟨a, hok, hn⟩ := hend
      obtain ⟨t, ht⟩ := Option.ne_none_iff_exists'.mp hn
      obtain ⟨r, hreach, hend⟩ := ih (rank t) (hr ▸ hs s a t hok ht) t rfl
      exact ⟨r, (Reach.refl.step hok ht).trans hreach, hend⟩

end Termination

theorem run_take_isSome {next : σ → α → Option σ} {s : σ} {as : List α}
    (h : (run next s as).isSome) (k : Nat) : (run next s (as.take k)).isSome := by
  rw [← List.take_append_drop k as, run_append, Option.isSome_bind] at h
  rcases ht : run next s (as.take k) with _ | t
  · simp [ht] at h
  · rfl

theorem Guarded.getD {next : σ → α → Option σ} {ok : σ → α → Prop} {s t : σ} {as : List α}
    [Inhabited α] (h : Guarded next ok s as) {k : Nat} (hk : k < as.length)
    (ht : run next s (as.take k) = some t) : ok t (as.getD k default) := by
  induction as generalizing s k with
  | nil => simp at hk
  | cons a as ih =>
    cases k with
    | zero =>
      cases ht
      exact h.1
    | succ k =>
      rw [List.take_succ_cons, run_cons] at ht
      obtain ⟨r, hr, ht⟩ := Option.bind_eq_some_iff.mp ht
      exact ih (h.2 r hr) (by simpa using hk) ht

theorem guarded_true (next : σ → α → Option σ) (s : σ) (as : List α) :
    Guarded next (fun _ _ => True) s as := by
  induction as generalizing s with
  | nil => trivial
  | cons a as ih => exact ⟨trivial, fun t _ => ih t⟩

/-- The execution that a successful run takes. -/
def Execution.ofRun {next : σ → α → Option σ} {ok : σ → α → Prop} {init : σ} [Inhabited α]
    (as : List α) (hr : (run next init as).isSome) (hg : Guarded next ok init as) :
    Execution next ok init where
  length := as.length
  state k := (run next init (as.take k)).getD init
  action k := as.getD k default
  initial := rfl
  guarded k hk := by
    obtain ⟨t, ht⟩ := Option.isSome_iff_exists.mp (run_take_isSome hr k)
    rw [ht]
    exact hg.getD hk ht
  step k hk := by
    obtain ⟨t, ht⟩ := Option.isSome_iff_exists.mp (run_take_isSome hr k)
    obtain ⟨t', ht'⟩ := Option.isSome_iff_exists.mp (run_take_isSome hr (k + 1))
    have hsplit : as.take (k + 1) = as.take k ++ [as[k]] := List.take_succ_eq_append_getElem hk
    have hn := ht'
    rw [hsplit, run_append_some ht, run_cons] at hn
    obtain ⟨r, hr', hr''⟩ := Option.bind_eq_some_iff.mp hn
    cases hr''
    rw [ht, ht', Option.getD_some, Option.getD_some, List.getD_eq_getElem _ _ hk, hr']

section Simulation

variable {τ : Type*} {β : Type*}

/-- A map of states under which every step is a step of another machine or no step at all carries
reachability over. -/
theorem Reach.simulate {next : σ → α → Option σ} {ok : σ → α → Prop}
    {next' : τ → β → Option τ} {ok' : τ → β → Prop} {f : σ → τ} {s t : σ}
    (h : Reach next ok s t)
    (hs : ∀ r a r', Reach next ok s r → ok r a → next r a = some r' →
      f r' = f r ∨ ∃ b, ok' (f r) b ∧ next' (f r) b = some (f r')) :
    Reach next' ok' (f s) (f t) := by
  induction h with
  | refl => exact .refl
  | step hr hok hn ih =>
    rcases hs _ _ _ hr hok hn with h | ⟨b, hb, hb'⟩
    · rw [h]
      exact ih
    · exact ih.step hb hb'

end Simulation

end Transition
