import Mathlib.Data.List.Perm.Basic
import Mathlib.Order.Bounds.Basic
import Mathlib.Tactic

/-!
# Tables of maxima

A table keeps the largest value that has been reported for each key. The reports may come in any order.
-/

namespace MaxTable

variable {κ α : Type} [DecidableEq κ] [LinearOrder α] {t : κ → Option α} {rs rs' : List (κ × α)}

def raise (t : κ → Option α) (r : κ × α) : κ → Option α :=
  Function.update t r.1 (some ((t r.1).elim r.2 (max r.2)))

def raiseAll (t : κ → Option α) (rs : List (κ × α)) : κ → Option α := rs.foldl raise t

def Reported (t : κ → Option α) (rs : List (κ × α)) (k : κ) : Set α :=
  {v | t k = some v ∨ (k, v) ∈ rs}

theorem raise_right_comm (t : κ → Option α) (r r' : κ × α) :
    raise (raise t r) r' = raise (raise t r') r := by
  by_cases hk : r.1 = r'.1
  · simp only [raise, hk, Function.update_self, Function.update_idem, Option.elim_some]
    cases t r'.1 with
    | none => simp [max_comm]
    | some v => simp [max_left_comm]
  · simp only [raise, Function.update_of_ne hk, Function.update_of_ne (Ne.symm hk)]
    exact Function.update_comm hk _ _ _

theorem raiseAll_perm (t : κ → Option α) (h : rs.Perm rs') : raiseAll t rs = raiseAll t rs' := by
  apply h.foldl_eq'
  intro r _ r' _ t
  exact raise_right_comm t r r'

/-- Two values can be replaced by the larger one. -/
theorem isGreatest_insert_max {S : Set α} {u w v : α} :
    IsGreatest (insert (max u w) S) v ↔ IsGreatest (insert u (insert w S)) v := by
  constructor
  · intro ⟨hv, hub⟩
    have hmax := hub (Set.mem_insert _ S)
    refine ⟨?_, ?_⟩
    · rcases hv with rfl | hv
      · rcases max_choice u w with hu | hw
        · exact Or.inl hu
        · exact Or.inr (Or.inl hw)
      · exact Or.inr (Or.inr hv)
    · intro x hx
      rcases hx with rfl | rfl | hx
      · exact (le_max_left _ _).trans hmax
      · exact (le_max_right _ _).trans hmax
      · exact hub (Or.inr hx)
  · intro ⟨hv, hub⟩
    have hu := hub (Or.inl rfl)
    have hw := hub (Or.inr (Or.inl rfl))
    refine ⟨?_, ?_⟩
    · rcases hv with rfl | rfl | hv
      · exact Or.inl (max_eq_left hw).symm
      · exact Or.inl (max_eq_right hu).symm
      · exact Or.inr hv
    · intro x hx
      rcases hx with rfl | hx
      · exact max_le hu hw
      · exact hub (Or.inr (Or.inr hx))

/-- One report adds its value to what has been reported for its key. -/
theorem isGreatest_reported_raise (t : κ → Option α) (r : κ × α) (k : κ) (v : α) :
    IsGreatest (Reported (raise t r) rs k) v ↔ IsGreatest (Reported t (r :: rs) k) v := by
  obtain ⟨k', w⟩ := r
  by_cases hk : k = k'
  · subst hk
    let S : Set α := {x | (k, x) ∈ rs}
    cases hu : t k with
    | none =>
      have hraised : Reported (raise t (k, w)) rs k = insert w S := by
        ext x
        simp [Reported, raise, hu, S, eq_comm]
      have hcons : Reported t ((k, w) :: rs) k = insert w S := by
        ext x
        simp [Reported, hu, S]
      rw [hraised, hcons]
    | some u =>
      have hraised : Reported (raise t (k, w)) rs k = insert (max w u) S := by
        ext x
        simp [Reported, raise, hu, S, eq_comm]
      have hcons : Reported t ((k, w) :: rs) k = insert w (insert u S) := by
        ext x
        simp [Reported, hu, S, eq_comm (a := u), or_left_comm]
      rw [hraised, hcons]
      exact isGreatest_insert_max
  · have hsame : Reported (raise t (k', w)) rs k = Reported t ((k', w) :: rs) k := by
      ext x
      simp [Reported, raise, hk]
    rw [hsame]

/-- The table has the largest value of each key. -/
theorem raiseAll_eq_some_iff (t : κ → Option α) (rs : List (κ × α)) (k : κ) (v : α) :
    raiseAll t rs k = some v ↔ IsGreatest (Reported t rs k) v := by
  induction rs generalizing t with
  | nil =>
    constructor
    · intro h
      refine ⟨Or.inl h, ?_⟩
      intro w hw
      rcases hw with hw | hw
      · exact (Option.some.inj (hw.symm.trans h)).le
      · cases hw
    · intro h
      rcases h.1 with h | h
      · exact h
      · cases h
  | cons r rs ih =>
    rw [raiseAll, List.foldl_cons, ← raiseAll, ih]
    exact isGreatest_reported_raise t r k v

/-- What has been reported is in the table, or something larger. -/
theorem exists_le_of_reported {k : κ} {v : α} (hv : v ∈ Reported t rs k) : ∃ w, raiseAll t rs k = some w ∧ v ≤ w := by
  have hsome : (raiseAll t rs k).isSome := by
    induction rs generalizing t v with
    | nil =>
      rcases hv with hv | hv
      · exact Option.isSome_iff_exists.mpr ⟨v, hv⟩
      · cases hv
    | cons r rs ih =>
      rw [raiseAll, List.foldl_cons, ← raiseAll]
      by_cases hk : r.1 = k
      · subst hk
        exact ih (Or.inl (Function.update_self ..))
      · apply ih (v := v)
        rcases hv with hv | hv
        · exact Or.inl ((Function.update_of_ne (Ne.symm hk) ..).trans hv)
        · rcases List.mem_cons.mp hv with rfl | hv
          · exact absurd rfl hk
          · exact Or.inr hv
  obtain ⟨w, hw⟩ := Option.isSome_iff_exists.mp hsome
  exact ⟨w, hw, ((raiseAll_eq_some_iff t rs k w).mp hw).2 hv⟩

end MaxTable
