import Mathlib.Tactic
import Mathlib.Data.Nat.Count

/-!
# Counting below a bound
-/

namespace Counting

variable {p q : Nat → Prop} [DecidablePred p] [DecidablePred q] {n k : Nat}

/-- Counting after a change at one place. -/
theorem count_update (hk : k < n) (h : ∀ j, j ≠ k → (p j ↔ q j)) :
    Nat.count q n + (if p k then 1 else 0) = Nat.count p n + if q k then 1 else 0 := by
  induction n with
  | zero => omega
  | succ n ih =>
    rw [Nat.count_succ, Nat.count_succ]
    by_cases hn : k = n
    · subst hn
      have hbelow : Nat.count q k = Nat.count p k :=
        Nat.le_antisymm (Nat.count_mono_left fun j hj => (h j hj.ne).mpr)
          (Nat.count_mono_left fun j hj => (h j hj.ne).mp)
      omega
    · have hsame : (if q n then 1 else 0) = if p n then 1 else 0 := if_congr (h n (Ne.symm hn)).symm rfl rfl
      have := ih (by omega)
      omega

theorem count_congr (h : ∀ j < n, (p j ↔ q j)) : Nat.count p n = Nat.count q n :=
  Nat.le_antisymm (Nat.count_mono_left fun j hj => (h j hj).mp)
    (Nat.count_mono_left fun j hj => (h j hj).mpr)

theorem count_add_count_le (h : ∀ j, p j → ¬ q j) (n : Nat) : Nat.count p n + Nat.count q n ≤ n := by
  induction n with
  | zero => simp
  | succ n ih =>
    rw [Nat.count_succ, Nat.count_succ]
    by_cases hp : p n
    · rw [if_pos hp, if_neg (h n hp)]
      omega
    · rw [if_neg hp]
      split <;> omega

theorem count_mod (f : Nat → Prop) [DecidablePred f] (m q : Nat) :
    Nat.count (fun k => f (k % m)) (q * m) = q * Nat.count f m := by
  induction q with
  | zero => simp
  | succ q ih =>
    have hlast : Nat.count (fun k => f ((q * m + k) % m)) m = Nat.count f m := by
      apply count_congr
      intro k hk
      rw [Nat.add_comm, Nat.add_mul_mod_self_right, Nat.mod_eq_of_lt hk]
    rw [Nat.succ_mul, Nat.count_add, ih, hlast, Nat.succ_mul]

theorem count_eq (hk : k < n) : Nat.count (fun j => j = k) n = 1 := by
  rw [Nat.count_eq_card_filter_range, Finset.filter_eq', if_pos (Finset.mem_range.mpr hk),
    Finset.card_singleton]

theorem count_Ico {a b : Nat} (hb : b ≤ n) : Nat.count (fun j => a ≤ j ∧ j < b) n = b - a := by
  rw [Nat.count_eq_card_filter_range, ← Nat.card_Ico]
  congr 1
  ext j
  simp only [Finset.mem_filter, Finset.mem_range, Finset.mem_Ico]
  omega

end Counting
