import Mathlib.Data.ZMod.Basic
import Mathlib.Tactic

/-!
# Sequences that repeat from some place on

A sequence has the eventual period `t` if from some place on each of its members comes again after `t` more. For
the orbit of a point one repetition is enough.
-/

namespace Periodicity

variable {α β : Type*} {x : Nat → α} {s t : Nat}

/-- From some place on the sequence repeats after `t` members. -/
def EventuallyPeriodic (x : Nat → α) (t : Nat) : Prop := ∃ k, ∀ n, k ≤ n → x (n + t) = x n

theorem EventuallyPeriodic.map (h : EventuallyPeriodic x t) (f : α → β) : EventuallyPeriodic (fun n => f (x n)) t := by
  obtain ⟨k, hk⟩ := h
  exact ⟨k, fun n hn => congrArg f (hk n hn)⟩

theorem EventuallyPeriodic.prod {y : Nat → β} (hx : EventuallyPeriodic x t) (hy : EventuallyPeriodic y t) :
    EventuallyPeriodic (fun n => (x n, y n)) t := by
  obtain ⟨k, hk⟩ := hx
  obtain ⟨l, hl⟩ := hy
  refine ⟨max k l, ?_⟩
  intro n hn
  exact Prod.ext (hk n (by omega)) (hl n (by omega))

theorem EventuallyPeriodic.mul (h : EventuallyPeriodic x t) (m : Nat) : EventuallyPeriodic x (m * t) := by
  obtain ⟨k, hk⟩ := h
  refine ⟨k, ?_⟩
  intro n hn
  induction m with
  | zero => rw [Nat.zero_mul, Nat.add_zero]
  | succ m ih => rw [Nat.succ_mul, ← Nat.add_assoc, hk _ (by omega), ih]

theorem eventuallyPeriodic_map_iff {f : α → β} (hf : Function.Injective f) :
    EventuallyPeriodic (fun n => f (x n)) t ↔ EventuallyPeriodic x t :=
  ⟨fun ⟨k, hk⟩ => ⟨k, fun n hn => hf (hk n hn)⟩, fun h => h.map f⟩

/-- The first member has no part in the periods. -/
theorem eventuallyPeriodic_succ_iff : EventuallyPeriodic (fun n => x (n + 1)) t ↔ EventuallyPeriodic x t := by
  constructor
  · rintro ⟨k, hk⟩
    refine ⟨k + 1, ?_⟩
    intro n hn
    obtain ⟨m, rfl⟩ := Nat.exists_eq_add_of_le' hn
    rw [show m + (k + 1) + t = m + k + t + 1 by omega]
    exact hk (m + k) (Nat.le_add_left k m)
  · rintro ⟨k, hk⟩
    refine ⟨k, ?_⟩
    intro n hn
    dsimp only
    rw [Nat.add_right_comm]
    exact hk (n + 1) (Nat.le_succ_of_le hn)

theorem eventuallyPeriodic_iterate {f : α → α} {a : α} :
    EventuallyPeriodic (fun n => f^[n] a) t ↔ ∃ k, f^[k + t] a = f^[k] a := by
  constructor
  · rintro ⟨k, hk⟩
    exact ⟨k, hk k (Nat.le_refl k)⟩
  · rintro ⟨k, hk⟩
    refine ⟨k, ?_⟩
    intro n hn
    obtain ⟨m, rfl⟩ := Nat.exists_eq_add_of_le' hn
    dsimp only
    rw [Nat.add_assoc, Function.iterate_add_apply, hk, Function.iterate_add_apply]

/-- The multiples of an odd number take all values modulo a power of two. -/
theorem exists_weyl {c : Nat} (hc : Odd c) (w s u k : Nat) : ∃ n, k ≤ n ∧ s + n * c ≡ u [MOD 2 ^ w] := by
  have hcoprime : Nat.Coprime c (2 ^ w) := (Nat.coprime_two_right.mpr hc).pow_right w
  obtain ⟨d, hd⟩ : ∃ d : Nat, (d : ZMod (2 ^ w)) = (u - s) * (c : ZMod (2 ^ w))⁻¹ :=
    ⟨_, ZMod.natCast_zmod_val _⟩
  refine ⟨d + k * 2 ^ w, ?_, ?_⟩
  · exact (Nat.le_mul_of_pos_right k (Nat.two_pow_pos w)).trans (Nat.le_add_left _ _)
  · rw [← ZMod.natCast_eq_natCast_iff]
    push_cast
    rw [hd, add_mul, mul_assoc, mul_comm _ (c : ZMod (2 ^ w)), ZMod.coe_mul_inv_eq_one c hcoprime]
    have hzero : (2 : ZMod (2 ^ w)) ^ w = 0 := by exact_mod_cast ZMod.natCast_self (2 ^ w)
    rw [hzero]
    ring

/-- A counter that grows by an odd number modulo a power of two has that power for its period, and so has what is
read off it, if it makes a difference for one value to add half the power. -/
theorem eventuallyPeriodic_weyl_iff {c w s u : Nat} (hc : Odd c) {g : Nat → β}
    (hu : g ((u + 2 ^ w) % 2 ^ (w + 1)) ≠ g (u % 2 ^ (w + 1))) :
    EventuallyPeriodic (fun n => g ((s + n * c) % 2 ^ (w + 1))) t ↔ 2 ^ (w + 1) ∣ t := by
  constructor
  · intro h
    by_contra hdvd
    have hne : t ≠ 0 := by
      rintro rfl
      exact hdvd (Nat.dvd_zero _)
    obtain ⟨j, v, hv, rfl⟩ := Nat.exists_eq_two_pow_mul_odd hne
    have hj : j ≤ w := by
      by_contra hgt
      exact hdvd ((pow_dvd_pow 2 (by omega)).mul_right v)
    -- a multiple of the period moves the counter by half the power
    obtain ⟨k, hk⟩ := h.mul (2 ^ (w - j))
    obtain ⟨n, hn, hstate⟩ := exists_weyl hc (w + 1) s u k
    have hperiod : 2 ^ (w - j) * (2 ^ j * v) = 2 ^ w * v := by
      rw [← Nat.mul_assoc, ← pow_add, Nat.sub_add_cancel hj]
    obtain ⟨m, hm⟩ := hv.mul hc
    have hhalf : s + (n + 2 ^ (w - j) * (2 ^ j * v)) * c ≡ u + 2 ^ w [MOD 2 ^ (w + 1)] := by
      calc s + (n + 2 ^ (w - j) * (2 ^ j * v)) * c = (s + n * c) + 2 ^ w * (v * c) := by
            rw [hperiod]
            ring
        _ = (s + n * c) + 2 ^ w + 2 ^ (w + 1) * m := by
            rw [hm]
            ring
        _ ≡ (s + n * c) + 2 ^ w [MOD 2 ^ (w + 1)] := by
            rw [Nat.ModEq, Nat.add_mul_mod_self_left]
        _ ≡ u + 2 ^ w [MOD 2 ^ (w + 1)] := hstate.add_right _
    have hsame := hk n hn
    dsimp only at hsame
    rw [hhalf, hstate] at hsame
    exact hu hsame
  · rintro ⟨m, rfl⟩
    refine ⟨0, ?_⟩
    intro n _
    have hstate : s + (n + 2 ^ (w + 1) * m) * c = s + n * c + 2 ^ (w + 1) * (m * c) := by ring
    dsimp only
    rw [hstate, Nat.add_mul_mod_self_left]

end Periodicity
