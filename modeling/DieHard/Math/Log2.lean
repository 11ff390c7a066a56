import Mathlib.Tactic
import Mathlib.Data.Nat.Log

/-!
# Logarithms and remainders

`log2` is the ceiling of the binary logarithm, `staticlog` its floor at compile time, and `modulo`
a remainder that masks when the divisor is a power of two.
-/

namespace DieHard

/-- `std::bit_width`. -/
def bitWidth (n : Nat) : Nat := if n = 0 then 0 else Nat.log2 n + 1

/-- `log2`: the smallest `k` with `sz ≤ 2 ^ k`. -/
def log2 (sz : Nat) : Nat := if sz ≤ 1 then 0 else bitWidth (sz - 1)

private def staticlogFuel : Nat → Nat → Nat
  | 0, _ => 0
  | fuel + 1, v =>
    if v = 1 then 0
    else if v = 2 then 1
    else if 1 < v then staticlogFuel fuel (v / 2) + 1
    else 0

/-- `staticlog`: the recursion halves `v`, so `v` bounds its depth. -/
def staticlog (v : Nat) : Nat := staticlogFuel v v

/-- `modulo<B>`. -/
def modulo (B v : Nat) : Nat := if B.isPowerOfTwo then v &&& (B - 1) else v % B

theorem isPowerOfTwo_4096 : (4096 : Nat).isPowerOfTwo := ⟨12, rfl⟩

theorem log2_le_iff {sz k : Nat} : log2 sz ≤ k ↔ sz ≤ 2 ^ k := by
  have hpos := Nat.two_pow_pos k
  by_cases hsz : sz ≤ 1
  · simp only [log2, if_pos hsz]
    omega
  · have hne : sz - 1 ≠ 0 := by omega
    simp only [log2, if_neg hsz, bitWidth, if_neg hne]
    rw [Nat.succ_le_iff, Nat.log2_lt hne]
    omega

theorem le_two_pow_log2 (sz : Nat) : sz ≤ 2 ^ log2 sz := log2_le_iff.mp (Nat.le_refl _)

@[simp] theorem log2_two_pow (k : Nat) : log2 (2 ^ k) = k := by
  refine Nat.le_antisymm (log2_le_iff.mpr (Nat.le_refl _)) ?_
  exact (Nat.pow_le_pow_iff_right (by decide)).mp (le_two_pow_log2 (2 ^ k))

private theorem staticlogFuel_eq {fuel v : Nat} (h : v ≤ fuel) : staticlogFuel fuel v = Nat.log2 v := by
  induction fuel generalizing v with
  | zero =>
    obtain rfl : v = 0 := by omega
    rfl
  | succ fuel ih =>
    rw [Nat.log2_def]
    by_cases h1 : v = 1
    · simp [staticlogFuel, h1]
    by_cases h2 : v = 2
    · simp [staticlogFuel, h2, Nat.log2_def]
    by_cases h3 : 1 < v
    · have h4 : 2 ≤ v := h3
      simp only [staticlogFuel, if_neg h1, if_neg h2, if_pos h3, if_pos h4]
      rw [ih (by omega)]
    · have h4 : ¬ 2 ≤ v := h3
      simp only [staticlogFuel, if_neg h1, if_neg h2, if_neg h3, if_neg h4]

theorem staticlog_eq (v : Nat) : staticlog v = Nat.log2 v := staticlogFuel_eq (Nat.le_refl v)

@[simp] theorem staticlog_two_pow (k : Nat) : staticlog (2 ^ k) = k := by
  rw [staticlog_eq, Nat.log2_two_pow]

theorem modulo_eq_mod (B v : Nat) : modulo B v = v % B := by
  by_cases h : B.isPowerOfTwo
  · rw [modulo, if_pos h]
    obtain ⟨k, rfl⟩ := h
    exact Nat.and_two_pow_sub_one_eq_mod v k
  · rw [modulo, if_neg h]

theorem modulo_lt {B : Nat} (hB : 0 < B) (v : Nat) : modulo B v < B := by
  rw [modulo_eq_mod]
  exact Nat.mod_lt v hB

theorem shiftRight_staticlog {B : Nat} (hB : B.isPowerOfTwo) (v : Nat) :
    v >>> staticlog B = v / B := by
  obtain ⟨k, rfl⟩ := hB
  rw [staticlog_two_pow, Nat.shiftRight_eq_div_pow]

end DieHard
