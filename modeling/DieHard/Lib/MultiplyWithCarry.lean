import DieHard.Lib.Periodicity
import Mathlib.Data.List.Prime
import Mathlib.FieldTheory.Finite.Basic
import Mathlib.GroupTheory.OrderOfElement
import Mathlib.NumberTheory.LucasPrimality

/-!
# Multiply with carry

The state of a multiply-with-carry generator is a digit in base `b` and a carry. Its step divides by `b` modulo
`a * b - 1`, and its digits determine its state. If the modulus is a prime `2 * q + 1` with `q` prime, and the base
a square, then the orbit of every state that is not zero modulo it has the period `q`.
-/

namespace MultiplyWithCarry

open Periodicity

def step (a b z : Nat) : Nat := a * (z % b) + z / b

def modulus (a b : Nat) : Nat := a * b - 1

variable {a b z t n : Nat}

theorem mul_step (h : 0 < a * b) (z : Nat) : b * step a b z = z + modulus a b * (z % b) := by
  obtain ⟨m, hm⟩ : ∃ m, a * b = m + 1 := Nat.exists_eq_add_one_of_ne_zero (Nat.ne_of_gt h)
  have hz := Nat.div_add_mod z b
  rw [step, modulus, hm, Nat.add_sub_cancel]
  calc b * (a * (z % b) + z / b) = (a * b) * (z % b) + b * (z / b) := by ring
    _ = m * (z % b) + (b * (z / b) + z % b) := by rw [hm]; ring
    _ = z + m * (z % b) := by rw [hz, Nat.add_comm]

section Bounds

variable (ha : 0 < a) (hb : 0 < b)
include ha hb

theorem step_le (hz : z ≤ modulus a b) : step a b z ≤ modulus a b := by
  have hdigit := Nat.mod_lt z hb
  apply Nat.le_of_mul_le_mul_left _ hb
  rw [mul_step (Nat.mul_pos ha hb)]
  calc z + modulus a b * (z % b) ≤ modulus a b + modulus a b * (z % b) := Nat.add_le_add_right hz _
    _ = modulus a b * (z % b + 1) := by ring
    _ ≤ modulus a b * b := Nat.mul_le_mul_left _ hdigit
    _ = b * modulus a b := Nat.mul_comm _ _

theorem iterate_le (hz : z ≤ modulus a b) (n : Nat) : (step a b)^[n] z ≤ modulus a b := by
  induction n with
  | zero => exact hz
  | succ n ih =>
    rw [Function.iterate_succ_apply']
    exact step_le ha hb ih

/-- A state that exceeds the modulus by less than the base, and is not all digits, steps below it. -/
theorem step_le_of_le (hab : a < b) (hz : z ≤ modulus a b + (b - a)) : step a b z ≤ modulus a b := by
  have hmul : 1 * b ≤ a * b := Nat.mul_le_mul_right b ha
  have hmod : modulus a b = a * b - 1 := rfl
  have hdigit := Nat.mod_lt z hb
  rcases Nat.lt_or_ge (z % b + 1) b with hlt | hge
  · apply Nat.le_of_mul_le_mul_left _ hb
    rw [mul_step (Nat.mul_pos ha hb)]
    calc z + modulus a b * (z % b) ≤ 2 * modulus a b + modulus a b * (z % b) := Nat.add_le_add_right (by omega) _
      _ = modulus a b * (z % b + 2) := by ring
      _ ≤ modulus a b * b := Nat.mul_le_mul_left _ hlt
      _ = b * modulus a b := Nat.mul_comm _ _
  · -- the digit is the greatest one, so the carry is below `a`
    apply step_le ha hb
    have hz' := Nat.div_add_mod z b
    have hcarry : b * (z / b) < b * a := by
      rw [Nat.mul_comm b a]
      omega
    have hcarry' : b * (z / b + 1) ≤ b * a := Nat.mul_le_mul_left _ (Nat.lt_of_mul_lt_mul_left hcarry)
    rw [Nat.mul_add, Nat.mul_comm b a] at hcarry'
    omega

theorem step_step_le (hab : a < b) (hz : z < b * b) : step a b (step a b z) ≤ modulus a b := by
  apply step_le_of_le ha hb hab
  have hmul : 1 * b ≤ a * b := Nat.mul_le_mul_right b ha
  have hdigit : z % b ≤ b - 1 := Nat.le_sub_one_of_lt (Nat.mod_lt z hb)
  have hcarry : z / b ≤ b - 1 := Nat.le_sub_one_of_lt (Nat.div_lt_of_lt_mul hz)
  calc step a b z ≤ a * (b - 1) + (b - 1) := Nat.add_le_add (Nat.mul_le_mul_left _ hdigit) hcarry
    _ = modulus a b + (b - a) := by
      rw [Nat.mul_sub, Nat.mul_one, modulus]
      have hle : a * 1 ≤ a * b := Nat.mul_le_mul_left a hb
      omega

end Bounds

section Orbit

variable (h : 0 < a * b)
include h

theorem mul_step_modEq (z : Nat) : b * step a b z ≡ z [MOD modulus a b] := by
  rw [mul_step h, Nat.ModEq, Nat.add_mul_mod_self_left]

theorem pow_mul_iterate_modEq (z n : Nat) : b ^ n * (step a b)^[n] z ≡ z [MOD modulus a b] := by
  induction n generalizing z with
  | zero => simp only [pow_zero, one_mul, Function.iterate_zero, id_eq]; rfl
  | succ n ih =>
    rw [Function.iterate_succ_apply]
    calc b ^ (n + 1) * (step a b)^[n] (step a b z) = b * (b ^ n * (step a b)^[n] (step a b z)) := by ring
      _ ≡ b * step a b z [MOD modulus a b] := (ih _).mul_left b
      _ ≡ z [MOD modulus a b] := mul_step_modEq h z

/-- Two states with the same digits forever are the same. -/
theorem eq_of_digits (hb : 1 < b) {z z' : Nat} (hd : ∀ n, (step a b)^[n] z % b = (step a b)^[n] z' % b) :
    z = z' := by
  have hdiff (n : Nat) : ((z : Int) - z') = (b : Int) ^ n * ((step a b)^[n] z - (step a b)^[n] z') := by
    induction n with
    | zero => simp
    | succ n ih =>
      have h₁ := mul_step h ((step a b)^[n] z)
      have h₂ := mul_step h ((step a b)^[n] z')
      rw [hd n] at h₁
      zify at h₁ h₂
      rw [ih, Function.iterate_succ_apply', Function.iterate_succ_apply', pow_succ]
      linear_combination ((b : Int) ^ n) * (h₂ - h₁)
  -- a power of the base that exceeds the difference divides it
  obtain ⟨n, hn⟩ : ∃ n, ((z : Int) - z').natAbs < b ^ n := ⟨_, Nat.lt_pow_self hb⟩
  have hdvd : b ^ n ∣ ((z : Int) - z').natAbs := by
    rw [← Int.natCast_dvd, Nat.cast_pow]
    exact Dvd.intro _ (hdiff n).symm
  have hzero := Nat.eq_zero_of_dvd_of_lt hdvd hn
  omega

theorem coprime_modulus : Nat.Coprime b (modulus a b) := by
  have hle : 1 ≤ a * b := h
  rw [modulus, Nat.coprime_comm, Nat.coprime_iff_gcd_eq_one, ← Nat.dvd_one]
  have hsub := Nat.dvd_sub ((Nat.gcd_dvd_right (a * b - 1) b).mul_left a) (Nat.gcd_dvd_left (a * b - 1) b)
  rwa [Nat.sub_sub_self hle] at hsub

theorem dvd_iterate_iff (z n : Nat) : modulus a b ∣ (step a b)^[n] z ↔ modulus a b ∣ z := by
  rw [← (pow_mul_iterate_modEq h z n).dvd_iff (Nat.dvd_refl _)]
  exact ((coprime_modulus h).symm.pow_right n).dvd_mul_left.symm

end Orbit

section Periods

variable (ha : 0 < a) (hab : a < b)
include ha hab

theorem step_modulus : step a b (modulus a b) = modulus a b := by
  have hb : 0 < b := Nat.zero_lt_of_lt hab
  have hdigits : modulus a b = b * (a - 1) + (b - 1) := by
    have hmul : b * 1 ≤ b * a := Nat.mul_le_mul_left b ha
    rw [modulus, Nat.mul_sub, Nat.mul_comm a b]
    omega
  have hdigit : modulus a b % b = b - 1 := by
    rw [hdigits, Nat.mul_add_mod, Nat.mod_eq_of_lt (Nat.sub_lt hb Nat.one_pos)]
  apply Nat.eq_of_mul_eq_mul_left hb
  calc b * step a b (modulus a b) = modulus a b * (1 + modulus a b % b) := by
        rw [mul_step (Nat.mul_pos ha hb)]
        ring
    _ = b * modulus a b := by rw [hdigit, Nat.add_sub_cancel' hb, Nat.mul_comm]

/-- A multiple of the modulus is stuck after two steps. -/
theorem eventuallyPeriodic_of_dvd (hz : z < b * b) (hdvd : modulus a b ∣ z) (t : Nat) :
    EventuallyPeriodic (fun n => (step a b)^[n] z) t := by
  have hb : 0 < b := Nat.zero_lt_of_lt hab
  have hpos : 0 < a * b := Nat.mul_pos ha hb
  have hle : (step a b)^[2] z ≤ modulus a b := step_step_le ha hb hab hz
  have hfixed : step a b ((step a b)^[2] z) = (step a b)^[2] z := by
    rcases Nat.eq_zero_or_pos ((step a b)^[2] z) with hzero | hne
    · rw [hzero]
      simp [step]
    · rw [Nat.le_antisymm hle (Nat.le_of_dvd hne ((dvd_iterate_iff hpos z 2).mpr hdvd)), step_modulus ha hab]
  rw [eventuallyPeriodic_iterate]
  refine ⟨2, ?_⟩
  rw [Nat.add_comm, Function.iterate_add_apply, Function.iterate_fixed hfixed]

/-- The periods of a state that is prime to the modulus are the exponents with which the base gives one. -/
theorem eventuallyPeriodic_iff (hz : z < b * b) (hcoprime : Nat.Coprime z (modulus a b)) (hone : modulus a b ≠ 1) :
    EventuallyPeriodic (fun n => (step a b)^[n] z) t ↔ b ^ t ≡ 1 [MOD modulus a b] := by
  have hb : 0 < b := Nat.zero_lt_of_lt hab
  have hpos : 0 < a * b := Nat.mul_pos ha hb
  rw [eventuallyPeriodic_iterate]
  constructor
  · rintro ⟨k, hk⟩
    apply Nat.ModEq.cancel_right_of_coprime (Nat.coprime_comm.mp hcoprime)
    calc b ^ t * z ≡ b ^ t * (b ^ k * (step a b)^[k] z) [MOD modulus a b] :=
          (pow_mul_iterate_modEq hpos z k).symm.mul_left _
      _ = b ^ (k + t) * (step a b)^[k + t] z := by
          rw [hk, pow_add]
          ring
      _ ≡ z [MOD modulus a b] := pow_mul_iterate_modEq hpos z (k + t)
      _ = 1 * z := (Nat.one_mul z).symm
  · intro hpow
    refine ⟨2, ?_⟩
    have hle : (step a b)^[2] z ≤ modulus a b := step_step_le ha hb hab hz
    -- neither point is a multiple of the modulus, so both are below it
    have hlt {n : Nat} (hn : (step a b)^[n] z ≤ modulus a b) : (step a b)^[n] z < modulus a b := by
      apply Nat.lt_of_le_of_ne hn
      intro heq
      have hdvd := (dvd_iterate_iff hpos z n).mp (Dvd.intro_left 1 (by rw [Nat.one_mul, heq]))
      exact hone (Nat.eq_one_of_dvd_coprimes hcoprime hdvd (Nat.dvd_refl _))
    have hback : (step a b)^[2 + t] z = (step a b)^[t] ((step a b)^[2] z) := by
      rw [Nat.add_comm, Function.iterate_add_apply]
    have hle' : (step a b)^[2 + t] z ≤ modulus a b := by
      rw [hback]
      exact iterate_le ha hb hle t
    refine Nat.ModEq.eq_of_lt_of_lt ?_ (hlt hle') (hlt hle)
    rw [hback]
    calc (step a b)^[t] ((step a b)^[2] z) = 1 * (step a b)^[t] ((step a b)^[2] z) := (Nat.one_mul _).symm
      _ ≡ b ^ t * (step a b)^[t] ((step a b)^[2] z) [MOD modulus a b] := hpow.symm.mul_right _
      _ ≡ (step a b)^[2] z [MOD modulus a b] := pow_mul_iterate_modEq hpos _ t

end Periods

theorem prime_of_factors {p : Nat} (x : ZMod p) (factors : List Nat) (hprod : factors.prod = p - 1)
    (hprime : ∀ q ∈ factors, q.Prime) (hone : x ^ (p - 1) = 1) (hne : ∀ q ∈ factors, x ^ ((p - 1) / q) ≠ 1) :
    p.Prime := by
  apply lucas_primality p x hone
  intro q hq hdvd
  rw [← hprod] at hdvd
  exact hne q (mem_list_primes_of_dvd_prod hq.prime (fun r hr => (hprime r hr).prime) hdvd)

/-- Modulo a prime `2 * q + 1`, with `q` prime too, a square has the order `q`. -/
theorem square_pow_modEq_one_iff {p q r : Nat} (hp : p.Prime) (hq : q.Prime) (hsafe : p = 2 * q + 1)
    (hr : ¬ p ∣ r) (hone : ¬ r * r ≡ 1 [MOD p]) : (r * r) ^ t ≡ 1 [MOD p] ↔ q ∣ t := by
  have : Fact p.Prime := ⟨hp⟩
  have : Fact q.Prime := ⟨hq⟩
  have hcast (n : Nat) : (r * r) ^ n ≡ 1 [MOD p] ↔ ((r * r : Nat) : ZMod p) ^ n = 1 := by
    rw [← ZMod.natCast_eq_natCast_iff]
    push_cast
    rfl
  have horder : orderOf ((r * r : Nat) : ZMod p) = q := by
    apply orderOf_eq_prime
    · have hr' : (r : ZMod p) ≠ 0 := fun hzero => hr ((ZMod.natCast_eq_zero_iff r p).mp hzero)
      have hexponent : p - 1 = 2 * q := by omega
      calc ((r * r : Nat) : ZMod p) ^ q = (r : ZMod p) ^ (p - 1) := by
            rw [hexponent, pow_mul]
            push_cast
            ring
        _ = 1 := ZMod.pow_card_sub_one_eq_one hr'
    · intro h
      exact hone (by simpa using (hcast 1).mpr (by rwa [pow_one]))
  rw [hcast, ← horder, orderOf_dvd_iff_pow_eq_one]

/-- The states of a generator with the multiplier `a`. -/
def states (a b z n : Nat) : Nat := (step a b)^[n] z

/-- A multiplier whose generator has the prime `q` for its period. -/
structure HasPeriod (a b q : Nat) : Prop where
  pos : 0 < a
  lt : a < b
  modulus_prime : (modulus a b).Prime
  period_prime : q.Prime
  pow_modEq_one_iff : ∀ t, b ^ t ≡ 1 [MOD modulus a b] ↔ q ∣ t

section HasPeriod

variable {q : Nat} (h : HasPeriod a b q)
include h

theorem HasPeriod.mul_pos : 0 < a * b := Nat.mul_pos h.pos (Nat.zero_lt_of_lt h.lt)

theorem HasPeriod.eventuallyPeriodic_iff (hz : z < b * b) (hdvd : ¬ modulus a b ∣ z) :
    EventuallyPeriodic (states a b z) t ↔ q ∣ t := by
  have hcoprime : Nat.Coprime z (modulus a b) := (h.modulus_prime.coprime_iff_not_dvd.mpr hdvd).symm
  rw [← h.pow_modEq_one_iff]
  exact MultiplyWithCarry.eventuallyPeriodic_iff h.pos h.lt hz hcoprime h.modulus_prime.ne_one

theorem HasPeriod.eventuallyPeriodic (hz : z < b * b) (ht : q ∣ t) : EventuallyPeriodic (states a b z) t := by
  by_cases hdvd : modulus a b ∣ z
  · exact eventuallyPeriodic_of_dvd h.pos h.lt hz hdvd t
  · exact (h.eventuallyPeriodic_iff hz hdvd).mpr ht

theorem HasPeriod.of_digits (hd : EventuallyPeriodic (fun n => states a b z n % b) t) :
    EventuallyPeriodic (states a b z) t := by
  obtain ⟨k, hk⟩ := hd
  refine eventuallyPeriodic_iterate.mpr ⟨k, ?_⟩
  apply eq_of_digits h.mul_pos ((Nat.succ_le_of_lt h.pos).trans_lt h.lt)
  intro n
  have hdigit : (step a b)^[n + k + t] z % b = (step a b)^[n + k] z % b := hk (n + k) (Nat.le_add_left k n)
  rwa [Nat.add_assoc, Function.iterate_add_apply _ n (k + t), Function.iterate_add_apply _ n k] at hdigit

end HasPeriod

def combined (b : Nat) (x y : Nat → Nat) (n : Nat) : Nat := (x n * b + y n) % (b * b)

theorem combined_mod (b : Nat) (x y : Nat → Nat) (n : Nat) : combined b x y n % b = y n % b := by
  rw [combined, Nat.mod_mul_left_mod, Nat.mul_add_mod_self_right]

section Combined

variable {a' q q' z' : Nat} (h : HasPeriod a b q) (h' : HasPeriod a' b q')
include h h'

/-- The output of two generators has the periods that both have. -/
theorem eventuallyPeriodic_combined : EventuallyPeriodic (combined b (states a b z) (states a' b z')) t ↔
    EventuallyPeriodic (states a b z) t ∧ EventuallyPeriodic (states a' b z') t := by
  constructor
  · intro hout
    have hy : EventuallyPeriodic (states a' b z') t := by
      apply h'.of_digits
      simpa only [combined_mod] using hout.map (· % b)
    refine ⟨h.of_digits ?_, hy⟩
    obtain ⟨k, hk⟩ := hout
    obtain ⟨l, hl⟩ := hy
    refine ⟨max k l, ?_⟩
    intro n hn
    have hsame : states a b z (n + t) * b + states a' b z' n ≡ states a b z n * b + states a' b z' n [MOD b * b] := by
      have hout := hk n (by omega)
      rwa [combined, combined, hl n (by omega)] at hout
    exact (hsame.add_right_cancel' _).mul_right_cancel' (Nat.ne_of_gt (Nat.zero_lt_of_lt h.lt))
  · rintro ⟨hx, hy⟩
    exact (hx.prod hy).map fun s => (s.1 * b + s.2) % (b * b)

/-- Two generators with different periods have together the product of them for their least period, if and only if
neither starts with a multiple of its modulus. -/
theorem combined_period_iff (hne : q ≠ q') (hz : z < b * b) (hz' : z' < b * b) :
    (∀ t, EventuallyPeriodic (combined b (states a b z) (states a' b z')) t ↔ q * q' ∣ t) ↔
      ¬ modulus a b ∣ z ∧ ¬ modulus a' b ∣ z' := by
  constructor
  · intro hperiod
    constructor
    · intro hdvd
      -- then the other generator alone makes the period
      have hshort : q * q' ∣ q' := (hperiod q').mp ((eventuallyPeriodic_combined h h').mpr
        ⟨eventuallyPeriodic_of_dvd h.pos h.lt hz hdvd q', h'.eventuallyPeriodic hz' (Nat.dvd_refl _)⟩)
      exact Nat.not_dvd_of_pos_of_lt h'.period_prime.pos
        (lt_mul_of_one_lt_left h'.period_prime.pos h.period_prime.one_lt) hshort
    · intro hdvd
      have hshort : q * q' ∣ q := (hperiod q).mp ((eventuallyPeriodic_combined h h').mpr
        ⟨h.eventuallyPeriodic hz (Nat.dvd_refl _), eventuallyPeriodic_of_dvd h'.pos h'.lt hz' hdvd q⟩)
      exact Nat.not_dvd_of_pos_of_lt h.period_prime.pos
        (lt_mul_of_one_lt_right h.period_prime.pos h'.period_prime.one_lt) hshort
  · rintro ⟨hdvd, hdvd'⟩ t
    have hcoprime : Nat.Coprime q q' := (Nat.coprime_primes h.period_prime h'.period_prime).mpr hne
    rw [eventuallyPeriodic_combined h h', h.eventuallyPeriodic_iff hz hdvd, h'.eventuallyPeriodic_iff hz' hdvd']
    constructor
    · rintro ⟨hq, hq'⟩
      exact hcoprime.mul_dvd_of_dvd_of_dvd hq hq'
    · intro hq
      exact ⟨(Nat.dvd_mul_right _ _).trans hq, (Nat.dvd_mul_left _ _).trans hq⟩

end Combined

end MultiplyWithCarry
