import DieHard.Lib.MultiplyWithCarry
import Mathlib.Tactic.NormNum.Prime
import Mathlib.Tactic.ReduceModChar

/-!
# Random number generators

`Marsaglia` draws the slots of exterminator's heap and is the `MWC` of `rng/mwc.h`. `MWC64` draws the pages of
`RandomMmap`, and `Wyrand` the slots of the other heaps.
-/

namespace DieHard

open Periodicity MultiplyWithCarry

/-- The fields are words of 32 bits. -/
structure Marsaglia where
  z : BitVec 32
  w : BitVec 32
  deriving DecidableEq, Repr

namespace Marsaglia

def znew (z : BitVec 32) : BitVec 32 := 36969#32 * (z &&& 65535#32) + (z >>> 16)

def wnew (w : BitVec 32) : BitVec 32 := 18000#32 * (w &&& 65535#32) + (w >>> 16)

def next (s : Marsaglia) : BitVec 32 × Marsaglia :=
  ((znew s.z <<< 16) + wnew s.w, ⟨znew s.z, wnew s.w⟩)

/-- What the calls of `next` return after the constructor. -/
def draw (seed1 seed2 : BitVec 32) (n : Nat) : BitVec 32 :=
  (next ((fun s => (next s).2)^[n] ⟨seed1, seed2⟩)).1

/-- The slot that `PartitionInfo` tries for a draw. -/
def objectIndex (mask : BitVec 32) (seed1 seed2 : BitVec 32) (n : Nat) : BitVec 32 := draw seed1 seed2 n &&& mask

theorem toNat_and_digit (x : BitVec 32) : (x &&& 65535#32).toNat = x.toNat % 65536 := by
  rw [BitVec.toNat_and]
  exact Nat.and_two_pow_sub_one_eq_mod x.toNat 16

theorem toNat_shiftRight_carry (x : BitVec 32) : (x >>> 16).toNat = x.toNat / 65536 := by
  rw [BitVec.toNat_ushiftRight, Nat.shiftRight_eq_div_pow]

theorem toNat_znew (z : BitVec 32) : (znew z).toNat = step 36969 65536 z.toNat := by
  have hdigit := Nat.mod_lt z.toNat (show 0 < 65536 by decide)
  have hcarry : z.toNat / 65536 < 65536 := Nat.div_lt_of_lt_mul z.isLt
  rw [znew, BitVec.toNat_add, BitVec.toNat_mul, toNat_and_digit, toNat_shiftRight_carry, step]
  change (36969 * (z.toNat % 65536) % 2 ^ 32 + z.toNat / 65536) % 2 ^ 32 = _
  rw [Nat.mod_eq_of_lt (show 36969 * (z.toNat % 65536) < 2 ^ 32 by omega), Nat.mod_eq_of_lt (by omega)]

theorem toNat_wnew (w : BitVec 32) : (wnew w).toNat = step 18000 65536 w.toNat := by
  have hdigit := Nat.mod_lt w.toNat (show 0 < 65536 by decide)
  have hcarry : w.toNat / 65536 < 65536 := Nat.div_lt_of_lt_mul w.isLt
  rw [wnew, BitVec.toNat_add, BitVec.toNat_mul, toNat_and_digit, toNat_shiftRight_carry, step]
  change (18000 * (w.toNat % 65536) % 2 ^ 32 + w.toNat / 65536) % 2 ^ 32 = _
  rw [Nat.mod_eq_of_lt (show 18000 * (w.toNat % 65536) < 2 ^ 32 by omega), Nat.mod_eq_of_lt (by omega)]

theorem toNat_iterate (s : Marsaglia) (n : Nat) :
    ((fun s => (next s).2)^[n] s).z.toNat = states 36969 65536 s.z.toNat n ∧
      ((fun s => (next s).2)^[n] s).w.toNat = states 18000 65536 s.w.toNat n := by
  induction n with
  | zero => exact ⟨rfl, rfl⟩
  | succ n ih =>
    rw [Function.iterate_succ_apply', states, states, Function.iterate_succ_apply', Function.iterate_succ_apply']
    simp only [next, toNat_znew, toNat_wnew]
    exact ⟨congrArg _ ih.1, congrArg _ ih.2⟩

theorem toNat_injective {w : Nat} : Function.Injective (BitVec.toNat : BitVec w → Nat) :=
  fun _ _ h => BitVec.eq_of_toNat_eq h

theorem toNat_draw (seed1 seed2 : BitVec 32) (n : Nat) : (draw seed1 seed2 n).toNat =
    combined 65536 (states 36969 65536 seed1.toNat) (states 18000 65536 seed2.toNat) (n + 1) := by
  obtain ⟨hz, hw⟩ := toNat_iterate ⟨seed1, seed2⟩ n
  rw [draw, next, combined, states, states, Function.iterate_succ_apply', Function.iterate_succ_apply']
  simp only [BitVec.toNat_add, BitVec.toNat_shiftLeft, Nat.shiftLeft_eq, toNat_znew, toNat_wnew, hz, hw]
  rw [Nat.mod_add_mod]
  rfl

theorem prime_1211400191 : Nat.Prime 1211400191 := by
  apply prime_of_factors 7 [2, 5, 7, 11, 13, 121019] rfl
  · norm_num
  · reduce_mod_char
  · norm_num
    reduce_mod_char
    decide

theorem prime_294911999 : Nat.Prime 294911999 := by
  apply prime_of_factors 7 [2, 1399, 105401] rfl
  · norm_num
  · reduce_mod_char
  · norm_num
    reduce_mod_char
    decide

theorem prime_589823999 : Nat.Prime 589823999 := by
  apply prime_of_factors 7 [2, 294911999] rfl
  · simp [prime_294911999, Nat.prime_two]
  · reduce_mod_char
  · norm_num
    reduce_mod_char
    decide

theorem prime_znew : (modulus 36969 65536).Prime := by
  apply prime_of_factors (p := 2422800383) 5 [2, 1211400191] rfl
  · simp [prime_1211400191, Nat.prime_two]
  · reduce_mod_char
  · norm_num
    reduce_mod_char
    decide

theorem prime_wnew : (modulus 18000 65536).Prime := by
  apply prime_of_factors (p := 1179647999) 31 [2, 589823999] rfl
  · simp [prime_589823999, Nat.prime_two]
  · reduce_mod_char
  · norm_num
    reduce_mod_char
    decide

theorem hasPeriod_znew : HasPeriod 36969 65536 1211400191 where
  pos := by decide
  lt := by decide
  modulus_prime := prime_znew
  period_prime := prime_1211400191
  pow_modEq_one_iff t :=
    square_pow_modEq_one_iff (r := 256) prime_znew prime_1211400191 rfl (by decide) (by decide)

theorem hasPeriod_wnew : HasPeriod 18000 65536 589823999 where
  pos := by decide
  lt := by decide
  modulus_prime := prime_wnew
  period_prime := prime_589823999
  pow_modEq_one_iff t :=
    square_pow_modEq_one_iff (r := 256) prime_wnew prime_589823999 rfl (by decide) (by decide)

/-- The draws have the product of both periods for their least period, if and only if no seed is a multiple of its
modulus. -/
theorem draw_period_iff (seed1 seed2 : BitVec 32) :
    (∀ t, EventuallyPeriodic (draw seed1 seed2) t ↔ 1211400191 * 589823999 ∣ t) ↔
      ¬ 2422800383 ∣ seed1.toNat ∧ ¬ 1179647999 ∣ seed2.toNat := by
  have hout (t : Nat) : EventuallyPeriodic (draw seed1 seed2) t ↔
      EventuallyPeriodic (combined 65536 (states 36969 65536 seed1.toNat) (states 18000 65536 seed2.toNat)) t := by
    rw [← eventuallyPeriodic_succ_iff (x := combined _ _ _), ← eventuallyPeriodic_map_iff toNat_injective]
    simp only [toNat_draw]
  simp only [hout]
  exact combined_period_iff hasPeriod_znew hasPeriod_wnew (by decide) seed1.isLt seed2.isLt

/-- In a partition of 65536 slots at most, the second seed alone determines the slots, and they repeat after the
shorter period. -/
theorem objectIndex_repeats {mask : BitVec 32} (hmask : mask.toNat < 65536) (seed2 : BitVec 32) :
    (∀ seed1 seed1' n, objectIndex mask seed1 seed2 n = objectIndex mask seed1' seed2 n) ∧
      ∀ seed1, EventuallyPeriodic (objectIndex mask seed1 seed2) 589823999 := by
  -- the mask leaves the low digit
  have hlow (seed1 : BitVec 32) (n : Nat) : (objectIndex mask seed1 seed2 n).toNat =
      (states 18000 65536 seed2.toNat (n + 1) % 65536) &&& mask.toNat := by
    have hand : ((draw seed1 seed2 n).toNat &&& mask.toNat) % 2 ^ 16 =
        (draw seed1 seed2 n).toNat % 2 ^ 16 &&& mask.toNat % 2 ^ 16 := Nat.and_mod_two_pow
    rw [Nat.mod_eq_of_lt (show mask.toNat < 2 ^ 16 from hmask),
      Nat.mod_eq_of_lt (Nat.and_lt_two_pow _ hmask)] at hand
    rw [objectIndex, BitVec.toNat_and, hand, toNat_draw, ← combined_mod 65536 (states 36969 65536 seed1.toNat)]
    rfl
  constructor
  · intro seed1 seed1' n
    apply BitVec.eq_of_toNat_eq
    rw [hlow, hlow]
  · intro seed1
    rw [← eventuallyPeriodic_map_iff toNat_injective]
    simp only [hlow]
    have hstates := hasPeriod_wnew.eventuallyPeriodic seed2.isLt (Nat.dvd_refl 589823999)
    exact (eventuallyPeriodic_succ_iff.mpr hstates).map fun w => (w % 65536) &&& mask.toNat

theorem objectIndex_repeats_thousand :
    (∀ seed1 seed1' n, objectIndex 1023 seed1 7 n = objectIndex 1023 seed1' 7 n) ∧
      ∀ seed1, EventuallyPeriodic (objectIndex 1023 seed1 7) 589823999 :=
  objectIndex_repeats (by decide) 7

end Marsaglia

structure Wyrand where
  state : BitVec 64
  deriving DecidableEq, Repr

namespace Wyrand

def new (seed1 seed2 : BitVec 64) : Wyrand :=
  let state := seed1 ^^^ seed2
  ⟨if state = 0 then 0x853c49e6748fea9b#64 else state⟩

def fold (state : BitVec 64) : BitVec 64 :=
  let tmp : BitVec 128 := state.setWidth 128 * (state ^^^ 0xe7037ed1a0b428db#64).setWidth 128
  ((tmp >>> 64) ^^^ tmp).setWidth 64

def next (s : Wyrand) : BitVec 64 × Wyrand :=
  let state := s.state + 0xa0761d6478bd642f#64
  (fold state, ⟨state⟩)

/-- What the calls of `RandomNumberGenerator::next` return, which keeps the low half. -/
def draw (seed1 seed2 : BitVec 32) (n : Nat) : BitVec 32 :=
  (next ((fun s => (next s).2)^[n] (new (seed1.setWidth 64) (seed2.setWidth 64)))).1.setWidth 32

theorem toNat_state (s : Wyrand) (n : Nat) :
    ((fun s => (next s).2)^[n] s).state.toNat = (s.state.toNat + n * 0xa0761d6478bd642f) % 2 ^ 64 := by
  induction n with
  | zero =>
    rw [Nat.zero_mul, Nat.add_zero, Nat.mod_eq_of_lt s.state.isLt]
    rfl
  | succ n ih =>
    rw [Function.iterate_succ_apply', next, BitVec.toNat_add, ih, Nat.mod_add_mod, Nat.succ_mul, Nat.add_assoc]
    rfl

/-- What a draw keeps of the word that the counter has after `n` steps. -/
def drawn (s : Wyrand) (n : Nat) : BitVec 32 :=
  (fold (BitVec.ofNat 64 ((s.state.toNat + n * 0xa0761d6478bd642f) % 2 ^ 64))).setWidth 32

theorem draw_eq (seed1 seed2 : BitVec 32) (n : Nat) :
    draw seed1 seed2 n = drawn (new (seed1.setWidth 64) (seed2.setWidth 64)) (n + 1) := by
  rw [draw, drawn, ← toNat_state, Function.iterate_succ_apply', BitVec.ofNat_toNat, BitVec.setWidth_eq]
  rfl

/-- From all seeds the draws have the least period 2⁶⁴. -/
theorem draw_period (seed1 seed2 : BitVec 32) (t : Nat) : EventuallyPeriodic (draw seed1 seed2) t ↔ 2 ^ 64 ∣ t := by
  have hdraw : draw seed1 seed2 = fun n => drawn (new (seed1.setWidth 64) (seed2.setWidth 64)) (n + 1) :=
    funext fun n => draw_eq seed1 seed2 n
  have hodd : Odd 0xa0761d6478bd642f := by decide
  -- the draw tells the counter zero from 2⁶³
  have hdiffer : (fold (BitVec.ofNat 64 ((0 + 2 ^ 63) % 2 ^ 64))).setWidth 32 ≠
      (fold (BitVec.ofNat 64 (0 % 2 ^ 64))).setWidth 32 := by decide +kernel
  rw [hdraw, eventuallyPeriodic_succ_iff]
  exact eventuallyPeriodic_weyl_iff (w := 63) (u := 0)
    (g := fun n => (fold (BitVec.ofNat 64 n)).setWidth 32) hodd hdiffer

end Wyrand

/-- The fields but `_t`, which every call sets first. -/
structure MWC64 where
  x : BitVec 64
  c : BitVec 64
  deriving DecidableEq, Repr

namespace MWC64

def init (seed1 seed2 : BitVec 64) : MWC64 := ⟨(seed1 <<< 32) + seed2, 123456123456123456#64⟩

def next (s : MWC64) : BitVec 64 × MWC64 :=
  let t := (s.x <<< 58) + s.c
  let x := s.x + t
  let c := (s.x >>> 6) + if x < t then 1 else 0
  (x, ⟨x, c⟩)

def after (seed1 seed2 : BitVec 64) (n : Nat) : MWC64 := (fun s => (next s).2)^[n] (init seed1 seed2)

def value (s : MWC64) : Nat := s.x.toNat + 2 ^ 64 * s.c.toNat

def Loses (s : MWC64) : Prop := s.x.toNat % 64 = 63 ∧ s.c.toNat = 2 ^ 58

instance (s : MWC64) : Decidable s.Loses := inferInstanceAs (Decidable (_ ∧ _))

theorem toNat_shiftLeft_digit (x : BitVec 64) : (x <<< 58).toNat = x.toNat % 64 * 2 ^ 58 := by
  rw [BitVec.toNat_shiftLeft, Nat.shiftLeft_eq]
  omega

/-- One call makes one step of multiply with carry, up to the carry that it loses. -/
theorem value_next {s : MWC64} (hc : s.c.toNat ≤ 2 ^ 58) :
    (next s).2.c.toNat ≤ 2 ^ 58 ∧
      (next s).2.value + (if s.Loses then 2 ^ 64 else 0) = step (2 ^ 58 + 1) (2 ^ 64) s.value := by
  obtain ⟨x, c⟩ := s
  obtain ⟨t, ht⟩ : ∃ t, (x <<< 58) + c = t := ⟨_, rfl⟩
  obtain ⟨x', hx'⟩ : ∃ x', x + t = x' := ⟨_, rfl⟩
  have ht' : t.toNat = (x.toNat % 64 * 2 ^ 58 + c.toNat) % 2 ^ 64 := by
    rw [← ht, BitVec.toNat_add, toNat_shiftLeft_digit]
  have hx : x'.toNat = (x.toNat + t.toNat) % 2 ^ 64 := by rw [← hx', BitVec.toNat_add]
  have hshift : (x >>> 6).toNat = x.toNat / 64 := by
    rw [BitVec.toNat_ushiftRight, Nat.shiftRight_eq_div_pow]
  have hlt := x.isLt
  have hvalue : step (2 ^ 58 + 1) (2 ^ 64) (value ⟨x, c⟩) = (2 ^ 58 + 1) * x.toNat + c.toNat := by
    rw [step, value]
    dsimp only
    rw [Nat.add_mul_mod_self_left, Nat.mod_eq_of_lt hlt, Nat.add_mul_div_left _ _ (Nat.two_pow_pos 64),
      Nat.div_eq_of_lt hlt, Nat.zero_add]
  have hnext : (next ⟨x, c⟩).2 = ⟨x', (x >>> 6) + if x' < t then 1 else 0⟩ := by
    simp only [next, ht, hx']
  have hcarry : ((x >>> 6) + if x' < t then 1 else 0 : BitVec 64).toNat =
      x.toNat / 64 + if x'.toNat < t.toNat then 1 else 0 := by
    rw [BitVec.toNat_add, hshift]
    by_cases hless : x' < t
    · rw [if_pos hless, if_pos (BitVec.lt_def.mp hless)]
      change (x.toNat / 64 + 1) % 2 ^ 64 = _
      omega
    · rw [if_neg hless, if_neg (fun h => hless (BitVec.lt_def.mpr h))]
      change (x.toNat / 64 + 0) % 2 ^ 64 = _
      omega
  dsimp only at hc
  rw [hnext, hvalue, value]
  dsimp only
  rw [hcarry]
  constructor
  · split <;> omega
  · by_cases hloses : (⟨x, c⟩ : MWC64).Loses
    · rw [if_pos hloses]
      obtain ⟨hdigit, hlargest⟩ : x.toNat % 64 = 63 ∧ c.toNat = 2 ^ 58 := hloses
      split <;> omega
    · have hsum : x.toNat % 64 * 2 ^ 58 + c.toNat < 2 ^ 64 := by
        by_contra hge
        exact hloses ⟨by dsimp only; omega, by dsimp only; omega⟩
      rw [if_neg hloses]
      split <;> omega

theorem after_succ (seed1 seed2 : BitVec 64) (n : Nat) :
    after seed1 seed2 (n + 1) = (next (after seed1 seed2 n)).2 := Function.iterate_succ_apply' ..

theorem carry_le (seed1 seed2 : BitVec 64) (n : Nat) : (after seed1 seed2 n).c.toNat ≤ 2 ^ 58 := by
  induction n with
  | zero =>
    change 123456123456123456 ≤ 2 ^ 58
    decide
  | succ n ih =>
    rw [after_succ]
    exact (value_next ih).1

/-- The calls follow multiply with carry, with the multiplier 2⁵⁸ + 1, as long as no sum overflows, and no longer. -/
theorem value_after_iff (seed1 seed2 : BitVec 64) (n : Nat) :
    (∀ m ≤ n, (after seed1 seed2 m).value = states (2 ^ 58 + 1) (2 ^ 64) (init seed1 seed2).value m) ↔
      ∀ m < n, ¬ (after seed1 seed2 m).Loses := by
  have hstep (m : Nat) := (value_next (carry_le seed1 seed2 m)).2
  constructor
  · intro h m hm hloses
    have hnext := hstep m
    rw [if_pos hloses, ← after_succ, h (m + 1) hm, h m hm.le, states, Function.iterate_succ_apply'] at hnext
    exact absurd hnext (by rw [states]; omega)
  · intro h m hm
    induction m with
    | zero => rfl
    | succ m ih =>
      have hnext := hstep m
      rw [if_neg (h m hm), Nat.add_zero, ih (Nat.le_of_succ_le hm)] at hnext
      rw [after_succ, hnext, states, states, Function.iterate_succ_apply']

/-- Two seeds of 32 ones lose a carry at the second call. -/
example : (after 0xffffffff 0xffffffff 1).Loses := by decide

end MWC64

end DieHard
