import DieHard.Math.Log2
import Mathlib.Data.Nat.Log

/-!
# The implementations of `log2`

The preprocessor selects one of several implementations of `log2`. Those that rest on an instruction of
the machine round up for every size up to `2 ^ 63`, where the shift of the last one wraps around. The
loop doubles an `unsigned int` and never ends beyond `2 ^ 31`.
-/

namespace DieHard

/-- `_BitScanReverse64` and `bsrq`: the position of the highest bit, undefined for zero. -/
def bitScanReverse (x : BitVec 64) : Option Nat := if x = 0 then none else some (Nat.log2 x.toNat)

/-- `__builtin_clzl`, undefined for zero. -/
def builtinClzl (x : BitVec 64) : Option Nat := if x = 0 then none else some x.clz.toNat

/-- The loop for all other compilers; `value` is an `unsigned int`. -/
def log2Loop (v : BitVec 64) : Nat → BitVec 32 → Nat → Option Nat
  | 0, _, _ => none
  | fuel + 1, value, log =>
    if value.setWidth 64 < v then log2Loop v fuel (value <<< 1) (log + 1) else some log

/-- The implementations for a `size_t` of 64 bits. -/
inductive Log2Variant
  | bitWidth
  | bitScanReverse
  | clzl
  | loop
  deriving DecidableEq

namespace Log2Variant

/-- What an implementation has returned after `fuel` turns of its loop. -/
def run (sz : BitVec 64) (fuel : Nat) : Log2Variant → Option Nat
  | .bitWidth => some (log2 sz.toNat)
  | .bitScanReverse => DieHard.bitScanReverse ((sz <<< 1) - 1)
  | .clzl => (builtinClzl ((sz <<< 1) - 1)).map fun zeros => 64 - zeros - 1
  | .loop => log2Loop sz fuel 1 0

def Returns (variant : Log2Variant) (sz : BitVec 64) (log : Nat) : Prop :=
  ∃ fuel, variant.run sz fuel = some log

end Log2Variant

theorem log2_eq_clog (n : Nat) : log2 n = Nat.clog 2 n :=
  eq_of_forall_ge_iff fun k => by rw [log2_le_iff, Nat.clog_le_iff_le_pow (by decide)]

theorem log2_two_mul_sub_one {n : Nat} (hn : 1 ≤ n) : Nat.log2 (2 * n - 1) = Nat.clog 2 n := by
  apply eq_of_forall_ge_iff
  intro k
  have hne : 2 * n - 1 ≠ 0 := by omega
  rw [← Nat.lt_succ_iff, Nat.log2_lt hne, Nat.clog_le_iff_le_pow (by decide), Nat.pow_succ]
  omega

theorem toNat_shiftLeft_sub_one {sz : BitVec 64} (hpos : 1 ≤ sz.toNat) (hle : sz.toNat ≤ 2 ^ 63) :
    ((sz <<< 1) - 1).toNat = 2 * sz.toNat - 1 := by
  have hone : (1 : BitVec 64).toNat = 1 := rfl
  rw [BitVec.toNat_sub, BitVec.toNat_shiftLeft, Nat.shiftLeft_eq, hone]
  omega

theorem log2_eq_sub_clz {x : BitVec 64} (hx : x ≠ 0) : 64 - x.clz.toNat - 1 = Nat.log2 x.toNat := by
  have hne : x.toNat ≠ 0 := fun h => hx (BitVec.eq_of_toNat_eq h)
  have hlow := BitVec.two_pow_sub_clz_le_toNat_of_ne_zero (by decide) hx
  have hhigh := BitVec.toNat_lt_two_pow_sub_clz (x := x)
  have hclz : x.clz.toNat < 64 := by
    by_contra hge
    rw [Nat.sub_eq_zero_of_le (Nat.not_lt.mp hge)] at hhigh
    omega
  symm
  rw [Nat.log2_eq_iff hne]
  constructor
  · rwa [Nat.sub_right_comm] at hlow
  · rwa [Nat.sub_add_cancel (by omega)]

theorem shiftLeft_twoPow (log : Nat) :
    BitVec.ofNat 32 (2 ^ log) <<< 1 = BitVec.ofNat 32 (2 ^ (log + 1)) := by
  apply BitVec.eq_of_toNat_eq
  rw [BitVec.toNat_shiftLeft, BitVec.toNat_ofNat, BitVec.toNat_ofNat, Nat.shiftLeft_eq, Nat.pow_succ]
  omega

theorem setWidth_lt_iff (v : BitVec 64) (log : Nat) :
    (BitVec.ofNat 32 (2 ^ log)).setWidth 64 < v ↔ 2 ^ log % 2 ^ 32 < v.toNat := by
  rw [BitVec.lt_def, BitVec.toNat_setWidth, BitVec.toNat_ofNat]
  omega

theorem log2Loop_eq {v : BitVec 64} (hv : v.toNat ≤ 2 ^ 31) {d log : Nat}
    (hlog : Nat.clog 2 v.toNat = log + d) {fuel : Nat} (hfuel : d < fuel) :
    log2Loop v fuel (BitVec.ofNat 32 (2 ^ log)) log = some (Nat.clog 2 v.toNat) := by
  have hmax : Nat.clog 2 v.toNat ≤ 31 := Nat.clog_le_of_le_pow hv
  have hmod : 2 ^ log % 2 ^ 32 = 2 ^ log :=
    Nat.mod_eq_of_lt (Nat.pow_lt_pow_right (by decide) (by omega))
  induction d generalizing log fuel with
  | zero =>
    obtain ⟨fuel, rfl⟩ := Nat.exists_eq_succ_of_ne_zero hfuel.ne'
    have hstop : ¬ (BitVec.ofNat 32 (2 ^ log)).setWidth 64 < v := by
      rw [setWidth_lt_iff, hmod, Nat.not_lt, ← Nat.clog_le_iff_le_pow (by decide)]
      exact hlog.le
    rw [log2Loop, if_neg hstop, hlog, Nat.add_zero]
  | succ d ih =>
    obtain ⟨fuel, rfl⟩ := Nat.exists_eq_succ_of_ne_zero (Nat.ne_of_gt (Nat.zero_lt_of_lt hfuel))
    have hgo : (BitVec.ofNat 32 (2 ^ log)).setWidth 64 < v := by
      rw [setWidth_lt_iff, hmod, ← Nat.lt_clog_iff_pow_lt (by decide)]
      omega
    have hnext : 2 ^ (log + 1) % 2 ^ 32 = 2 ^ (log + 1) :=
      Nat.mod_eq_of_lt (Nat.pow_lt_pow_right (by decide) (by omega))
    rw [log2Loop, if_pos hgo, shiftLeft_twoPow]
    exact ih (by omega) (by omega) hnext

theorem two_pow_mod_le (log : Nat) : 2 ^ log % 2 ^ 32 ≤ 2 ^ 31 := by
  by_cases hlog : log < 32
  · exact (Nat.mod_le _ _).trans (Nat.pow_le_pow_right (by decide) (by omega))
  · rw [Nat.mod_eq_zero_of_dvd (Nat.pow_dvd_pow 2 (Nat.not_lt.mp hlog))]
    exact Nat.zero_le _

theorem log2Loop_eq_none {v : BitVec 64} (hv : 2 ^ 31 < v.toNat) (fuel log : Nat) :
    log2Loop v fuel (BitVec.ofNat 32 (2 ^ log)) log = none := by
  induction fuel generalizing log with
  | zero => rfl
  | succ fuel ih =>
    have hgo := (setWidth_lt_iff v log).mpr ((two_pow_mod_le log).trans_lt hv)
    rw [log2Loop, if_pos hgo, shiftLeft_twoPow]
    exact ih (log + 1)

namespace Log2Variant

variable {sz : BitVec 64}

theorem returns_clog (hpos : 1 ≤ sz.toNat) (hle : sz.toNat ≤ 2 ^ 63) {variant : Log2Variant}
    (hloop : variant = .loop → sz.toNat ≤ 2 ^ 31) : variant.Returns sz (Nat.clog 2 sz.toNat) := by
  have hshift := toNat_shiftLeft_sub_one hpos hle
  have hne : (sz <<< 1) - 1 ≠ 0 := by
    intro he
    have hzero : (0 : BitVec 64).toNat = 0 := rfl
    rw [he, hzero] at hshift
    omega
  have hlog : Nat.log2 ((sz <<< 1) - 1).toNat = Nat.clog 2 sz.toNat := by
    rw [hshift, log2_two_mul_sub_one hpos]
  cases variant with
  | bitWidth => exact ⟨0, congrArg some (log2_eq_clog _)⟩
  | bitScanReverse => exact ⟨0, by rw [run, DieHard.bitScanReverse, if_neg hne, hlog]⟩
  | clzl =>
    refine ⟨0, ?_⟩
    rw [run, builtinClzl, if_neg hne, Option.map_some, log2_eq_sub_clz hne, hlog]
  | loop =>
    have hstart := log2Loop_eq (hloop rfl) (Nat.zero_add _).symm (Nat.lt_succ_self (Nat.clog 2 sz.toNat))
    exact ⟨Nat.clog 2 sz.toNat + 1, hstart⟩

theorem not_returns_loop (hlarge : 2 ^ 31 < sz.toNat) (log : Nat) : ¬ Log2Variant.loop.Returns sz log := by
  rintro ⟨fuel, hrun⟩
  have hnone : log2Loop sz fuel 1 0 = none := log2Loop_eq_none hlarge fuel 0
  rw [run, hnone] at hrun
  cases hrun

/-- All implementations round the logarithm up exactly for the sizes that the loop can reach. -/
theorem variants_agree_iff (hpos : 1 ≤ sz.toNat) (hle : sz.toNat ≤ 2 ^ 63) :
    (∀ variant : Log2Variant, variant.Returns sz (Nat.clog 2 sz.toNat)) ↔ sz.toNat ≤ 2 ^ 31 := by
  constructor
  · intro hall
    by_contra hlarge
    exact not_returns_loop (Nat.lt_of_not_le hlarge) _ (hall .loop)
  · intro hsmall variant
    exact returns_clog hpos hle fun _ => hsmall

theorem agree_seventeen : (∀ variant : Log2Variant, variant.Returns 17 (Nat.clog 2 17)) ↔ 17 ≤ 2 ^ 31 :=
  variants_agree_iff (by decide : 1 ≤ (17 : BitVec 64).toNat) (by decide)

/-- One past `2 ^ 31` the loop returns nothing. -/
theorem not_agree_past : 1 ≤ (2147483649 : BitVec 64).toNat ∧ (2147483649 : BitVec 64).toNat ≤ 2 ^ 63 ∧
    ¬ ∀ variant : Log2Variant,
      variant.Returns 2147483649 (Nat.clog 2 (2147483649 : BitVec 64).toNat) :=
  ⟨by decide, by decide, fun hall => not_returns_loop (by decide) _ (hall .loop)⟩

end Log2Variant

end DieHard
