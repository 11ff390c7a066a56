import DieHard.Math.Log2
import DieHard.Util.Size

/-!
# Half-log size classes

There is a size class for each power of two and one for each size halfway between two of them.
`halflog2` finds the class of a size and `halfpow2` the size of a class; both exist for run time and for
compile time.
-/

namespace DieHard

/-- `int halflog2(size_t v)` -/
def halflog2 (v : Nat) : Int :=
  let a : Int := log2 v
  let b : Int := log2 (sizeSub v (oneShlSize (a - 1).toNat))
  2 * a + (if b + 1 = a then 1 else 0) - 1

/-- `size_t halfpow2(int v)` -/
def halfpow2 (v : Int) : Nat :=
  let sz1 := oneShlSize (v.tdiv 2).toNat
  (sz1 + (v % 2).toNat * (sz1 / 2)) % sizeRange

/-- `staticlog2ceiling<int>` -/
def staticlog2ceiling (v : Int) : Int :=
  if (oneShl (staticlog v.toNat)).toInt < v then staticlog v.toNat + 1 else staticlog v.toNat

/-- `statichalflog2<int>` -/
def statichalflog2 (v : Int) : Int :=
  2 * staticlog2ceiling v +
    (if staticlog2ceiling (v - (oneShl (staticlog2ceiling v - 1).toNat).toInt) + 1 = staticlog2ceiling v
      then 1 else 0) - 1

/-- `statichalfpow2<int>` -/
def statichalfpow2 (v : Int) : Int :=
  (oneShl (v.tdiv 2).toNat).toInt + v % 2 * ((oneShl (v.tdiv 2).toNat).toInt).tdiv 2

theorem tdiv_two (n : Nat) : (n : Int).tdiv 2 = (n / 2 : Nat) := rfl

theorem halfpow2_even {n : Nat} (hn : n < 31) : halfpow2 (2 * n : Nat) = 2 ^ n := by
  have hdiv : (((2 * n : Nat) : Int).tdiv 2).toNat = n := by
    rw [tdiv_two]
    omega
  have hmod : (((2 * n : Nat) : Int) % 2).toNat = 0 := by omega
  have hlt : 2 ^ n < sizeRange := Nat.pow_lt_pow_right (by decide) (by omega)
  rw [halfpow2, hdiv, hmod, oneShlSize_eq hn, Nat.zero_mul, Nat.add_zero, Nat.mod_eq_of_lt hlt]

theorem halfpow2_odd {n : Nat} (hn : n < 31) : halfpow2 (2 * n + 1 : Nat) = 2 ^ n + 2 ^ n / 2 := by
  have hdiv : (((2 * n + 1 : Nat) : Int).tdiv 2).toNat = n := by
    rw [tdiv_two]
    omega
  have hmod : (((2 * n + 1 : Nat) : Int) % 2).toNat = 1 := by omega
  have hle : 2 ^ n < 2 ^ 31 := Nat.pow_lt_pow_right (by decide) hn
  have hlt : 2 ^ n + 2 ^ n / 2 < sizeRange := by
    rw [sizeRange]
    omega
  rw [halfpow2, hdiv, hmod, oneShlSize_eq hn, Nat.one_mul, Nat.mod_eq_of_lt hlt]

theorem statichalfpow2_eq {c : Nat} (hc : c < 62) : statichalfpow2 c = halfpow2 c := by
  have hn : c / 2 < 31 := by omega
  have hdiv : ((c : Int).tdiv 2).toNat = c / 2 := by
    rw [tdiv_two]
    omega
  have hpow : (2 : Int) ^ (c / 2) = (2 ^ (c / 2) : Nat) := by push_cast; rfl
  have hhalf : 2 ^ (c / 2) < 2 ^ 31 := Nat.pow_lt_pow_right (by decide) hn
  have hmod : (c : Int) % 2 = (c % 2 : Nat) := by omega
  have hlt : 2 ^ (c / 2) + c % 2 * (2 ^ (c / 2) / 2) < sizeRange := by
    have hle : c % 2 * (2 ^ (c / 2) / 2) ≤ 1 * (2 ^ (c / 2) / 2) :=
      Nat.mul_le_mul_right _ (by omega)
    rw [sizeRange]
    omega
  rw [statichalfpow2, halfpow2, hdiv, toInt_oneShl hn, oneShlSize_eq hn, hpow, tdiv_two, hmod,
    Int.toNat_natCast, Nat.mod_eq_of_lt hlt]
  push_cast
  rfl

theorem two_pow_lt_of_log2 {v n : Nat} (hlog : log2 v = n + 1) : 2 ^ n < v := by
  by_contra hle
  have := log2_le_iff.mpr (Nat.not_lt.mp hle)
  omega

theorem staticlog2ceiling_eq {v : Nat} (hv : v ≤ 2 ^ 30) : staticlog2ceiling v = log2 v := by
  have hcast : ((v : Nat) : Int).toNat = v := rfl
  rw [staticlog2ceiling, hcast, staticlog_eq]
  by_cases hzero : v = 0
  · subst hzero
    decide
  have hlog : Nat.log2 v < 31 := (Nat.log2_lt hzero).mpr (by omega)
  have hlow := (Nat.le_log2 hzero).mp (Nat.le_refl (Nat.log2 v))
  have hhigh := (Nat.log2_lt hzero).mp (Nat.lt_succ_self (Nat.log2 v))
  have hpow : ((2 ^ Nat.log2 v : Nat) : Int) = 2 ^ Nat.log2 v := by push_cast; rfl
  rw [toInt_oneShl hlog, ← hpow]
  by_cases hlt : 2 ^ Nat.log2 v < v
  · have hle : log2 v ≤ Nat.log2 v + 1 := log2_le_iff.mpr hhigh.le
    have hgt : ¬ log2 v ≤ Nat.log2 v := fun h => Nat.not_le.mpr hlt (log2_le_iff.mp h)
    rw [if_pos (by omega)]
    omega
  · have heq : 2 ^ Nat.log2 v = v := by omega
    rw [if_neg (by omega), ← heq, log2_two_pow, Nat.log2_two_pow]

/-- The class of a size: the one of its power of two if it lies behind the half before, otherwise the
one of that half. -/
theorem halflog2_eq {v n : Nat} (hv : v ≤ 2 ^ 30) (hlog : log2 v = n + 1) :
    halflog2 v = if 2 ^ n + 2 ^ n / 2 < v then ((2 * n + 2 : Nat) : Int) else ((2 * n + 1 : Nat) : Int) := by
  have hn : n < 30 := by
    have hle := log2_le_iff.mpr hv
    omega
  have hlow := two_pow_lt_of_log2 hlog
  have hhigh : v ≤ 2 ^ (n + 1) := log2_le_iff.mp hlog.le
  have hsub : sizeSub v (2 ^ n) = v - 2 ^ n := sizeSub_of_le hlow.le (by rw [sizeRange]; omega)
  have hindex : (((n + 1 : Nat) : Int) - 1).toNat = n := by omega
  -- the second logarithm is `n` exactly behind the half
  have hsecond : log2 (v - 2 ^ n) = n ↔ 2 ^ n + 2 ^ n / 2 < v := by
    have hle : log2 (v - 2 ^ n) ≤ n := log2_le_iff.mpr (by rw [Nat.pow_succ] at hhigh; omega)
    cases n with
    | zero =>
      simp only [Nat.le_zero] at hle
      simp only [hle, true_iff]
      omega
    | succ n =>
      have hless : log2 (v - 2 ^ (n + 1)) ≤ n ↔ v - 2 ^ (n + 1) ≤ 2 ^ n := log2_le_iff
      have hpow : 2 ^ (n + 1) = 2 ^ n * 2 := Nat.pow_succ 2 n
      omega
  simp only [halflog2, hlog, hindex, oneShlSize_eq (by omega : n < 31), hsub]
  by_cases hhalf : 2 ^ n + 2 ^ n / 2 < v
  · rw [if_pos hhalf, hsecond.mpr hhalf, if_pos (by omega)]
    omega
  · have hne : log2 (v - 2 ^ n) ≠ n := fun he => hhalf (hsecond.mp he)
    rw [if_neg hhalf, if_neg (by omega)]
    omega

theorem exists_log2_eq {v : Nat} (h2 : 2 ≤ v) : ∃ n, log2 v = n + 1 := by
  apply Nat.exists_eq_succ_of_ne_zero
  intro hzero
  have hle := log2_le_iff.mp hzero.le
  omega

theorem statichalflog2_eq {v : Nat} (h2 : 2 ≤ v) (hv : v ≤ 2 ^ 30) : statichalflog2 v = halflog2 v := by
  obtain ⟨n, hn⟩ := exists_log2_eq h2
  have hle := log2_le_iff.mpr hv
  have hlow := two_pow_lt_of_log2 hn
  have hsub : sizeSub v (2 ^ n) = v - 2 ^ n := sizeSub_of_le hlow.le (by rw [sizeRange]; omega)
  have hindex : ((log2 v : Int) - 1).toNat = n := by omega
  have hpow : ((2 ^ n : Nat) : Int) = 2 ^ n := by push_cast; rfl
  have hrest : (v : Int) - 2 ^ n = ((v - 2 ^ n : Nat) : Int) := by omega
  rw [statichalflog2, staticlog2ceiling_eq hv, hindex, toInt_oneShl (by omega), hrest,
    staticlog2ceiling_eq ((Nat.sub_le _ _).trans hv)]
  simp only [halflog2, hindex, oneShlSize_eq (by omega : n < 31), hsub]

theorem halflog2_le {v : Nat} (h2 : 2 ≤ v) (hv : v ≤ 2 ^ 30) : halflog2 v ≤ 60 := by
  obtain ⟨n, hn⟩ := exists_log2_eq h2
  have hle := log2_le_iff.mpr hv
  rw [halflog2_eq hv hn]
  split <;> omega

theorem le_halfpow2_halflog2 {v : Nat} (h2 : 2 ≤ v) (hv : v ≤ 2 ^ 30) : v ≤ halfpow2 (halflog2 v) := by
  obtain ⟨n, hn⟩ := exists_log2_eq h2
  have hle := log2_le_iff.mpr hv
  by_cases hhalf : 2 ^ n + 2 ^ n / 2 < v
  · have hpow : halfpow2 (2 * (n + 1) : Nat) = 2 ^ (n + 1) := halfpow2_even (by omega)
    rw [halflog2_eq hv hn, if_pos hhalf]
    exact (log2_le_iff.mp hn.le).trans hpow.ge
  · rw [halflog2_eq hv hn, if_neg hhalf, halfpow2_odd (by omega)]
    exact Nat.not_lt.mp hhalf

theorem halfpow2_halflog2_sub_one_lt {v : Nat} (h2 : 2 ≤ v) (hv : v ≤ 2 ^ 30) :
    halfpow2 (halflog2 v - 1) < v := by
  obtain ⟨n, hn⟩ := exists_log2_eq h2
  have hle := log2_le_iff.mpr hv
  by_cases hhalf : 2 ^ n + 2 ^ n / 2 < v
  · have hprev : ((2 * n + 2 : Nat) : Int) - 1 = (2 * n + 1 : Nat) := by omega
    rw [halflog2_eq hv hn, if_pos hhalf, hprev, halfpow2_odd (by omega)]
    exact hhalf
  · have hprev : ((2 * n + 1 : Nat) : Int) - 1 = (2 * n : Nat) := by omega
    rw [halflog2_eq hv hn, if_neg hhalf, hprev, halfpow2_even (by omega)]
    exact two_pow_lt_of_log2 hn

theorem halfpow2_le_succ {c : Nat} (hc : c < 61) : halfpow2 c ≤ halfpow2 (c + 1 : Nat) := by
  obtain ⟨n, rfl | rfl⟩ := Nat.even_or_odd' c
  · rw [halfpow2_even (by omega), halfpow2_odd (by omega)]
    exact Nat.le_add_right _ _
  · have hpow : halfpow2 (2 * (n + 1) : Nat) = 2 ^ (n + 1) := halfpow2_even (by omega)
    rw [halfpow2_odd (by omega)]
    refine le_trans ?_ hpow.ge
    rw [Nat.pow_succ]
    omega

theorem halfpow2_mono {c d : Nat} (hcd : c ≤ d) (hd : d < 62) : halfpow2 c ≤ halfpow2 d := by
  induction d, hcd using Nat.le_induction with
  | base => exact Nat.le_refl _
  | succ d hcd ih => exact (ih (by omega)).trans (halfpow2_le_succ (by omega))

theorem halflog2_le_iff {v c : Nat} (h2 : 2 ≤ v) (hv : v ≤ 2 ^ 30) (hc : c < 62) :
    halflog2 v ≤ c ↔ v ≤ halfpow2 c := by
  obtain ⟨n, hn⟩ := exists_log2_eq h2
  have hmax := halflog2_le h2 hv
  have hpos : 1 ≤ halflog2 v := by
    rw [halflog2_eq hv hn]
    split <;> omega
  obtain ⟨d, hd⟩ : ∃ d : Nat, halflog2 v = d + 1 := ⟨(halflog2 v - 1).toNat, by omega⟩
  constructor
  · intro hle
    have hfits := le_halfpow2_halflog2 h2 hv
    rw [hd] at hfits hle
    exact hfits.trans (halfpow2_mono (c := d + 1) (by omega) hc)
  · intro hfits
    by_contra hlt
    have hsmall := halfpow2_halflog2_sub_one_lt h2 hv
    rw [hd, Int.add_sub_cancel] at hsmall
    have hle : halfpow2 c ≤ halfpow2 d := halfpow2_mono (by omega) (by omega)
    omega

/-- A size fits its class and no smaller one, and the static versions agree. -/
theorem halflog2_galois {v : Nat} (h2 : 2 ≤ v) (hv : v ≤ 2 ^ 30) :
    v ≤ halfpow2 (halflog2 v) ∧ (2 < v → halfpow2 (halflog2 v - 1) < v) ∧
      statichalflog2 v = halflog2 v ∧
      ∀ c : Nat, (c : Int) ≤ halflog2 v → statichalfpow2 c = halfpow2 c := by
  refine ⟨le_halfpow2_halflog2 h2 hv, fun _ => halfpow2_halflog2_sub_one_lt h2 hv,
    statichalflog2_eq h2 hv, ?_⟩
  intro c hc
  have hmax := halflog2_le h2 hv
  exact statichalfpow2_eq (by omega)

theorem halflog2_galois_twentyFour : 24 ≤ halfpow2 (halflog2 24) ∧
    (2 < 24 → halfpow2 (halflog2 24 - 1) < 24) ∧ statichalflog2 24 = halflog2 24 ∧
      ∀ c : Nat, (c : Int) ≤ halflog2 24 → statichalfpow2 c = halfpow2 c :=
  halflog2_galois (by decide) (by decide)

end DieHard
