import Mathlib.Tactic

/-!
# Addresses and `size_t` arithmetic
-/

namespace DieHard

/-- A byte address; `0` is `nullptr`. -/
abbrev Addr := Nat

/-- One past the largest `size_t`. -/
def sizeRange : Nat := 2 ^ 64

/-- Subtraction of two `size_t` values. -/
def sizeSub (a b : Nat) : Nat := (a + sizeRange - b) % sizeRange

/-- Increment of a `size_t` value. -/
def sizeSucc (a : Nat) : Nat := (a + 1) % sizeRange

theorem sizeSub_of_le {a b : Nat} (h : b ≤ a) (ha : a < sizeRange) : sizeSub a b = a - b := by
  have he : a + sizeRange - b = (a - b) + sizeRange := by omega
  rw [sizeSub, he, Nat.add_mod_right, Nat.mod_eq_of_lt (by omega)]

theorem sizeSucc_of_lt {a : Nat} (h : a + 1 < sizeRange) : sizeSucc a = a + 1 :=
  Nat.mod_eq_of_lt h

/-- `1 << n` of an `int`. -/
def oneShl (n : Nat) : BitVec 32 := 1 <<< n

/-- `(size_t) (1 << n)` -/
def oneShlSize (n : Nat) : Nat := ((oneShl n).signExtend 64).toNat

theorem toInt_oneShl {n : Nat} (h : n < 31) : (oneShl n).toInt = 2 ^ n := by
  revert n
  decide

theorem oneShlSize_eq {n : Nat} (h : n < 31) : oneShlSize n = 2 ^ n := by
  revert n
  decide

theorem and_not_two_pow_sub_one {w : Nat} (hw : 0 < w) (i k : Nat) :
    BitVec.ofNat w (i * 2 ^ k) &&& ~~~ (BitVec.ofNat w (2 ^ k) - 1) = BitVec.ofNat w (i * 2 ^ k) := by
  rw [show (1 : BitVec w) = BitVec.ofNat w 1 by rfl,
    BitVec.ofNat_sub_ofNat_of_le _ 1 (Nat.one_lt_two_pow hw.ne') Nat.one_le_two_pow]
  apply BitVec.eq_of_getLsbD_eq
  intro j hj
  simp only [BitVec.getLsbD_and, BitVec.getLsbD_not, BitVec.getLsbD_ofNat, Nat.testBit_mul_two_pow,
    Nat.testBit_two_pow_sub_one, hj]
  by_cases hk : j < k <;> simp [hk]

theorem dvd_of_and_not_two_pow_sub_one {w k : Nat} (hk : k < w) {x : BitVec w}
    (h : x &&& ~~~ (BitVec.ofNat w (2 ^ k) - 1) = x) : 2 ^ k ∣ x.toNat := by
  have hlow : x &&& (BitVec.ofNat w (2 ^ k) - 1) = 0 := by
    rw [← h, BitVec.and_assoc, BitVec.not_and_self]
    exact BitVec.and_zero
  have hmask : (BitVec.ofNat w (2 ^ k) - 1).toNat = 2 ^ k - 1 := by
    have hw : 0 < w := by omega
    have hpos := Nat.two_pow_pos k
    have hlt : 2 ^ k < 2 ^ w := Nat.pow_lt_pow_right (by decide) hk
    rw [show (1 : BitVec w) = BitVec.ofNat w 1 by rfl,
      BitVec.ofNat_sub_ofNat_of_le _ 1 (Nat.one_lt_two_pow hw.ne') Nat.one_le_two_pow,
      BitVec.toNat_ofNat, Nat.mod_eq_of_lt (by omega)]
  apply Nat.dvd_of_mod_eq_zero
  rw [← Nat.and_two_pow_sub_one_eq_mod, ← hmask, ← BitVec.toNat_and, hlow]
  rfl

end DieHard
