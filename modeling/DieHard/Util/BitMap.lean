import Mathlib.Tactic
import Mathlib.Data.BitVec

/-!
# Bitmaps

A `BitMap` is an array of 64-bit words. Its operations mask one bit of one word; as a set of
indices it is what the heap means by the objects it has handed out. They model the source once `reserve` has
run: before it there are no words, and every operation dereferences a null `_bitarray`.
-/

namespace DieHard

/-- `WORDBITS` for a 64-bit `size_t`. -/
def wordBits : Nat := 64

/-- `WORDBITSHIFT`. -/
def wordBitShift : Nat := 6

structure BitMap where
  bitarray : Nat → BitVec 64
  elements : Nat

namespace BitMap

def empty : BitMap := ⟨fun _ => 0, 0⟩

/-- `reserve(nelts)` on storage that the source heap supplies. -/
def reserve (nelts : Nat) : BitMap :=
  ⟨fun _ => 0, wordBits * ((nelts + wordBits - 1) / wordBits)⟩

/-- `computeItemPosition`. -/
def itemPosition (index : Nat) : Nat × Nat := (index >>> wordBitShift, index &&& (wordBits - 1))

/-- `getMask`. -/
def getMask (position : Nat) : BitVec 64 := 1#64 <<< position

/-- `tryToSet`: true iff the bit was not set (but it is now). -/
def tryToSet (b : BitMap) (index : Nat) : BitMap × Bool :=
  let (item, position) := itemPosition index
  let mask := getMask position
  let oldvalue := b.bitarray item
  ({ b with bitarray := Function.update b.bitarray item (oldvalue ||| mask) },
    decide (oldvalue &&& mask = 0))

/-- `reset`: clears the bit and returns whether that changed the word. -/
def reset (b : BitMap) (index : Nat) : BitMap × Bool :=
  let (item, position) := itemPosition index
  let oldvalue := b.bitarray item
  let newvalue := oldvalue &&& ~~~ getMask position
  ({ b with bitarray := Function.update b.bitarray item newvalue }, decide (oldvalue ≠ newvalue))

def isSet (b : BitMap) (index : Nat) : Bool :=
  let (item, position) := itemPosition index
  decide (b.bitarray item &&& getMask position ≠ 0)

theorem itemPosition_eq (index : Nat) : itemPosition index = (index / 64, index % 64) := by
  simp only [itemPosition, wordBitShift, wordBits, Nat.shiftRight_eq_div_pow]
  rw [show (64 - 1 : Nat) = 2 ^ 6 - 1 by decide, Nat.and_two_pow_sub_one_eq_mod]

theorem getLsbD_getMask (p j : Nat) (hp : p < 64) :
    (getMask p).getLsbD j = decide (j = p) := by
  simp only [getMask, BitVec.getLsbD_shiftLeft, BitVec.getLsbD_one]
  grind

theorem and_getMask_eq_zero {w : BitVec 64} {p : Nat} (hp : p < 64) :
    w &&& getMask p = 0 ↔ w.getLsbD p = false := by
  constructor
  · intro h
    have hb := congrArg (fun v => BitVec.getLsbD v p) h
    simpa [BitVec.getLsbD_and, getLsbD_getMask p p hp] using hb
  · intro h
    refine BitVec.eq_of_getLsbD_eq ?_
    intro j _
    rw [BitVec.getLsbD_and, getLsbD_getMask p j hp]
    by_cases hj : j = p
    · rw [hj, h]
      simp
    · simp [hj]

theorem or_getMask_of_set {w : BitVec 64} {p : Nat} (hp : p < 64) (h : w.getLsbD p = true) :
    w ||| getMask p = w := by
  refine BitVec.eq_of_getLsbD_eq ?_
  intro j _
  rw [BitVec.getLsbD_or, getLsbD_getMask _ j hp]
  by_cases hj : j = p
  · simp [hj, h]
  · simp [hj]

theorem isSet_eq (b : BitMap) (index : Nat) :
    b.isSet index = (b.bitarray (index / 64)).getLsbD (index % 64) := by
  have hp : index % 64 < 64 := Nat.mod_lt _ (by decide)
  simp only [isSet, itemPosition_eq, ne_eq, and_getMask_eq_zero hp]
  cases (b.bitarray (index / 64)).getLsbD (index % 64) <;> rfl

private theorem index_eq_iff {i j : Nat} : j = i ↔ j / 64 = i / 64 ∧ j % 64 = i % 64 := by
  omega

theorem isSet_tryToSet (b : BitMap) (i j : Nat) :
    (b.tryToSet i).1.isSet j = (b.isSet j || decide (j = i)) := by
  have hp : i % 64 < 64 := Nat.mod_lt _ (by decide)
  simp only [isSet_eq, tryToSet, itemPosition_eq]
  by_cases hw : j / 64 = i / 64
  · rw [hw, Function.update_self, BitVec.getLsbD_or, getLsbD_getMask _ _ hp]
    simp [index_eq_iff (i := i) (j := j), hw]
  · rw [Function.update_of_ne hw]
    simp [index_eq_iff (i := i) (j := j), hw]

theorem tryToSet_snd (b : BitMap) (i : Nat) : (b.tryToSet i).2 = !b.isSet i := by
  simp [tryToSet, isSet]

theorem isSet_reset (b : BitMap) (i j : Nat) :
    (b.reset i).1.isSet j = (b.isSet j && decide (j ≠ i)) := by
  have hp : i % 64 < 64 := Nat.mod_lt _ (by decide)
  simp only [isSet_eq, reset, itemPosition_eq]
  by_cases hw : j / 64 = i / 64
  · have hj : j % 64 < 64 := Nat.mod_lt _ (by decide)
    rw [hw, Function.update_self, BitVec.getLsbD_and, BitVec.getLsbD_not, getLsbD_getMask _ _ hp]
    simp [index_eq_iff (i := i) (j := j), hw, hj]
  · rw [Function.update_of_ne hw]
    simp [index_eq_iff (i := i) (j := j), hw]

theorem reset_snd (b : BitMap) (i : Nat) : (b.reset i).2 = b.isSet i := by
  have hp : i % 64 < 64 := Nat.mod_lt _ (by decide)
  have hw : (b.bitarray (i / 64) &&& ~~~ getMask (i % 64) = b.bitarray (i / 64)) ↔
      (b.bitarray (i / 64)).getLsbD (i % 64) = false := by
    constructor
    · intro h
      have hb := congrArg (fun v => BitVec.getLsbD v (i % 64)) h
      simp only [BitVec.getLsbD_and, BitVec.getLsbD_not, getLsbD_getMask _ _ hp, decide_true,
        Bool.not_true, Bool.and_false] at hb
      exact hb.symm
    · intro h
      refine BitVec.eq_of_getLsbD_eq ?_
      intro j hj
      rw [BitVec.getLsbD_and, BitVec.getLsbD_not, getLsbD_getMask _ j hp]
      by_cases hjp : j = i % 64
      · rw [hjp, h]
        simp
      · simp [hj, hjp]
  rw [isSet_eq]
  simp only [reset, itemPosition_eq, ne_eq, eq_comm (a := b.bitarray (i / 64)), hw]
  cases (b.bitarray (i / 64)).getLsbD (i % 64) <;> rfl

theorem reset_of_clear {b : BitMap} {i : Nat} (h : b.isSet i = false) : (b.reset i).1 = b := by
  have hr := reset_snd b i
  rw [h] at hr
  simp only [reset, itemPosition_eq, ne_eq, decide_eq_false_iff_not, not_not] at hr
  simp only [reset, itemPosition_eq]
  rw [← hr, Function.update_eq_self]

theorem tryToSet_of_set {b : BitMap} {i : Nat} (h : b.isSet i = true) : (b.tryToSet i).1 = b := by
  have hp : i % 64 < 64 := Nat.mod_lt _ (by decide)
  rw [isSet_eq] at h
  simp only [tryToSet, itemPosition_eq]
  rw [or_getMask_of_set hp h, Function.update_eq_self]

@[simp] theorem isSet_reserve (n i : Nat) : (reserve n).isSet i = false := by
  rw [isSet_eq]
  simp [reserve]

@[simp] theorem isSet_empty (i : Nat) : empty.isSet i = false := by
  rw [isSet_eq]
  simp [empty]

end BitMap

end DieHard
