import DieHard.Util.BitMap
import DieHard.Lib.Transition

/-!
# The two bitmaps

`BitMap` and `AtomicBitMap` take `unsigned long long` indices, but `computeItemPosition` keeps the item in
an `unsigned int`. Used by one thread the two always agree with each other; they agree with a set of
indices as long as no more than 2³⁸ elements are reserved. The heap's own indices are `unsigned int`.
-/

namespace DieHard

open Transition

/-- `computeItemPosition`; `item` is an `unsigned int`. -/
def computeItemPosition (index : Nat) : Nat × Nat :=
  ((index >>> wordBitShift) % 2 ^ 32, index &&& (wordBits - 1))

theorem computeItemPosition_lt (index : Nat) : (computeItemPosition index).2 < 64 :=
  Nat.lt_succ_of_le Nat.and_le_right

/-- `_elements` for `nelts`, an `unsigned long long`. -/
def roundUp (nelts : Nat) : Nat := wordBits * ((nelts + (wordBits - 1)) % 2 ^ 64 / wordBits)

namespace LongBitMap

/-- `clear`: `memset` over `_elements / 8` bytes. -/
def clear (b : BitMap) : BitMap :=
  { b with bitarray := fun i => if i < b.elements / wordBits then 0 else b.bitarray i }

/-- `reserve`; the source heap answers with memory that holds `garbage`. -/
def reserve (garbage : Nat → BitVec 64) (nelts : Nat) : BitMap := clear ⟨garbage, roundUp nelts⟩

def tryToSet (b : BitMap) (index : Nat) : BitMap × Bool :=
  let (item, position) := computeItemPosition index
  let mask := BitMap.getMask position
  let oldvalue := b.bitarray item
  ({ b with bitarray := Function.update b.bitarray item (oldvalue ||| mask) },
    decide (oldvalue &&& mask = 0))

def reset (b : BitMap) (index : Nat) : BitMap × Bool :=
  let (item, position) := computeItemPosition index
  let oldvalue := b.bitarray item
  let newvalue := oldvalue &&& ~~~ BitMap.getMask position
  ({ b with bitarray := Function.update b.bitarray item newvalue }, decide (oldvalue ≠ newvalue))

def isSet (b : BitMap) (index : Nat) : Bool :=
  let (item, position) := computeItemPosition index
  decide (b.bitarray item &&& BitMap.getMask position ≠ 0)

/-! Below 2³⁸ nothing is lost of the index. -/

variable {b : BitMap} {i : Nat}

theorem computeItemPosition_eq (h : i < 2 ^ 38) : computeItemPosition i = BitMap.itemPosition i := by
  rw [computeItemPosition, BitMap.itemPosition, Nat.mod_eq_of_lt]
  rw [wordBitShift, Nat.shiftRight_eq_div_pow]
  omega

theorem tryToSet_eq (h : i < 2 ^ 38) : tryToSet b i = b.tryToSet i := by
  rw [tryToSet, computeItemPosition_eq h, BitMap.tryToSet]

theorem tryToSet_snd (b : BitMap) (i : Nat) : (tryToSet b i).2 = !isSet b i := by
  simp [tryToSet, isSet]

theorem reset_eq (h : i < 2 ^ 38) : reset b i = b.reset i := by
  rw [reset, computeItemPosition_eq h, BitMap.reset]

theorem isSet_eq (h : i < 2 ^ 38) : isSet b i = b.isSet i := by
  rw [isSet, computeItemPosition_eq h, BitMap.isSet]

end LongBitMap

namespace AtomicBitMap

/-- `clear`: a loop over the words. -/
def clear (b : BitMap) : BitMap :=
  { b with bitarray :=
      (List.range (b.elements / wordBits)).foldl (fun w i => Function.update w i 0) b.bitarray }

def reserve (garbage : Nat → BitVec 64) (nelts : Nat) : BitMap := clear ⟨garbage, roundUp nelts⟩

/-- The body of the loop of `tryToSet`: the new value, or none where the bit is set. -/
def setBody (mask oldvalue : BitVec 64) : Option (BitVec 64) :=
  if oldvalue &&& mask ≠ 0 then none else some (oldvalue ||| mask)

/-- The body of the loop of `reset`: the new value, or none where the bit is clear. -/
def resetBody (mask oldvalue : BitVec 64) : Option (BitVec 64) :=
  let newvalue := oldvalue &&& ~~~ mask
  if oldvalue = newvalue then none else some newvalue

/-- The loop around `compare_exchange_weak`, each attempt of which may fail without a reason. It has
returned false where the body has no new value, and is still turning when the attempts are used up. -/
def exchangeLoop (body : BitVec 64 → Option (BitVec 64)) (item : Nat) (b : BitMap) :
    List Bool → BitVec 64 → Option (BitMap × Bool)
  | [], oldvalue =>
    match body oldvalue with
    | none => some (b, false)
    | some _ => none
  | spurious :: attempts, oldvalue =>
    match body oldvalue with
    | none => some (b, false)
    | some newvalue =>
      if b.bitarray item = oldvalue ∧ spurious = false then
        some ({ b with bitarray := Function.update b.bitarray item newvalue }, true)
      else exchangeLoop body item b attempts (b.bitarray item)

def tryToSet (b : BitMap) (index : Nat) (attempts : List Bool) : Option (BitMap × Bool) :=
  let (item, position) := computeItemPosition index
  exchangeLoop (setBody (BitMap.getMask position)) item b attempts (b.bitarray item)

def reset (b : BitMap) (index : Nat) (attempts : List Bool) : Option (BitMap × Bool) :=
  let (item, position) := computeItemPosition index
  exchangeLoop (resetBody (BitMap.getMask position)) item b attempts (b.bitarray item)

def isSet (b : BitMap) (index : Nat) : Bool :=
  let (item, position) := computeItemPosition index
  decide (b.bitarray item &&& BitMap.getMask position ≠ 0)

section OneThread

variable {body : BitVec 64 → Option (BitVec 64)} {item : Nat} {b : BitMap} {attempts : List Bool}

theorem exchangeLoop_of_none (h : body (b.bitarray item) = none) :
    exchangeLoop body item b attempts (b.bitarray item) = some (b, false) := by
  cases attempts <;> rw [exchangeLoop, h]

theorem exchangeLoop_of_some {newvalue : BitVec 64} (h : body (b.bitarray item) = some newvalue) :
    exchangeLoop body item b attempts (b.bitarray item) = if false ∈ attempts then
      some ({ b with bitarray := Function.update b.bitarray item newvalue }, true) else none := by
  induction attempts with
  | nil =>
    rw [exchangeLoop, h]
    rfl
  | cons spurious attempts ih =>
    rw [exchangeLoop, h]
    cases spurious with
    | false => simp
    | true => simp [ih]

theorem tryToSet_eq (b : BitMap) (i : Nat) (attempts : List Bool) :
    tryToSet b i attempts = if (LongBitMap.tryToSet b i).2 = false ∨ false ∈ attempts then
      some (LongBitMap.tryToSet b i) else none := by
  rw [tryToSet, LongBitMap.tryToSet]
  dsimp only
  by_cases hset : b.bitarray (computeItemPosition i).1 &&& BitMap.getMask (computeItemPosition i).2 = 0
  · have hbody : setBody (BitMap.getMask (computeItemPosition i).2)
        (b.bitarray (computeItemPosition i).1) = some _ := if_neg (not_not.mpr hset)
    rw [exchangeLoop_of_some hbody]
    simp [hset]
  · have hbody : setBody (BitMap.getMask (computeItemPosition i).2)
        (b.bitarray (computeItemPosition i).1) = none := if_pos hset
    have hset' : (b.bitarray (computeItemPosition i).1).getLsbD (computeItemPosition i).2 = true := by
      rwa [BitMap.and_getMask_eq_zero (computeItemPosition_lt i), Bool.not_eq_false] at hset
    rw [exchangeLoop_of_none hbody, BitMap.or_getMask_of_set (computeItemPosition_lt i) hset',
      Function.update_eq_self]
    simp only [decide_eq_false hset, true_or, if_true]

theorem reset_eq (b : BitMap) (i : Nat) (attempts : List Bool) :
    reset b i attempts = if (LongBitMap.reset b i).2 = false ∨ false ∈ attempts then
      some (LongBitMap.reset b i) else none := by
  rw [reset, LongBitMap.reset]
  dsimp only
  by_cases hclear : b.bitarray (computeItemPosition i).1 =
      b.bitarray (computeItemPosition i).1 &&& ~~~ BitMap.getMask (computeItemPosition i).2
  · have hbody : resetBody (BitMap.getMask (computeItemPosition i).2)
        (b.bitarray (computeItemPosition i).1) = none := if_pos hclear
    rw [exchangeLoop_of_none hbody]
    simp [← hclear]
  · have hbody : resetBody (BitMap.getMask (computeItemPosition i).2)
        (b.bitarray (computeItemPosition i).1) = some _ := if_neg hclear
    rw [exchangeLoop_of_some hbody]
    simp [hclear]

theorem clear_eq (b : BitMap) : clear b = LongBitMap.clear b := by
  have hfold (n : Nat) (w : Nat → BitVec 64) (i : Nat) :
      (List.range n).foldl (fun w i => Function.update w i 0) w i = if i < n then 0 else w i := by
    induction n with
    | zero => rfl
    | succ n ih =>
      rw [List.range_succ, List.foldl_append, List.foldl_cons, List.foldl_nil]
      by_cases hi : i = n
      · simp [hi]
      · rw [Function.update_of_ne hi, ih]
        split <;> split <;> first | rfl | omega
  rw [clear, LongBitMap.clear]
  congr 1
  funext i
  exact hfold _ _ _

end OneThread

end AtomicBitMap

/-- Both bitmaps, the set of indices and the last reserved number of elements. -/
structure BitMaps where
  plain : BitMap
  atomic : BitMap
  members : Finset Nat
  limit : Nat

inductive BitCall
  | reserve (nelts : Nat) (plainGarbage atomicGarbage : Nat → BitVec 64)
  | clear
  | tryToSet (index : Nat) (attempts : List Bool)
  | reset (index : Nat) (attempts : List Bool)
  | isSet (index : Nat)

namespace BitMaps

def new : BitMaps := ⟨.empty, .empty, ∅, 0⟩

/-- One operation of both bitmaps and of the set. -/
def next (s : BitMaps) : BitCall → Option BitMaps
  | .reserve nelts plainGarbage atomicGarbage =>
    some ⟨LongBitMap.reserve plainGarbage nelts, AtomicBitMap.reserve atomicGarbage nelts, ∅, nelts⟩
  | .clear => some { s with
      plain := LongBitMap.clear s.plain
      atomic := AtomicBitMap.clear s.atomic
      members := ∅ }
  | .tryToSet index attempts => (AtomicBitMap.tryToSet s.atomic index attempts).map fun r => { s with
      plain := (LongBitMap.tryToSet s.plain index).1
      atomic := r.1
      members := insert index s.members }
  | .reset index attempts => (AtomicBitMap.reset s.atomic index attempts).map fun r => { s with
      plain := (LongBitMap.reset s.plain index).1
      atomic := r.1
      members := s.members.erase index }
  | .isSet _ => some s

/-- No more than `bound` elements are reserved, and the indices are below the reserved number. -/
def ok (bound : Nat) (s : BitMaps) : BitCall → Prop
  | .reserve nelts _ _ => nelts ≤ bound
  | .clear => True
  | .tryToSet index _ => index < s.limit
  | .reset index _ => index < s.limit
  | .isSet index => index < s.limit

/-- An operation on `index` leaves the other indices below `limit` alone. -/
def Spares (limit : Nat) (isSet : BitMap → Nat → Bool) (index : Nat) (b b' : BitMap) : Prop :=
  ∀ j < limit, j ≠ index → isSet b' j = isSet b j

/-- Both bitmaps answer as the set does. -/
structure Agree (s : BitMaps) : Prop where
  isSet : ∀ i < s.limit, LongBitMap.isSet s.plain i = decide (i ∈ s.members) ∧
    AtomicBitMap.isSet s.atomic i = decide (i ∈ s.members)
  tryToSet : ∀ i < s.limit, (LongBitMap.tryToSet s.plain i).2 = decide (i ∉ s.members) ∧
    Spares s.limit LongBitMap.isSet i s.plain (LongBitMap.tryToSet s.plain i).1
  reset : ∀ i < s.limit, (LongBitMap.reset s.plain i).2 = decide (i ∈ s.members) ∧
    Spares s.limit LongBitMap.isSet i s.plain (LongBitMap.reset s.plain i).1
  atomicTryToSet : ∀ i < s.limit, ∀ attempts,
    (false ∈ attempts → (AtomicBitMap.tryToSet s.atomic i attempts).isSome) ∧
    ∀ r, AtomicBitMap.tryToSet s.atomic i attempts = some r → r.2 = decide (i ∉ s.members) ∧
      Spares s.limit AtomicBitMap.isSet i s.atomic r.1
  atomicReset : ∀ i < s.limit, ∀ attempts,
    (false ∈ attempts → (AtomicBitMap.reset s.atomic i attempts).isSome) ∧
    ∀ r, AtomicBitMap.reset s.atomic i attempts = some r → r.2 = decide (i ∈ s.members) ∧
      Spares s.limit AtomicBitMap.isSet i s.atomic r.1
  inBounds : ∀ i < s.limit, (computeItemPosition i).1 < s.plain.elements / wordBits ∧
    (computeItemPosition i).1 < s.atomic.elements / wordBits

/-- `b` holds the set, in words that are all reserved. -/
structure Holds (limit : Nat) (members : Finset Nat) (b : BitMap) : Prop where
  isSet_eq : ∀ i < limit, b.isSet i = decide (i ∈ members)
  elements_eq : b.elements = roundUp limit

section Holds

variable {limit : Nat} {members : Finset Nat} {b : BitMap} {i : Nat}

theorem roundUp_div {n : Nat} (h : n ≤ 2 ^ 38) : roundUp n / wordBits = (n + 63) / 64 := by
  rw [roundUp, wordBits, Nat.mul_div_cancel_left _ (by decide), Nat.mod_eq_of_lt (by omega)]

theorem word_lt (hl : limit ≤ 2 ^ 38) (hi : i < limit) : i / 64 < roundUp limit / wordBits := by
  rw [roundUp_div hl]
  omega

theorem holds_clear (hl : limit ≤ 2 ^ 38) (hb : b.elements = roundUp limit) :
    Holds limit ∅ (LongBitMap.clear b) := by
  refine ⟨?_, hb⟩
  intro i hi
  have hword := word_lt hl hi
  rw [← hb] at hword
  rw [BitMap.isSet_eq, LongBitMap.clear]
  dsimp only
  rw [if_pos hword]
  exact BitVec.getLsbD_zero

theorem Holds.tryToSet (h : Holds limit members b) (i : Nat) :
    Holds limit (insert i members) (b.tryToSet i).1 := by
  refine ⟨?_, h.elements_eq⟩
  intro j hj
  rw [BitMap.isSet_tryToSet, h.isSet_eq j hj]
  simp [Bool.or_comm]

theorem Holds.reset (h : Holds limit members b) (i : Nat) :
    Holds limit (members.erase i) (b.reset i).1 := by
  refine ⟨?_, h.elements_eq⟩
  intro j hj
  rw [BitMap.isSet_reset, h.isSet_eq j hj]
  simp [Bool.and_comm]

theorem spares_tryToSet (hl : limit ≤ 2 ^ 38) (i : Nat) :
    Spares limit LongBitMap.isSet i b (b.tryToSet i).1 := by
  intro j hj hne
  rw [LongBitMap.isSet_eq (hj.trans_le hl), LongBitMap.isSet_eq (hj.trans_le hl),
    BitMap.isSet_tryToSet, decide_eq_false hne, Bool.or_false]

theorem spares_reset (hl : limit ≤ 2 ^ 38) (i : Nat) :
    Spares limit LongBitMap.isSet i b (b.reset i).1 := by
  intro j hj hne
  rw [LongBitMap.isSet_eq (hj.trans_le hl), LongBitMap.isSet_eq (hj.trans_le hl),
    BitMap.isSet_reset, decide_eq_true hne, Bool.and_true]

end Holds

/-- Both bitmaps hold the set, and no index needs more than 38 bits. -/
structure Inv (s : BitMaps) : Prop where
  limit_le : s.limit ≤ 2 ^ 38
  plain : Holds s.limit s.members s.plain
  atomic : Holds s.limit s.members s.atomic

variable {s s' : BitMaps}

theorem inv_new : Inv new := by
  have hholds : Holds 0 ∅ .empty := ⟨fun i hi => absurd hi (Nat.not_lt_zero i), rfl⟩
  exact ⟨Nat.zero_le _, hholds, hholds⟩

theorem Inv.next (h : Inv s) {c : BitCall} (hok : s.ok (2 ^ 38) c) (hn : s.next c = some s') :
    Inv s' := by
  cases c with
  | reserve nelts plainGarbage atomicGarbage =>
    cases hn
    refine ⟨hok, holds_clear hok rfl, ?_⟩
    show Holds _ _ (AtomicBitMap.clear _)
    rw [AtomicBitMap.clear_eq]
    exact holds_clear hok rfl
  | clear =>
    cases hn
    refine ⟨h.limit_le, holds_clear h.limit_le h.plain.elements_eq, ?_⟩
    show Holds _ _ (AtomicBitMap.clear _)
    rw [AtomicBitMap.clear_eq]
    exact holds_clear h.limit_le h.atomic.elements_eq
  | tryToSet index attempts =>
    have hlt : index < 2 ^ 38 := Nat.lt_of_lt_of_le hok h.limit_le
    obtain ⟨r, hr, rfl⟩ := Option.map_eq_some_iff.mp hn
    rw [AtomicBitMap.tryToSet_eq, Option.ite_none_right_eq_some] at hr
    obtain rfl := Option.some.inj hr.2
    rw [LongBitMap.tryToSet_eq hlt, LongBitMap.tryToSet_eq hlt]
    exact ⟨h.limit_le, h.plain.tryToSet index, h.atomic.tryToSet index⟩
  | reset index attempts =>
    have hlt : index < 2 ^ 38 := Nat.lt_of_lt_of_le hok h.limit_le
    obtain ⟨r, hr, rfl⟩ := Option.map_eq_some_iff.mp hn
    rw [AtomicBitMap.reset_eq, Option.ite_none_right_eq_some] at hr
    obtain rfl := Option.some.inj hr.2
    rw [LongBitMap.reset_eq hlt, LongBitMap.reset_eq hlt]
    exact ⟨h.limit_le, h.plain.reset index, h.atomic.reset index⟩
  | isSet index =>
    cases hn
    exact h

theorem Inv.agree (h : Inv s) : Agree s := by
  have hlt {i : Nat} (hi : i < s.limit) : i < 2 ^ 38 := hi.trans_le h.limit_le
  refine ⟨?_, ?_, ?_, ?_, ?_, ?_⟩
  · intro i hi
    have hatomic := h.atomic.isSet_eq i hi
    rw [← LongBitMap.isSet_eq (hlt hi)] at hatomic
    rw [LongBitMap.isSet_eq (hlt hi), h.plain.isSet_eq i hi]
    exact ⟨rfl, hatomic⟩
  · intro i hi
    rw [LongBitMap.tryToSet_eq (hlt hi), BitMap.tryToSet_snd, h.plain.isSet_eq i hi, decide_not]
    exact ⟨rfl, spares_tryToSet h.limit_le i⟩
  · intro i hi
    rw [LongBitMap.reset_eq (hlt hi), BitMap.reset_snd, h.plain.isSet_eq i hi]
    exact ⟨rfl, spares_reset h.limit_le i⟩
  · intro i hi attempts
    rw [AtomicBitMap.tryToSet_eq, LongBitMap.tryToSet_eq (hlt hi)]
    refine ⟨fun hfalse => by simp [hfalse], ?_⟩
    intro r hr
    rw [Option.ite_none_right_eq_some] at hr
    obtain rfl := Option.some.inj hr.2
    rw [BitMap.tryToSet_snd, h.atomic.isSet_eq i hi, decide_not]
    exact ⟨rfl, spares_tryToSet h.limit_le i⟩
  · intro i hi attempts
    rw [AtomicBitMap.reset_eq, LongBitMap.reset_eq (hlt hi)]
    refine ⟨fun hfalse => by simp [hfalse], ?_⟩
    intro r hr
    rw [Option.ite_none_right_eq_some] at hr
    obtain rfl := Option.some.inj hr.2
    rw [BitMap.reset_snd, h.atomic.isSet_eq i hi]
    exact ⟨rfl, spares_reset h.limit_le i⟩
  · intro i hi
    rw [LongBitMap.computeItemPosition_eq (hlt hi), BitMap.itemPosition_eq, h.plain.elements_eq,
      h.atomic.elements_eq]
    exact ⟨word_lt h.limit_le hi, word_lt h.limit_le hi⟩

theorem computeItemPosition_overflow : computeItemPosition (2 ^ 38) = computeItemPosition 0 := by decide

theorem isSet_overflow (b : BitMap) :
    LongBitMap.isSet (LongBitMap.tryToSet b 0).1 (2 ^ 38) = true := by
  have hsame (b : BitMap) : LongBitMap.isSet b (2 ^ 38) = LongBitMap.isSet b 0 := by
    rw [LongBitMap.isSet, computeItemPosition_overflow, LongBitMap.isSet]
  have hzero : 0 < 2 ^ 38 := Nat.two_pow_pos 38
  rw [hsame, LongBitMap.isSet_eq hzero, LongBitMap.tryToSet_eq hzero, BitMap.isSet_tryToSet,
    decide_eq_true rfl, Bool.or_true]

theorem not_agree_tryToSet (hlimit : 2 ^ 38 < s.limit) (hnot : 2 ^ 38 ∉ s.members) :
    ∃ s', s.next (.tryToSet 0 [false]) = some s' ∧ ¬ Agree s' := by
  have hdone : AtomicBitMap.tryToSet s.atomic 0 [false] = some (LongBitMap.tryToSet s.atomic 0) := by
    rw [AtomicBitMap.tryToSet_eq, if_pos (Or.inr (List.mem_singleton_self _))]
  refine ⟨_, congrArg (Option.map _) hdone, ?_⟩
  intro hagree
  have hmember := (hagree.isSet (2 ^ 38) hlimit).1
  rw [isSet_overflow] at hmember
  have hinsert := of_decide_eq_true hmember.symm
  rw [Finset.mem_insert] at hinsert
  cases hinsert with
  | inl hzero => exact Nat.two_pow_pos 38 |>.ne' hzero
  | inr hmem => exact hnot hmem

theorem exists_not_agree {bound : Nat} (h : 2 ^ 38 < bound) :
    ∃ s, Reach next (ok bound) new s ∧ ¬ Agree s := by
  have hreserve : new.ok bound (.reserve bound (fun _ => 0) (fun _ => 0)) := Nat.le_refl bound
  have hset {t : BitMaps} (ht : 2 ^ 38 < t.limit) : t.ok bound (.tryToSet 0 [false]) :=
    Nat.zero_lt_of_lt ht
  have hr : Reach next (ok bound) new ⟨LongBitMap.reserve (fun _ => 0) bound,
      AtomicBitMap.reserve (fun _ => 0) bound, ∅, bound⟩ := Reach.refl.step hreserve rfl
  obtain ⟨s, hs, hnot⟩ := not_agree_tryToSet (s := ⟨_, _, ∅, bound⟩) h (Finset.notMem_empty _)
  exact ⟨s, hr.step (hset h) hs, hnot⟩

/-- Over all sequences of operations the two bitmaps agree with the set if and only if no more than 2³⁸
elements may be reserved. -/
theorem agree_iff (bound : Nat) : (∀ s, Reach next (ok bound) new s → Agree s) ↔ bound ≤ 2 ^ 38 := by
  constructor
  · intro h
    by_contra hlarge
    obtain ⟨s, hr, hnot⟩ := exists_not_agree (Nat.lt_of_not_le hlarge)
    exact hnot (h s hr)
  · intro hle s hr
    apply Inv.agree
    apply hr.invariant inv_new
    intro r c r' hi hok hn
    apply hi.next _ hn
    cases c with
    | reserve nelts _ _ => exact Nat.le_trans hok hle
    | clear => trivial
    | tryToSet index _ => exact hok
    | reset index _ => exact hok
    | isSet index => exact hok

/-- With any number of elements that an `unsigned long long` can ask for, they do not. -/
theorem not_agree : ¬ ∀ s, Reach next (ok (2 ^ 64 - 1)) new s → Agree s := by
  intro h
  obtain ⟨s, hr, hnot⟩ := exists_not_agree (by decide : 2 ^ 38 < 2 ^ 64 - 1)
  exact hnot (h s hr)

end BitMaps

end DieHard
