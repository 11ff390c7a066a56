import Mathlib.Data.List.Count
import Mathlib.Data.BitVec
import Mathlib.Order.Bounds.Defs

/-!
# Fingerprints and the vote

The voter reduces the buffer of each replica to a fingerprint, the sum of its bytes, and picks a
fingerprint that occurs most often.
-/

namespace DieHard

abbrev Byte := BitVec 8

/-- `_value` and `_start` of a `Fingerprinter`; a buffer is named by its replica. -/
structure Fingerprinter where
  value : BitVec 32
  start : Nat

namespace Fingerprinter

/-- `operator()`: `_value` sums up the bytes as signed characters. -/
def of (length start : Nat) (buffer : Nat → Byte) : Fingerprinter where
  value := (List.range length).foldl (fun value i => value + (buffer i).signExtend 32) 0
  start := start

/-- `operator==` -/
def same (f g : Fingerprinter) : Bool := f.value == g.value

theorem same_equivalence : Equivalence fun f g : Fingerprinter => f.same g = true := by
  simp only [same, beq_iff_eq]
  exact ⟨fun _ => rfl, Eq.symm, Eq.trans⟩

theorem of_congr {length : Nat} {b b' : Nat → Byte} (h : ∀ j < length, b j = b' j) (start start' : Nat) :
    (of length start b).same (of length start' b') = true := by
  have hsum : (of length start b).value = (of length start' b').value := by
    simp only [of]
    apply List.foldl_ext
    intro value j hj
    rw [h j (List.mem_range.mp hj)]
  simp [same, hsum]

theorem of_padded {n length : Nat} (hn : n ≤ length) {buffer : Nat → Byte}
    (hzero : ∀ j, n ≤ j → j < length → buffer j = 0) (start : Nat) :
    (of length start buffer).value = (of n start buffer).value := by
  induction length, hn using Nat.le_induction with
  | base => rfl
  | succ length hn ih =>
    have hlast := hzero length hn (Nat.lt_succ_self length)
    have hrest := ih fun j hj hlt => hzero j hj (Nat.lt_succ_of_lt hlt)
    simp only [of, List.range_succ, List.foldl_append, List.foldl_cons, List.foldl_nil, hlast] at hrest ⊢
    simpa using hrest

end Fingerprinter

section MostCommon

variable {T : Type*} (same : T → T → Bool)

/-- The inner loop of `mostCommonElement`. `best` pairs `mostCommonItem` and `maxOccurrences`; the item
is `none` as long as it is the default one. -/
def countItem (thisItem : T) : List T → Nat → Option T × Nat → Option T × Nat
  | [], _, best => best
  | item :: items, thisFrequency, best =>
    if same thisItem item then
      countItem thisItem items (thisFrequency + 1)
        (if best.2 < thisFrequency + 1 then (some thisItem, thisFrequency + 1) else best)
    else countItem thisItem items thisFrequency best

def countItems (array : List T) : List T → Option T × Nat → Option T × Nat
  | [], best => best
  | thisItem :: items, best => countItems array items (countItem same thisItem array 0 best)

def mostCommonElement (array : List T) : Option T × Nat := countItems same array array (none, 0)

theorem countItem_eq (thisItem : T) (items : List T) {thisFrequency : Nat} {best : Option T × Nat}
    (h : thisFrequency ≤ best.2) :
    countItem same thisItem items thisFrequency best =
      if best.2 < thisFrequency + items.countP (same thisItem) then
        (some thisItem, thisFrequency + items.countP (same thisItem)) else best := by
  induction items generalizing thisFrequency best with
  | nil => simp [countItem, Nat.not_lt.mpr h]
  | cons item items ih =>
    rw [countItem]
    by_cases hs : same thisItem item = true
    · rw [if_pos hs, List.countP_cons_of_pos hs]
      by_cases hlt : best.2 < thisFrequency + 1
      · have hnew : thisFrequency + 1 ≤ (some thisItem, thisFrequency + 1).2 := Nat.le_refl _
        rw [if_pos hlt, ih hnew, if_pos (by omega : best.2 < _)]
        by_cases hc : items.countP (same thisItem) = 0
        · simp [hc]
        · rw [if_pos (by simp only; omega), Nat.add_right_comm, Nat.add_assoc]
      · rw [if_neg hlt, ih (by omega), Nat.add_right_comm, Nat.add_assoc]
    · rw [if_neg hs, List.countP_cons_of_neg hs, ih h]

def BestOf (array : List T) (best : Option T × Nat) : Prop :=
  best.2 ≠ 0 → ∃ x ∈ array, best.1 = some x ∧ array.countP (same x) = best.2

theorem countItem_bestOf {array : List T} {thisItem : T} (hmem : thisItem ∈ array)
    {best : Option T × Nat} (h : BestOf same array best) :
    BestOf same array (countItem same thisItem array 0 best) ∧
      best.2 ≤ (countItem same thisItem array 0 best).2 ∧
      array.countP (same thisItem) ≤ (countItem same thisItem array 0 best).2 := by
  rw [countItem_eq same thisItem array (Nat.zero_le _), Nat.zero_add]
  by_cases hlt : best.2 < array.countP (same thisItem)
  · rw [if_pos hlt]
    exact ⟨fun _ => ⟨thisItem, hmem, rfl, rfl⟩, hlt.le, Nat.le_refl _⟩
  · rw [if_neg hlt]
    exact ⟨h, Nat.le_refl _, Nat.not_lt.mp hlt⟩

theorem countItems_bestOf {array items : List T} (hsub : ∀ x ∈ items, x ∈ array)
    {best : Option T × Nat} (h : BestOf same array best) :
    BestOf same array (countItems same array items best) ∧
      best.2 ≤ (countItems same array items best).2 ∧
      ∀ x ∈ items, array.countP (same x) ≤ (countItems same array items best).2 := by
  induction items generalizing best with
  | nil => exact ⟨h, Nat.le_refl _, by simp⟩
  | cons thisItem items ih =>
    obtain ⟨hbest, hle, hcount⟩ := countItem_bestOf same (hsub thisItem (by simp)) h
    obtain ⟨hbest', hle', hcount'⟩ := ih (fun x hx => hsub x (by simp [hx])) hbest
    rw [countItems]
    refine ⟨hbest', hle.trans hle', ?_⟩
    intro x hx
    rcases List.mem_cons.mp hx with rfl | hx
    · exact hcount.trans hle'
    · exact hcount' x hx

theorem mostCommonElement_item {array : List T} (h : (mostCommonElement same array).2 ≠ 0) :
    ∃ x ∈ array, (mostCommonElement same array).1 = some x ∧
      array.countP (same x) = (mostCommonElement same array).2 :=
  (countItems_bestOf same (fun _ hx => hx) fun h => absurd rfl h).1 h

theorem countP_le_mostCommonElement {array : List T} {x : T} (hx : x ∈ array) :
    array.countP (same x) ≤ (mostCommonElement same array).2 :=
  (countItems_bestOf same (fun _ hx => hx) fun h => absurd rfl h).2.2 x hx

/-- The best item is the first of the most frequent ones that the outer loop has passed. -/
def FirstBest (array passed : List T) (best : Option T × Nat) : Prop :=
  passed = [] ∧ best = (none, 0) ∨ ∃ front x back, passed = front ++ x :: back ∧
    best = (some x, array.countP (same x)) ∧
    (∀ y ∈ front, array.countP (same y) < array.countP (same x)) ∧
    ∀ y ∈ back, array.countP (same y) ≤ array.countP (same x)

theorem countItem_firstBest {array passed : List T} {thisItem : T}
    (hpos : 0 < array.countP (same thisItem)) {best : Option T × Nat}
    (h : FirstBest same array passed best) :
    FirstBest same array (passed ++ [thisItem]) (countItem same thisItem array 0 best) := by
  rw [countItem_eq same thisItem array (Nat.zero_le _), Nat.zero_add]
  rcases h with ⟨rfl, rfl⟩ | ⟨front, x, back, rfl, rfl, hfront, hback⟩
  · rw [if_pos hpos]
    exact Or.inr ⟨[], thisItem, [], rfl, rfl, by simp, by simp⟩
  · by_cases hlt : array.countP (same x) < array.countP (same thisItem)
    · rw [if_pos hlt]
      refine Or.inr ⟨front ++ x :: back, thisItem, [], rfl, rfl, ?_, by simp⟩
      intro y hy
      have hle : array.countP (same y) ≤ array.countP (same x) := by
        rcases List.mem_append.mp hy with hy | hy
        · exact (hfront y hy).le
        · rcases List.mem_cons.mp hy with rfl | hy
          · exact Nat.le_refl _
          · exact hback y hy
      exact hle.trans_lt hlt
    · rw [if_neg hlt]
      refine Or.inr ⟨front, x, back ++ [thisItem], by simp, rfl, hfront, ?_⟩
      intro y hy
      rcases List.mem_append.mp hy with hy | hy
      · exact hback y hy
      · rw [List.mem_singleton.mp hy]
        exact Nat.not_lt.mp hlt

theorem countItems_firstBest {array passed items : List T}
    (hpos : ∀ x ∈ items, 0 < array.countP (same x)) {best : Option T × Nat}
    (h : FirstBest same array passed best) :
    FirstBest same array (passed ++ items) (countItems same array items best) := by
  induction items generalizing passed best with
  | nil =>
    rw [List.append_nil]
    exact h
  | cons thisItem items ih =>
    have hstep := countItem_firstBest same (hpos thisItem (by simp)) h
    have hrest := ih (fun x hx => hpos x (by simp [hx])) hstep
    rw [List.append_assoc] at hrest
    exact hrest

section Mode

variable {same} (hsame : Equivalence fun x y => same x y = true)

include hsame

theorem length_le_countP {array l : List T} {x : T} (hsub : (x :: l).Sublist array)
    (hl : (x :: l).Pairwise fun x y => same x y = true) : (x :: l).length ≤ array.countP (same x) := by
  have hall : ∀ y ∈ x :: l, same x y = true := by
    intro y hy
    rcases List.mem_cons.mp hy with rfl | hy
    · exact hsame.refl y
    · exact (List.pairwise_cons.mp hl).1 y hy
  rw [← List.countP_eq_length.mpr hall]
  exact hsub.countP_le

/-- The count is the largest number of items that are all the same, and the result is the first item
that occurs so often. -/
theorem mostCommonElement_mode {array : List T} (hne : array ≠ []) :
    IsGreatest {n | ∃ l : List T, l.Sublist array ∧ (l.Pairwise fun x y => same x y = true) ∧
        l.length = n} (mostCommonElement same array).2 ∧
      ∃ front x back, array = front ++ x :: back ∧ (mostCommonElement same array).1 = some x ∧
        array.countP (same x) = (mostCommonElement same array).2 ∧
        ∀ y ∈ front, array.countP (same y) ≠ (mostCommonElement same array).2 := by
  have hpos : ∀ x ∈ array, 0 < array.countP (same x) :=
    fun x hx => List.countP_pos_iff.mpr ⟨x, hx, hsame.refl x⟩
  have hempty : FirstBest same array [] (none, 0) := Or.inl ⟨rfl, rfl⟩
  have hbest := countItems_firstBest same hpos hempty
  rw [List.nil_append] at hbest
  obtain ⟨front, x, back, harray, hresult, hfront, -⟩ := hbest.resolve_left fun h => hne h.1
  have hresult' : mostCommonElement same array = (some x, array.countP (same x)) := hresult
  rw [hresult']
  refine ⟨⟨?_, ?_⟩, front, x, back, harray, rfl, rfl, fun y hy => (hfront y hy).ne⟩
  · refine ⟨array.filter (same x), List.filter_sublist, ?_, (List.countP_eq_length_filter ..).symm⟩
    apply List.pairwise_of_forall_mem_list
    intro y hy z hz
    exact hsame.trans (hsame.symm (List.mem_filter.mp hy).2) (List.mem_filter.mp hz).2
  · rintro n ⟨l, hsub, hl, rfl⟩
    cases l with
    | nil => exact Nat.zero_le _
    | cons y l =>
      have hy : y ∈ array := hsub.subset (by simp)
      have hmost := countP_le_mostCommonElement same hy
      rw [hresult'] at hmost
      exact (length_le_countP hsame hsub hl).trans hmost

end Mode

end MostCommon

def twoAgree : List Fingerprinter := [⟨2, 0⟩, ⟨1, 1⟩, ⟨1, 2⟩]

theorem mostCommonElement_twoAgree :
    IsGreatest {n | ∃ l : List Fingerprinter, l.Sublist twoAgree ∧
        (l.Pairwise fun f g => f.same g = true) ∧ l.length = n} 2 ∧
      ∃ front f back, twoAgree = front ++ f :: back ∧
        (mostCommonElement Fingerprinter.same twoAgree).1 = some f ∧
        twoAgree.countP f.same = 2 ∧ ∀ g ∈ front, twoAgree.countP g.same ≠ 2 :=
  mostCommonElement_mode Fingerprinter.same_equivalence (List.cons_ne_nil _ _)

end DieHard
