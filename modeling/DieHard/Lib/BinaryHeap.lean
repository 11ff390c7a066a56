import Mathlib.Data.Multiset.Range
import Mathlib.Data.Finset.Range
import Mathlib.Data.Finset.Card
import Mathlib.Logic.Equiv.Basic
import Mathlib.Order.Defs.LinearOrder

/-!
# Binary heaps

A binary heap in the first `n` places of an array: the children of place `i` are at `2 * i + 1` and
`2 * i + 2`, and no element has a smaller key than its parent. A pushed element moves up from the last
place. The first element is popped by exchanging it with the last one, which moves down.
-/

namespace BinaryHeap

universe u v

variable {α : Type u} {κ : Type v} [LinearOrder κ] (key : α → κ)

def parent (i : Nat) : Nat := (i - 1) / 2

theorem parent_lt {i : Nat} (h : 0 < i) : parent i < i := by
  simp only [parent]
  omega

theorem parent_eq_iff {i j : Nat} (hj : 0 < j) : parent j = i ↔ j = 2 * i + 1 ∨ j = 2 * i + 2 := by
  simp only [parent]
  omega

def IsHeap (a : Nat → α) (n : Nat) : Prop := ∀ i, 0 < i → i < n → key (a (parent i)) ≤ key (a i)

/-- The elements of the first `n` places. -/
def elems (a : Nat → α) (n : Nat) : Multiset α := (Multiset.range n).map a

def swap (a : Nat → α) (i j : Nat) : Nat → α := a ∘ Equiv.swap i j

section Elements

variable {a : Nat → α} {n i j : Nat}

theorem mem_elems {x : α} : x ∈ elems a n ↔ ∃ i < n, a i = x := by
  simp [elems]

theorem elems_succ (a : Nat → α) (n : Nat) : elems a (n + 1) = a n ::ₘ elems a n := by
  simp [elems]

@[simp] theorem card_elems (a : Nat → α) (n : Nat) : (elems a n).card = n := by
  simp [elems]

@[simp] theorem swap_left (a : Nat → α) (i j : Nat) : swap a i j i = a j := by
  simp [swap]

@[simp] theorem swap_right (a : Nat → α) (i j : Nat) : swap a i j j = a i := by
  simp [swap]

theorem swap_of_ne {k : Nat} (hi : k ≠ i) (hj : k ≠ j) : swap a i j k = a k := by
  simp [swap, Equiv.swap_apply_of_ne_of_ne hi hj]

theorem elems_swap (a : Nat → α) (hi : i < n) (hj : j < n) : elems (swap a i j) n = elems a n := by
  have hrange : (Finset.range n).map (Equiv.swap i j).toEmbedding = Finset.range n := by
    apply Finset.eq_of_subset_of_card_le
    · intro k hk
      obtain ⟨m, hm, rfl⟩ := Finset.mem_map.mp hk
      have hm := Finset.mem_range.mp hm
      simp only [Equiv.coe_toEmbedding, Equiv.swap_apply_def, Finset.mem_range]
      split
      · exact hj
      · split
        · exact hi
        · exact hm
    · rw [Finset.card_map]
  have hval : (Multiset.range n).map (Equiv.swap i j) = Multiset.range n :=
    congrArg Finset.val hrange
  simp only [elems, swap]
  rw [← Multiset.map_map, hval]

end Elements

theorem IsHeap.first_le {a : Nat → α} {n : Nat} (h : IsHeap key a n) {i : Nat} (hi : i < n) :
    key (a 0) ≤ key (a i) := by
  induction i using Nat.strong_induction_on with
  | _ i ih =>
    by_cases hpos : 0 < i
    · have hlt := parent_lt hpos
      exact (ih _ hlt (by omega)).trans (h i hpos hi)
    · rw [Nat.eq_zero_of_not_pos hpos]

/-- Move the element at place `i` up while its parent has a larger key. -/
def siftUp : Nat → (Nat → α) → Nat → Nat → α
  | 0, a, _ => a
  | fuel + 1, a, i =>
    if 0 < i ∧ key (a i) < key (a (parent i)) then siftUp fuel (swap a i (parent i)) (parent i) else a

/-- A heap but for place `i`, whose key may be too small. -/
structure LightAt (a : Nat → α) (n i : Nat) : Prop where
  heap : ∀ j, 0 < j → j < n → j ≠ i → key (a (parent j)) ≤ key (a j)
  below : ∀ j, 0 < j → j < n → parent j = i → 0 < i → key (a (parent i)) ≤ key (a j)

variable {key} {a : Nat → α} {n i : Nat}

theorem LightAt.swap (h : LightAt key a n i) (hi : i < n) (hpos : 0 < i)
    (hlt : key (a i) < key (a (parent i))) : LightAt key (swap a i (parent i)) n (parent i) := by
  have hp := parent_lt hpos
  constructor
  · intro j hj hjn hne
    by_cases hji : j = i
    · subst hji
      simpa using hlt.le
    · rw [swap_of_ne hji hne]
      by_cases hpi : parent j = i
      · rw [hpi, swap_left]
        exact h.below j hj hjn hpi hpos
      · by_cases hpp : parent j = parent i
        · rw [hpp, swap_right]
          exact hlt.le.trans (hpp ▸ h.heap j hj hjn hji)
        · rw [swap_of_ne hpi hpp]
          exact h.heap j hj hjn hji
  · intro j hj hjn hjp hpp
    have hgrand := parent_lt hpp
    have hparent := h.heap (parent i) hpp (by omega) hp.ne
    rw [swap_of_ne (by omega) hgrand.ne]
    by_cases hji : j = i
    · subst hji
      simpa using hparent
    · have hjj := parent_lt hj
      rw [swap_of_ne hji (by omega)]
      exact hparent.trans (hjp ▸ h.heap j hj hjn hji)

theorem LightAt.siftUp {fuel : Nat} (h : LightAt key a n i) (hi : i < n) (hfuel : i ≤ fuel) :
    IsHeap key (siftUp key fuel a i) n := by
  induction fuel generalizing a i with
  | zero => exact fun j hj hjn => h.heap j hj hjn (by omega)
  | succ fuel ih =>
    rw [BinaryHeap.siftUp]
    split
    · rename_i hmove
      have hp := parent_lt hmove.1
      exact ih (h.swap hi hmove.1 hmove.2) (by omega) (by omega)
    · rename_i hstay
      intro j hj hjn
      by_cases hji : j = i
      · subst hji
        exact not_lt.mp fun hlt => hstay ⟨hj, hlt⟩
      · exact h.heap j hj hjn hji

theorem elems_siftUp {fuel : Nat} (hi : i < n) : elems (siftUp key fuel a i) n = elems a n := by
  induction fuel generalizing a i with
  | zero => rfl
  | succ fuel ih =>
    rw [siftUp]
    split
    · rename_i hmove
      have hp := parent_lt hmove.1
      rw [ih (by omega), elems_swap a hi (by omega)]
    · rfl

def minChild (key : α → κ) (a : Nat → α) (n i : Nat) : Nat :=
  if 2 * i + 2 < n ∧ key (a (2 * i + 2)) < key (a (2 * i + 1)) then 2 * i + 2 else 2 * i + 1

theorem minChild_spec (key : α → κ) (h : 2 * i + 1 < n) :
    minChild key a n i < n ∧ 0 < minChild key a n i ∧ parent (minChild key a n i) = i ∧
      ∀ j, 0 < j → j < n → parent j = i → key (a (minChild key a n i)) ≤ key (a j) := by
  rw [minChild]
  split
  · rename_i hright
    refine ⟨hright.1, by omega, (parent_eq_iff (by omega)).mpr (Or.inr rfl), ?_⟩
    intro j hj hjn hji
    rcases (parent_eq_iff hj).mp hji with rfl | rfl
    · exact hright.2.le
    · exact le_refl _
  · rename_i hleft
    refine ⟨h, by omega, (parent_eq_iff (by omega)).mpr (Or.inl rfl), ?_⟩
    intro j hj hjn hji
    rcases (parent_eq_iff hj).mp hji with rfl | rfl
    · exact le_refl _
    · exact not_lt.mp fun hlt => hleft ⟨hjn, hlt⟩

/-- Move the element at place `i` down while a child has a smaller key. -/
def siftDown (key : α → κ) (n : Nat) : Nat → (Nat → α) → Nat → Nat → α
  | 0, a, _ => a
  | fuel + 1, a, i =>
    if 2 * i + 1 < n ∧ key (a (minChild key a n i)) < key (a i) then
      siftDown key n fuel (swap a i (minChild key a n i)) (minChild key a n i)
    else a

/-- A heap but for place `i`, whose key may be too large. -/
structure HeavyAt (key : α → κ) (a : Nat → α) (n i : Nat) : Prop where
  heap : ∀ j, 0 < j → j < n → parent j ≠ i → key (a (parent j)) ≤ key (a j)
  below : ∀ j, 0 < j → j < n → parent j = i → 0 < i → key (a (parent i)) ≤ key (a j)

theorem HeavyAt.swap (h : HeavyAt key a n i) (hchild : 2 * i + 1 < n)
    (hlt : key (a (minChild key a n i)) < key (a i)) :
    HeavyAt key (swap a i (minChild key a n i)) n (minChild key a n i) := by
  obtain ⟨hcn, hcpos, hci, hmin⟩ := minChild_spec key (a := a) hchild
  generalize minChild key a n i = c at hcn hcpos hci hmin hlt
  have hic : i < c := by
    rw [← hci]
    exact parent_lt hcpos
  constructor
  · intro j hj hjn hjc
    have hjp := parent_lt hj
    by_cases hji : j = i
    · subst hji
      rw [swap_of_ne hjp.ne (by omega), swap_left]
      exact h.below c hcpos hcn hci hj
    · by_cases hjeq : j = c
      · subst hjeq
        rw [hci, swap_left, swap_right]
        exact hlt.le
      · rw [swap_of_ne hji hjeq]
        by_cases hpi : parent j = i
        · rw [hpi, swap_left]
          exact hmin j hj hjn hpi
        · rw [swap_of_ne hpi hjc]
          exact h.heap j hj hjn hpi
  · intro j hj hjn hjc _
    have hjp := parent_lt hj
    rw [hci, swap_left, swap_of_ne (by omega) (by omega)]
    have hstep := h.heap j hj hjn (by omega)
    rwa [hjc] at hstep

theorem HeavyAt.siftDown {fuel : Nat} (h : HeavyAt key a n i) (hfuel : n ≤ fuel + i) :
    IsHeap key (siftDown key n fuel a i) n := by
  induction fuel generalizing a i with
  | zero =>
    intro j hj hjn
    have hjp := (parent_eq_iff (i := i) hj).mp
    apply h.heap j hj hjn
    intro hji
    rcases hjp hji with hji | hji <;> omega
  | succ fuel ih =>
    rw [BinaryHeap.siftDown]
    split
    · rename_i hmove
      obtain ⟨-, hcpos, hci, -⟩ := minChild_spec key (a := a) hmove.1
      have hic := parent_lt hcpos
      exact ih (h.swap hmove.1 hmove.2) (by omega)
    · rename_i hstay
      intro j hj hjn
      by_cases hji : parent j = i
      · have hchild : 2 * i + 1 < n := by
          rcases (parent_eq_iff hj).mp hji with hji | hji <;> omega
        obtain ⟨-, -, -, hmin⟩ := minChild_spec key (a := a) hchild
        rw [hji]
        exact (not_lt.mp fun hlt => hstay ⟨hchild, hlt⟩).trans (hmin j hj hjn hji)
      · exact h.heap j hj hjn hji

theorem elems_siftDown {fuel : Nat} (hi : i < n) :
    elems (siftDown key n fuel a i) n = elems a n := by
  induction fuel generalizing a i with
  | zero => rfl
  | succ fuel ih =>
    rw [siftDown]
    split
    · rename_i hmove
      have hcn := (minChild_spec key (a := a) hmove.1).1
      rw [ih hcn, elems_swap a hi hcn]
    · rfl

/-- The element at the last of `n` places joins the heap before it. -/
def pushHeap (key : α → κ) (a : Nat → α) (n : Nat) : Nat → α := siftUp key (n - 1) a (n - 1)

theorem pushHeap_isHeap (h : IsHeap key a n) : IsHeap key (pushHeap key a (n + 1)) (n + 1) := by
  apply LightAt.siftUp ?_ (Nat.lt_succ_self n) (Nat.le_refl n)
  constructor
  · intro j hj hjn hne
    have hjn : j ≠ n := hne
    exact h j hj (by omega)
  · intro j hj hjn hjp _
    have hjp : parent j = n := hjp
    have hlt := parent_lt hj
    omega

theorem elems_pushHeap (key : α → κ) (a : Nat → α) (n : Nat) :
    elems (pushHeap key a (n + 1)) (n + 1) = elems a (n + 1) :=
  elems_siftUp (Nat.lt_succ_self n)

/-- The first of `n` elements is taken out of the heap and put at the last place. -/
def popHeap (key : α → κ) (a : Nat → α) (n : Nat) : Nat → α :=
  siftDown key (n - 1) n (swap a 0 (n - 1)) 0

theorem popHeap_isHeap (h : IsHeap key a (n + 1)) : IsHeap key (popHeap key a (n + 1)) n := by
  apply HeavyAt.siftDown ?_ (Nat.le_succ n)
  constructor
  · intro j hj hjn hne
    have hjn : j < n := hjn
    have hjp := parent_lt hj
    rw [swap_of_ne hne (by omega), swap_of_ne hj.ne' (by omega)]
    exact h j hj (by omega)
  · intro j _ _ _ hpos
    exact absurd hpos (Nat.lt_irrefl 0)

theorem elems_popHeap (key : α → κ) (a : Nat → α) (n : Nat) :
    elems a (n + 1) = a 0 ::ₘ elems (popHeap key a (n + 1)) n := by
  rw [← elems_swap a (Nat.succ_pos n) (Nat.lt_succ_self n), elems_succ, swap_right]
  congr 1
  by_cases hpos : 0 < n
  · exact (elems_siftDown hpos).symm
  · obtain rfl := Nat.eq_zero_of_not_pos hpos
    rfl

end BinaryHeap
