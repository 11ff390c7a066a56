import Mathlib.Tactic

/-!
# Equal slots in equal blocks

A layout cuts each of its blocks into `per` slots of `size` bytes and numbers the slots block by
block. In a family of layouts whose blocks are pairwise disjoint an address lies in at most one
slot, and distinct slots are disjoint.
-/

namespace Blocks

def Apart (a m b n : Nat) : Prop := a + m ≤ b ∨ b + n ≤ a

instance (a m b n : Nat) : Decidable (Apart a m b n) :=
  inferInstanceAs (Decidable (a + m ≤ b ∨ b + n ≤ a))

theorem Apart.symm {a m b n : Nat} (h : Apart a m b n) : Apart b n a m := Or.symm h

theorem not_apart_self {a m n : Nat} (hm : 0 < m) (hn : 0 < n) : ¬ Apart a m a n := by
  intro h
  rcases h with hle | hle <;> omega

theorem exists_common {a m b n : Nat} (hm : 0 < m) (hn : 0 < n) (h : ¬ Apart a m b n) :
    ∃ p, (a ≤ p ∧ p < a + m) ∧ b ≤ p ∧ p < b + n := by
  simp only [Apart, not_or, Nat.not_le] at h
  -- the larger of the two starts lies in both ranges
  exact ⟨max a b, ⟨by omega, by omega⟩, by omega, by omega⟩

structure Layout where
  size : Nat
  per : Nat
  count : Nat
  base : Nat → Nat
  size_pos : 0 < size
  per_pos : 0 < per

namespace Layout

variable (L : Layout)

def bytes : Nat := L.per * L.size

def slots : Nat := L.count * L.per

/-- The first byte of slot `i`. -/
def addr (i : Nat) : Nat := L.base (i / L.per) + i % L.per * L.size

def InBlock (j p : Nat) : Prop := j < L.count ∧ L.base j ≤ p ∧ p < L.base j + L.bytes

def Contains (i p : Nat) : Prop := i < L.slots ∧ L.addr i ≤ p ∧ p < L.addr i + L.size

instance (j p : Nat) : Decidable (L.InBlock j p) := inferInstanceAs (Decidable (_ ∧ _))

instance (i p : Nat) : Decidable (L.Contains i p) := inferInstanceAs (Decidable (_ ∧ _))

/-- The slot of an address in block `j`. -/
def index (j p : Nat) : Nat := j * L.per + (p - L.base j) / L.size

def slotOf (p : Nat) : Option Nat :=
  ((List.range L.count).find? fun j => decide (L.InBlock j p)).map fun j => L.index j p

variable {L} {i j p : Nat}

theorem contains_addr (hi : i < L.slots) : L.Contains i (L.addr i) :=
  ⟨hi, Nat.le_refl _, Nat.lt_add_of_pos_right L.size_pos⟩

theorem slot_end_le (i : Nat) : i % L.per * L.size + L.size ≤ L.bytes := by
  have hlt := Nat.mod_lt i L.per_pos
  calc i % L.per * L.size + L.size = (i % L.per + 1) * L.size := by ring
    _ ≤ L.bytes := Nat.mul_le_mul_right _ hlt

theorem block_lt (hi : i < L.slots) : i / L.per < L.count :=
  Nat.div_lt_of_lt_mul (by rwa [slots, Nat.mul_comm] at hi)

theorem Contains.inBlock (h : L.Contains i p) : L.InBlock (i / L.per) p := by
  obtain ⟨hi, hle, hlt⟩ := h
  have hend := L.slot_end_le i
  simp only [addr] at hle hlt
  exact ⟨block_lt hi, by omega, by omega⟩

theorem Contains.index_eq (h : L.Contains i p) : L.index (i / L.per) p = i := by
  obtain ⟨-, hle, hlt⟩ := h
  simp only [addr] at hle hlt
  have hdiv : (p - L.base (i / L.per)) / L.size = i % L.per := by
    refine Nat.div_eq_of_lt_le (by omega) ?_
    rw [Nat.add_mul, Nat.one_mul]
    omega
  rw [index, hdiv, Nat.mul_comm]
  exact Nat.div_add_mod i L.per

theorem InBlock.contains (h : L.InBlock j p) : L.Contains (L.index j p) p := by
  obtain ⟨hj, hle, hlt⟩ := h
  have hq : (p - L.base j) / L.size < L.per := by
    rw [Nat.div_lt_iff_lt_mul L.size_pos]
    simp only [bytes] at hlt
    omega
  have hblock : L.index j p / L.per = j := by
    rw [index, Nat.mul_comm, Nat.mul_add_div L.per_pos, Nat.div_eq_of_lt hq, Nat.add_zero]
  have hslot : L.index j p % L.per = (p - L.base j) / L.size := by
    rw [index, Nat.mul_comm, Nat.mul_add_mod, Nat.mod_eq_of_lt hq]
  have hdm := Nat.div_add_mod (p - L.base j) L.size
  have hml := Nat.mod_lt (p - L.base j) L.size_pos
  rw [Nat.mul_comm] at hdm
  refine ⟨?_, ?_, ?_⟩
  · calc L.index j p < j * L.per + L.per := Nat.add_lt_add_left hq _
      _ = (j + 1) * L.per := by ring
      _ ≤ L.slots := Nat.mul_le_mul_right _ hj
  · simp only [addr, hblock, hslot]
    omega
  · simp only [addr, hblock, hslot]
    omega

theorem contains_of_slotOf (h : L.slotOf p = some i) : L.Contains i p := by
  obtain ⟨j, hj, rfl⟩ := Option.map_eq_some_iff.mp h
  have hin := List.find?_some hj
  exact InBlock.contains (by simpa using hin)

/-- The distance of an address of a slot from the slot is its distance from the block, modulo the
slot size. -/
theorem Contains.sub_addr (h : L.Contains i p) :
    p - L.addr i = (p - L.base (i / L.per)) % L.size := by
  have hidx := h.index_eq
  obtain ⟨-, hle, hlt⟩ := h
  have hdiv : (p - L.base (i / L.per)) / L.size = i % L.per := by
    have hdm := Nat.div_add_mod i L.per
    rw [index, Nat.mul_comm] at hidx
    omega
  have hdm := Nat.div_add_mod (p - L.base (i / L.per)) L.size
  rw [hdiv, Nat.mul_comm] at hdm
  simp only [addr] at hle hlt ⊢
  omega

end Layout

section Family

variable {κ : Type*} (L : κ → Layout) (active : κ → Prop)

def Separate : Prop :=
  ∀ a b j k, active a → active b → j < (L a).count → k < (L b).count → (a, j) ≠ (b, k) →
    Apart ((L a).base j) (L a).bytes ((L b).base k) (L b).bytes

variable {L active} {a b : κ} {i j k p : Nat}

theorem Separate.block_unique (h : Separate L active) (ha : active a) (hb : active b)
    (hj : (L a).InBlock j p) (hk : (L b).InBlock k p) : a = b ∧ j = k := by
  by_contra hne
  have hapart := h a b j k ha hb hj.1 hk.1 (by simpa using hne)
  obtain ⟨-, hj1, hj2⟩ := hj
  obtain ⟨-, hk1, hk2⟩ := hk
  rcases hapart with h | h <;> omega

theorem Separate.slot_unique (h : Separate L active) (ha : active a) (hb : active b)
    (hi : (L a).Contains i p) (hk : (L b).Contains k p) : a = b ∧ i = k := by
  obtain ⟨hab, hblock⟩ := h.block_unique ha hb hi.inBlock hk.inBlock
  subst hab
  have h1 := hi.index_eq
  rw [hblock, hk.index_eq] at h1
  exact ⟨rfl, h1.symm⟩

theorem Separate.slotOf_index (h : Separate L active) (ha : active a) (hj : (L a).InBlock j p) :
    (L a).slotOf p = some ((L a).index j p) := by
  rcases hs : (L a).slotOf p with _ | i
  · rw [Layout.slotOf, Option.map_eq_none_iff, List.find?_eq_none] at hs
    exact absurd hj (by simpa using hs j (List.mem_range.mpr hj.1))
  · rw [(h.slot_unique ha ha (Layout.contains_of_slotOf hs) hj.contains).2]

theorem Separate.slotOf_eq_some (h : Separate L active) (ha : active a) :
    (L a).slotOf p = some i ↔ (L a).Contains i p := by
  refine ⟨Layout.contains_of_slotOf, ?_⟩
  intro hi
  rw [h.slotOf_index ha hi.inBlock, hi.index_eq]

theorem Separate.slots_apart (h : Separate L active) (ha : active a) (hb : active b)
    (hi : i < (L a).slots) (hk : k < (L b).slots) (hne : (a, i) ≠ (b, k)) :
    Apart ((L a).addr i) (L a).size ((L b).addr k) (L b).size := by
  by_contra hov
  obtain ⟨p, hp, hq⟩ := exists_common (L a).size_pos (L b).size_pos hov
  obtain ⟨hab, hik⟩ := h.slot_unique ha hb ⟨hi, hp⟩ ⟨hk, hq⟩
  exact hne (by rw [hab, hik])

end Family

end Blocks
