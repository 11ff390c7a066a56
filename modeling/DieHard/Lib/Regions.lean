import DieHard.Lib.Blocks

/-!
# Regions of memory

A family of regions, each with a start and a length, in which no two share a byte. A region may be replaced by one
that is apart from the others, and its front may become a region of its own.
-/

namespace Regions

open Blocks

variable {ι : Type*}

def Within (r s : Nat × Nat) : Prop := s.1 ≤ r.1 ∧ r.1 + r.2 ≤ s.1 + s.2

def ApartOf (r s : Nat × Nat) : Prop := Apart r.1 r.2 s.1 s.2

instance (r s : Nat × Nat) : Decidable (ApartOf r s) := inferInstanceAs (Decidable (Apart r.1 r.2 s.1 s.2))

def Separated (range : ι → Nat × Nat) (active : Set ι) : Prop :=
  active.Pairwise fun i j => ApartOf (range i) (range j)

variable {range : ι → Nat × Nat} {active : Set ι} {i k : ι} {r s t new : Nat × Nat} {m : Nat}

theorem Within.refl (r : Nat × Nat) : Within r r := ⟨Nat.le_refl _, Nat.le_refl _⟩

theorem Within.trans (h : Within r s) (h' : Within s t) : Within r t := ⟨h'.1.trans h.1, h.2.trans h'.2⟩

theorem ApartOf.symm (h : ApartOf r s) : ApartOf s r := Apart.symm h

theorem ApartOf.of_within {r' s' : Nat × Nat} (h : ApartOf r s) (hr : Within r' r) (hs : Within s' s) :
    ApartOf r' s' := by
  obtain ⟨hr, hr'⟩ := hr
  obtain ⟨hs, hs'⟩ := hs
  rcases h with h | h
  · exact Or.inl (by omega)
  · exact Or.inr (by omega)

theorem ApartOf.not_common {p : Nat} (h : ApartOf r s) (hr : r.1 ≤ p ∧ p < r.1 + r.2) :
    ¬ (s.1 ≤ p ∧ p < s.1 + s.2) := by
  rintro hs
  rcases h with h | h <;> omega

theorem Separated.apart {j : ι} (h : Separated range active) (hi : i ∈ active) (hj : j ∈ active) (hne : i ≠ j) :
    ApartOf (range i) (range j) := h hi hj hne

theorem Separated.congr {range' : ι → Nat × Nat} (h : Separated range active)
    (hsame : ∀ i ∈ active, range' i = range i) : Separated range' active := by
  intro i hi j hj hne
  rw [hsame i hi, hsame j hj]
  exact h hi hj hne

variable [DecidableEq ι]

/-- A region is replaced by one that is apart from the others. -/
theorem Separated.replace (h : Separated range active)
    (hnew : ∀ j ∈ active, j ≠ i → ApartOf new (range j)) :
    Separated (Function.update range i new) (insert i active) := by
  intro j hj l hl hne
  by_cases hji : j = i
  · subst hji
    have hl : l ∈ active := (Set.mem_insert_iff.mp hl).resolve_left (Ne.symm hne)
    simp only [Function.update_self, Function.update_of_ne (Ne.symm hne)]
    exact hnew l hl (Ne.symm hne)
  · have hja : j ∈ active := (Set.mem_insert_iff.mp hj).resolve_left hji
    by_cases hli : l = i
    · subst hli
      simp only [Function.update_self, Function.update_of_ne hji]
      exact (hnew j hja hji).symm
    · have hla : l ∈ active := (Set.mem_insert_iff.mp hl).resolve_left hli
      simp only [Function.update_of_ne hji, Function.update_of_ne hli]
      exact h hja hla hne

/-- The front of a region becomes one of its own. -/
theorem Separated.carve (h : Separated range active) (hi : i ∈ active)
    (hm : m ≤ (range i).2) :
    Separated (Function.update (Function.update range i ((range i).1 + m, (range i).2 - m)) k ((range i).1, m))
      (insert k active) := by
  have hrest : Within ((range i).1 + m, (range i).2 - m) (range i) := ⟨by simp, by dsimp only; omega⟩
  have hfront : Within ((range i).1, m) (range i) := ⟨Nat.le_refl _, Nat.add_le_add_left hm _⟩
  have hshrunk : Separated (Function.update range i ((range i).1 + m, (range i).2 - m)) active := by
    have hreplaced := h.replace (i := i) fun j hj hji =>
      ApartOf.of_within (h hi hj (Ne.symm hji)) hrest (Within.refl _)
    rwa [Set.insert_eq_of_mem hi] at hreplaced
  apply hshrunk.replace
  intro j hj hjk
  by_cases hji : j = i
  · subst hji
    rw [Function.update_self]
    exact Or.inl (Nat.le_refl _)
  · rw [Function.update_of_ne hji]
    exact ApartOf.of_within (h hi hj (Ne.symm hji)) hfront (Within.refl _)

end Regions
