import DieHard.Lib.Blocks
import Mathlib.Data.List.Perm.Basic

/-!
# Lists of runs

Each element of a list stands for a run of units, from `start` on and `len` long. A packed list has
nonempty runs, no two of which share a unit.
-/

namespace Runs

variable {α : Type*} (start len : α → Nat)

def InRun (a : α) (i : Nat) : Prop := start a ≤ i ∧ i < start a + len a

def Covers (l : List α) (i : Nat) : Prop := ∃ a ∈ l, InRun start len a i

def RunsApart (a b : α) : Prop := Blocks.Apart (start a) (len a) (start b) (len b)

structure Packed (l : List α) : Prop where
  pos : ∀ a ∈ l, 0 < len a
  apart : l.Pairwise (RunsApart start len)

variable {start len} {l : List α} {a : α} {i : Nat}

theorem RunsApart.symm {b : α} (h : RunsApart start len a b) : RunsApart start len b a :=
  Blocks.Apart.symm h

theorem packed_nil : Packed start len ([] : List α) := ⟨by simp, .nil⟩

theorem covers_cons : Covers start len (a :: l) i ↔ InRun start len a i ∨ Covers start len l i := by
  simp [Covers]

/-- A run of units that no run of the list has may be added. -/
theorem Packed.cons (h : Packed start len l) (hpos : 0 < len a)
    (hfree : ∀ i, InRun start len a i → ¬ Covers start len l i) : Packed start len (a :: l) := by
  constructor
  · intro b hb
    cases hb with
    | head => exact hpos
    | tail _ hb => exact h.pos b hb
  · refine List.pairwise_cons.mpr ⟨?_, h.apart⟩
    intro b hb
    by_contra hmeet
    obtain ⟨i, hia, hib⟩ := Blocks.exists_common hpos (h.pos b hb) hmeet
    exact hfree i hia ⟨b, hb, hib⟩

variable [DecidableEq α]

theorem Packed.erase (h : Packed start len l) (a : α) : Packed start len (l.erase a) where
  pos b hb := h.pos b (List.mem_of_mem_erase hb)
  apart := h.apart.sublist List.erase_sublist

/-- The runs that remain have the units that the removed run does not. -/
theorem Packed.covers_erase (h : Packed start len l) (ha : a ∈ l) :
    Covers start len (l.erase a) i ↔ Covers start len l i ∧ ¬ InRun start len a i := by
  have hperm := List.perm_cons_erase ha
  have hapart : (a :: l.erase a).Pairwise (RunsApart start len) :=
    (hperm.pairwise_iff fun hab => hab.symm).mp h.apart
  have hcovers : Covers start len l i ↔ Covers start len (a :: l.erase a) i := by
    simp only [Covers, hperm.mem_iff]
  rw [hcovers, covers_cons]
  constructor
  · intro hi
    refine ⟨Or.inr hi, ?_⟩
    intro hia
    obtain ⟨b, hb, hib⟩ := hi
    have hab := (List.pairwise_cons.mp hapart).1 b hb
    simp only [RunsApart, Blocks.Apart] at hab
    simp only [InRun] at hia hib
    omega
  · intro hi
    exact hi.1.resolve_left hi.2

end Runs
