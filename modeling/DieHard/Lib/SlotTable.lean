import Mathlib.Tactic
import Mathlib.Data.List.Perm.Basic

/-!
# Tables of slots

A slot of a table has a value or is empty. Storing a value in a slot changes the contents by it and by the
value from before.
-/

namespace SlotTable

variable {ι α : Type*}

def contents (slots : List ι) (t : ι → Option α) : List α := slots.filterMap t

variable {slots : List ι} {t : ι → Option α} {i : ι} {a b : α}

@[simp] theorem contents_nil (t : ι → Option α) : contents [] t = [] := rfl

theorem mem_contents : a ∈ contents slots t ↔ ∃ i ∈ slots, t i = some a := List.mem_filterMap

variable [DecidableEq ι]

/-- The value `a` is put into slot `i`. -/
def store (t : ι → Option α) (i : ι) (a : α) : ι → Option α := Function.update t i (some a)

@[simp] theorem store_self (t : ι → Option α) (i : ι) (a : α) : store t i a i = some a :=
  Function.update_self ..

theorem store_of_ne {j : ι} (h : j ≠ i) : store t i a j = t j := Function.update_of_ne h ..

theorem contents_store_of_not_mem (hi : i ∉ slots) : contents slots (store t i a) = contents slots t := by
  apply List.filterMap_congr
  intro j hj
  exact store_of_ne fun heq => hi (heq ▸ hj)

theorem contents_perm (hi : i ∈ slots) :
    (contents slots t).Perm ((t i).toList ++ contents (slots.erase i) t) := by
  have hperm := (List.perm_cons_erase hi).filterMap t
  refine hperm.trans ?_
  rw [contents, List.filterMap_cons]
  cases t i <;> rfl

theorem contents_store_perm (hn : slots.Nodup) (hi : i ∈ slots) :
    (contents slots (store t i a)).Perm (a :: contents (slots.erase i) t) := by
  have hperm := contents_perm hi (t := store t i a)
  rwa [store_self, contents_store_of_not_mem hn.not_mem_erase] at hperm

theorem contents_store_empty (hn : slots.Nodup) (hi : i ∈ slots) (h : t i = none) :
    (contents slots (store t i a)).Perm (a :: contents slots t) := by
  have hperm := contents_perm hi (t := t)
  rw [h] at hperm
  exact (contents_store_perm hn hi).trans (hperm.symm.cons a)

theorem contents_store_full (hn : slots.Nodup) (hi : i ∈ slots) (h : t i = some b) :
    (b :: contents slots (store t i a)).Perm (a :: contents slots t) := by
  have hperm := contents_perm hi (t := t)
  rw [h] at hperm
  have hswap := ((contents_store_perm (t := t) (a := a) hn hi).cons b).trans (List.Perm.swap a b _)
  exact hswap.trans (hperm.symm.cons a)

end SlotTable
