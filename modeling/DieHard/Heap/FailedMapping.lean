import DieHard.Heap.LargeHeap

/-!
# Failed mappings

`LargeHeap::malloc` passes the answer of `Mapper::map` to `set`, also when it is null: the pages of the
request are then entered from address 0 on.
-/

namespace DieHard

namespace LargeHeap

/-- A failed request returns null, and changes nothing if and only if the map had the sizes of its pages
at address 0 before. -/
theorem malloc_null_iff (cfg : HeapConfig) (sz : Nat) (h : LargeHeap) :
    malloc cfg sz 0 h = (0, h) ↔
      ∀ i < iterations cfg sz, h.get (i * cfg.pageSize) = sz - i * cfg.pageSize := by
  have hget (a : Addr) : (set cfg 0 sz h).get a =
      if ∃ i < iterations cfg sz, a = 0 + i * cfg.pageSize then
        sz - (a - 0) / cfg.pageSize * cfg.pageSize
      else h.get a := get_fold 0 _ h _ a
  have hpage {i : Nat} (hi : i < iterations cfg sz) :
      (set cfg 0 sz h).get (i * cfg.pageSize) = sz - i * cfg.pageSize := by
    rw [hget, if_pos ⟨i, hi, (Nat.zero_add _).symm⟩, Nat.sub_zero,
      Nat.mul_div_cancel _ cfg.pageSize_pos]
  constructor
  · intro hsame i hi
    rw [← hpage hi, show set cfg 0 sz h = h from congrArg Prod.snd hsame]
  · intro hold
    have hheap : set cfg 0 sz h = h := by
      apply congrArg mk
      funext a
      show (set cfg 0 sz h).get a = h.get a
      by_cases ha : ∃ i < iterations cfg sz, a = i * cfg.pageSize
      · obtain ⟨i, hi, rfl⟩ := ha
        rw [hpage hi, hold i hi]
      · rw [hget, if_neg]
        simpa using ha
    rw [malloc, hheap]

/-- After a failed request of one page the null pointer is an object, which a free unmaps. -/
theorem not_unchanged :
    (¬ ∀ sz h, malloc (.libdieharder false false) sz 0 h = (0, h)) ∧
      (malloc (.libdieharder false false) 4096 0 .empty).2.getSize 0 = 4096 ∧
      (free (.libdieharder false false) 0
        (malloc (.libdieharder false false) 4096 0 .empty).2).1 = some 4096 := by
  refine ⟨?_, by decide, by decide⟩
  intro hsame
  have hnull := (malloc_null_iff _ _ _).mp (hsame 4096 .empty) 0 (by decide)
  contradiction

end LargeHeap

end DieHard
