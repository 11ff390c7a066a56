import DieHard.Heap.Config

/-!
# Large objects

`LargeHeap` maps each large object by itself and records, for every page of an object, the size left
from that page on.
-/

namespace DieHard

/-- `_objectSize`; an address without an entry has size `0`. -/
structure LargeHeap where
  objectSize : Addr → Nat

namespace LargeHeap

def empty : LargeHeap := ⟨fun _ => 0⟩

def get (h : LargeHeap) (ptr : Addr) : Nat := h.objectSize ptr

def getSize (h : LargeHeap) (ptr : Addr) : Nat := h.get ptr

variable (cfg : HeapConfig)

/-- The turns of the loops of `set` and `clear`. The quotient is a `size_t`, `iterations` an `int`. -/
def iterations (sz : Nat) : Nat :=
  (BitVec.ofNat 32 ((sz + cfg.pageSize - 1) % 2 ^ 64 / cfg.pageSize)).toInt.toNat

def pages (sz : Nat) : Nat := (sz + cfg.pageSize - 1) / cfg.pageSize

/-- The bytes that `Mapper::map(sz)` maps. -/
def extent (sz : Nat) : Nat := pages cfg sz * cfg.pageSize

/-- The number of pages fits the `int`, and rounding up does not overflow. -/
structure Fits (sz : Nat) : Prop where
  roundUp_le : sz + cfg.pageSize ≤ 2 ^ 64
  pages_lt : pages cfg sz < 2 ^ 31

instance (cfg : HeapConfig) (sz : Nat) : Decidable (Fits cfg sz) :=
  decidable_of_iff (sz + cfg.pageSize ≤ 2 ^ 64 ∧ pages cfg sz < 2 ^ 31)
    ⟨fun hf => ⟨hf.1, hf.2⟩, fun hf => ⟨hf.1, hf.2⟩⟩

/-- The map entry of an address becomes `sz`. -/
def enter (h : LargeHeap) (ptr : Addr) (sz : Nat) : LargeHeap :=
  ⟨Function.update h.objectSize ptr sz⟩

def set (ptr : Addr) (sz : Nat) (h : LargeHeap) : LargeHeap :=
  (List.range (iterations cfg sz)).foldl
    (fun h i => h.enter (ptr + i * cfg.pageSize) (sz - i * cfg.pageSize)) h

def clear (ptr : Addr) (h : LargeHeap) : LargeHeap :=
  (List.range (iterations cfg (h.get ptr))).foldl
    (fun h i => h.enter (ptr + i * cfg.pageSize) 0) h

/-- `malloc`, where `ptr` is the answer of `Mapper::map(sz)`. -/
def malloc (sz : Nat) (ptr : Addr) (h : LargeHeap) : Addr × LargeHeap := (ptr, set cfg ptr sz h)

/-- `free`, with the length that `Mapper::unmap` gives back when the call returns true. -/
def free (ptr : Addr) (h : LargeHeap) : Option Nat × LargeHeap :=
  let sz := h.get ptr
  if 0 < sz then (some sz, clear cfg ptr h) else (none, h)

variable {cfg} {h : LargeHeap} {ptr a sz : Nat}

theorem iterations_eq_ite (cfg : HeapConfig) (sz : Nat) : iterations cfg sz =
    if (sz + cfg.pageSize - 1) % 2 ^ 64 / cfg.pageSize % 2 ^ 32 < 2 ^ 31 then
      (sz + cfg.pageSize - 1) % 2 ^ 64 / cfg.pageSize % 2 ^ 32
    else 0 := by
  rw [iterations, BitVec.toInt_eq_toNat_cond, BitVec.toNat_ofNat]
  split <;> split <;> omega

theorem iterations_le (cfg : HeapConfig) (sz : Nat) : iterations cfg sz ≤ pages cfg sz := by
  have hle : (sz + cfg.pageSize - 1) % 2 ^ 64 / cfg.pageSize ≤ pages cfg sz :=
    Nat.div_le_div_right (Nat.mod_le _ _)
  rw [iterations_eq_ite]
  split
  · exact (Nat.mod_le _ _).trans hle
  · exact Nat.zero_le _

theorem iterations_eq (hf : Fits cfg sz) : iterations cfg sz = pages cfg sz := by
  have hpos := cfg.pageSize_pos
  have hle := hf.roundUp_le
  have hlt := hf.pages_lt
  have hquot : (sz + cfg.pageSize - 1) % 2 ^ 64 / cfg.pageSize = pages cfg sz := by
    rw [Nat.mod_eq_of_lt (by omega), pages]
  rw [iterations_eq_ite, hquot]
  split <;> omega

theorem lt_pages {i : Nat} (hi : i < pages cfg sz) : i * cfg.pageSize < sz := by
  have hpos := cfg.pageSize_pos
  rw [pages, Nat.lt_div_iff_mul_lt hpos] at hi
  omega

theorem le_extent (cfg : HeapConfig) (sz : Nat) : sz ≤ extent cfg sz := by
  have hpos := cfg.pageSize_pos
  have hdm := Nat.div_add_mod (sz + cfg.pageSize - 1) cfg.pageSize
  have hml := Nat.mod_lt (sz + cfg.pageSize - 1) hpos
  rw [extent, pages, Nat.mul_comm]
  omega

theorem Fits.iterations_pos (hf : Fits cfg sz) (hsz : 0 < sz) : 0 < iterations cfg sz := by
  have hpos := cfg.pageSize_pos
  rw [iterations_eq hf, pages]
  exact Nat.div_pos (by omega) hpos

theorem iterations_sub {i : Nat} (hi : i < iterations cfg sz) :
    iterations cfg (sz - i * cfg.pageSize) = iterations cfg sz - i := by
  have hpos := cfg.pageSize_pos
  have hin := lt_pages (hi.trans_le (iterations_le cfg sz))
  rw [iterations_eq_ite] at hi
  have hquot : i ≤ (sz + cfg.pageSize - 1) % 2 ^ 64 / cfg.pageSize := by
    split at hi
    · exact hi.le.trans (Nat.mod_le _ _)
    · exact absurd hi (Nat.not_lt_zero i)
  have hmul := Nat.mul_le_of_le_div _ _ _ hquot
  have hrest : (sz - i * cfg.pageSize + cfg.pageSize - 1) % 2 ^ 64 =
      (sz + cfg.pageSize - 1) % 2 ^ 64 - cfg.pageSize * i := by
    rw [Nat.mul_comm cfg.pageSize i]
    omega
  rw [iterations_eq_ite, iterations_eq_ite, hrest, Nat.sub_mul_div]
  generalize (sz + cfg.pageSize - 1) % 2 ^ 64 / cfg.pageSize = quotient at hi
  split at hi <;> split <;> omega

theorem get_enter (h : LargeHeap) (ptr sz a : Nat) :
    (h.enter ptr sz).get a = if a = ptr then sz else h.get a := by
  simp only [get, enter, Function.update_apply]

theorem get_fold (ptr : Addr) (size : Nat → Nat) (h : LargeHeap) (n a : Nat) :
    ((List.range n).foldl (fun h i => h.enter (ptr + i * cfg.pageSize) (size i)) h).get a =
      if ∃ i < n, a = ptr + i * cfg.pageSize then size ((a - ptr) / cfg.pageSize) else h.get a := by
  induction n with
  | zero => simp
  | succ n ih =>
    rw [List.range_succ, List.foldl_append, List.foldl_cons, List.foldl_nil, get_enter, ih]
    by_cases ha : a = ptr + n * cfg.pageSize
    · have hdiv : (a - ptr) / cfg.pageSize = n := by
        rw [ha, Nat.add_sub_cancel_left, Nat.mul_div_cancel _ cfg.pageSize_pos]
      rw [if_pos ha, if_pos ⟨n, Nat.lt_succ_self n, ha⟩, hdiv]
    · have hiff : (∃ i < n + 1, a = ptr + i * cfg.pageSize) ↔
          ∃ i < n, a = ptr + i * cfg.pageSize := by
        constructor
        · rintro ⟨i, hi, he⟩
          have hin : i ≠ n := fun h => ha (by rw [he, h])
          exact ⟨i, by omega, he⟩
        · rintro ⟨i, hi, he⟩
          exact ⟨i, by omega, he⟩
      simp only [if_neg ha, hiff]

/-- `a` is one of the page addresses of an object of `sz` bytes at `ptr`. -/
def IsPage (cfg : HeapConfig) (ptr : Addr) (sz : Nat) (a : Addr) : Prop :=
  ∃ i < pages cfg sz, a = ptr + i * cfg.pageSize

theorem IsPage.lt (ha : IsPage cfg ptr sz a) : ptr ≤ a ∧ a < ptr + sz := by
  obtain ⟨i, hi, rfl⟩ := ha
  have hin := lt_pages hi
  exact ⟨Nat.le_add_right _ _, by omega⟩

theorem isPage_iff : IsPage cfg ptr sz a ↔ ptr ≤ a ∧ a < ptr + sz ∧ cfg.pageSize ∣ a - ptr := by
  constructor
  · intro h
    obtain ⟨hle, hlt⟩ := h.lt
    obtain ⟨i, -, rfl⟩ := h
    exact ⟨hle, hlt, by rw [Nat.add_sub_cancel_left]; exact Nat.dvd_mul_left _ _⟩
  · rintro ⟨hle, hlt, i, hi⟩
    have hpos := cfg.pageSize_pos
    rw [Nat.mul_comm] at hi
    refine ⟨i, ?_, (Nat.sub_eq_iff_eq_add' hle).mp hi⟩
    rw [pages, Nat.lt_div_iff_mul_lt hpos]
    omega

instance (cfg : HeapConfig) (ptr sz a : Nat) : Decidable (IsPage cfg ptr sz a) :=
  decidable_of_iff _ isPage_iff.symm

/-- The loops have a turn for the page `a` of an object of `sz` bytes at `ptr`. -/
def Entered (cfg : HeapConfig) (ptr : Addr) (sz : Nat) (a : Addr) : Prop :=
  ∃ i < iterations cfg sz, a = ptr + i * cfg.pageSize

theorem Entered.isPage (ha : Entered cfg ptr sz a) : IsPage cfg ptr sz a := by
  obtain ⟨i, hi, rfl⟩ := ha
  exact ⟨i, hi.trans_le (iterations_le cfg sz), rfl⟩

theorem Fits.entered_iff (hf : Fits cfg sz) : Entered cfg ptr sz a ↔ IsPage cfg ptr sz a := by
  rw [Entered, iterations_eq hf, IsPage]

theorem entered_self (hpos : 0 < iterations cfg sz) : Entered cfg ptr sz ptr :=
  ⟨0, hpos, by rw [Nat.zero_mul, Nat.add_zero]⟩

theorem get_set_entered (ha : Entered cfg ptr sz a) : (set cfg ptr sz h).get a = sz - (a - ptr) := by
  have hdvd : (a - ptr) / cfg.pageSize * cfg.pageSize = a - ptr := by
    obtain ⟨i, -, rfl⟩ := ha
    rw [Nat.add_sub_cancel_left, Nat.mul_div_cancel _ cfg.pageSize_pos]
  rw [set, get_fold]
  refine (if_pos ha).trans ?_
  rw [hdvd]

theorem get_set_other (ha : ¬ Entered cfg ptr sz a) : (set cfg ptr sz h).get a = h.get a := by
  rw [set, get_fold]
  exact if_neg ha

theorem get_clear_entered (ha : Entered cfg ptr (h.get ptr) a) : (clear cfg ptr h).get a = 0 := by
  rw [clear, get_fold]
  exact if_pos ha

theorem get_clear_other (ha : ¬ Entered cfg ptr (h.get ptr) a) :
    (clear cfg ptr h).get a = h.get a := by
  rw [clear, get_fold]
  exact if_neg ha

theorem get_ne_zero_of_clear (ha : (clear cfg ptr h).get a ≠ 0) : h.get a ≠ 0 := by
  by_cases hp : Entered cfg ptr (h.get ptr) a
  · exact absurd (get_clear_entered hp) ha
  · rwa [get_clear_other hp] at ha

def HasPages (cfg : HeapConfig) (h : LargeHeap) : Prop := ∀ a, h.get a ≠ 0 → 0 < iterations cfg (h.get a)

theorem HasPages.set (hp : h.HasPages cfg) : (h.set cfg ptr sz).HasPages cfg := by
  intro a ha
  by_cases hpage : Entered cfg ptr sz a
  · rw [get_set_entered hpage]
    obtain ⟨i, hi, rfl⟩ := hpage
    rw [Nat.add_sub_cancel_left, iterations_sub hi]
    omega
  · rw [get_set_other hpage] at ha ⊢
    exact hp a ha

theorem HasPages.clear (hp : h.HasPages cfg) : (h.clear cfg ptr).HasPages cfg := by
  intro a ha
  by_cases hpage : Entered cfg ptr (h.get ptr) a
  · exact absurd (get_clear_entered hpage) ha
  · rw [get_clear_other hpage] at ha ⊢
    exact hp a ha

theorem HasPages.free (hp : h.HasPages cfg) : (h.free cfg ptr).2.HasPages cfg := by
  rw [LargeHeap.free]
  split
  · exact hp.clear
  · exact hp

theorem HasPages.get_clear_self (hp : h.HasPages cfg) (hne : h.get ptr ≠ 0) :
    (LargeHeap.clear cfg ptr h).get ptr = 0 :=
  get_clear_entered (entered_self (hp ptr hne))

end LargeHeap

end DieHard
