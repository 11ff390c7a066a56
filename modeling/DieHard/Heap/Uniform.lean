import DieHard.Heap.Counters
import DieHard.Lib.Counting

/-!
# Uniform slots

`getObject` draws twice: the first number picks a miniheap through a mask and a logarithm, the second a
slot of that miniheap. A miniheap comes up as often as it has slots, so over all pairs of 32-bit numbers
every slot of every active miniheap comes up equally often.
-/

namespace DieHard

open Counting

variable {cfg : HeapConfig} {owner cls : Nat} {h : RandomHeap}

namespace RandomHeap

/-- The miniheap and the slot that the numbers of `getObject` select. -/
def selected (cfg : HeapConfig) (owner cls : Nat) (h : RandomHeap) (random : Nat × Nat) : Nat × Nat :=
  (h.chosenMiniHeap random.1,
    modulo (cfg.nObjects ⟨owner, cls, h.chosenMiniHeap random.1⟩) random.2)

def timesSelected (cfg : HeapConfig) (owner cls : Nat) (h : RandomHeap) (slot : Nat × Nat) : Nat :=
  ((Finset.range (2 ^ 32) ×ˢ Finset.range (2 ^ 32)).filter
    fun random => h.selected cfg owner cls random = slot).card

theorem timesSelected_eq (cfg : HeapConfig) (owner cls : Nat) (h : RandomHeap) (i j : Nat) :
    h.timesSelected cfg owner cls (i, j) = Nat.count (fun r => h.chosenMiniHeap r = i) (2 ^ 32) *
      Nat.count (fun r => modulo (cfg.nObjects ⟨owner, cls, i⟩) r = j) (2 ^ 32) := by
  have hpairs : ((Finset.range (2 ^ 32) ×ˢ Finset.range (2 ^ 32)).filter
      fun random => h.selected cfg owner cls random = (i, j)) =
      ((Finset.range (2 ^ 32)).filter fun r => h.chosenMiniHeap r = i) ×ˢ
        (Finset.range (2 ^ 32)).filter fun r => modulo (cfg.nObjects ⟨owner, cls, i⟩) r = j := by
    ext ⟨r₁, r₂⟩
    simp only [Finset.mem_filter, Finset.mem_product, selected, Prod.mk.injEq]
    constructor
    · rintro ⟨⟨h₁, h₂⟩, rfl, hj⟩
      exact ⟨⟨h₁, rfl⟩, h₂, hj⟩
    · rintro ⟨⟨h₁, rfl⟩, h₂, hj⟩
      exact ⟨⟨h₁, h₂⟩, rfl, hj⟩
  rw [timesSelected, hpairs, Finset.card_product, Nat.count_eq_card_filter_range,
    Nat.count_eq_card_filter_range]

end RandomHeap

theorem log2_succ_eq_iff {v i : Nat} : log2 (v + 1) = i ↔
    (if i = 0 then 0 else 2 ^ (i - 1)) ≤ v ∧ v < 2 ^ i := by
  have hle : log2 (v + 1) ≤ i ↔ v < 2 ^ i := log2_le_iff
  cases i with
  | zero =>
    rw [if_pos rfl, Nat.pow_zero, Nat.lt_one_iff] at *
    omega
  | succ i =>
    have hlt : log2 (v + 1) ≤ i ↔ v < 2 ^ i := log2_le_iff
    rw [if_neg (Nat.succ_ne_zero i), Nat.add_sub_cancel]
    omega

def weight (i : Nat) : Nat := if i = 0 then 1 else 2 ^ (i - 1)

theorem HeapConfig.nObjects_eq_weight (owner cls i : Nat) :
    cfg.nObjects ⟨owner, cls, i⟩ = cfg.minObjects cls * weight i := by
  rw [nObjects, weight]
  split
  · rw [Nat.mul_one]
  · rw [Nat.one_shiftLeft]

theorem count_chosenMiniHeap {k i : Nat} (hk : k ≤ 32) (hchunks : h.chunksInUse = 2 ^ k - 1)
    (hi : i ≤ k) : Nat.count (fun r => h.chosenMiniHeap r = i) (2 ^ 32) = 2 ^ (32 - k) * weight i := by
  have hmask (r : Nat) : h.chosenMiniHeap r = log2 (r % 2 ^ k + 1) := by
    rw [RandomHeap.chosenMiniHeap, hchunks, Nat.and_two_pow_sub_one_eq_mod]
  have hoctave : Nat.count (fun v => log2 (v + 1) = i) (2 ^ k) = weight i := by
    have hpow : 2 ^ i ≤ 2 ^ k := Nat.pow_le_pow_right (by decide) hi
    simp only [log2_succ_eq_iff, count_Ico hpow, weight]
    split
    · rename_i h0
      rw [h0, Nat.pow_zero]
    · rename_i hpos
      have hdouble : 2 ^ i = 2 ^ (i - 1) * 2 := by rw [← Nat.pow_succ, Nat.succ_eq_add_one,
        Nat.sub_add_cancel (by omega)]
      omega
  simp only [hmask]
  calc Nat.count (fun r => log2 (r % 2 ^ k + 1) = i) (2 ^ 32)
      = Nat.count (fun r => log2 (r % 2 ^ k + 1) = i) (2 ^ (32 - k) * 2 ^ k) := by
        rw [← Nat.pow_add, Nat.sub_add_cancel hk]
    _ = 2 ^ (32 - k) * Nat.count (fun v => log2 (v + 1) = i) (2 ^ k) :=
        count_mod (fun v => log2 (v + 1) = i) _ _
    _ = 2 ^ (32 - k) * weight i := by rw [hoctave]

theorem count_modulo {n j : Nat} (hn : n ≤ 32) (hj : j < 2 ^ n) :
    Nat.count (fun r => modulo (2 ^ n) r = j) (2 ^ 32) = 2 ^ (32 - n) := by
  simp only [modulo_eq_mod]
  calc Nat.count (fun r => r % 2 ^ n = j) (2 ^ 32)
      = Nat.count (fun r => r % 2 ^ n = j) (2 ^ (32 - n) * 2 ^ n) := by
        rw [← Nat.pow_add, Nat.sub_add_cancel hn]
    _ = 2 ^ (32 - n) * Nat.count (fun v => v = j) (2 ^ n) := count_mod (fun v => v = j) _ _
    _ = 2 ^ (32 - n) := by rw [count_eq hj, Nat.mul_one]

theorem two_pow_share {a b m w : Nat} (hsum : a + m ≤ w) (hbm : b ≤ m) :
    2 ^ (w - m) * 2 ^ b * 2 ^ (w - (a + b)) = 2 ^ (w + w) / (2 ^ a * 2 ^ m) := by
  rw [← Nat.pow_add, ← Nat.pow_add, ← Nat.pow_add, Nat.pow_div (by omega) (by decide)]
  congr 1
  omega

/-- With the mask of its active miniheaps, a power of two of slots in the smallest one and at most
`2 ^ 32` slots in all, a heap selects all its slots equally often. -/
theorem selected_uniform (hpos : 1 ≤ h.miniHeapsInUse)
    (hmask : h.chunksInUse = (1 <<< (h.miniHeapsInUse - 1)) - 1)
    (hpow : (cfg.minObjects cls).isPowerOfTwo)
    (hle : cfg.minObjects cls * 2 ^ (h.miniHeapsInUse - 1) ≤ 2 ^ 32) :
    ∀ i < h.miniHeapsInUse, ∀ j < cfg.nObjects ⟨owner, cls, i⟩,
      h.timesSelected cfg owner cls (i, j) =
        2 ^ 64 / (cfg.minObjects cls * 2 ^ (h.miniHeapsInUse - 1)) := by
  intro i hi j hj
  obtain ⟨a, ha⟩ := hpow
  rw [ha, ← Nat.pow_add] at hle
  have hsum : a + (h.miniHeapsInUse - 1) ≤ 32 := (Nat.pow_le_pow_iff_right (by decide)).mp hle
  obtain ⟨b, hb, hbn⟩ : ∃ b, weight i = 2 ^ b ∧ b ≤ h.miniHeapsInUse - 1 := by
    rw [weight]
    split
    · exact ⟨0, rfl, Nat.zero_le _⟩
    · exact ⟨i - 1, rfl, by omega⟩
  have hslots : cfg.nObjects ⟨owner, cls, i⟩ = 2 ^ (a + b) := by
    rw [HeapConfig.nObjects_eq_weight, ha, hb, Nat.pow_add]
  rw [Nat.one_shiftLeft] at hmask
  rw [hslots] at hj
  rw [RandomHeap.timesSelected_eq, count_chosenMiniHeap (by omega) hmask (Nat.le_sub_one_of_lt hi),
    hslots, count_modulo (by omega) hj, hb, ha]
  exact two_pow_share hsum hbn

/-- Three objects of a megabyte: the third miniheap has two of the four slots. -/
def threeMiniHeaps : RandomHeap :=
  (Transition.final (Process.call (.libdieharder false false))
    (.initial (fun _ => 0) (fun _ _ _ => 0) (fun _ => 0) [])
    [.malloc 0 16 [fun _ => 0x100000] [(0, 0)], .malloc 0 16 [fun _ => 0x200000] [(1, 0)],
      .malloc 0 16 [fun _ => 0x300000] [(3, 0)]]).random 0 16

theorem selected_threeMiniHeaps :
    threeMiniHeaps.timesSelected (.libdieharder false false) 0 16 (0, 0) = 2 ^ 62 ∧
      threeMiniHeaps.timesSelected (.libdieharder false false) 0 16 (2, 1) = 2 ^ 62 := by
  have hthree : threeMiniHeaps.miniHeapsInUse = 3 ∧ threeMiniHeaps.chunksInUse = 3 ∧
      (HeapConfig.libdieharder false false).minObjects 16 = 1 := by decide +kernel
  have huniform := @selected_uniform (.libdieharder false false) 0 16 threeMiniHeaps
  rw [hthree.1, hthree.2.1, hthree.2.2] at huniform
  have hall := huniform (by decide) (by decide) ⟨0, rfl⟩ (by decide)
  exact ⟨hall 0 (by decide) 0 (by decide +kernel), hall 2 (by decide) 1 (by decide +kernel)⟩

end DieHard
