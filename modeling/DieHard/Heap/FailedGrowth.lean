import DieHard.Heap.DieHardHeap

/-!
# Failed growth

`activate` of `RandomMiniHeapDieHard` asserts that it got its memory. Without the assertion it goes on, and
`getAnotherMiniHeap` counts the objects of a miniheap that has neither memory nor a bitmap. The next request
that selects this miniheap writes through its null `_bitarray`.
-/

namespace DieHard

namespace RandomHeap

variable (cfg : HeapConfig) (owner cls : Nat)

/-- `getAnotherMiniHeap` asks for the memory of the next miniheap. -/
def Grows (h : RandomHeap) : Prop :=
  h.needsGrowth cfg = true ∧ h.miniHeapsInUse < cfg.maxMiniHeaps

/-- The growth from `h` to `h'` has had no effect: the next miniheap is not activated, the counters keep
their values and no draw selects that miniheap. -/
structure Atomic (h h' : RandomHeap) : Prop where
  notActivated : (h'.miniHeaps h.miniHeapsInUse).isHeapActivated = false
  available_eq : h'.available = h.available
  chunksInUse_eq : h'.chunksInUse = h.chunksInUse
  miniHeapsInUse_eq : h'.miniHeapsInUse = h.miniHeapsInUse
  notChosen : ∀ random, h'.chosenMiniHeap random ≠ h.miniHeapsInUse

variable {cfg owner cls} {h : RandomHeap} {env : Env} {source : Nat → Addr}

/-- What a growth without memory does. -/
structure Grown (cfg : HeapConfig) (cls : Nat) (h h' : RandomHeap) : Prop where
  activated : (h'.miniHeaps h.miniHeapsInUse).isHeapActivated = true
  bitmap_eq : (h'.miniHeaps h.miniHeapsInUse).miniHeapBitmap =
    (h.miniHeaps h.miniHeapsInUse).miniHeapBitmap
  available_lt : h.available < h'.available
  miniHeapsInUse_eq : h'.miniHeapsInUse = h.miniHeapsInUse + 1
  chosen : h'.chosenMiniHeap h'.chunksInUse = h.miniHeapsInUse

theorem activate_null {id : MiniId} {m : MiniHeap} (hsource : source 0 = 0) :
    (RandomMiniHeapDieHard.activate cfg id source m env).1.isHeapActivated = true ∧
      (RandomMiniHeapDieHard.activate cfg id source m env).1.miniHeapBitmap = m.miniHeapBitmap := by
  by_cases hactive : m.isHeapActivated = true
  · rw [RandomMiniHeapDieHard.activate, if_pos hactive]
    exact ⟨hactive, rfl⟩
  · rw [RandomMiniHeapDieHard.activate, if_neg hactive]
    dsimp only
    rw [if_pos hsource]
    exact ⟨rfl, rfl⟩

theorem getAnotherMiniHeap_null (hd : cfg.dieHarderOn = false) (hgrows : h.Grows cfg)
    (hsource : source 0 = 0) :
    Grown cfg cls h (getAnotherMiniHeap cfg owner cls source h env).1 := by
  have hmin := cfg.minObjects_pos cls
  have hpow := Nat.two_pow_pos (h.miniHeapsInUse - 1)
  have hmul := Nat.mul_pos hpow hmin
  obtain ⟨hactive, hbitmap⟩ := @activate_null cfg env source ⟨owner, cls, h.miniHeapsInUse⟩
    (h.miniHeaps h.miniHeapsInUse) hsource
  rw [getAnotherMiniHeap]
  dsimp only
  rw [hgrows.1, if_neg (by decide), if_pos hgrows.2, RandomMiniHeap.activate, hd,
    if_neg Bool.false_ne_true]
  constructor
  · dsimp only
    rw [Function.update_self]
    exact hactive
  · dsimp only
    rw [Function.update_self]
    exact hbitmap
  · dsimp only
    rw [Nat.one_shiftLeft]
    split <;> omega
  · rfl
  · rw [chosenMiniHeap]
    dsimp only
    rw [Nat.and_self, Nat.one_shiftLeft, Nat.sub_add_cancel (Nat.two_pow_pos _)]
    exact log2_two_pow _

/-- No growth without memory is atomic. -/
theorem not_atomic (hd : cfg.dieHarderOn = false) (hgrows : h.Grows cfg) (hsource : source 0 = 0) :
    ¬ Atomic h (getAnotherMiniHeap cfg owner cls source h env).1 := by
  intro ha
  have hgrown : Grown cfg cls h (getAnotherMiniHeap cfg owner cls source h env).1 :=
    getAnotherMiniHeap_null hd hgrows hsource
  have hactive := hgrown.activated
  rw [ha.notActivated] at hactive
  contradiction

def emptyEnv : Env := ⟨fun _ => 0, fun _ => none, [], []⟩

theorem grows_new : (RandomHeap.new fun _ => 0).Grows (.libdieharder false false) := by
  exact ⟨by decide, by decide⟩

theorem not_atomic_new : ¬ Atomic (RandomHeap.new fun _ => 0)
    (getAnotherMiniHeap (.libdieharder false false) 0 0 (fun _ => 0) (RandomHeap.new fun _ => 0)
      emptyEnv).1 :=
  not_atomic rfl grows_new rfl

theorem exists_not_atomic : ¬ ∀ cfg owner cls h env source, cfg.dieHarderOn = false → Grows cfg h →
    source 0 = 0 → Atomic h (getAnotherMiniHeap cfg owner cls source h env).1 := by
  intro hall
  have ha := hall (.libdieharder false false) 0 0 (RandomHeap.new fun _ => 0) emptyEnv (fun _ => 0) rfl
    grows_new rfl
  exact absurd ha.miniHeapsInUse_eq (by decide)

end RandomHeap

end DieHard
