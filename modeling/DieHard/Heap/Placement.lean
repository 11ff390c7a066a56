import DieHard.Heap.DieHardHeap
import DieHard.Heap.Activation

/-!
# Where objects are

Both variants of a miniheap are a layout of equal slots in equal blocks. `Placed` says that the
blocks of all active miniheaps of a process are disjoint, and that the page table of the DieHarder
variant describes them. Under it the address computations of a miniheap are those of its layout.
-/

namespace DieHard

open Blocks

variable {cfg : HeapConfig}

def HeapConfig.build (cfg : HeapConfig) : Build :=
  ⟨cfg.pageSize, cfg.dieFastOn, cfg.dieHarderOn, cfg.pageSize_powerOfTwo⟩

theorem HeapConfig.classSize_fits (cfg : HeapConfig) (cls : Nat) :
    (getClassSize cls).isPowerOfTwo ∧ getClassSize cls ≤ cfg.pageSize ∨ cfg.pageSize ∣ getClassSize cls := by
  rcases Nat.le_total (getClassSize cls) cfg.pageSize with h | h
  · exact Or.inl ⟨getClassSize_powerOfTwo cls, h⟩
  · exact Or.inr (powerOfTwo_dvd cfg.pageSize_powerOfTwo (getClassSize_powerOfTwo cls) h)

def HeapConfig.miniHeapType (cfg : HeapConfig) (id : MiniId) : MiniHeapType cfg.build :=
  ⟨getClassSize id.cls, cfg.nObjects id, getClassSize_pos id.cls, cfg.nObjects_pos id,
    cfg.classSize_fits id.cls⟩

/-- One block for the DieHard variant, one block for each mapping of the DieHarder variant. -/
def HeapConfig.layout (cfg : HeapConfig) (id : MiniId) (m : MiniHeap) : Layout where
  size := getClassSize id.cls
  per := if cfg.dieHarderOn then cfg.objectsPerPage id.cls else cfg.nObjects id
  count := if cfg.dieHarderOn then RandomMiniHeapDieHarder.mapTurns cfg id else 1
  base j := if cfg.dieHarderOn then m.mapEntryToPage j else m.miniHeap
  size_pos := getClassSize_pos id.cls
  per_pos := by
    split
    · exact cfg.objectsPerPage_pos id.cls
    · exact cfg.nObjects_pos id

theorem HeapConfig.nObjects_le_slots (id : MiniId) (m : MiniHeap) :
    cfg.nObjects id ≤ (cfg.layout id m).slots :=
  (cfg.miniHeapType id).nObjects_le_slots m

namespace Process

def Active (cfg : HeapConfig) (s : Process) (id : MiniId) : Prop :=
  id.cls < cfg.maxIndex ∧ id.index < ((s.heaps id.owner).heaps id.cls).miniHeapsInUse

instance (cfg : HeapConfig) (s : Process) (id : MiniId) : Decidable (s.Active cfg id) :=
  inferInstanceAs (Decidable (_ ∧ _))

def layout (cfg : HeapConfig) (s : Process) (id : MiniId) : Layout := cfg.layout id (s.mini id)

end Process

/-- What the counters of a random heap say about its miniheaps. -/
structure CountersOk (cfg : HeapConfig) (cls : Nat) (h : RandomHeap) : Prop where
  miniHeaps_le : h.miniHeapsInUse ≤ cfg.maxMiniHeaps
  available_eq : h.available =
    if h.miniHeapsInUse = 0 then 0 else cfg.minObjects cls * 2 ^ (h.miniHeapsInUse - 1)
  chunksInUse_eq : h.chunksInUse = 2 ^ (h.miniHeapsInUse - 1) - 1

structure Placed (cfg : HeapConfig) (s : Process) : Prop where
  activated : ∀ id, (s.mini id).isHeapActivated = true ↔ s.Active cfg id
  base : ∀ id j, s.Active cfg id → j < (s.layout cfg id).count →
    (s.layout cfg id).base j ≠ 0 ∧ cfg.pageSize ∣ (s.layout cfg id).base j ∧
      ((s.layout cfg id).base j, (s.layout cfg id).bytes) ∈ s.env.mapped
  separate : Separate (s.layout cfg) (s.Active cfg)
  pageTable : cfg.dieHarderOn = true → ∀ p e,
    s.env.pageTable (Env.computePageNumber cfg p) = some e ↔ s.Active cfg e.heap ∧
      ∃ j, (s.layout cfg e.heap).InBlock j p ∧ e.objectIndex = j * (s.layout cfg e.heap).per
  bits : ∀ id i, (s.mini id).miniHeapBitmap.isSet i = true → s.Active cfg id ∧ i < cfg.nObjects id
  counters : ∀ k cls, CountersOk cfg cls ((s.heaps k).heaps cls)

theorem placed_initial (localRandom : Nat → BitVec 64) (random : Nat → Nat → Nat → BitVec 64)
    (mem : Addr → BitVec 8) (mapped : List (Addr × Nat)) :
    Placed cfg (.initial localRandom random mem mapped) := by
  have hno (id : MiniId) : ¬ (Process.initial localRandom random mem mapped).Active cfg id :=
    fun h => Nat.not_lt_zero _ h.2
  refine ⟨?_, fun id _ h => absurd h (hno id), fun a _ _ _ h => absurd h (hno a), ?_, ?_, ?_⟩
  · intro id
    refine ⟨fun h => ?_, fun h => absurd h (hno id)⟩
    simp [Process.mini, Process.initial, DieHardHeap.new, RandomHeap.new, MiniHeap.new] at h
  · intro _ p e
    refine ⟨fun h => ?_, fun h => absurd h.1 (hno e.heap)⟩
    cases h
  · intro id i h
    simp [Process.mini, Process.initial, DieHardHeap.new, RandomHeap.new, MiniHeap.new] at h
  · intro k cls
    exact ⟨Nat.zero_le _, rfl, rfl⟩

namespace Placed

variable {s : Process} {id : MiniId} {i j p : Nat}

theorem laid (h : Placed cfg s) (ha : s.Active cfg id) :
    (cfg.miniHeapType id).Laid id (s.mini id) s.env := by
  refine ⟨(h.activated id).mpr ha, fun j hj => (h.base id j ha hj).2.1, ?_, ?_⟩
  · intro hd
    have hd' : cfg.dieHarderOn = false := hd
    have hne := (h.base id 0 ha (by simp [Process.layout, HeapConfig.layout, hd'])).1
    simpa [Process.layout, HeapConfig.layout, hd'] using hne
  · intro hd j p hj
    exact (h.pageTable hd p _).mpr ⟨ha, j, hj, rfl⟩

private theorem dieHard_inBounds_iff {m : MiniHeap} :
    RandomMiniHeapDieHard.inBounds cfg id m p = true ↔
      m.miniHeap ≤ p ∧ p < m.miniHeap + cfg.nObjects id * getClassSize id.cls ∧ m.miniHeap ≠ 0 := by
  simp [RandomMiniHeapDieHard.inBounds, and_assoc]

/-- The bounds test finds the addresses of the blocks. -/
theorem inBounds_iff (h : Placed cfg s) (ha : s.Active cfg id) :
    RandomMiniHeap.inBounds cfg id (s.mini id) s.env p = true ↔
      ∃ j, (s.layout cfg id).InBlock j p := by
  by_cases hd : cfg.dieHarderOn = true
  · have hact := (h.activated id).mpr ha
    rw [RandomMiniHeap.inBounds, if_pos hd, RandomMiniHeapDieHarder.inBounds, hact, Bool.true_and,
      decide_eq_true_eq, Env.getHeap, Option.map_eq_some_iff]
    constructor
    · rintro ⟨e, he, rfl⟩
      obtain ⟨-, j, hj, -⟩ := (h.pageTable hd p e).mp he
      exact ⟨j, hj⟩
    · rintro ⟨j, hj⟩
      exact ⟨⟨id, j * (s.layout cfg id).per⟩, (h.pageTable hd p _).mpr ⟨ha, j, hj, rfl⟩, rfl⟩
  · have hcount : (s.layout cfg id).count = 1 := if_neg hd
    have hbase (j : Nat) : (s.layout cfg id).base j = (s.mini id).miniHeap := if_neg hd
    have hper : (s.layout cfg id).per = cfg.nObjects id := if_neg hd
    have hsize : (s.layout cfg id).size = getClassSize id.cls := rfl
    obtain ⟨hne, -, -⟩ := h.base id 0 ha (by omega)
    rw [RandomMiniHeap.inBounds, if_neg hd, dieHard_inBounds_iff]
    simp only [Layout.InBlock, Layout.bytes, hcount, hbase, hper, hsize] at hne ⊢
    constructor
    · rintro ⟨h1, h2, -⟩
      exact ⟨0, Nat.one_pos, h1, h2⟩
    · rintro ⟨-, -, h1, h2⟩
      exact ⟨h1, h2, hne⟩

theorem computeIndex_eq (h : Placed cfg s) (ha : s.Active cfg id)
    (hj : (s.layout cfg id).InBlock j p) :
    RandomMiniHeap.computeIndex cfg id (s.mini id) s.env p = (s.layout cfg id).index j p :=
  (h.laid ha).slotIndex_eq hj

theorem getObject_eq (h : Placed cfg s) (ha : s.Active cfg id) (hi : i < (s.layout cfg id).slots) :
    RandomMiniHeap.getObject cfg id (s.mini id) i = (s.layout cfg id).addr i :=
  (h.laid ha).getObject_eq hi

/-- The size computed for an address of a slot is the space left in the slot. -/
theorem getSize_eq (h : Placed cfg s) (ha : s.Active cfg id)
    (hi : (s.layout cfg id).Contains i p) :
    RandomMiniHeap.getSize cfg id (s.mini id) s.env p =
      getClassSize id.cls - (p - (s.layout cfg id).addr i) := by
  have hsub := hi.sub_addr
  have hsize : (s.layout cfg id).size = getClassSize id.cls := rfl
  rw [hsize] at hsub
  by_cases hd : cfg.dieHarderOn = true
  · simp only [RandomMiniHeap.getSize, if_pos hd, RandomMiniHeapDieHarder.getSize]
    split
    · have hidx := h.computeIndex_eq ha hi.inBlock
      have hobj := h.getObject_eq ha hi.1
      simp only [RandomMiniHeap.computeIndex, RandomMiniHeap.getObject, if_pos hd] at hidx hobj
      rw [hidx, hi.index_eq, hobj]
    · rename_i hsmall
      obtain ⟨-, hpage, -⟩ := h.base id (i / (s.layout cfg id).per) ha (Layout.block_lt hi.1)
      have hdvd : getClassSize id.cls ∣ (s.layout cfg id).base (i / (s.layout cfg id).per) :=
        ((cfg.miniHeapType id).objectSize_dvd (Nat.le_of_not_le hsmall)).trans hpage
      rw [modulo_eq_mod, hsub]
      obtain ⟨-, hle, -⟩ := hi.inBlock
      obtain ⟨q, hq⟩ := hdvd
      have hp : p = getClassSize id.cls * q +
          (p - (s.layout cfg id).base (i / (s.layout cfg id).per)) := by omega
      conv_lhs => rw [hp, Nat.mul_add_mod]
  · have hd' : cfg.dieHarderOn = false := by simpa using hd
    have hin := (h.inBounds_iff ha).mpr ⟨_, hi.inBlock⟩
    simp only [RandomMiniHeap.inBounds, hd', Bool.false_eq_true, if_false] at hin
    simp only [RandomMiniHeap.getSize, hd', Bool.false_eq_true, if_false,
      RandomMiniHeapDieHard.getSize, hin, Bool.not_true, modulo_eq_mod,
      RandomMiniHeapDieHard.computeOffset]
    rw [hsub]
    simp only [Process.layout, HeapConfig.layout, hd', Bool.false_eq_true, if_false]

theorem getSize_eq_zero (h : Placed cfg s) (hd : cfg.dieHarderOn = false) (ha : s.Active cfg id)
    (hout : ∀ j, ¬ (s.layout cfg id).InBlock j p) :
    RandomMiniHeap.getSize cfg id (s.mini id) s.env p = 0 := by
  have hin : RandomMiniHeap.inBounds cfg id (s.mini id) s.env p = false := by
    rw [Bool.eq_false_iff]
    intro hin
    obtain ⟨j, hj⟩ := (h.inBounds_iff ha).mp hin
    exact hout j hj
  simp only [RandomMiniHeap.inBounds, hd, Bool.false_eq_true, if_false] at hin
  simp only [RandomMiniHeap.getSize, hd, Bool.false_eq_true, if_false,
    RandomMiniHeapDieHard.getSize, hin, Bool.not_false, if_true]

end Placed

end DieHard
