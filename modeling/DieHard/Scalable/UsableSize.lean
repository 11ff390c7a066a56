import DieHard.Heap.CombineHeap
import DieHard.Heap.Safety
import DieHard.Scalable.Held

/-!
# The usable size from any thread

`malloc_usable_size` asks the heap of the calling thread, the large heap behind it, and the fallback
heap. No other per-thread heap is asked, although `HeapRegistry::getSizeFromAnyHeap` would ask them
all. In the DieHarder variant every heap answers for the objects of all.
-/

namespace DieHard

open Blocks Transition

/-- What `malloc_usable_size` is to answer for an object. -/
def Object.usableSize (object : Object) : Nat :=
  match object.heap with
  | some _ => objectSize object.size
  | none => object.size

namespace ScalableHeap

variable {cfg : HeapConfig} {pool : PoolConfig} {s : ScalableHeap}

/-- `CombineHeap::getSize` of heap `k`. -/
def combineSize (cfg : HeapConfig) (k : Nat) (ptr : Addr) (s : ScalableHeap) : Nat × ScalableHeap :=
  let r := s.process.getSize cfg k ptr
  (if r.1 = 0 then s.large.getSize ptr else r.1, { s with process := r.2 })

/-- `getSize(ptr)` on the thread of heap `k`; a thread without a heap has the fallback heap only. -/
def getSize (cfg : HeapConfig) (k : Nat) (ptr : Addr) (s : ScalableHeap) : Nat × ScalableHeap :=
  if ptr = 0 then (0, s)
  else if k = fallbackHeap then s.combineSize cfg fallbackHeap ptr
  else
    let r := s.combineSize cfg k ptr
    if 0 < r.1 then r else r.2.combineSize cfg fallbackHeap ptr

theorem calm_getSize (cfg : HeapConfig) (process : Process) (k : Nat) (ptr : Addr) :
    process.Calm (process.getSize cfg k ptr).2 := by
  obtain ⟨hheaps, henv⟩ := process.getSize_frame cfg k ptr
  refine ⟨⟨?_, by rw [henv], by rw [henv]⟩, ?_⟩
  · intro k' cls
    rw [hheaps]
    exact .refl _
  · intro y
    simp only [Process.bit, Process.mini, hheaps]

theorem combineSize_slot (h : Inv cfg pool s) {x : Slot} (ha : s.process.Active cfg x.id)
    (hi : x.index < (s.process.layout cfg x.id).slots) {ptr : Addr}
    (hp : (s.process.layout cfg x.id).addr x.index = ptr) (k : Nat) :
    (s.combineSize cfg k ptr).1 =
      if cfg.dieHarderOn = true ∨ k = x.id.owner then getClassSize x.id.cls else 0 := by
  have hx := Layout.contains_addr hi
  rw [hp] at hx
  have hzero : s.large.getSize ptr = 0 := h.large x.id ha _ _ hx.inBlock
  have hpos := getClassSize_pos x.id.cls
  simp only [combineSize, hzero]
  by_cases hk : cfg.dieHarderOn = true ∨ k = x.id.owner
  · rw [h.placed.getSize_slot ha hx hk, Process.spaceLeft, hp, Nat.sub_self, Nat.sub_zero,
      if_neg (by omega), if_pos hk]
  · have hmiss : (s.process.getSize cfg k ptr).1 = 0 := by
      refine h.placed.getSize_zero ?_
      intro id hid hactive
      refine h.placed.not_inBlock_of_ne ha hx hactive ?_
      rintro rfl
      exact hk (hid.imp_right Eq.symm)
    rw [hmiss, if_pos rfl, if_neg hk]

theorem combineSize_large (h : Inv cfg pool s) {ptr : Addr} (hl : s.large.get ptr ≠ 0) (k : Nat) :
    (s.combineSize cfg k ptr).1 = s.large.get ptr := by
  have hmiss : (s.process.getSize cfg k ptr).1 = 0 := by
    refine h.placed.getSize_zero ?_
    intro id _ ha j hj
    exact hl (h.large id ha j ptr hj)
  simp only [combineSize, hmiss, if_true]
  rfl

/-- The size that a thread gets for a small object. -/
theorem getSize_small (h : Inv cfg pool s) {ptr : Addr} {heap sz : Nat}
    (hl : s.live ptr = some ⟨some heap, sz⟩) (k : Nat) :
    (s.getSize cfg k ptr).1 =
      if cfg.dieHarderOn = true ∨ heap = fallbackHeap ∨ heap = k then objectSize sz else 0 := by
  obtain ⟨x, ha, hi, rfl, hcls, hp⟩ := h.live ptr heap sz hl
  have hne : ptr ≠ 0 := hp ▸ h.placed.addr_ne_zero ha hi
  have hsize : objectSize sz = getClassSize x.id.cls := by rw [objectSize, hcls]
  have hpos := getClassSize_pos x.id.cls
  -- the first lookup caches a size class at most, so the second one finds the slot in its place
  have hcalm := calm_getSize cfg s.process k ptr
  have hfirst := combineSize_slot h ha hi hp k
  have hsecond : ((s.combineSize cfg k ptr).2.combineSize cfg fallbackHeap ptr).1 =
      if cfg.dieHarderOn = true ∨ fallbackHeap = x.id.owner then getClassSize x.id.cls else 0 := by
    refine combineSize_slot (h.calm hcalm) ((hcalm.layout.active_iff _).mpr ha) ?_ ?_ fallbackHeap
    · rw [hcalm.layout.layout_eq]
      exact hi
    · rw [hcalm.layout.layout_eq]
      exact hp
  rw [getSize, if_neg hne, hsize]
  by_cases hk : k = fallbackHeap
  · subst hk
    rw [if_pos rfl, hfirst]
    simp only [eq_comm, or_self]
  · rw [if_neg hk]
    by_cases hmine : cfg.dieHarderOn = true ∨ k = x.id.owner
    · rw [if_pos hmine] at hfirst
      simp only [hfirst, if_pos hpos]
      rw [if_pos (hmine.imp_right fun he => Or.inr he.symm)]
    · rw [if_neg hmine] at hfirst
      simp only [hfirst, Nat.lt_irrefl, if_false, hsecond]
      refine if_congr (or_congr_right ?_) rfl rfl
      constructor
      · exact fun he => Or.inl he.symm
      · rintro (he | he)
        · exact he.symm
        · exact absurd (Or.inr he.symm) hmine

theorem getSize_large (h : Inv cfg pool s) {ptr : Addr} (hne : ptr ≠ 0) (hl : s.large.get ptr ≠ 0)
    (k : Nat) : (s.getSize cfg k ptr).1 = s.large.get ptr := by
  have hown := combineSize_large h hl
  rw [getSize, if_neg hne]
  split
  · exact hown fallbackHeap
  · have hpos : 0 < (s.combineSize cfg k ptr).1 := by
      rw [hown]
      exact Nat.pos_of_ne_zero hl
    simp only [if_pos hpos]
    exact hown k

section Run

variable {localRandom : Nat → BitVec 64} {random : Nat → Nat → Nat → BitVec 64}
  {mem : Addr → BitVec 8} {mapped : List (Addr × Nat)}

/-- The thread of heap `k` gets the usable size of the object at `ptr`, which is not 0. -/
def ReportsUsableSize (cfg : HeapConfig) (s : ScalableHeap) (k : Nat) (ptr : Addr) (object : Object) :
    Prop :=
  (s.getSize cfg k ptr).1 = object.usableSize ∧ object.usableSize ≠ 0

/-- In every state of every run a thread gets the usable size of an object that the program holds
exactly in the DieHarder variant and for large objects, objects of the fallback heap and its own. For
large objects the program must have freed only what it held, and the pages of the large objects must have
fitted the `int` of the large heap. -/
theorem reportsUsableSize_iff
    (e : Execution (next cfg pool) (MemoryOk cfg) (start localRandom random mem mapped)) {m : Nat}
    (hm : m ≤ e.length) {ptr : Addr} {object : Object} (hl : (e.state m).live ptr = some object)
    (hheld : object.heap = none → ∀ j < m, FreesHeld (e.state j) (e.action j) ∧
      FitsLarge cfg (e.state j) (e.action j)) (k : Nat) :
    ReportsUsableSize cfg (e.state m) k ptr object ↔ cfg.dieHarderOn = true ∨ object.heap = none ∨
      object.heap = some fallbackHeap ∨ object.heap = some k := by
  have hinv := Execution.inv e (fun _ _ h => h) hm
  rcases object with ⟨_ | heap, sz⟩
  · obtain ⟨mapped, hlarge⟩ := Execution.exists_largeInv e (fun _ _ h => h) hm (hheld rfl)
    obtain ⟨hsz, hne⟩ := hlarge.live ptr sz hl
    have hget := hlarge.get_base (p := ptr) (by omega)
    have hbase := (hlarge.objects.base ptr (by omega : mapped ptr ≠ 0)).1
    have hsize := getSize_large hinv hbase (by omega) k
    simp only [ReportsUsableSize, Object.usableSize, true_or, or_true, iff_true]
    exact ⟨by omega, hne⟩
  · have hsize := getSize_small hinv hl k
    have hpos : 0 < objectSize sz := getClassSize_pos _
    simp only [ReportsUsableSize, Object.usableSize, hsize, reduceCtorEq, false_or,
      Option.some.injEq]
    constructor
    · intro hr
      by_contra hno
      rw [if_neg hno] at hr
      omega
    · intro hc
      rw [if_pos hc]
      exact ⟨rfl, by omega⟩

/-- Every thread always gets the usable size of every object that the program holds. -/
def ReportsUsableSizes {ok : ScalableHeap → Action → Prop} {init : ScalableHeap}
    (e : Execution (next cfg pool) ok init) : Prop :=
  ∀ m ≤ e.length, ∀ ptr object, (e.state m).live ptr = some object →
    ∀ k ≤ (e.state m).nextId, ReportsUsableSize cfg (e.state m) k ptr object

end Run

def ownedByFirst : List Action := [.create, .create, .malloc 1 16] ++ accesses 1 7 4096 (0, 0)

private theorem guarded_ownedByFirst : Guarded (next (.libdieharder false false) .default)
    (fun s a => MemoryOk (.libdieharder false false) s a ∧ True) blank ownedByFirst :=
  guarded_of_small (guarded_of_bool (by decide +kernel))

def ownedByFirstExecution : Execution (next (.libdieharder false false) .default)
    (MemoryOk (.libdieharder false false)) blank :=
  .ofRun ownedByFirst (by decide +kernel) (guarded_ownedByFirst.mono fun _ _ h => h.1)

theorem reportsUsableSize_first : ReportsUsableSize (.libdieharder false false)
    (ownedByFirstExecution.state 10) 1 4096 ⟨some 1, 16⟩ :=
  (reportsUsableSize_iff ownedByFirstExecution (by decide) (by decide +kernel)
    (fun h => by cases h) 1).mpr (Or.inr (Or.inr (Or.inr rfl)))

/-- The thread of heap 2 gets 0. -/
theorem not_reportsUsableSizes_second : ¬ ReportsUsableSizes ownedByFirstExecution := by
  intro h
  have hsecond := h 10 (by decide) 4096 ⟨some 1, 16⟩ (by decide +kernel) 2 (by decide +kernel)
  have hzero : (getSize (.libdieharder false false) 2 4096 (ownedByFirstExecution.state 10)).1 = 0 := by
    decide +kernel
  exact absurd (hsecond.1.symm.trans hzero) (by decide)

end ScalableHeap

end DieHard
