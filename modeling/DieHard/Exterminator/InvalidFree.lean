import DieHard.Exterminator.DanglingPatch

/-!
# Invalid frees in the heap of `exterminator/`

A pointer that the program must not free meets three layers. The correcting heap asks for its allocation
site, which aborts inside an object; the partition checks the alignment but not the bitmap; the table of
large objects has one entry for 16 KB of addresses and does not compare the address.
-/

namespace DieHard.Exterminator

open Transition

namespace DieHardHeap

/-- `ptr` is the start of an allocated slot or of a live large object. -/
def Owns (h : DieHardHeap) (ptr : Word) : Prop :=
  (h.isOnHeap ptr = true ∧ ∃ objectIndex,
    (h.partitions (h.getSizeClass ptr)).objectIndex ptr = some objectIndex ∧
    (h.partitions (h.getSizeClass ptr)).allocated.isSet objectIndex = true) ∨
  (h.largeObjects.get ptr ≠ 0 ∧ h.largeObjects.addrs (getIndex ptr) = ptr)

/-- The bitmaps of allocated slots, the counters, the metadata of the slots and the table of large
objects are the same in both heaps. -/
structure SameRecords (h h' : DieHardHeap) : Prop where
  allocated : ∀ sc, (h'.partitions sc).allocated = (h.partitions sc).allocated
  requested : ∀ sc, (h'.partitions sc).requested = (h.partitions sc).requested
  slotInfo : ∀ sc, (h'.partitions sc).slotInfo = (h.partitions sc).slotInfo
  values : h'.largeObjects.values = h.largeObjects.values
  addrs : h'.largeObjects.addrs = h.largeObjects.addrs
  ct : h'.largeObjects.ct = h.largeObjects.ct

/-- The block of addresses around `ptr`, outside of the partitions, holds no large object. -/
def Unmapped (h : DieHardHeap) (ptr : Word) : Prop :=
  h.isOnHeap ptr = false ∧ h.largeObjects.get ptr = 0

variable (h : DieHardHeap)

theorem sameRecords_refl : SameRecords h h :=
  ⟨fun _ => rfl, fun _ => rfl, fun _ => rfl, rfl, rfl, rfl⟩

theorem requested_freeObject {p : PartitionInfo} {ptr : Word} {objectIndex : Nat}
    (hindex : p.objectIndex ptr = some objectIndex) (callsite globalCt : Word) :
    (p.freeObject ptr callsite globalCt).requested = p.requested - 1 := by
  rw [PartitionInfo.freeObject, hindex]
  rfl

theorem requested_free {ptr : Word} {objectIndex : Nat} (hne : ptr ≠ 0) (hon : h.isOnHeap ptr = true)
    (hindex : (h.partitions (h.getSizeClass ptr)).objectIndex ptr = some objectIndex) (callsite : Word) :
    ((h.free callsite ptr).partitions (h.getSizeClass ptr)).requested =
      (h.partitions (h.getSizeClass ptr)).requested - 1 := by
  rw [free, if_neg hne, if_pos hon, setPartition]
  show (Function.update h.partitions (h.getSizeClass ptr) _ (h.getSizeClass ptr)).requested = _
  rw [Function.update_self]
  exact requested_freeObject hindex callsite h.globalCt

theorem values_free {ptr : Word} (hne : ptr ≠ 0) (hoff : h.isOnHeap ptr = false) (callsite : Word) :
    (h.free callsite ptr).largeObjects.values (getIndex ptr) = 0 := by
  rw [free, if_neg hne, hoff, if_neg Bool.false_ne_true, freeDirect]
  split
  · assumption
  · exact Function.update_self _ _ _

theorem free_unmapped {ptr : Word} (hun : h.Unmapped ptr) (callsite : Word) : h.free callsite ptr = h := by
  rw [free, hun.1, freeDirect, if_pos hun.2]
  split <;> rfl

theorem sameRecords_free_iff (callsite : Word) {ptr allocSite : Word}
    (hsite : h.getAllocCallsite ptr = some allocSite) :
    SameRecords h (h.free callsite ptr) ↔ ptr = 0 ∨ h.Unmapped ptr := by
  constructor
  · intro hsame
    by_contra hnot
    obtain ⟨hne, hmapped⟩ := not_or.mp hnot
    cases hon : h.isOnHeap ptr with
    | true =>
      rw [getAllocCallsite, if_pos hon] at hsite
      obtain ⟨objectIndex, hindex, -⟩ := Option.map_eq_some_iff.mp hsite
      have hcount := hsame.requested (h.getSizeClass ptr)
      rw [h.requested_free hne hon hindex] at hcount
      omega
    | false =>
      apply hmapped
      refine ⟨hon, ?_⟩
      rw [LargeObjectManager.get, ← hsame.values]
      exact h.values_free hne hon callsite
  · rintro (rfl | hun)
    · exact h.sameRecords_refl
    · rw [h.free_unmapped hun]
      exact h.sameRecords_refl

theorem heap_eq_zero_of_isOnHeap {h : DieHardHeap} (hon : h.isOnHeap 0 = true) : h.heap = 0 := by
  simp only [isOnHeap, decide_eq_true_eq] at hon
  exact BitVec.le_zero_iff.mp hon.1

theorem heap_foldl_free (callsite : Word) (freed : List PqueueEntry) :
    (freed.foldl (fun s x => SuperHeap.free s callsite x.ptr) h).heap = h.heap := by
  induction freed generalizing h with
  | nil => rfl
  | cons x freed ih => exact (ih _).trans (h.heap_free callsite x.ptr)

theorem heap_malloc {h h' : DieHardHeap} {callsite sz ptr : Word} {place : Placement}
    (hm : h.malloc callsite sz place = some (ptr, h')) : h'.heap = h.heap := by
  cases place with
  | slot sc objectIndex =>
    simp only [malloc] at hm
    split at hm
    · obtain ⟨⟨q, p⟩, -, he⟩ := Option.map_eq_some_iff.mp hm
      cases he
      rfl
    · cases hm
  | mapped q =>
    simp only [malloc] at hm
    split at hm
    · simp only [Option.some.injEq, allocateDirect] at hm
      split at hm
      · cases hm
        rfl
      · split at hm <;> cases hm <;> rfl
    · cases hm

end DieHardHeap

namespace Session

def emptyPatch : PatchInfo := ⟨fun _ => 0, fun _ => 0⟩

/-- `free(ptr)` returns and leaves the records of the heap as they are. -/
def FreeIgnored (s : Session DieHardHeap) (callsite ptr : Word) : Prop :=
  ∃ heap, s.heap.free callsite ptr = some heap ∧ DieHardHeap.SameRecords s.heap.super heap.super

/-- What a run without patches keeps. -/
structure Unpatched (heap : Word) (s : Session DieHardHeap) : Prop where
  ordered : s.heap.Ordered
  patch : s.heap.patch = emptyPatch
  heap_eq : s.heap.super.heap = heap

theorem unpatched_next {heap : Word} {s s' : Session DieHardHeap} {a : Action DieHardHeap.Placement}
    (hu : Unpatched heap s) (hn : next s a = some s') : Unpatched heap s' := by
  have ho := ordered_next hu.ordered hn
  cases a with
  | malloc callsite sz place =>
    obtain ⟨⟨ptr, correcting⟩, hm, rfl⟩ := Option.map_eq_some_iff.mp hn
    have hdrained := hu.ordered.drain callsite (Nat.le_refl s.heap.pqueueSize)
    simp only [CorrectingHeap.malloc] at hm
    obtain ⟨⟨q, super⟩, hs, he⟩ := Option.map_eq_some_iff.mp hm
    cases he
    refine ⟨ho, hdrained.patch.trans hu.patch, ?_⟩
    have hkept := DieHardHeap.heap_malloc hs
    rw [hdrained.super, DieHardHeap.heap_foldl_free] at hkept
    exact hkept.trans hu.heap_eq
  | free callsite ptr =>
    obtain ⟨correcting, hf, rfl⟩ := Option.map_eq_some_iff.mp hn
    rcases CorrectingHeap.free_cases hf with ⟨a, -, -, rfl⟩ | ⟨a, id, -, -, -, -, rfl⟩
    · exact ⟨ho, hu.patch, (s.heap.super.heap_free callsite ptr).trans hu.heap_eq⟩
    · exact ⟨ho, hu.patch, hu.heap_eq⟩

section Reachable

variable {heap dlBase stackBase heapConfigFlags globalCt : Word} {s : Session DieHardHeap}

theorem unpatched_reach {ok : Session DieHardHeap → Action DieHardHeap.Placement → Prop}
    (hr : Reach next ok (initial (.initial heap dlBase stackBase heapConfigFlags) emptyPatch globalCt) s) :
    Unpatched heap s := by
  apply hr.invariant (I := Unpatched heap)
  · exact ⟨CorrectingHeap.ordered_initial _ emptyPatch globalCt, rfl, rfl⟩
  · intro r a r' hu _ hn
    exact unpatched_next hu hn

theorem Unpatched.free_eq (hu : Unpatched heap s) (callsite ptr : Word) :
    s.heap.free callsite ptr = (s.heap.super.getAllocCallsite ptr).map fun _ =>
      { s.heap with super := s.heap.super.free callsite ptr } := by
  have hnone (allocSite : Word) : s.heap.patch.getLifeExtension allocSite callsite = 0 := by
    rw [hu.patch]
    rfl
  rw [CorrectingHeap.free]
  show (s.heap.super.getAllocCallsite ptr).bind _ = _
  cases s.heap.super.getAllocCallsite ptr with
  | none => rfl
  | some allocSite =>
    simp only [Option.bind_some, hnone, if_true, Option.map_some]
    rfl

/-- `free` ignores a pointer that the heap has not handed out if and only if it is null or lies outside of
the partitions in a block of addresses without a large object. The heap is not at address 0, where
`initializeHeap` aborts. -/
theorem freeIgnored_iff (hheap : heap ≠ 0)
    (hr : Reach next (fun _ _ => True)
      (initial (.initial heap dlBase stackBase heapConfigFlags) emptyPatch globalCt) s)
    (callsite ptr : Word) :
    (¬ s.heap.super.Owns ptr → FreeIgnored s callsite ptr) ↔
      s.heap.super.Owns ptr ∨ ptr = 0 ∨ s.heap.super.Unmapped ptr := by
  have hu := unpatched_reach hr
  suffices hiff : FreeIgnored s callsite ptr ↔ ptr = 0 ∨ s.heap.super.Unmapped ptr by
    rw [hiff, ← or_iff_not_imp_left]
  rw [FreeIgnored, hu.free_eq]
  cases hsite : s.heap.super.getAllocCallsite ptr with
  | none =>
    -- only a pointer into a partition makes the program abort
    have hon : s.heap.super.isOnHeap ptr = true := by
      by_contra hoff
      rw [DieHardHeap.getAllocCallsite, if_neg hoff] at hsite
      cases hsite
    have hne : ptr ≠ 0 := by
      rintro rfl
      exact hheap (hu.heap_eq ▸ DieHardHeap.heap_eq_zero_of_isOnHeap hon)
    constructor
    · rintro ⟨_, hnone, -⟩
      cases hnone
    · rintro (hzero | hun)
      · exact absurd hzero hne
      · rw [hun.1] at hon
        cases hon
  | some allocSite =>
    rw [← s.heap.super.sameRecords_free_iff callsite hsite]
    constructor
    · rintro ⟨_, hsome, hsame⟩
      cases hsome
      exact hsame
    · intro hsame
      exact ⟨_, rfl, hsame⟩

end Reachable

def freshSession : Session DieHardHeap := initial (.initial 0x40000000#32 0 0 0) emptyPatch 0

def oneObjectRun : List (Action DieHardHeap.Placement) := [.malloc 1 16 (.slot 1 0)]

def oneObjectSession : Session DieHardHeap := final next freshSession oneObjectRun

theorem reach_oneObjectSession : Reach next (fun _ _ => True) freshSession oneObjectSession :=
  reach_final (guarded_true _ _ _) (by decide +kernel)

/-- The object of 16 bytes lies at the start of the second partition; eight bytes into it `free` aborts. -/
theorem not_freeIgnored_interior :
    ¬ ∀ (s : Session DieHardHeap), Reach next (fun _ _ => True) freshSession s → ∀ callsite ptr : Word,
      ¬ s.heap.super.Owns ptr → FreeIgnored s callsite ptr := by
  intro h
  have hindex : (oneObjectSession.heap.super.partitions
      (oneObjectSession.heap.super.getSizeClass 0x40400008#32)).objectIndex 0x40400008#32 = none := by
    decide +kernel
  have hget : oneObjectSession.heap.super.largeObjects.get 0x40400008#32 = 0 := by decide +kernel
  have howns : ¬ oneObjectSession.heap.super.Owns 0x40400008#32 := by
    rintro (⟨-, objectIndex, hsome, -⟩ | ⟨hlarge, -⟩)
    · rw [hindex] at hsome
      cases hsome
    · exact hlarge hget
  obtain ⟨heap, hfree, -⟩ := h oneObjectSession reach_oneObjectSession 2 0x40400008#32 howns
  have habort : (oneObjectSession.heap.free 2 0x40400008#32).isSome = false := by decide +kernel
  rw [hfree] at habort
  cases habort

theorem freeIgnored_oneObject :
    (¬ oneObjectSession.heap.super.Owns 0x10000000#32 → FreeIgnored oneObjectSession 2 0x10000000#32) ↔
      oneObjectSession.heap.super.Owns 0x10000000#32 ∨ (0x10000000#32 : Word) = 0 ∨
        oneObjectSession.heap.super.Unmapped 0x10000000#32 :=
  freeIgnored_iff (by decide) reach_oneObjectSession 2 0x10000000#32

end Session

end DieHard.Exterminator
