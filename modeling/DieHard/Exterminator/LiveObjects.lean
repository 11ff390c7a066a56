import DieHard.Exterminator.DirectObjects

/-!
# The objects of the program

An object is an allocated slot of a partition or a mapped range. As long as mapped objects are separate, no two
objects share a byte; `malloc` adds one and `free` takes one away.
-/

namespace DieHard.Exterminator

open Transition

namespace DirectHeap

open DieHardHeap

/-- Slot `i` of partition `sc` is allocated. -/
structure SlotLive (h : DieHardHeap) (sc i : Nat) : Prop where
  class_lt : sc < numberOfClasses
  index_lt : i < (h.partitions sc).elements
  isSet : (h.partitions sc).allocated.isSet i = true

/-- Where slot `i` of partition `sc` begins. -/
def slotAddress (h : DieHardHeap) (sc i : Nat) : Nat := h.heap.toNat + sc * partitionSize + i * 2 ^ (sc + 3)

/-- A live object of `n` bytes begins at `a`. -/
inductive Object (s : DirectHeap) : Nat → Nat → Prop
  | slot {sc i : Nat} : SlotLive s.heap sc i → Object s (slotAddress s.heap sc i) (2 ^ (sc + 3))
  | mapped {o : DirectObject} : o ∈ s.live → Object s o.base.toNat o.size.toNat

def MappedApart (o o' : DirectObject) : Prop :=
  Blocks.Apart o.base.toNat o.size.toNat o'.base.toNat o'.size.toNat

instance : Std.Symm MappedApart := ⟨fun _ _ h => Blocks.Apart.symm h⟩

/-- The partitions lie side by side, and the mapped objects outside of them and apart. -/
structure Laid (s : DirectHeap) : Prop extends Inv s where
  heap_ne : s.heap.heap ≠ 0
  fits : s.heap.heap.toNat + maxHeapSize < 2 ^ 32
  placed : ∀ sc < numberOfClasses, (s.heap.partitions sc).sizeClass = sc ∧
    (s.heap.partitions sc).partitionStart = s.heap.heap + BitVec.ofNat 32 (sc * partitionSize)
  outside : ∀ o ∈ s.live, o.base.toNat + o.size.toNat ≤ 2 ^ 32 ∧
    Blocks.Apart o.base.toNat o.size.toNat s.heap.heap.toNat maxHeapSize
  disjoint : s.live.Pairwise MappedApart

variable {s s' : DirectHeap} {h h' : DieHardHeap} {sc sc' i i' a b m n : Nat} {o : DirectObject}
  {callsite sz ptr : Word}

theorem laid_initial {heap : Word} (hne : heap ≠ 0) (hfits : heap.toNat + maxHeapSize < 2 ^ 32)
    (dlBase stackBase heapConfigFlags : Word) :
    Laid ⟨.initial heap dlBase stackBase heapConfigFlags, []⟩ where
  toInv := inv_initial heap dlBase stackBase heapConfigFlags
  heap_ne := hne
  fits := hfits
  placed := by
    intro sc hsc
    simp only [DieHardHeap.initial, hsc, dif_pos]
    exact ⟨rfl, rfl⟩
  outside _ ho := absurd ho List.not_mem_nil
  disjoint := .nil

theorem slotLive_congr (hsame : h'.partitions sc = h.partitions sc) : SlotLive h' sc i ↔ SlotLive h sc i := by
  constructor
  · intro hslot
    have hlt := hslot.index_lt
    have hset := hslot.isSet
    rw [hsame] at hlt hset
    exact ⟨hslot.class_lt, hlt, hset⟩
  · intro hslot
    have hlt := hslot.index_lt
    have hset := hslot.isSet
    rw [← hsame] at hlt hset
    exact ⟨hslot.class_lt, hlt, hset⟩

theorem slotAddress_congr (hheap : h'.heap = h.heap) (sc i : Nat) : slotAddress h' sc i = slotAddress h sc i := by
  rw [slotAddress, hheap, slotAddress]

theorem le_slotAddress (h : DieHardHeap) (sc i : Nat) :
    h.heap.toNat + sc * partitionSize ≤ slotAddress h sc i := Nat.le_add_right _ _

namespace Laid

theorem size_eq (hs : Laid s) (hsc : sc < numberOfClasses) : (s.heap.partitions sc).size = 2 ^ (sc + 3) := by
  rw [(s.heap.partitions sc).size_eq, (hs.placed sc hsc).1]

theorem slot_end_le (hs : Laid s) (hslot : SlotLive s.heap sc i) :
    slotAddress s.heap sc i + 2 ^ (sc + 3) ≤ s.heap.heap.toNat + (sc + 1) * partitionSize := by
  have hend := (s.heap.partitions sc).slot_end_le hslot.index_lt
  rw [hs.size_eq hslot.class_lt] at hend
  rw [slotAddress, Nat.succ_mul]
  omega

theorem slot_end_lt (hs : Laid s) (hslot : SlotLive s.heap sc i) :
    slotAddress s.heap sc i + 2 ^ (sc + 3) ≤ s.heap.heap.toNat + maxHeapSize := by
  have hend := hs.slot_end_le hslot
  have hle : (sc + 1) * partitionSize ≤ maxHeapSize := Nat.mul_le_mul_right _ hslot.class_lt
  omega

theorem toNat_start (hs : Laid s) (hsc : sc < numberOfClasses) (hi : i < (s.heap.partitions sc).elements) :
    ((s.heap.partitions sc).partitionStart + BitVec.ofNat 32 (i * (s.heap.partitions sc).size)).toNat =
      slotAddress s.heap sc i := by
  have hend := (s.heap.partitions sc).slot_end_le hi
  have hle : (sc + 1) * partitionSize ≤ maxHeapSize := Nat.mul_le_mul_right _ hsc
  have hfits := hs.fits
  have hpos := Nat.two_pow_pos (sc + 3)
  rw [Nat.succ_mul] at hle
  rw [hs.size_eq hsc] at hend ⊢
  rw [(hs.placed sc hsc).2, BitVec.toNat_add, BitVec.toNat_add, BitVec.toNat_ofNat, BitVec.toNat_ofNat, slotAddress]
  omega

theorem slots_apart (hs : Laid s) (hslot : SlotLive s.heap sc i) (hslot' : SlotLive s.heap sc' i')
    (hne : (sc, i) ≠ (sc', i')) :
    Blocks.Apart (slotAddress s.heap sc i) (2 ^ (sc + 3)) (slotAddress s.heap sc' i') (2 ^ (sc' + 3)) := by
  have hend := hs.slot_end_le hslot
  have hend' := hs.slot_end_le hslot'
  rcases Nat.lt_trichotomy sc sc' with hlt | heq | hlt
  · have hle : (sc + 1) * partitionSize ≤ sc' * partitionSize := Nat.mul_le_mul_right _ hlt
    have hstart := le_slotAddress s.heap sc' i'
    left
    omega
  · subst heq
    rcases Nat.lt_trichotomy i i' with hlt | heq | hlt
    · have hle : (i + 1) * 2 ^ (sc + 3) ≤ i' * 2 ^ (sc + 3) := Nat.mul_le_mul_right _ hlt
      rw [Nat.succ_mul] at hle
      left
      rw [slotAddress, slotAddress]
      omega
    · exact absurd (by rw [heq]) hne
    · have hle : (i' + 1) * 2 ^ (sc + 3) ≤ i * 2 ^ (sc + 3) := Nat.mul_le_mul_right _ hlt
      rw [Nat.succ_mul] at hle
      right
      rw [slotAddress, slotAddress]
      omega
  · have hle : (sc' + 1) * partitionSize ≤ sc * partitionSize := Nat.mul_le_mul_right _ hlt
    have hstart := le_slotAddress s.heap sc i
    right
    omega

theorem mapped_apart (hs : Laid s) (ho : o ∈ s.live) (hslot : SlotLive s.heap sc i) :
    Blocks.Apart o.base.toNat o.size.toNat (slotAddress s.heap sc i) (2 ^ (sc + 3)) := by
  have hend := hs.slot_end_lt hslot
  have hstart := le_slotAddress s.heap sc i
  rcases (hs.outside o ho).2 with hle | hle
  · left
    omega
  · right
    omega

theorem object_pos (hs : Laid s) (hobject : Object s a n) : 0 < n := by
  cases hobject with
  | slot => exact Nat.two_pow_pos _
  | mapped ho =>
    rw [Nat.pos_iff_ne_zero]
    intro hzero
    exact (hs.entered _ ho).size_ne (BitVec.eq_of_toNat_eq hzero)

theorem object_end_le (hs : Laid s) (hobject : Object s a n) : a + n ≤ 2 ^ 32 := by
  cases hobject with
  | slot hslot =>
    have hend := hs.slot_end_lt hslot
    have hfits := hs.fits
    omega
  | mapped ho => exact (hs.outside _ ho).1

theorem apart_or_eq (hs : Laid s) (ha : Object s a m) (hb : Object s b n) :
    Blocks.Apart a m b n ∨ a = b ∧ m = n := by
  cases ha with
  | @slot sc i hslot =>
    cases hb with
    | @slot sc' i' hslot' =>
      by_cases heq : (sc, i) = (sc', i')
      · obtain ⟨rfl, rfl⟩ := Prod.mk.inj heq
        exact Or.inr ⟨rfl, rfl⟩
      · exact Or.inl (hs.slots_apart hslot hslot' heq)
    | mapped ho => exact Or.inl (hs.mapped_apart ho hslot).symm
  | @mapped o ho =>
    cases hb with
    | slot hslot' => exact Or.inl (hs.mapped_apart ho hslot')
    | @mapped o' ho' =>
      by_cases heq : o = o'
      · subst heq
        exact Or.inr ⟨rfl, rfl⟩
      · exact Or.inl (hs.disjoint.forall ho ho' heq)

theorem objects_apart (hs : Laid s) (ha : Object s a m) (hb : Object s b n) (hne : a ≠ b) : Blocks.Apart a m b n :=
  (hs.apart_or_eq ha hb).resolve_right fun heq => hne heq.1

theorem isOnHeap_slot (hs : Laid s) (hslot : SlotLive s.heap sc i) (hptr : ptr.toNat = slotAddress s.heap sc i) :
    s.heap.isOnHeap ptr = true ∧ s.heap.getSizeClass ptr = sc := by
  have hend := hs.slot_end_lt hslot
  have hinside := hs.slot_end_le hslot
  have hfits := hs.fits
  have hpos := Nat.two_pow_pos (sc + 3)
  have hmax : (BitVec.ofNat 32 maxHeapSize).toNat = maxHeapSize := by decide
  have hstart := le_slotAddress s.heap sc i
  have hlo : s.heap.heap.toNat ≤ ptr.toNat := by omega
  constructor
  · rw [DieHardHeap.isOnHeap, decide_eq_true_iff]
    refine ⟨hlo, ?_⟩
    change ptr.toNat < (s.heap.heap + BitVec.ofNat 32 maxHeapSize).toNat
    rw [BitVec.toNat_add, hmax, Nat.mod_eq_of_lt hfits, hptr]
    omega
  · have hsub : (ptr - s.heap.heap).toNat = ptr.toNat - s.heap.heap.toNat := BitVec.toNat_sub_of_le hlo
    rw [DieHardHeap.getSizeClass, hsub, hptr]
    apply Nat.div_eq_of_lt_le
    · omega
    · omega

theorem getSize_eq (hs : Laid s) (hobject : Object s ptr.toNat n) : (s.heap.getSize ptr).toNat = n := by
  generalize ha : ptr.toNat = a at hobject
  cases hobject with
  | @slot sc i hslot =>
    obtain ⟨hon, hclass⟩ := hs.isOnHeap_slot hslot ha
    have hlt := hslot.class_lt
    simp only [numberOfClasses] at hlt
    rw [DieHardHeap.getSize, if_pos hon, hclass, DieHardHeap.classToSize, BitVec.toNat_shiftLeft,
      Nat.shiftLeft_eq]
    have hpow : 2 ^ (sc + 3) < 2 ^ 32 := Nat.pow_lt_pow_right (by decide) (by omega)
    rw [Nat.mod_eq_of_lt (by simpa using hpow)]
    simp
  | @mapped o ho =>
    have heq : ptr = o.base := BitVec.eq_of_toNat_eq ha
    rw [heq, hs.toInv.direct.getSize o ho]

theorem transfer (hs : Laid s) (hinv : Inv s') (hheap : s'.heap.heap = s.heap.heap)
    (hplaced : ∀ sc, (s'.heap.partitions sc).sizeClass = (s.heap.partitions sc).sizeClass ∧
      (s'.heap.partitions sc).partitionStart = (s.heap.partitions sc).partitionStart)
    (houtside : ∀ o ∈ s'.live, o.base.toNat + o.size.toNat ≤ 2 ^ 32 ∧
      Blocks.Apart o.base.toNat o.size.toNat s.heap.heap.toNat maxHeapSize)
    (hdisjoint : s'.live.Pairwise MappedApart) : Laid s' where
  toInv := hinv
  heap_ne := by
    rw [hheap]
    exact hs.heap_ne
  fits := by
    rw [hheap]
    exact hs.fits
  placed := by
    intro sc hsc
    rw [(hplaced sc).1, (hplaced sc).2, hheap]
    exact hs.placed sc hsc
  outside := by
    rw [hheap]
    exact houtside
  disjoint := hdisjoint

end Laid

def setMemory (s : DirectHeap) (memory : Word → Byte) : DirectHeap :=
  ⟨{ s.heap with memory := memory }, s.live⟩

theorem object_setMemory {memory : Word → Byte} : Object (s.setMemory memory) a n ↔ Object s a n := by
  constructor
  · intro hobject
    cases hobject with
    | slot hslot => exact .slot ⟨hslot.class_lt, hslot.index_lt, hslot.isSet⟩
    | mapped ho => exact .mapped ho
  · intro hobject
    cases hobject with
    | slot hslot => exact .slot (s := s.setMemory memory) ⟨hslot.class_lt, hslot.index_lt, hslot.isSet⟩
    | mapped ho => exact .mapped (s := s.setMemory memory) ho

theorem Laid.setMemory (hs : Laid s) (memory : Word → Byte) : Laid (s.setMemory memory) :=
  hs.transfer (hs.toInv.same (h := { s.heap with memory := memory }) rfl rfl) rfl (fun _ => ⟨rfl, rfl⟩)
    hs.outside hs.disjoint

theorem sub_toNat_lt_iff {x : Word} {n : Nat} (hfits : ptr.toNat + n ≤ 2 ^ 32) :
    (x - ptr).toNat < n ↔ ptr.toNat ≤ x.toNat ∧ x.toNat < ptr.toNat + n := by
  have hx := x.isLt
  have hptr := ptr.isLt
  rw [BitVec.toNat_sub]
  constructor
  · intro hlt
    by_cases hle : ptr.toNat ≤ x.toNat
    · omega
    · omega
  · intro hin
    omega

section Free

theorem sizeClass_freeObject (p : PartitionInfo) (ptr callsite globalCt : Word) :
    (p.freeObject ptr callsite globalCt).sizeClass = p.sizeClass ∧
      (p.freeObject ptr callsite globalCt).partitionStart = p.partitionStart ∧
      (p.freeObject ptr callsite globalCt).elements = p.elements := by
  rw [PartitionInfo.freeObject]
  split <;> exact ⟨rfl, rfl, rfl⟩

theorem isSet_freeObject (p : PartitionInfo) (ptr callsite globalCt : Word) (i : Nat) :
    (p.freeObject ptr callsite globalCt).allocated.isSet i = true ↔
      p.allocated.isSet i = true ∧ p.objectIndex ptr ≠ some i := by
  rw [PartitionInfo.freeObject]
  split
  case h_1 hnone => simp [hnone]
  case h_2 j hsome =>
    change (p.allocated.reset j).isSet i = true ↔ _
    rw [BitArray.isSet_reset, hsome, Bool.and_eq_true, decide_eq_true_iff, ne_eq, ne_eq, Option.some.injEq,
      eq_comm (a := j)]

theorem memory_free (h : DieHardHeap) (callsite ptr : Word) : (h.free callsite ptr).memory = h.memory := by
  rw [DieHardHeap.free]
  split
  · rfl
  · split
    · rfl
    · rw [freeDirect]
      split <;> rfl

theorem partitions_free (h : DieHardHeap) (callsite ptr : Word) : (h.free callsite ptr).partitions =
    if ptr ≠ 0 ∧ h.isOnHeap ptr = true then Function.update h.partitions (h.getSizeClass ptr)
      ((h.partitions (h.getSizeClass ptr)).freeObject ptr callsite h.globalCt)
    else h.partitions := by
  rw [DieHardHeap.free]
  by_cases hptr : ptr = 0
  · simp [hptr]
  · by_cases hon : h.isOnHeap ptr = true
    · rw [if_neg hptr, if_pos hon, if_pos ⟨hptr, hon⟩]
      rfl
    · rw [if_neg hptr, if_neg hon, if_neg (fun hand => hon hand.2), freeDirect]
      split <;> rfl

theorem slotLive_free : SlotLive (h.free callsite ptr) sc i ↔ SlotLive h sc i ∧
    ¬ (ptr ≠ 0 ∧ h.isOnHeap ptr = true ∧ h.getSizeClass ptr = sc ∧
      (h.partitions sc).objectIndex ptr = some i) := by
  have hpartitions := partitions_free h callsite ptr
  by_cases hon : (ptr ≠ 0 ∧ h.isOnHeap ptr = true) ∧ h.getSizeClass ptr = sc
  · obtain ⟨hon, rfl⟩ := hon
    have hsame : (h.free callsite ptr).partitions (h.getSizeClass ptr) =
        (h.partitions (h.getSizeClass ptr)).freeObject ptr callsite h.globalCt := by
      rw [hpartitions, if_pos hon, Function.update_self]
    constructor
    · intro hslot
      have hset := hslot.isSet
      have hlt := hslot.index_lt
      rw [hsame, isSet_freeObject] at hset
      rw [hsame, (sizeClass_freeObject _ _ _ _).2.2] at hlt
      exact ⟨⟨hslot.class_lt, hlt, hset.1⟩, fun hand => hset.2 hand.2.2.2⟩
    · intro ⟨hslot, hnot⟩
      refine ⟨hslot.class_lt, ?_, ?_⟩
      · rw [hsame, (sizeClass_freeObject _ _ _ _).2.2]
        exact hslot.index_lt
      · rw [hsame, isSet_freeObject]
        exact ⟨hslot.isSet, fun hindex => hnot ⟨hon.1, hon.2, rfl, hindex⟩⟩
  · have hsame : (h.free callsite ptr).partitions sc = h.partitions sc := by
      rw [hpartitions]
      split
      case isTrue hp => exact Function.update_of_ne (fun heq => hon ⟨hp, heq.symm⟩) ..
      case isFalse => rfl
    have hnot : ¬ (ptr ≠ 0 ∧ h.isOnHeap ptr = true ∧ h.getSizeClass ptr = sc ∧
        (h.partitions sc).objectIndex ptr = some i) := fun hand => hon ⟨⟨hand.1, hand.2.1⟩, hand.2.2.1⟩
    rw [and_iff_left hnot]
    exact slotLive_congr hsame

namespace Laid

theorem free (hs : Laid s) (hseparate : s.separate (.free callsite ptr)) :
    Laid ⟨s.heap.free callsite ptr, s.live.filter fun o => o.base ≠ ptr⟩ := by
  apply hs.transfer (hs.toInv.free hseparate) (s.heap.heap_free callsite ptr)
  · intro sc
    change ((s.heap.free callsite ptr).partitions sc).sizeClass = _ ∧
      ((s.heap.free callsite ptr).partitions sc).partitionStart = _
    rw [partitions_free]
    split
    case isTrue =>
      by_cases heq : sc = s.heap.getSizeClass ptr
      · subst heq
        rw [Function.update_self]
        exact ⟨(sizeClass_freeObject _ _ _ _).1, (sizeClass_freeObject _ _ _ _).2.1⟩
      · rw [Function.update_of_ne heq]
        exact ⟨rfl, rfl⟩
    case isFalse => exact ⟨rfl, rfl⟩
  · intro o ho
    exact hs.outside o (List.mem_of_mem_filter ho)
  · exact hs.disjoint.filter _

theorem ne_zero (hs : Laid s) (hobject : Object s ptr.toNat n) : ptr ≠ 0 := by
  generalize ha : ptr.toNat = a at hobject
  intro hzero
  have hzero : a = 0 := by
    rw [← ha, hzero]
    rfl
  cases hobject with
  | @slot sc i hslot =>
    have hstart := le_slotAddress s.heap sc i
    have hheap : s.heap.heap.toNat ≠ 0 := fun heq => hs.heap_ne (BitVec.eq_of_toNat_eq heq)
    omega
  | @mapped o ho => exact (hs.entered o ho).base_ne (BitVec.eq_of_toNat_eq hzero)

theorem objectIndex_slot (hs : Laid s) (hslot : SlotLive s.heap sc i)
    (hptr : ptr.toNat = slotAddress s.heap sc i) : (s.heap.partitions sc).objectIndex ptr = some i := by
  have hstart : ptr = (s.heap.partitions sc).partitionStart +
      BitVec.ofNat 32 (i * (s.heap.partitions sc).size) := by
    apply BitVec.eq_of_toNat_eq
    rw [hptr, hs.toNat_start hslot.class_lt hslot.index_lt]
  rw [hstart]
  exact (s.heap.partitions sc).objectIndex_start hslot.index_lt

/-- `free` takes away the object that begins at the pointer, and no other one. -/
theorem object_free (hs : Laid s) (hobject : Object s ptr.toNat n) :
    Object ⟨s.heap.free callsite ptr, s.live.filter fun o => o.base ≠ ptr⟩ a m ↔
      Object s a m ∧ a ≠ ptr.toNat := by
  have hne := hs.ne_zero hobject
  have hheap := slotAddress_congr (s.heap.heap_free callsite ptr)
  -- the slot of the pointer is released, if the pointer has one
  have hslots : ∀ sc i, SlotLive (s.heap.free callsite ptr) sc i ↔
      SlotLive s.heap sc i ∧ slotAddress s.heap sc i ≠ ptr.toNat := by
    intro sc i
    rw [slotLive_free]
    apply and_congr_right
    intro hslot
    apply not_congr
    constructor
    · intro ⟨_, hon, hclass, hindex⟩
      generalize hb : ptr.toNat = b at hobject
      cases hobject with
      | @slot sc' i' hslot' =>
        obtain ⟨-, hclass'⟩ := hs.isOnHeap_slot hslot' hb
        obtain rfl : sc = sc' := hclass.symm.trans hclass'
        rw [hs.objectIndex_slot hslot' hb] at hindex
        rw [Option.some.inj hindex]
      | @mapped o ho =>
        have heq : ptr = o.base := BitVec.eq_of_toNat_eq hb
        rw [heq, (hs.entered o ho).off] at hon
        cases hon
    · intro heq
      obtain ⟨hon, hclass⟩ := hs.isOnHeap_slot hslot heq.symm
      exact ⟨hne, hon, hclass, hs.objectIndex_slot hslot heq.symm⟩
  constructor
  · intro hafter
    cases hafter with
    | @slot sc i hslot =>
      rw [hheap]
      have hslot := (hslots sc i).mp hslot
      exact ⟨.slot hslot.1, hslot.2⟩
    | @mapped o ho =>
      obtain ⟨ho, hbase⟩ := List.mem_filter.mp ho
      refine ⟨.mapped ho, ?_⟩
      intro heq
      exact of_decide_eq_true hbase (BitVec.eq_of_toNat_eq heq)
  · intro ⟨hbefore, hother⟩
    cases hbefore with
    | @slot sc i hslot =>
      rw [← hheap]
      exact .slot (s := ⟨s.heap.free callsite ptr, _⟩) ((hslots sc i).mpr ⟨hslot, hother⟩)
    | @mapped o ho =>
      apply Object.mapped (s := ⟨s.heap.free callsite ptr, _⟩)
      refine List.mem_filter.mpr ⟨ho, decide_eq_true ?_⟩
      intro heq
      exact hother (by rw [heq])

end Laid

end Free

/-- An answered request: `n` bytes at `ptr` are a new object, and the rest of the memory is as it was. -/
structure Added (s s' : DirectHeap) (ptr : Word) (n : Nat) : Prop where
  laid : Laid s'
  object : ∀ a m, Object s' a m ↔ Object s a m ∨ a = ptr.toNat ∧ m = n
  apart : ∀ a m, Object s a m → Blocks.Apart ptr.toNat n a m
  memory : ∀ x : Word, n ≤ (x - ptr).toNat → s'.heap.memory x = s.heap.memory x

/-- What an allocation from a partition does. -/
structure Taken (h h' : DieHardHeap) (sz ptr : Word) (sc i : Nat) : Prop where
  sz_le : sz.toNat ≤ 2 ^ (sc + 3)
  class_lt : sc < numberOfClasses
  index_lt : i < (h.partitions sc).elements
  isSet : (h.partitions sc).allocated.isSet i = false
  ptr_eq : ptr = (h.partitions sc).partitionStart + BitVec.ofNat 32 (i * (h.partitions sc).size)
  other : ∀ k, k ≠ sc → h'.partitions k = h.partitions k
  sizeClass : (h'.partitions sc).sizeClass = (h.partitions sc).sizeClass
  start : (h'.partitions sc).partitionStart = (h.partitions sc).partitionStart
  elements : (h'.partitions sc).elements = (h.partitions sc).elements
  allocated : (h'.partitions sc).allocated = (h.partitions sc).allocated.set i
  memory : ∀ x : Word, (h.partitions sc).size ≤ (x - ptr).toNat → h'.memory x = h.memory x

theorem le_of_sizeClass_le (hsc : DieHardHeap.sizeClass sz ≤ sc) : sz.toNat ≤ 2 ^ (sc + 3) := by
  have hlog : log2 (max sz.toNat 8) ≤ sc + 3 := by
    rw [DieHardHeap.sizeClass] at hsc
    omega
  exact Nat.le_trans (Nat.le_max_left _ _) (log2_le_iff.mp hlog)

theorem taken_of_malloc (hm : h.malloc callsite sz (.slot sc i) = some (ptr, h')) : Taken h h' sz ptr sc i := by
  rw [malloc] at hm
  split at hm
  case isFalse => contradiction
  case isTrue hguard =>
    obtain ⟨-, hclass, hsc, -⟩ := hguard
    obtain ⟨⟨q, p⟩, halloc, heq⟩ := Option.map_eq_some_iff.mp hm
    obtain ⟨rfl, rfl⟩ := Prod.mk.inj heq
    rw [PartitionInfo.allocObject] at halloc
    split at halloc
    case isTrue => contradiction
    case isFalse hfree =>
      obtain ⟨rfl, rfl⟩ := Prod.mk.inj (Option.some.inj halloc)
      rw [not_or, not_or, Nat.not_le] at hfree
      obtain ⟨-, hi, hset⟩ := hfree
      exact
        { sz_le := le_of_sizeClass_le hclass
          class_lt := hsc
          index_lt := hi
          isSet := Bool.not_eq_true _ ▸ hset
          ptr_eq := rfl
          other := fun k hk => Function.update_of_ne hk ..
          sizeClass := by simp [fillZero, setPartition, PartitionInfo.allocEvent]
          start := by simp [fillZero, setPartition, PartitionInfo.allocEvent]
          elements := by simp [fillZero, setPartition, PartitionInfo.allocEvent]
          allocated := by simp [fillZero, setPartition, PartitionInfo.allocEvent]
          memory := fun x hx => if_neg (Nat.not_lt.mpr hx) }

theorem mapped_of_malloc {place : Word} (hm : h.malloc callsite sz (.mapped place) = some (ptr, h')) :
    h'.partitions = h.partitions ∧ (ptr = 0 ∧ (place = 0 ∨ DieHardHeap.roundUp sz = 0) ∨
      ptr = place ∧ place ≠ 0 ∧ DieHardHeap.roundUp sz ≠ 0 ∧
        ∀ x : Word, (DieHardHeap.roundUp sz).toNat ≤ (x - ptr).toNat → h'.memory x = h.memory x) := by
  rw [malloc] at hm
  split at hm
  case isFalse => contradiction
  case isTrue =>
    rw [allocateDirect] at hm
    split at hm
    case isTrue hzero =>
      cases hm
      exact ⟨rfl, Or.inl ⟨rfl, Or.inr hzero⟩⟩
    case isFalse hne =>
      split at hm
      case isTrue hnull =>
        cases hm
        exact ⟨rfl, Or.inl ⟨rfl, Or.inl hnull⟩⟩
      case isFalse hplace =>
        cases hm
        exact ⟨rfl, Or.inr ⟨rfl, hplace, hne, fun x hx => if_neg (Nat.not_lt.mpr hx)⟩⟩

theorem Taken.slotLive (ht : Taken h h' sz ptr sc i) :
    SlotLive h' sc' i' ↔ SlotLive h sc' i' ∨ sc' = sc ∧ i' = i := by
  by_cases hsc : sc' = sc
  · subst hsc
    constructor
    · intro hslot
      have hset := hslot.isSet
      have hlt := hslot.index_lt
      rw [ht.allocated, BitArray.isSet_set, Bool.or_eq_true, decide_eq_true_iff] at hset
      rw [ht.elements] at hlt
      rcases hset with hset | heq
      · exact Or.inl ⟨hslot.class_lt, hlt, hset⟩
      · exact Or.inr ⟨rfl, heq⟩
    · intro hor
      refine ⟨ht.class_lt, ?_, ?_⟩
      · rw [ht.elements]
        rcases hor with hslot | ⟨-, rfl⟩
        · exact hslot.index_lt
        · exact ht.index_lt
      · rw [ht.allocated, BitArray.isSet_set, Bool.or_eq_true, decide_eq_true_iff]
        exact hor.imp SlotLive.isSet And.right
  · rw [slotLive_congr (ht.other sc' hsc), or_iff_left fun heq => hsc heq.1]

namespace Laid

theorem malloc (hs : Laid s) {place : Placement} (hmaps : s.maps (.malloc callsite sz place))
    (hseparate : s.separate (.malloc callsite sz place))
    (hm : s.heap.malloc callsite sz place = some (ptr, h)) : Laid ⟨h, grant s.live sz ptr place⟩ := by
  have hinv := hs.toInv.malloc hmaps hseparate hm
  cases place with
  | slot sc i =>
    have ht := taken_of_malloc hm
    apply hs.transfer hinv (malloc_slot hm).1
    · intro k
      by_cases hk : k = sc
      · subst hk
        exact ⟨ht.sizeClass, ht.start⟩
      · change (h.partitions k).sizeClass = _ ∧ (h.partitions k).partitionStart = _
        rw [ht.other k hk]
        exact ⟨rfl, rfl⟩
    · exact hs.outside
    · exact hs.disjoint
  | mapped place =>
    obtain ⟨hsame, hresult⟩ := mapped_of_malloc hm
    rw [grant] at hinv ⊢
    apply hs.transfer hinv (malloc_mapped hm).1
    · intro k
      change (h.partitions k).sizeClass = _ ∧ (h.partitions k).partitionStart = _
      rw [hsame]
      exact ⟨rfl, rfl⟩
    · rcases hresult with ⟨hnull, -⟩ | ⟨rfl, hptr, -, -⟩
      · rw [if_pos hnull]
        exact hs.outside
      · obtain ⟨-, hend, hapart, -⟩ := hmaps.resolve_left hptr
        rw [if_neg hptr]
        intro o ho
        cases ho with
        | head => exact ⟨hend, hapart⟩
        | tail _ ho => exact hs.outside o ho
    · rcases hresult with ⟨hnull, -⟩ | ⟨rfl, hptr, -, -⟩
      · rw [if_pos hnull]
        exact hs.disjoint
      · obtain ⟨-, -, -, hlive⟩ := hmaps.resolve_left hptr
        rw [if_neg hptr]
        exact .cons hlive hs.disjoint

theorem added_slot (hs : Laid s) (hs' : Laid ⟨h, s.live⟩)
    (hm : s.heap.malloc callsite sz (.slot sc i) = some (ptr, h)) : Added s ⟨h, s.live⟩ ptr (2 ^ (sc + 3)) := by
  have ht := taken_of_malloc hm
  have hheap := slotAddress_congr (malloc_slot hm).1
  have hptr : ptr.toNat = slotAddress s.heap sc i := by rw [ht.ptr_eq, hs.toNat_start ht.class_lt ht.index_lt]
  have hnew : SlotLive h sc i := ht.slotLive.mpr (Or.inr ⟨rfl, rfl⟩)
  refine ⟨hs', ?_, ?_, ?_⟩
  · intro a m
    constructor
    · intro hobject
      cases hobject with
      | @slot k j hslot =>
        rw [hheap]
        rcases ht.slotLive.mp hslot with hslot | ⟨rfl, rfl⟩
        · exact Or.inl (.slot hslot)
        · exact Or.inr ⟨hptr.symm, rfl⟩
      | mapped ho => exact Or.inl (.mapped ho)
    · intro hor
      rcases hor with hobject | ⟨rfl, rfl⟩
      · cases hobject with
        | @slot k j hslot =>
          rw [← hheap]
          exact .slot (s := ⟨h, s.live⟩) (ht.slotLive.mpr (Or.inl hslot))
        | mapped ho => exact .mapped (s := ⟨h, s.live⟩) ho
      · rw [hptr, ← hheap]
        exact .slot (s := ⟨h, s.live⟩) hnew
  · intro a m hobject
    rw [hptr, ← hheap]
    cases hobject with
    | @slot k j hslot =>
      rw [← hheap]
      apply hs'.slots_apart hnew (ht.slotLive.mpr (Or.inl hslot))
      intro hpair
      obtain ⟨rfl, rfl⟩ := Prod.mk.inj hpair
      have hset := hslot.isSet
      rw [ht.isSet] at hset
      contradiction
    | mapped ho => exact (hs'.mapped_apart ho hnew).symm
  · intro x hx
    apply ht.memory
    rw [hs.size_eq ht.class_lt]
    exact hx

theorem added_mapped {place : Word}
    (hs' : Laid ⟨h, grant s.live sz ptr (.mapped place)⟩) (hptr : ptr ≠ 0)
    (hm : s.heap.malloc callsite sz (.mapped place) = some (ptr, h)) :
    DieHardHeap.roundUp sz ≠ 0 ∧
      Added s ⟨h, grant s.live sz ptr (.mapped place)⟩ ptr (DieHardHeap.roundUp sz).toNat := by
  obtain ⟨hsame, hresult⟩ := mapped_of_malloc hm
  obtain ⟨-, -, hne, hmemory⟩ := hresult.resolve_left fun hand => hptr hand.1
  rw [grant, if_neg hptr] at hs' ⊢
  have hheap := slotAddress_congr (malloc_mapped hm).1
  have hslots : ∀ k j, SlotLive h k j ↔ SlotLive s.heap k j := fun k _ => slotLive_congr (congrFun hsame k)
  have hnew : DirectObject.mk ptr (DieHardHeap.roundUp sz) ∈ DirectObject.mk ptr (DieHardHeap.roundUp sz) :: s.live :=
    List.mem_cons_self
  refine ⟨hne, hs', ?_, ?_, hmemory⟩
  · intro a m
    constructor
    · intro hobject
      cases hobject with
      | @slot k j hslot =>
        rw [hheap]
        exact Or.inl (.slot ((hslots k j).mp hslot))
      | mapped ho =>
        cases ho with
        | head => exact Or.inr ⟨rfl, rfl⟩
        | tail _ ho => exact Or.inl (.mapped ho)
    · intro hor
      rcases hor with hobject | ⟨rfl, rfl⟩
      · cases hobject with
        | @slot k j hslot =>
          rw [← hheap]
          exact .slot (s := ⟨h, _⟩) ((hslots k j).mpr hslot)
        | mapped ho => exact .mapped (s := ⟨h, _⟩) (List.mem_cons_of_mem _ ho)
      · exact .mapped (s := ⟨h, _⟩) hnew
  · intro a m hobject
    cases hobject with
    | @slot k j hslot =>
      rw [← hheap]
      exact hs'.mapped_apart hnew ((hslots k j).mpr hslot)
    | mapped ho => exact (List.pairwise_cons.mp hs'.disjoint).1 _ ho

theorem added (hs : Laid s) {place : Placement} (hmaps : s.maps (.malloc callsite sz place))
    (hseparate : s.separate (.malloc callsite sz place))
    (hm : s.heap.malloc callsite sz place = some (ptr, h)) (hptr : ptr ≠ 0) :
    ∃ n, sz.toNat ≤ n ∧ Added s ⟨h, grant s.live sz ptr place⟩ ptr n := by
  have hs' := hs.malloc hmaps hseparate hm
  cases place with
  | slot sc i => exact ⟨_, (taken_of_malloc hm).sz_le, hs.added_slot hs' hm⟩
  | mapped place =>
    obtain ⟨hne, hadded⟩ := added_mapped hs' hptr hm
    exact ⟨_, le_roundUp hne, hadded⟩

end Laid

end DirectHeap

end DieHard.Exterminator
