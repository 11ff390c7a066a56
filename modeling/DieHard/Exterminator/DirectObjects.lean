import DieHard.Exterminator.Heap
import DieHard.Lib.Blocks
import DieHard.Lib.Transition

/-!
# Directly mapped objects

Large requests, and small ones that every partition refuses, are mapped. One entry for 16 KB of addresses
holds the size of the object that begins there. Objects of 16 KB or more cannot share an entry; two smaller
ones may, and the entry then describes the later one.
-/

namespace DieHard.Exterminator

open Transition

namespace DieHardHeap

variable (h : DieHardHeap)

/-- `classToSize` -/
def classToSize (index : Nat) : Word := 1#32 <<< (index + 3)

def getSize (ptr : Word) : Word :=
  if h.isOnHeap ptr then classToSize (h.getSizeClass ptr) else h.largeObjects.get ptr

/-- The range that `free` unmaps. -/
def unmapped (ptr : Word) : Option (Word × Word) :=
  if ptr = 0 then none
  else if h.isOnHeap ptr then none
  else if h.largeObjects.get ptr = 0 then none
  else some (ptr, h.largeObjects.get ptr)

end DieHardHeap

structure DirectObject where
  base : Word
  size : Word
  deriving DecidableEq

/-- A heap and the mapped objects that the program has not freed. -/
structure DirectHeap where
  heap : DieHardHeap
  live : List DirectObject

inductive DirectAction
  | malloc (callsite sz : Word) (place : DieHardHeap.Placement)
  | free (callsite ptr : Word)

namespace DirectHeap

open DieHardHeap

def grant (live : List DirectObject) (sz ptr : Word) : Placement → List DirectObject
  | .slot _ _ => live
  | .mapped _ => if ptr = 0 then live else ⟨ptr, DieHardHeap.roundUp sz⟩ :: live

def next (s : DirectHeap) : DirectAction → Option DirectHeap
  | .malloc callsite sz place =>
    (s.heap.malloc callsite sz place).map fun (ptr, heap) => ⟨heap, grant s.live sz ptr place⟩
  | .free callsite ptr =>
    some ⟨s.heap.free callsite ptr, s.live.filter fun o => o.base ≠ ptr⟩

/-- `mmap` fails, or answers with pages that neither the heap nor a live object has. -/
def maps (s : DirectHeap) : DirectAction → Prop
  | .malloc _ sz (.mapped ptr) => ptr = 0 ∨ ptr.toNat % 4096 = 0 ∧
    ptr.toNat + (DieHardHeap.roundUp sz).toNat ≤ 2 ^ 32 ∧
    Blocks.Apart ptr.toNat (DieHardHeap.roundUp sz).toNat s.heap.heap.toNat maxHeapSize ∧
    ∀ o ∈ s.live, Blocks.Apart ptr.toNat (DieHardHeap.roundUp sz).toNat o.base.toNat o.size.toNat
  | .malloc _ _ (.slot _ _) => True
  | .free _ _ => True

/-- A mapping begins in 16 KB of addresses in which no live object begins, and what is freed outside of the
heap is no other address of such 16 KB. -/
def separate (s : DirectHeap) : DirectAction → Prop
  | .malloc _ sz (.mapped ptr) =>
    ptr ≠ 0 → DieHardHeap.roundUp sz ≠ 0 → ∀ o ∈ s.live, getIndex o.base ≠ getIndex ptr
  | .malloc _ _ (.slot _ _) => True
  | .free _ ptr => ptr ≠ 0 → s.heap.isOnHeap ptr = false →
    ∀ o ∈ s.live, getIndex o.base = getIndex ptr → o.base = ptr

/-- Each live object has its size, `free` unmaps its range and clears its entry only, which leaves the other
objects their sizes, and `ct` counts the live objects. -/
structure Direct (s : DirectHeap) : Prop where
  getSize : ∀ o ∈ s.live, s.heap.getSize o.base = o.size
  unmaps : ∀ o ∈ s.live, s.heap.unmapped o.base = some (o.base, o.size)
  entry : ∀ o ∈ s.live, s.heap.largeObjects.addrs (getIndex o.base) = o.base
  clears : ∀ o ∈ s.live, ∀ callsite, (s.heap.free callsite o.base).largeObjects.values =
      Function.update s.heap.largeObjects.values (getIndex o.base) 0 ∧
    (s.heap.free callsite o.base).largeObjects.addrs =
      Function.update s.heap.largeObjects.addrs (getIndex o.base) 0
  keeps : ∀ o ∈ s.live, ∀ o' ∈ s.live, o' ≠ o → ∀ callsite,
    (s.heap.free callsite o.base).getSize o'.base = o'.size
  ct : s.heap.largeObjects.ct.toNat = s.live.length

end DirectHeap

namespace DieHardHeap

variable {h h' : DieHardHeap} {callsite sz ptr : Word}

theorem malloc_slot {sc objectIndex : Nat}
    (hm : h.malloc callsite sz (.slot sc objectIndex) = some (ptr, h')) :
    h'.heap = h.heap ∧ h'.largeObjects = h.largeObjects := by
  rw [malloc] at hm
  split at hm
  case isTrue =>
    obtain ⟨r, -, hr⟩ := Option.map_eq_some_iff.mp hm
    cases hr
    exact ⟨rfl, rfl⟩
  case isFalse => contradiction

theorem malloc_mapped {place : Word} (hm : h.malloc callsite sz (.mapped place) = some (ptr, h')) :
    h'.heap = h.heap ∧ (ptr = 0 ∧ h'.largeObjects = h.largeObjects ∨
      ptr = place ∧ place ≠ 0 ∧ ∃ hne : roundUp sz ≠ 0,
        h'.largeObjects = h.largeObjects.set place (roundUp sz) hne (dvd_roundUp sz)) := by
  rw [malloc] at hm
  split at hm
  case isTrue =>
    rw [allocateDirect] at hm
    split at hm
    case isTrue =>
      cases hm
      exact ⟨rfl, Or.inl ⟨rfl, rfl⟩⟩
    case isFalse hne =>
      split at hm
      case isTrue =>
        cases hm
        exact ⟨rfl, Or.inl ⟨rfl, rfl⟩⟩
      case isFalse hplace =>
        cases hm
        exact ⟨rfl, Or.inr ⟨rfl, hplace, hne, rfl⟩⟩
  case isFalse => contradiction

theorem largeObjects_free (h : DieHardHeap) (callsite ptr : Word) : (h.free callsite ptr).largeObjects =
    if h.unmapped ptr = none then h.largeObjects else h.largeObjects.clear ptr := by
  rw [free, unmapped]
  by_cases hptr : ptr = 0
  · rw [if_pos hptr, if_pos hptr, if_pos rfl]
  rw [if_neg hptr, if_neg hptr]
  by_cases hon : h.isOnHeap ptr = true
  · rw [if_pos hon, if_pos hon, if_pos rfl]
    rfl
  rw [if_neg hon, if_neg hon, freeDirect]
  by_cases hzero : h.largeObjects.get ptr = 0
  · rw [if_pos hzero, if_pos hzero, if_pos rfl]
  · rw [if_neg hzero, if_neg hzero, if_neg (Option.some_ne_none _)]

end DieHardHeap

namespace DirectHeap

open DieHardHeap

/-- The entry of a live object is its own. -/
structure Entered (h : DieHardHeap) (o : DirectObject) : Prop where
  base_ne : o.base ≠ 0
  size_ne : o.size ≠ 0
  off : h.isOnHeap o.base = false
  value : h.largeObjects.values (getIndex o.base) = o.size
  addr : h.largeObjects.addrs (getIndex o.base) = o.base

structure Inv (s : DirectHeap) : Prop where
  entered : ∀ o ∈ s.live, Entered s.heap o
  apart : (s.live.map fun o => getIndex o.base).Nodup
  used : ∀ i, s.heap.largeObjects.values i ≠ 0 → ∃ o ∈ s.live, getIndex o.base = i
  ct : s.heap.largeObjects.ct.toNat = s.live.length

variable {s s' : DirectHeap} {o o' : DirectObject} {callsite sz ptr : Word} {h : DieHardHeap}

theorem inv_initial (heap dlBase stackBase heapConfigFlags : Word) :
    Inv ⟨.initial heap dlBase stackBase heapConfigFlags, []⟩ where
  entered _ ho := absurd ho List.not_mem_nil
  apart := List.nodup_nil
  used _ hi := absurd rfl hi
  ct := rfl

theorem Inv.eq_of_getIndex (h : Inv s) (ho : o ∈ s.live) (ho' : o' ∈ s.live)
    (hi : getIndex o.base = getIndex o'.base) : o = o' := List.inj_on_of_nodup_map h.apart ho ho' hi

theorem isOnHeap_of_apart (hsize : 0 < (DieHardHeap.roundUp sz).toNat)
    (hapart : Blocks.Apart ptr.toNat (DieHardHeap.roundUp sz).toNat h.heap.toNat maxHeapSize) :
    h.isOnHeap ptr = false := by
  rw [isOnHeap, decide_eq_false_iff_not]
  intro hon
  have hlo : h.heap.toNat ≤ ptr.toNat := hon.1
  have hhi : ptr.toNat < (h.heap + BitVec.ofNat 32 maxHeapSize).toNat := hon.2
  have hmod := Nat.mod_le (h.heap.toNat + (BitVec.ofNat 32 maxHeapSize).toNat) (2 ^ 32)
  have hmax : (BitVec.ofNat 32 maxHeapSize).toNat = maxHeapSize := by decide
  rw [BitVec.toNat_add] at hhi
  rw [hmax] at hmod hhi
  rcases hapart with hle | hle <;> omega

theorem Inv.same (hs : Inv s) (hheap : h.heap = s.heap.heap)
    (hlarge : h.largeObjects = s.heap.largeObjects) : Inv ⟨h, s.live⟩ := by
  refine ⟨?_, hs.apart, ?_, ?_⟩
  · intro o ho
    have hentered := hs.entered o ho
    refine ⟨hentered.base_ne, hentered.size_ne, ?_, ?_, ?_⟩
    · rw [isOnHeap, hheap]
      exact hentered.off
    · rw [hlarge]
      exact hentered.value
    · rw [hlarge]
      exact hentered.addr
  · rw [hlarge]
    exact hs.used
  · rw [hlarge]
    exact hs.ct

/-- An object is entered where no live object begins. -/
theorem Inv.set (hs : Inv s) (hheap : h.heap = s.heap.heap) (hptr : ptr ≠ 0) (hne : DieHardHeap.roundUp sz ≠ 0)
    (hlarge : h.largeObjects = s.heap.largeObjects.set ptr (DieHardHeap.roundUp sz) hne (dvd_roundUp sz))
    (hoff : s.heap.isOnHeap ptr = false) (hfree : ∀ o ∈ s.live, getIndex o.base ≠ getIndex ptr) :
    Inv ⟨h, ⟨ptr, DieHardHeap.roundUp sz⟩ :: s.live⟩ := by
  have hvalues : h.largeObjects.values =
      Function.update s.heap.largeObjects.values (getIndex ptr) (DieHardHeap.roundUp sz) := congrArg _ hlarge
  have haddrs : h.largeObjects.addrs =
      Function.update s.heap.largeObjects.addrs (getIndex ptr) ptr := congrArg _ hlarge
  have hzero : s.heap.largeObjects.values (getIndex ptr) = 0 := by
    by_contra hused
    obtain ⟨o, ho, hi⟩ := hs.used _ hused
    exact hfree o ho hi
  refine ⟨?_, ?_, ?_, ?_⟩
  · intro o ho
    cases ho with
    | head =>
      refine ⟨hptr, hne, ?_, ?_, ?_⟩
      · rw [isOnHeap, hheap]
        exact hoff
      · rw [hvalues, Function.update_self]
      · rw [haddrs, Function.update_self]
    | tail _ ho =>
      have hentered := hs.entered o ho
      have hother := hfree o ho
      refine ⟨hentered.base_ne, hentered.size_ne, ?_, ?_, ?_⟩
      · rw [isOnHeap, hheap]
        exact hentered.off
      · rw [hvalues, Function.update_of_ne hother]
        exact hentered.value
      · rw [haddrs, Function.update_of_ne hother]
        exact hentered.addr
  · refine List.nodup_cons.mpr ⟨?_, hs.apart⟩
    intro hmem
    obtain ⟨o, ho, hi⟩ := List.mem_map.mp hmem
    exact hfree o ho hi
  · intro i hi
    rw [hvalues] at hi
    by_cases hip : i = getIndex ptr
    · exact ⟨⟨ptr, DieHardHeap.roundUp sz⟩, List.mem_cons_self, hip.symm⟩
    · rw [Function.update_of_ne hip] at hi
      obtain ⟨o, ho, heq⟩ := hs.used i hi
      exact ⟨o, List.mem_cons_of_mem _ ho, heq⟩
  · have hct : h.largeObjects.ct = s.heap.largeObjects.ct + 1 := by
      rw [hlarge]
      exact if_pos hzero
    rw [hct, s.heap.largeObjects.toNat_succ_ct, hs.ct]
    rfl

theorem Inv.malloc (hs : Inv s) {place : Placement} (hmaps : s.maps (.malloc callsite sz place))
    (hseparate : s.separate (.malloc callsite sz place))
    (hm : s.heap.malloc callsite sz place = some (ptr, h)) : Inv ⟨h, grant s.live sz ptr place⟩ := by
  cases place with
  | slot sc objectIndex =>
    obtain ⟨hheap, hlarge⟩ := malloc_slot hm
    exact hs.same hheap hlarge
  | mapped place =>
    obtain ⟨hheap, hresult⟩ := malloc_mapped hm
    rw [grant]
    rcases hresult with ⟨rfl, hlarge⟩ | ⟨rfl, hptr, hne, hlarge⟩
    · rw [if_pos rfl]
      exact hs.same hheap hlarge
    · rw [if_neg hptr]
      have hpos : 0 < (DieHardHeap.roundUp sz).toNat := by
        rw [Nat.pos_iff_ne_zero]
        intro hzero
        exact hne (BitVec.eq_of_toNat_eq hzero)
      obtain ⟨-, -, hapart, -⟩ := hmaps.resolve_left hptr
      exact hs.set hheap hptr hne hlarge (isOnHeap_of_apart hpos hapart) (hseparate hptr hne)

theorem Inv.filter_eq (hs : Inv s) (hnone : s.heap.unmapped ptr = none) :
    s.live.filter (fun o => o.base ≠ ptr) = s.live := by
  apply List.filter_eq_self.mpr
  intro o ho
  have hentered := hs.entered o ho
  rw [decide_eq_true_iff]
  intro heq
  have hvalue : s.heap.largeObjects.get o.base = o.size := hentered.value
  rw [← heq, unmapped, if_neg hentered.base_ne, hentered.off, if_neg Bool.false_ne_true, hvalue,
    if_neg hentered.size_ne] at hnone
  contradiction

theorem unmapped_of_entered (ho : Entered h o) : h.unmapped o.base = some (o.base, o.size) := by
  have hvalue : h.largeObjects.get o.base = o.size := ho.value
  rw [unmapped, if_neg ho.base_ne, ho.off, if_neg Bool.false_ne_true, hvalue, if_neg ho.size_ne]

/-- The entry of the freed object is cleared. -/
theorem Inv.clear (hs : Inv s) (ho : o ∈ s.live) (hheap : h.heap = s.heap.heap)
    (hlarge : h.largeObjects = s.heap.largeObjects.clear o.base) :
    Inv ⟨h, s.live.filter fun o' => o'.base ≠ o.base⟩ := by
  have hvalues : h.largeObjects.values =
      Function.update s.heap.largeObjects.values (getIndex o.base) 0 := congrArg _ hlarge
  have haddrs : h.largeObjects.addrs =
      Function.update s.heap.largeObjects.addrs (getIndex o.base) 0 := congrArg _ hlarge
  have hentered := hs.entered o ho
  have hother {o' : DirectObject} (ho' : o' ∈ s.live) (hne : o'.base ≠ o.base) :
      getIndex o'.base ≠ getIndex o.base := by
    intro hi
    rw [hs.eq_of_getIndex ho' ho hi] at hne
    exact hne rfl
  refine ⟨?_, ?_, ?_, ?_⟩
  · intro o' ho'
    obtain ⟨ho', hne⟩ := List.mem_filter.mp ho'
    have hne := hother ho' (of_decide_eq_true hne)
    have hentered' := hs.entered o' ho'
    refine ⟨hentered'.base_ne, hentered'.size_ne, ?_, ?_, ?_⟩
    · rw [isOnHeap, hheap]
      exact hentered'.off
    · rw [hvalues, Function.update_of_ne hne]
      exact hentered'.value
    · rw [haddrs, Function.update_of_ne hne]
      exact hentered'.addr
  · exact hs.apart.sublist (List.filter_sublist.map _)
  · intro i hi
    rw [hvalues] at hi
    by_cases hio : i = getIndex o.base
    · rw [hio, Function.update_self] at hi
      exact absurd rfl hi
    · rw [Function.update_of_ne hio] at hi
      obtain ⟨o', ho', heq⟩ := hs.used i hi
      refine ⟨o', List.mem_filter.mpr ⟨ho', decide_eq_true ?_⟩, heq⟩
      intro hbase
      exact hio (heq.symm.trans (congrArg getIndex hbase))
  · have hused : s.heap.largeObjects.values (getIndex o.base) ≠ 0 := by
      rw [hentered.value]
      exact hentered.size_ne
    have hct : h.largeObjects.ct = s.heap.largeObjects.ct - 1 := by
      rw [hlarge]
      exact if_pos hused
    have hfilter : (s.live.filter fun o' => o'.base ≠ o.base) = s.live.erase o := by
      rw [(List.Nodup.of_map _ hs.apart).erase_eq_filter]
      apply List.filter_congr
      intro o' ho'
      rw [Bool.eq_iff_iff, decide_eq_true_iff, bne_iff_ne]
      refine not_congr ⟨?_, fun heq => congrArg DirectObject.base heq⟩
      intro hbase
      exact hs.eq_of_getIndex ho' ho (congrArg getIndex hbase)
    have hpos := List.length_pos_of_mem ho
    rw [hct, s.heap.largeObjects.toNat_pred_ct (hs.ct ▸ hpos), hs.ct, hfilter,
      List.length_erase_of_mem ho]

theorem Inv.free (hs : Inv s) (hseparate : s.separate (.free callsite ptr)) :
    Inv ⟨s.heap.free callsite ptr, s.live.filter fun o => o.base ≠ ptr⟩ := by
  have hlarge := s.heap.largeObjects_free callsite ptr
  by_cases hnone : s.heap.unmapped ptr = none
  · rw [if_pos hnone] at hlarge
    rw [hs.filter_eq hnone]
    exact hs.same (s.heap.heap_free callsite ptr) hlarge
  · rw [if_neg hnone] at hlarge
    have hptr : ptr ≠ 0 ∧ s.heap.isOnHeap ptr = false ∧ s.heap.largeObjects.get ptr ≠ 0 := by
      simpa [unmapped] using hnone
    obtain ⟨o, ho, hi⟩ := hs.used _ hptr.2.2
    obtain rfl := hseparate hptr.1 hptr.2.1 o ho hi
    exact hs.clear ho (s.heap.heap_free callsite o.base) hlarge

theorem Inv.next {a : DirectAction} (hs : Inv s) (hmaps : s.maps a) (hseparate : s.separate a)
    (hn : s.next a = some s') : Inv s' := by
  cases a with
  | malloc callsite sz place =>
    obtain ⟨⟨ptr, h⟩, hm, rfl⟩ := Option.map_eq_some_iff.mp hn
    exact hs.malloc hmaps hseparate hm
  | free callsite ptr =>
    cases hn
    exact hs.free hseparate

theorem Inv.direct (hs : Inv s) : Direct s := by
  have hlarge {o : DirectObject} (ho : o ∈ s.live) (callsite : Word) :
      (s.heap.free callsite o.base).largeObjects = s.heap.largeObjects.clear o.base := by
    rw [s.heap.largeObjects_free, unmapped_of_entered (hs.entered o ho), if_neg (Option.some_ne_none _)]
  refine ⟨?_, ?_, ?_, ?_, ?_, hs.ct⟩
  · intro o ho
    have hentered := hs.entered o ho
    rw [DieHardHeap.getSize, hentered.off, if_neg Bool.false_ne_true]
    exact hentered.value
  · intro o ho
    exact unmapped_of_entered (hs.entered o ho)
  · intro o ho
    exact (hs.entered o ho).addr
  · intro o ho callsite
    rw [hlarge ho callsite]
    exact ⟨rfl, rfl⟩
  · intro o ho o' ho' hne callsite
    have hentered := hs.entered o' ho'
    have hoff : (s.heap.free callsite o.base).isOnHeap o'.base = false := by
      rw [isOnHeap, heap_free]
      exact hentered.off
    have hindex : getIndex o'.base ≠ getIndex o.base := fun hi => hne (hs.eq_of_getIndex ho' ho hi)
    rw [DieHardHeap.getSize, hoff, if_neg Bool.false_ne_true, LargeObjectManager.get, hlarge ho callsite]
    exact (Function.update_of_ne hindex _ _).trans hentered.value

/-- As long as no mapping begins in the same 16 KB of addresses as a live object, and no other address of
them is freed, the mapped objects do not interfere. -/
theorem reach_direct {heap dlBase stackBase heapConfigFlags : Word}
    (h : Reach next (fun s a => s.maps a ∧ s.separate a)
      ⟨.initial heap dlBase stackBase heapConfigFlags, []⟩ s) : Direct s := by
  have hs : Inv s := by
    apply h.invariant (I := Inv)
    · exact inv_initial heap dlBase stackBase heapConfigFlags
    · intro r a r' hr hok hn
      exact hr.next hok.1 hok.2 hn
  exact hs.direct

theorem separate_of_large (hlarge : ∀ o ∈ s.live, maxObjectSize ≤ o.size.toNat)
    (hsz : maxObjectSize ≤ (DieHardHeap.roundUp sz).toNat) (hmaps : s.maps (.malloc callsite sz (.mapped ptr))) :
    s.separate (.malloc callsite sz (.mapped ptr)) := by
  intro hptr _ o ho hi
  obtain ⟨-, -, -, hapart⟩ := hmaps.resolve_left hptr
  have hapart := hapart o ho
  have hlarge := hlarge o ho
  simp only [getIndex, Nat.shiftRight_eq_div_pow] at hi
  simp only [Blocks.Apart, maxObjectSize] at hapart hlarge hsz
  omega

instance (s : DirectHeap) : (a : DirectAction) → Decidable (s.maps a)
  | .malloc _ _ (.mapped _) => inferInstanceAs (Decidable (_ ∨ _ ∧ _ ∧ _ ∧ _))
  | .malloc _ _ (.slot _ _) => instDecidableTrue
  | .free _ _ => instDecidableTrue

instance (s : DirectHeap) : (a : DirectAction) → Decidable (s.separate a)
  | .malloc _ _ (.mapped _) => inferInstanceAs (Decidable (_ → _ → _))
  | .malloc _ _ (.slot _ _) => instDecidableTrue
  | .free _ _ => inferInstanceAs (Decidable (_ → _ → _))

def noObjects : DirectHeap := ⟨.initial 0x40000000#32 0 0 0, []⟩

def largeObjects : List DirectAction :=
  [.malloc 1 20000 (.mapped 0x10000#32), .malloc 1 100 (.slot 4 7), .malloc 1 40001 (.mapped 0x15000#32),
    .free 2 0x10000#32, .malloc 1 16385 (.mapped 0x10000#32)]

private theorem reach_largeObjects : Reach next (fun s a => s.maps a ∧ s.separate a) noObjects
    (final next noObjects largeObjects) :=
  reach_final (guarded_of_bool (by decide +kernel)) (by decide +kernel)

theorem direct_largeObjects : Direct (final next noObjects largeObjects) ∧
    (final next noObjects largeObjects).live =
      [⟨0x10000#32, 16388#32⟩, ⟨0x15000#32, 40004#32⟩] :=
  ⟨reach_direct reach_largeObjects, by decide +kernel⟩

/-- The last size class is filled with 128 objects; two more requests of three pages each are mapped, side
by side. -/
def sameBucket : List DirectAction :=
  (List.range 128).map (fun i => .malloc 1 8193 (.slot 11 i)) ++
    [.malloc 1 8193 (.mapped 0x10000#32), .malloc 1 8193 (.mapped 0x13000#32)]

/-- Two objects are live, and one entry is in use. -/
theorem not_direct : ∃ s, Reach next maps noObjects s ∧ ¬ Direct s := by
  refine ⟨final next noObjects sameBucket,
    reach_final (guarded_of_bool (by decide +kernel)) (by decide +kernel), ?_⟩
  intro h
  have hct := h.ct
  revert hct
  decide +kernel

end DirectHeap

end DieHard.Exterminator
