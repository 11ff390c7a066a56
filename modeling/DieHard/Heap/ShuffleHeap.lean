import DieHard.Lib.SlotTable
import DieHard.Lib.Transition
import DieHard.Math.Log2

/-!
# The shuffling heap

`malloc` and `free` exchange an object with a random one from the bin of its class. The superheap gives the
objects; which ones is left open.
-/

namespace DieHard.ShuffleHeap

open SlotTable Transition
open scoped List

/-- The parameters of the heap, and the size classes of the superheap. -/
structure Layout where
  chunkSize : Nat
  maxSize : Nat
  getSizeClass : Nat → Nat
  getClassSize : Nat → Nat

/-- The classes of the requests of at most `maxSize` bytes. -/
structure SizeClasses extends Layout where
  maxSize_le : maxSize ≤ chunkSize
  inverts : ∀ sz ≤ maxSize, getSizeClass (getClassSize (getSizeClass sz)) = getSizeClass sz
  fits : ∀ sz ≤ maxSize, sz ≤ getClassSize (getSizeClass sz)
  class_lt : ∀ sz ≤ maxSize, getSizeClass sz < chunkSize / 8
  size_ge : ∀ sz ≤ maxSize, 8 ≤ getClassSize (getSizeClass sz)
  size_le : ∀ sz ≤ maxSize, getClassSize (getSizeClass sz) ≤ chunkSize

/-- An object of the superheap. -/
structure Answer where
  ptr : Nat
  size : Nat

/-- The heap, and what is known of the objects. `direct` has the live objects that come straight from the
superheap. -/
structure World where
  isFilled : Nat → Bool
  /-- entry `j` of bin `c`, unless it has never been written -/
  buffer : Nat × Nat → Option Nat
  /-- from the superheap and not returned to it -/
  obtained : List Nat
  getSize : Nat → Nat
  live : List Nat
  direct : List Nat

namespace World

def initial : World where
  isFilled _ := false
  buffer _ := none
  obtained := []
  getSize _ := 0
  live := []
  direct := []

variable (w : World)

/-- `SuperHeap::malloc` with its answer -/
def superMalloc (x : Answer) : World :=
  { w with obtained := x.ptr :: w.obtained, getSize := Function.update w.getSize x.ptr x.size }

/-- `SuperHeap::free` -/
def superFree (ptr : Nat) : World := { w with obtained := w.obtained.erase ptr }

def put (slot : Nat × Nat) (ptr : Nat) : World := { w with buffer := store w.buffer slot ptr }

/-- The loop of `fill`, for the first `n` entries. -/
def fillEntries (index : Nat) (answers : Nat → Answer) : Nat → World
  | 0 => w
  | n + 1 =>
    let w' := fillEntries index answers n
    (w'.superMalloc (answers n)).put (index, n) (answers n).ptr

end World

namespace Layout

variable (L : Layout)

/-- `NumBins`, and the entries of a bin -/
def numBins : Nat := L.chunkSize / 8

def nObjects (index : Nat) : Nat := L.chunkSize / L.getClassSize index

/-- `fill(index)`. The answer is `none` where it divides by zero or writes behind the bins. -/
def fill (w : World) (index : Nat) (answers : Nat → Answer) : Option World :=
  if L.getClassSize index = 0 ∨ L.numBins ≤ index ∨ L.numBins < L.nObjects index then none
  else
    let w' := w.fillEntries index answers (L.nObjects index)
    some { w' with isFilled := Function.update w'.isFilled index true }

def prepare (w : World) (binIndex : Nat) (answers : Nat → Answer) : Option (World × Nat) :=
  if w.isFilled binIndex then some (w, 0)
  else (L.fill w binIndex answers).map fun w => (w, L.nObjects binIndex)

/-- `malloc(sz)` with the random number and the answers of the superheap. -/
def malloc (w : World) (sz rnd : Nat) (answers : Nat → Answer) : Option (Nat × World) :=
  if L.maxSize < sz then some ((answers 0).ptr, w.superMalloc (answers 0))
  else do
    let binIndex := L.getSizeClass sz
    let (w, used) ← L.prepare w binIndex answers
    let w := w.superMalloc (answers used)
    if L.getClassSize binIndex = 0 ∨ L.nObjects binIndex = 0 then none
    else do
      let j := rnd % L.nObjects binIndex
      let ptr ← w.buffer (binIndex, j)
      some (ptr, w.put (binIndex, j) (answers used).ptr)

/-- `free(ptr)` with the random number: what is returned to the superheap. The answer is `none` where it
divides by zero or reads an entry that is not there. -/
def free (w : World) (ptr rnd : Nat) : Option (Nat × World) :=
  let reqSz := w.getSize ptr
  let binIndex := L.getSizeClass reqSz
  if reqSz = 0 ∨ L.chunkSize / reqSz = 0 ∨ L.numBins ≤ binIndex then none
  else do
    let j := rnd % (L.chunkSize / reqSz)
    let victim ← w.buffer (binIndex, j)
    some (victim, (w.put (binIndex, j) ptr).superFree victim)

/-- A call, with the random number that it draws and the answers of the superheap. -/
inductive Action where
  | malloc (sz rnd : Nat) (answers : Nat → Answer)
  | free (ptr rnd : Nat)

def next (w : World) : Action → Option World
  | .malloc sz rnd answers => (L.malloc w sz rnd answers).map fun (ptr, w) =>
      { w with
        live := ptr :: w.live
        direct := if L.maxSize < sz then ptr :: w.direct else w.direct }
  | .free ptr rnd => (L.free w ptr rnd).map fun (_, w) =>
      { w with
        live := w.live.erase ptr
        direct := w.direct.filter fun q => q ≠ ptr }

/-- The objects with which `malloc` fills a bin first. -/
def filling (w : World) (sz : Nat) : Nat :=
  if L.maxSize < sz ∨ w.isFilled (L.getSizeClass sz) then 0 else L.nObjects (L.getSizeClass sz)

/-- The superheap gives fresh objects of the size of their class, or that have room for a large request. -/
structure Supplied (w : World) (sz : Nat) (answers : Nat → Answer) : Prop where
  fresh : ∀ i ≤ L.filling w sz, (answers i).ptr ∉ w.obtained
  distinct : ∀ i ≤ L.filling w sz, ∀ j < i, (answers j).ptr ≠ (answers i).ptr
  size : sz ≤ L.maxSize → ∀ i ≤ L.filling w sz, (answers i).size = L.getClassSize (L.getSizeClass sz)
  large : L.maxSize < sz → sz ≤ (answers 0).size

def Permits (w : World) : Action → Prop
  | .malloc sz _ answers => L.Supplied w sz answers
  | .free ptr _ => ptr ∈ w.live

def slots : List (Nat × Nat) := List.range L.numBins ×ˢ List.range L.numBins

theorem slots_nodup : L.slots.Nodup := List.nodup_range.product List.nodup_range

theorem mem_slots {c j : Nat} : (c, j) ∈ L.slots ↔ c < L.numBins ∧ j < L.numBins := by
  change (c, j) ∈ List.product _ _ ↔ _
  rw [List.pair_mem_product, List.mem_range, List.mem_range]

/-- The objects from the superheap are the live ones and those in the bins, and each is at one place. -/
structure Balanced (w : World) : Prop where
  nodup : w.obtained.Nodup
  perm : w.obtained.Perm (w.live ++ contents L.slots w.buffer)
  inside : ∀ slot, w.buffer slot ≠ none → slot ∈ L.slots

structure Pool (w : World) : Prop extends Balanced L w where
  unfilled : ∀ c, w.isFilled c = false → ∀ j, w.buffer (c, j) = none

variable {L} {w : World} {x : Answer} {slot : Nat × Nat} {ptr victim : Nat}

theorem Pool.initial : L.Pool World.initial where
  nodup := List.nodup_nil
  perm := by
    have hempty : contents L.slots World.initial.buffer = [] := by
      rw [contents, List.filterMap_eq_nil_iff]
      intro _ _
      rfl
    rw [hempty]
    exact .nil
  inside _ h := absurd rfl h
  unfilled _ _ _ := rfl

namespace Balanced

theorem mem_obtained_iff (h : L.Balanced w) :
    ptr ∈ w.obtained ↔ ptr ∈ w.live ∨ ptr ∈ contents L.slots w.buffer := by
  rw [h.perm.mem_iff, List.mem_append]

theorem mem_slots (h : L.Balanced w) (hslot : w.buffer slot = some ptr) : slot ∈ L.slots :=
  h.inside slot (by simp [hslot])

theorem mem_contents (h : L.Balanced w) (hslot : w.buffer slot = some ptr) :
    ptr ∈ contents L.slots w.buffer :=
  SlotTable.mem_contents.mpr ⟨slot, h.mem_slots hslot, hslot⟩

theorem not_live (h : L.Balanced w) (hslot : w.buffer slot = some ptr) : ptr ∉ w.live := by
  intro hlive
  have hnodup := h.perm.nodup_iff.mp h.nodup
  exact List.disjoint_of_nodup_append hnodup hlive (h.mem_contents hslot)

theorem inside_put (h : L.Balanced w) (hslot : slot ∈ L.slots) :
    ∀ slot', store w.buffer slot ptr slot' ≠ none → slot' ∈ L.slots := by
  intro slot' hne
  by_cases heq : slot' = slot
  · rwa [heq]
  · rw [store_of_ne heq] at hne
    exact h.inside slot' hne

theorem enter (h : L.Balanced w) (hfresh : x.ptr ∉ w.obtained) (hslot : slot ∈ L.slots)
    (hempty : w.buffer slot = none) : L.Balanced ((w.superMalloc x).put slot x.ptr) where
  nodup := List.nodup_cons.mpr ⟨hfresh, h.nodup⟩
  perm := by
    have hstore := contents_store_empty (a := x.ptr) L.slots_nodup hslot hempty
    exact (h.perm.cons x.ptr).trans (List.perm_middle.symm.trans (hstore.symm.append_left w.live))
  inside := h.inside_put hslot

theorem giveDirectly (h : L.Balanced w) (hfresh : x.ptr ∉ w.obtained) (direct : List Nat) :
    L.Balanced { w.superMalloc x with live := x.ptr :: w.live, direct := direct } where
  nodup := List.nodup_cons.mpr ⟨hfresh, h.nodup⟩
  perm := h.perm.cons x.ptr
  inside := h.inside

theorem exchange (h : L.Balanced w) (hfresh : x.ptr ∉ w.obtained) (hslot : w.buffer slot = some ptr)
    (direct : List Nat) :
    L.Balanced { (w.superMalloc x).put slot x.ptr with live := ptr :: w.live, direct := direct } where
  nodup := List.nodup_cons.mpr ⟨hfresh, h.nodup⟩
  perm := by
    have hstore := contents_store_full (a := x.ptr) L.slots_nodup (h.mem_slots hslot) hslot
    calc x.ptr :: w.obtained
      _ ~ x.ptr :: (w.live ++ contents L.slots w.buffer) := h.perm.cons _
      _ ~ w.live ++ x.ptr :: contents L.slots w.buffer := List.perm_middle.symm
      _ ~ w.live ++ ptr :: contents L.slots (store w.buffer slot x.ptr) := hstore.symm.append_left _
      _ ~ ptr :: (w.live ++ contents L.slots (store w.buffer slot x.ptr)) := List.perm_middle
  inside := h.inside_put (h.mem_slots hslot)

theorem evict (h : L.Balanced w) (hlive : ptr ∈ w.live) (hslot : w.buffer slot = some victim)
    (direct : List Nat) :
    L.Balanced { (w.put slot ptr).superFree victim with live := w.live.erase ptr, direct := direct } where
  nodup := h.nodup.erase victim
  perm := by
    have hstore := contents_store_full (a := ptr) L.slots_nodup (h.mem_slots hslot) hslot
    have hall : w.obtained.Perm (victim :: (w.live.erase ptr ++ contents L.slots (store w.buffer slot ptr))) :=
      calc w.obtained
        _ ~ w.live ++ contents L.slots w.buffer := h.perm
        _ ~ ptr :: w.live.erase ptr ++ contents L.slots w.buffer :=
          (List.perm_cons_erase hlive).append_right _
        _ ~ w.live.erase ptr ++ ptr :: contents L.slots w.buffer := List.perm_middle.symm
        _ ~ w.live.erase ptr ++ victim :: contents L.slots (store w.buffer slot ptr) :=
          hstore.symm.append_left _
        _ ~ victim :: (w.live.erase ptr ++ contents L.slots (store w.buffer slot ptr)) :=
          List.perm_middle
    have herase := hall.erase victim
    rwa [List.erase_cons_head] at herase
  inside := h.inside_put (h.mem_slots hslot)

end Balanced

section Fill

variable {answers : Nat → Answer} {index n : Nat}

theorem fillEntries_frame (w : World) (index : Nat) (answers : Nat → Answer) (n : Nat) :
    (w.fillEntries index answers n).isFilled = w.isFilled ∧ (w.fillEntries index answers n).live = w.live ∧
      (w.fillEntries index answers n).direct = w.direct := by
  induction n with
  | zero => exact ⟨rfl, rfl, rfl⟩
  | succ n ih => exact ih

theorem fillEntries_buffer (w : World) (index : Nat) (answers : Nat → Answer) (n c j : Nat) :
    (w.fillEntries index answers n).buffer (c, j) =
      if c = index ∧ j < n then some (answers j).ptr else w.buffer (c, j) := by
  induction n with
  | zero => simp [World.fillEntries]
  | succ n ih =>
    change store (w.fillEntries index answers n).buffer (index, n) (answers n).ptr (c, j) = _
    by_cases heq : (c, j) = (index, n)
    · obtain ⟨rfl, rfl⟩ := Prod.mk.inj heq
      simp
    · rw [store_of_ne heq, ih]
      have hiff : c = index ∧ j < n ↔ c = index ∧ j < n + 1 := by
        rw [Prod.mk.injEq] at heq
        omega
      simp only [hiff]

theorem mem_fillEntries_obtained (w : World) (index : Nat) (answers : Nat → Answer) (n : Nat) {ptr : Nat} :
    ptr ∈ (w.fillEntries index answers n).obtained ↔ (∃ i < n, ptr = (answers i).ptr) ∨ ptr ∈ w.obtained := by
  induction n with
  | zero => simp [World.fillEntries]
  | succ n ih =>
    change ptr ∈ (answers n).ptr :: (w.fillEntries index answers n).obtained ↔ _
    rw [List.mem_cons, ih, ← or_assoc]
    simp only [Nat.lt_succ_iff_lt_or_eq, or_and_right, exists_or, exists_eq_left]
    rw [or_comm (a := ptr = (answers n).ptr)]

theorem fillEntries_getSize_of_not_mem (w : World) (index : Nat) (answers : Nat → Answer) {n ptr : Nat}
    (h : ∀ i < n, (answers i).ptr ≠ ptr) : (w.fillEntries index answers n).getSize ptr = w.getSize ptr := by
  induction n with
  | zero => rfl
  | succ n ih =>
    change Function.update (w.fillEntries index answers n).getSize (answers n).ptr (answers n).size ptr = _
    rw [Function.update_of_ne (h n (Nat.lt_succ_self n)).symm]
    exact ih fun i hi => h i (Nat.lt_succ_of_lt hi)

theorem fillEntries_getSize (w : World) (index : Nat) (answers : Nat → Answer) {n i : Nat} (hi : i < n)
    (h : ∀ i < n, ∀ j < i, (answers j).ptr ≠ (answers i).ptr) :
    (w.fillEntries index answers n).getSize (answers i).ptr = (answers i).size := by
  induction n with
  | zero => omega
  | succ n ih =>
    change Function.update (w.fillEntries index answers n).getSize (answers n).ptr (answers n).size _ = _
    rcases Nat.lt_succ_iff_lt_or_eq.mp hi with hi | hi
    · rw [Function.update_of_ne (h n (Nat.lt_succ_self n) i hi)]
      exact ih hi fun i hi => h i (Nat.lt_succ_of_lt hi)
    · rw [hi, Function.update_self]

theorem Balanced.fillEntries (h : L.Balanced w) (hindex : index < L.numBins) (hn : n ≤ L.numBins)
    (hempty : ∀ j, w.buffer (index, j) = none) (hfresh : ∀ i < n, (answers i).ptr ∉ w.obtained)
    (hdistinct : ∀ i < n, ∀ j < i, (answers j).ptr ≠ (answers i).ptr) :
    L.Balanced (w.fillEntries index answers n) := by
  induction n with
  | zero => exact h
  | succ n ih =>
    have hrest := ih (Nat.le_of_succ_le hn) (fun i hi => hfresh i (Nat.lt_succ_of_lt hi))
      fun i hi => hdistinct i (Nat.lt_succ_of_lt hi)
    apply hrest.enter
    · rw [mem_fillEntries_obtained]
      intro hmem
      rcases hmem with ⟨i, hi, heq⟩ | hmem
      · exact hdistinct n (Nat.lt_succ_self n) i hi heq.symm
      · exact hfresh n (Nat.lt_succ_self n) hmem
    · exact L.mem_slots.mpr ⟨hindex, hn⟩
    · rw [fillEntries_buffer, if_neg (by simp)]
      exact hempty n

end Fill

section Calls

variable {answers : Nat → Answer} {sz rnd used binIndex : Nat} {v w' : World}

theorem prepare_cases (h : L.prepare w binIndex answers = some (v, used)) :
    (w.isFilled binIndex = true ∧ v = w ∧ used = 0) ∨
    (w.isFilled binIndex = false ∧ used = L.nObjects binIndex ∧ binIndex < L.numBins ∧
      L.nObjects binIndex ≤ L.numBins ∧
      v = { w.fillEntries binIndex answers (L.nObjects binIndex) with
        isFilled := Function.update w.isFilled binIndex true }) := by
  rw [prepare] at h
  split at h
  case isTrue hfilled =>
    cases h
    exact Or.inl ⟨hfilled, rfl, rfl⟩
  case isFalse hfilled =>
    obtain ⟨v', hfill, heq⟩ := Option.map_eq_some_iff.mp h
    rw [fill] at hfill
    split at hfill
    case isTrue => cases hfill
    case isFalse hin =>
      cases hfill
      cases heq
      rw [(fillEntries_frame w binIndex answers _).1]
      exact Or.inr ⟨by simpa using hfilled, rfl, by omega, by omega, rfl⟩

theorem malloc_cases {ptr : Nat} (h : L.malloc w sz rnd answers = some (ptr, w')) :
    (L.maxSize < sz ∧ ptr = (answers 0).ptr ∧ w' = w.superMalloc (answers 0)) ∨
    (sz ≤ L.maxSize ∧ ∃ v used j, L.prepare w (L.getSizeClass sz) answers = some (v, used) ∧
      v.buffer (L.getSizeClass sz, j) = some ptr ∧
      w' = (v.superMalloc (answers used)).put (L.getSizeClass sz, j) (answers used).ptr) := by
  rw [malloc] at h
  split at h
  case isTrue hlarge =>
    cases h
    exact Or.inl ⟨hlarge, rfl, rfl⟩
  case isFalse hsmall =>
    obtain ⟨⟨v, used⟩, hprepare, h⟩ := Option.bind_eq_some_iff.mp h
    dsimp only at h
    split at h
    case isTrue => cases h
    case isFalse =>
      obtain ⟨q, hq, h⟩ := Option.bind_eq_some_iff.mp h
      cases h
      exact Or.inr ⟨Nat.le_of_not_lt hsmall, v, used, _, hprepare, hq, rfl⟩

theorem malloc_frame {ptr : Nat} (h : L.malloc w sz rnd answers = some (ptr, w')) :
    w'.live = w.live ∧ w'.direct = w.direct := by
  rcases malloc_cases h with ⟨-, -, rfl⟩ | ⟨-, v, used, j, hprepare, -, rfl⟩
  · exact ⟨rfl, rfl⟩
  · rcases prepare_cases hprepare with ⟨-, rfl, -⟩ | ⟨-, -, -, -, rfl⟩
    · exact ⟨rfl, rfl⟩
    · exact (fillEntries_frame w _ answers _).2

theorem free_cases (h : L.free w ptr rnd = some (victim, w')) :
    ∃ j, w.buffer (L.getSizeClass (w.getSize ptr), j) = some victim ∧
      w' = (w.put (L.getSizeClass (w.getSize ptr), j) ptr).superFree victim := by
  rw [free] at h
  dsimp only at h
  split at h
  case isTrue => cases h
  case isFalse =>
    obtain ⟨q, hq, h⟩ := Option.bind_eq_some_iff.mp h
    cases h
    exact ⟨_, hq, rfl⟩

theorem filling_of_unfilled (hsmall : sz ≤ L.maxSize) (hfilled : w.isFilled (L.getSizeClass sz) = false) :
    L.filling w sz = L.nObjects (L.getSizeClass sz) := by
  rw [filling, if_neg]
  simp [hfilled, hsmall]

/-- A bin that is filled has its objects, and the superheap has another one. -/
theorem Pool.prepare (h : L.Pool w) (hs : L.Supplied w sz answers) (hsmall : sz ≤ L.maxSize)
    (hprepare : L.prepare w (L.getSizeClass sz) answers = some (v, used)) :
    L.Pool v ∧ used = L.filling w sz ∧ v.live = w.live ∧ v.direct = w.direct ∧
      (answers used).ptr ∉ v.obtained := by
  rcases prepare_cases hprepare with ⟨hfilled, rfl, rfl⟩ | ⟨hfilled, rfl, hbin, hn, rfl⟩
  · have hfilling : L.filling v sz = 0 := if_pos (Or.inr hfilled)
    exact ⟨h, hfilling.symm, rfl, rfl, hs.fresh 0 (Nat.zero_le _)⟩
  · have hfilling : L.filling w sz = L.nObjects (L.getSizeClass sz) := by
      rw [filling, if_neg]
      simp [hfilled, hsmall]
    have hframe := fillEntries_frame w (L.getSizeClass sz) answers (L.nObjects (L.getSizeClass sz))
    have hfresh := hs.fresh
    have hdistinct := hs.distinct
    rw [hfilling] at hfresh hdistinct
    refine ⟨?_, hfilling.symm, hframe.2.1, hframe.2.2, ?_⟩
    · have hbalanced := h.toBalanced.fillEntries hbin hn (h.unfilled _ hfilled)
        (fun i hi => hfresh i hi.le) fun i hi => hdistinct i hi.le
      refine ⟨⟨hbalanced.nodup, hbalanced.perm, hbalanced.inside⟩, ?_⟩
      intro c hc j
      dsimp only at hc ⊢
      have hne : c ≠ L.getSizeClass sz := by
        intro heq
        rw [heq, Function.update_self] at hc
        cases hc
      rw [Function.update_of_ne hne] at hc
      rw [fillEntries_buffer, if_neg fun hand => hne hand.1]
      exact h.unfilled c hc j
    · change (answers _).ptr ∉ (w.fillEntries _ answers _).obtained
      rw [mem_fillEntries_obtained]
      intro hmem
      rcases hmem with ⟨i, hi, heq⟩ | hmem
      · exact hdistinct _ le_rfl i hi heq.symm
      · exact hfresh _ le_rfl hmem

theorem Pool.unfilled_put (h : L.Pool w) (hslot : w.buffer slot = some victim) :
    ∀ c, w.isFilled c = false → ∀ j, store w.buffer slot ptr (c, j) = none := by
  intro c hc j
  have hnone := h.unfilled c hc j
  have hne : (c, j) ≠ slot := by
    intro heq
    rw [heq, hslot] at hnone
    cases hnone
  rw [store_of_ne hne, hnone]

theorem Pool.next {a : Action} (h : L.Pool w) (hok : L.Permits w a) (hn : L.next w a = some w') :
    L.Pool w' := by
  cases a with
  | malloc sz rnd answers =>
    obtain ⟨⟨ptr, w''⟩, hmalloc, rfl⟩ := Option.map_eq_some_iff.mp hn
    rcases malloc_cases hmalloc with ⟨-, rfl, rfl⟩ | ⟨hsmall, v, used, j, hprepare, hslot, rfl⟩
    · exact ⟨h.giveDirectly (hok.fresh 0 (Nat.zero_le _)) _, h.unfilled⟩
    · obtain ⟨hpool, -, hlive, -, hfresh⟩ := h.prepare hok hsmall hprepare
      exact ⟨hpool.exchange hfresh hslot _, hpool.unfilled_put hslot⟩
  | free ptr rnd =>
    obtain ⟨⟨victim, w''⟩, hfree, rfl⟩ := Option.map_eq_some_iff.mp hn
    obtain ⟨j, hslot, rfl⟩ := free_cases hfree
    exact ⟨h.evict hok hslot _, h.unfilled_put hslot⟩

theorem Pool.of_reach (hr : Reach L.next L.Permits World.initial w) : L.Pool w :=
  hr.invariant Pool.initial fun _ _ _ hpool hok hn => hpool.next hok hn

end Calls

end Layout

namespace SizeClasses

open Layout

variable (L : SizeClasses)

def PermitsSmall (w : World) : Action → Prop
  | .malloc sz _ answers => sz ≤ L.maxSize ∧ L.Supplied w sz answers
  | .free ptr _ => ptr ∈ w.live

/-- The objects in a bin and those of the program are of the size of their class. -/
structure Sized (w : World) : Prop extends L.Pool w where
  used : ∀ c, w.isFilled c = true → ∃ sz ≤ L.maxSize, c = L.getSizeClass sz
  filled : ∀ c, w.isFilled c = true → ∀ j, (w.buffer (c, j)).isSome ↔ j < L.nObjects c
  binSize : ∀ c j ptr, w.buffer (c, j) = some ptr → w.getSize ptr = L.getClassSize c
  liveSize : ∀ ptr ∈ w.live, ∃ c, w.isFilled c = true ∧ w.getSize ptr = L.getClassSize c

/-- The objects from the superheap are the live ones and those in the filled bins, all different, and what
`malloc` and `free` do next is sound. -/
structure Sound (w : World) : Prop where
  nodup : w.obtained.Nodup
  perm : w.obtained ~ w.live ++ contents L.slots w.buffer
  filled : ∀ c j, (w.buffer (c, j)).isSome ↔ w.isFilled c = true ∧ j < L.nObjects c
  malloc : ∀ sz rnd answers, sz ≤ L.maxSize → L.Supplied w sz answers →
    ∃ ptr w', L.malloc w sz rnd answers = some (ptr, w') ∧ ptr ∉ w.live ∧ sz ≤ w'.getSize ptr
  free : ∀ ptr rnd, ptr ∈ w.live → ∃ victim w', L.free w ptr rnd = some (victim, w') ∧ victim ∈ w.obtained

section Small

variable {L} {answers : Nat → Answer} {sz rnd used c j ptr victim : Nat} {v w w' : World}

theorem nObjects_pos (hsz : sz ≤ L.maxSize) : 0 < L.nObjects (L.getSizeClass sz) :=
  Nat.div_pos (L.size_le sz hsz) (Nat.lt_of_lt_of_le (by decide) (L.size_ge sz hsz))

theorem nObjects_le (hsz : sz ≤ L.maxSize) : L.nObjects (L.getSizeClass sz) ≤ L.numBins :=
  Nat.div_le_div_left (L.size_ge sz hsz) (by decide)

namespace Sized

theorem initial : L.Sized World.initial where
  toPool := Pool.initial
  used _ h := by cases h
  filled _ h := by cases h
  binSize _ _ _ h := by cases h
  liveSize _ h := by cases h

theorem mem_live (h : L.Sized w) (hlive : ptr ∈ w.live) : ptr ∈ w.obtained :=
  h.mem_obtained_iff.mpr (Or.inl hlive)

theorem mem_bin (h : L.Sized w) {slot : Nat × Nat} (hslot : w.buffer slot = some ptr) : ptr ∈ w.obtained :=
  h.mem_obtained_iff.mpr (Or.inr (h.mem_contents hslot))

theorem prepare (h : L.Sized w) (hs : L.Supplied w sz answers) (hsmall : sz ≤ L.maxSize)
    (hprepare : L.prepare w (L.getSizeClass sz) answers = some (v, used)) : L.Sized v := by
  have hpool := (h.toPool.prepare hs hsmall hprepare).1
  rcases prepare_cases hprepare with ⟨-, rfl, -⟩ | ⟨hfilled, rfl, -, -, rfl⟩
  · exact h
  have hfilling := filling_of_unfilled hsmall hfilled
  have hsize := hs.size hsmall
  have hfresh := hs.fresh
  have hdistinct := hs.distinct
  rw [hfilling] at hsize hfresh hdistinct
  have hold : ∀ ptr ∈ w.obtained, (w.fillEntries (L.getSizeClass sz) answers
      (L.nObjects (L.getSizeClass sz))).getSize ptr = w.getSize ptr := by
    intro ptr hptr
    apply fillEntries_getSize_of_not_mem
    intro i hi heq
    exact hfresh i hi.le (heq ▸ hptr)
  refine ⟨hpool, ?_, ?_, ?_, ?_⟩
  · intro c hc
    by_cases heq : c = L.getSizeClass sz
    · exact ⟨sz, hsmall, heq⟩
    · dsimp only at hc
      rw [Function.update_of_ne heq] at hc
      exact h.used c hc
  · intro c hc j
    dsimp only at hc ⊢
    rw [fillEntries_buffer]
    by_cases heq : c = L.getSizeClass sz
    · subst heq
      by_cases hj : j < L.nObjects (L.getSizeClass sz)
      · simp [hj]
      · simp [hj, h.unfilled _ hfilled]
    · rw [Function.update_of_ne heq] at hc
      rw [if_neg fun hand => heq hand.1]
      exact h.filled c hc j
  · intro c j ptr hptr
    dsimp only at hptr ⊢
    rw [fillEntries_buffer] at hptr
    split at hptr
    case isTrue hnew =>
      cases hptr
      rw [fillEntries_getSize w _ _ hnew.2 fun i hi => hdistinct i hi.le, hsize j hnew.2.le, hnew.1]
    case isFalse =>
      rw [hold ptr (h.mem_bin hptr)]
      exact h.binSize c j ptr hptr
  · intro ptr hptr
    dsimp only at hptr ⊢
    rw [(fillEntries_frame w _ _ _).2.1] at hptr
    obtain ⟨c, hc, hsize⟩ := h.liveSize ptr hptr
    refine ⟨c, ?_, ?_⟩
    · by_cases heq : c = L.getSizeClass sz
      · rw [heq, Function.update_self]
      · rwa [Function.update_of_ne heq]
    · rw [hold ptr (h.mem_live hptr), hsize]

theorem filled_put (h : L.Sized w) {slot : Nat × Nat} (hslot : w.buffer slot = some victim) :
    ∀ c, w.isFilled c = true → ∀ j, (store w.buffer slot ptr (c, j)).isSome ↔ j < L.nObjects c := by
  intro c hc j
  rw [← h.filled c hc j]
  by_cases heq : (c, j) = slot
  · rw [heq, store_self, hslot]
    rfl
  · rw [store_of_ne heq]

theorem isFilled_of_entry (h : L.Sized w) (hslot : w.buffer (c, j) = some ptr) : w.isFilled c = true := by
  by_contra hnot
  rw [h.unfilled c (by simpa using hnot) j] at hslot
  cases hslot

theorem bin_of_live (h : L.Sized w) (hlive : ptr ∈ w.live) :
    w.isFilled (L.getSizeClass (w.getSize ptr)) = true ∧
      w.getSize ptr = L.getClassSize (L.getSizeClass (w.getSize ptr)) ∧
      ∃ sz ≤ L.maxSize, L.getSizeClass (w.getSize ptr) = L.getSizeClass sz := by
  obtain ⟨c, hc, hsize⟩ := h.liveSize ptr hlive
  obtain ⟨sz, hsz, rfl⟩ := h.used c hc
  have hbin : L.getSizeClass (w.getSize ptr) = L.getSizeClass sz := by rw [hsize, L.inverts sz hsz]
  rw [hbin]
  exact ⟨hc, hsize, sz, hsz, rfl⟩

/-- `malloc` gives an object from the bin of the class. -/
theorem exchange (h : L.Sized v) {x : Answer} (hfresh : x.ptr ∉ v.obtained) (hsize : x.size = L.getClassSize c)
    (hslot : v.buffer (c, j) = some ptr) (direct : List Nat) :
    L.Sized { (v.superMalloc x).put (c, j) x.ptr with live := ptr :: v.live, direct := direct } where
  toPool := ⟨h.toBalanced.exchange hfresh hslot direct, h.unfilled_put hslot⟩
  used := h.used
  filled := h.filled_put hslot
  binSize := by
    intro c' j' q hq
    change store v.buffer (c, j) x.ptr (c', j') = some q at hq
    change Function.update v.getSize x.ptr x.size q = _
    by_cases heq : (c', j') = (c, j)
    · rw [heq, store_self] at hq
      cases hq
      rw [Function.update_self, hsize, (Prod.mk.inj heq).1]
    · rw [store_of_ne heq] at hq
      have hne : q ≠ x.ptr := fun hqx => hfresh (hqx ▸ h.mem_bin hq)
      rw [Function.update_of_ne hne]
      exact h.binSize c' j' q hq
  liveSize := by
    intro q hq
    change ∃ c, v.isFilled c = true ∧ Function.update v.getSize x.ptr x.size q = L.getClassSize c
    rcases List.mem_cons.mp hq with rfl | hq
    · have hne : q ≠ x.ptr := fun hqx => hfresh (hqx ▸ h.mem_bin hslot)
      rw [Function.update_of_ne hne]
      exact ⟨c, h.isFilled_of_entry hslot, h.binSize c j q hslot⟩
    · have hne : q ≠ x.ptr := fun hqx => hfresh (hqx ▸ h.mem_live hq)
      rw [Function.update_of_ne hne]
      exact h.liveSize q hq

theorem evict (h : L.Sized w) (hlive : ptr ∈ w.live)
    (hslot : w.buffer (L.getSizeClass (w.getSize ptr), j) = some victim) (direct : List Nat) :
    L.Sized { (w.put (L.getSizeClass (w.getSize ptr), j) ptr).superFree victim with
      live := w.live.erase ptr, direct := direct } where
  toPool := ⟨h.toBalanced.evict hlive hslot direct, h.unfilled_put hslot⟩
  used := h.used
  filled := h.filled_put hslot
  binSize := by
    intro c' j' q hq
    change store w.buffer _ ptr (c', j') = some q at hq
    by_cases heq : (c', j') = (L.getSizeClass (w.getSize ptr), j)
    · rw [heq, store_self] at hq
      cases hq
      rw [(Prod.mk.inj heq).1]
      exact (h.bin_of_live hlive).2.1
    · rw [store_of_ne heq] at hq
      exact h.binSize c' j' q hq
  liveSize q hq := h.liveSize q (List.mem_of_mem_erase hq)

theorem next {a : Action} (h : L.Sized w) (hok : L.PermitsSmall w a) (hn : L.next w a = some w') :
    L.Sized w' := by
  cases a with
  | malloc sz rnd answers =>
    obtain ⟨hsmall, hs⟩ := hok
    obtain ⟨⟨ptr, w''⟩, hmalloc, rfl⟩ := Option.map_eq_some_iff.mp hn
    rcases malloc_cases hmalloc with ⟨hlarge, -, -⟩ | ⟨-, v, used, j, hprepare, hslot, rfl⟩
    · exact absurd hsmall (Nat.not_le_of_lt hlarge)
    · obtain ⟨-, hused, -, -, hfresh⟩ := h.toPool.prepare hs hsmall hprepare
      exact (h.prepare hs hsmall hprepare).exchange hfresh (hs.size hsmall used hused.le) hslot _
  | free ptr rnd =>
    obtain ⟨⟨victim, w''⟩, hfree, rfl⟩ := Option.map_eq_some_iff.mp hn
    obtain ⟨j, hslot, rfl⟩ := free_cases hfree
    exact h.evict hok hslot _

/-- `malloc` divides by no zero and finds an object in the bin. -/
theorem exists_malloc (h : L.Sized w) (hsmall : sz ≤ L.maxSize) (hs : L.Supplied w sz answers) (rnd : Nat) :
    ∃ ptr w', L.malloc w sz rnd answers = some (ptr, w') := by
  have hpos := nObjects_pos hsmall
  have hsize := L.size_ge sz hsmall
  have hprepare : ∃ v used, L.prepare w (L.getSizeClass sz) answers = some (v, used) ∧
      v.isFilled (L.getSizeClass sz) = true := by
    rw [Layout.prepare]
    by_cases hfilled : w.isFilled (L.getSizeClass sz) = true
    · exact ⟨w, 0, if_pos hfilled, hfilled⟩
    · have hbin := L.class_lt sz hsmall
      have hn := nObjects_le hsmall
      rw [if_neg hfilled, fill, if_neg (by rw [numBins] at hn ⊢; omega)]
      exact ⟨_, _, rfl, Function.update_self ..⟩
  obtain ⟨v, used, hprepare, hfilled⟩ := hprepare
  have hentry := ((h.prepare hs hsmall hprepare).filled _ hfilled (rnd % L.nObjects (L.getSizeClass sz))).mpr
    (Nat.mod_lt _ hpos)
  obtain ⟨ptr, hptr⟩ := Option.isSome_iff_exists.mp hentry
  refine ⟨ptr, (v.superMalloc (answers used)).put (L.getSizeClass sz, rnd % L.nObjects (L.getSizeClass sz))
    (answers used).ptr, ?_⟩
  rw [malloc, if_neg (Nat.not_lt_of_le hsmall)]
  dsimp only
  rw [hprepare]
  simp only [Option.bind_eq_bind, Option.bind_some]
  rw [if_neg (by omega)]
  change (v.buffer _).bind _ = _
  rw [hptr]
  rfl

theorem malloc_sound (h : L.Sized w) (hsmall : sz ≤ L.maxSize) (hs : L.Supplied w sz answers)
    (hmalloc : L.malloc w sz rnd answers = some (ptr, w')) : ptr ∉ w.live ∧ sz ≤ w'.getSize ptr := by
  rcases malloc_cases hmalloc with ⟨hlarge, -, -⟩ | ⟨-, v, used, j, hprepare, hslot, rfl⟩
  · exact absurd hsmall (Nat.not_le_of_lt hlarge)
  · have hv := h.prepare hs hsmall hprepare
    obtain ⟨-, -, hlive, -, hfresh⟩ := h.toPool.prepare hs hsmall hprepare
    have hne : ptr ≠ (answers used).ptr := fun heq => hfresh (heq ▸ hv.mem_bin hslot)
    refine ⟨hlive ▸ hv.not_live hslot, ?_⟩
    change sz ≤ Function.update v.getSize (answers used).ptr _ ptr
    rw [Function.update_of_ne hne, hv.binSize _ _ _ hslot]
    exact L.fits sz hsmall

theorem exists_free (h : L.Sized w) (hlive : ptr ∈ w.live) (rnd : Nat) :
    ∃ victim w', L.free w ptr rnd = some (victim, w') := by
  obtain ⟨hfilled, hsize, sz, hsz, hbin⟩ := h.bin_of_live hlive
  have hpos := nObjects_pos hsz
  have hge := L.size_ge sz hsz
  have hlt := L.class_lt sz hsz
  rw [← hbin] at hpos hge hlt
  have hn : L.chunkSize / w.getSize ptr = L.nObjects (L.getSizeClass (w.getSize ptr)) := by
    rw [nObjects, ← hsize]
  have hentry := (h.filled _ hfilled (rnd % L.nObjects (L.getSizeClass (w.getSize ptr)))).mpr
    (Nat.mod_lt _ hpos)
  obtain ⟨victim, hvictim⟩ := Option.isSome_iff_exists.mp hentry
  refine ⟨victim, (w.put (L.getSizeClass (w.getSize ptr),
    rnd % L.nObjects (L.getSizeClass (w.getSize ptr))) ptr).superFree victim, ?_⟩
  rw [free, hn]
  dsimp only
  rw [if_neg (by rw [numBins]; omega), hvictim]
  rfl

end Sized

/-- In every run with requests of at most `maxSize` bytes, the heap conserves its objects. -/
theorem sound_of_reach (L : SizeClasses) (w : World) (hr : Reach L.next L.PermitsSmall World.initial w) :
    L.Sound w := by
  have h : L.Sized w := hr.invariant Sized.initial fun _ _ _ hsized hok hn => hsized.next hok hn
  constructor
  case nodup => exact h.nodup
  case perm => exact h.perm
  case filled =>
    intro c j
    constructor
    · intro hsome
      obtain ⟨ptr, hptr⟩ := Option.isSome_iff_exists.mp hsome
      have hc := h.isFilled_of_entry hptr
      exact ⟨hc, (h.filled c hc j).mp hsome⟩
    · intro hin
      exact (h.filled c hin.1 j).mpr hin.2
  case malloc =>
    intro sz rnd answers hsmall hs
    obtain ⟨ptr, w', hmalloc⟩ := h.exists_malloc hsmall hs rnd
    exact ⟨ptr, w', hmalloc, h.malloc_sound hsmall hs hmalloc⟩
  case free =>
    intro ptr rnd hlive
    obtain ⟨victim, w', hfree⟩ := h.exists_free hlive rnd
    obtain ⟨j, hslot, -⟩ := free_cases hfree
    exact ⟨victim, w', hfree, h.mem_bin hslot⟩

end Small

/-- Chunks of 4096 bytes and requests of at most 2048 bytes, with classes of 8, 16, 32, ... bytes. -/
def powersOfTwo : SizeClasses where
  chunkSize := 4096
  maxSize := 2048
  getSizeClass sz := log2 (max sz 8) - 3
  getClassSize c := 2 ^ (c + 3)
  maxSize_le := by decide
  inverts := by
    intro sz _
    have hmax : max (2 ^ (log2 (max sz 8) - 3 + 3)) 8 = 2 ^ (log2 (max sz 8) - 3 + 3) :=
      max_eq_left (Nat.pow_le_pow_right (n := 2) (i := 3) (by decide) (Nat.le_add_left 3 _))
    rw [hmax, log2_two_pow, Nat.add_sub_cancel]
  fits := by
    intro sz _
    have hle := le_two_pow_log2 (max sz 8)
    have hpow : 2 ^ log2 (max sz 8) ≤ 2 ^ (log2 (max sz 8) - 3 + 3) :=
      Nat.pow_le_pow_right (by decide) (by omega)
    omega
  class_lt := by
    intro sz hsz
    have hle : log2 (max sz 8) ≤ 11 := log2_le_iff.mpr (by omega)
    omega
  size_ge := by
    intro sz _
    exact Nat.pow_le_pow_right (n := 2) (i := 3) (by decide) (Nat.le_add_left 3 _)
  size_le := by
    intro sz hsz
    have hle : log2 (max sz 8) ≤ 11 := log2_le_iff.mpr (by omega)
    exact Nat.pow_le_pow_right (n := 2) (j := 12) (by decide) (by omega)

def halfPages (i : Nat) : Answer := ⟨4096 + 2048 * i, 2048⟩

theorem supplied_halfPages : powersOfTwo.Supplied World.initial 2000 halfPages where
  fresh _ _ := List.not_mem_nil
  distinct := by
    intro i _ j hj
    simp only [halfPages]
    omega
  size _ _ _ := rfl
  large := by decide

/-- A `malloc` that fills a bin, and the free of its object. -/
def mallocAndFree : List Action := [.malloc 2000 1 halfPages, .free 6144 0]

theorem reach_halfPages : Reach powersOfTwo.next powersOfTwo.PermitsSmall World.initial
    (final powersOfTwo.next World.initial mallocAndFree) := by
  refine reach_final ⟨⟨by decide, supplied_halfPages⟩, ?_⟩ (by decide)
  intro w hw
  have hlive : (powersOfTwo.next World.initial (.malloc 2000 1 halfPages)).map (fun w => decide (6144 ∈ w.live)) =
      some true := by decide
  rw [hw] at hlive
  have hmem : 6144 ∈ w.live := of_decide_eq_true (Option.some.inj hlive)
  exact ⟨hmem, fun _ _ => trivial⟩

theorem sound_halfPages : powersOfTwo.Sound (final powersOfTwo.next World.initial mallocAndFree) :=
  sound_of_reach powersOfTwo _ reach_halfPages

end SizeClasses

namespace Layout

variable (L : Layout)

/-- `free(ptr)` returns the object itself to the superheap and leaves the bins as they are. -/
def ReturnsDirectly (w : World) (ptr rnd : Nat) : Prop :=
  ∃ w', L.free w ptr rnd = some (ptr, w') ∧ w'.buffer = w.buffer

variable {L} {w w' : World} {ptr rnd victim : Nat}

theorem Pool.free_ne (h : L.Pool w) (hlive : ptr ∈ w.live) (hfree : L.free w ptr rnd = some (victim, w')) :
    victim ≠ ptr := by
  obtain ⟨j, hslot, -⟩ := free_cases hfree
  intro heq
  exact h.not_live hslot (heq ▸ hlive)

theorem direct_subset_live (hr : Reach L.next L.Permits World.initial w) : w.direct ⊆ w.live := by
  apply hr.invariant (I := fun w => w.direct ⊆ w.live) (List.nil_subset _)
  intro w a w' hsub hok hn
  cases a with
  | malloc sz rnd answers =>
    obtain ⟨⟨ptr, w''⟩, hmalloc, rfl⟩ := Option.map_eq_some_iff.mp hn
    obtain ⟨hlive, hdirect⟩ := malloc_frame hmalloc
    dsimp only
    rw [hlive, hdirect]
    split
    · exact List.cons_subset_cons ptr hsub
    · exact fun q hq => List.mem_cons_of_mem ptr (hsub hq)
  | free ptr rnd =>
    obtain ⟨⟨victim, w''⟩, hfree, rfl⟩ := Option.map_eq_some_iff.mp hn
    obtain ⟨j, -, rfl⟩ := free_cases hfree
    intro q hq
    obtain ⟨hq, hne⟩ := List.mem_filter.mp hq
    exact (List.mem_erase_of_ne (by simpa using hne)).mpr (hsub hq)

/-- No large object is returned directly: `free` divides by zero, reads an entry that is not there, or returns
another object. -/
theorem not_returnsDirectly (L : Layout) (w : World) (hr : Reach L.next L.Permits World.initial w) (ptr : Nat)
    (hdirect : ptr ∈ w.direct) (rnd : Nat) : ¬ L.ReturnsDirectly w ptr rnd := by
  intro ⟨w', hfree, _⟩
  exact (Pool.of_reach hr).free_ne (direct_subset_live hr hdirect) hfree rfl

def page (_ : Nat) : Answer := ⟨4096, 4096⟩

theorem reach_page : Reach SizeClasses.powersOfTwo.next SizeClasses.powersOfTwo.Permits World.initial
    (final SizeClasses.powersOfTwo.next World.initial [.malloc 3000 0 page]) := by
  apply reach_final _ (by decide)
  refine ⟨⟨fun _ _ => List.not_mem_nil, ?_, by decide, by decide⟩, fun _ _ => trivial⟩
  intro i hi j hj
  have hzero : SizeClasses.powersOfTwo.filling World.initial 3000 = 0 := by decide
  omega

theorem not_returnsDirectly_page : ¬ SizeClasses.powersOfTwo.ReturnsDirectly
    (final SizeClasses.powersOfTwo.next World.initial [.malloc 3000 0 page]) 4096 0 :=
  not_returnsDirectly SizeClasses.powersOfTwo.toLayout _ reach_page 4096 (by decide) 0

/-- The page is not returned: its bin has never been filled. -/
theorem exists_not_returnsDirectly : ¬ ∀ (L : SizeClasses) (w : World), Reach L.next L.Permits World.initial w →
    ∀ ptr ∈ w.direct, ∀ rnd, L.ReturnsDirectly w ptr rnd := by
  intro h
  obtain ⟨w', hfree, -⟩ := h SizeClasses.powersOfTwo _ reach_page 4096 (by decide) 0
  exact (Pool.of_reach reach_page).free_ne (direct_subset_live reach_page (by decide)) hfree rfl

end Layout

end DieHard.ShuffleHeap
