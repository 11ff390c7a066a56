import DieHard.Exterminator.Deferred
import DieHard.Exterminator.Realloc

/-!
# Runs on the correcting heap

The program allocates, frees what it holds, and writes into objects that it holds or has freed too early. Requests
are padded, and an object whose free is deferred stays an object until `malloc` takes it out of the queue.
-/

namespace DieHard.Exterminator

open BinaryHeap Transition

/-- An object that the program holds, and the call that it comes from. -/
structure HeldObject where
  ptr : Word
  callsite : Word
  sz : Word
  deriving DecidableEq

/-- The correcting heap, the mapped objects below it and what the program holds. -/
structure CorrectedRun where
  heap : CorrectingHeap DieHardHeap
  live : List DirectObject
  held : List HeldObject

inductive CorrectedCall
  | malloc (callsite sz : Word) (place : DieHardHeap.Placement)
  | free (callsite ptr : Word)
  | write (ptr : Word) (b : Byte)

def CorrectedCall.writes : CorrectedCall → Word → Prop
  | .write ptr _, x => x = ptr
  | _, _ => False

namespace DirectHeap

open DieHardHeap

def customFrees (s : DirectHeap) (callsite : Word) (ptrs : List Word) : DirectHeap :=
  ptrs.foldl (fun s ptr => s.customFree callsite ptr) s

variable {s : DirectHeap} {a m n : Nat} {callsite sz ptr : Word} {place : Placement} {h : DieHardHeap}
  {ptrs : List Word}

theorem heap_customFrees (s : DirectHeap) (callsite : Word) (xs : List PqueueEntry) :
    (s.customFrees callsite (xs.map PqueueEntry.ptr)).heap =
      xs.foldl (fun h x => SuperHeap.free h callsite x.ptr) s.heap := by
  induction xs generalizing s with
  | nil => rfl
  | cons x xs ih => exact ih (s.customFree callsite x.ptr)

/-- The objects that begin at the pointers are taken away. -/
theorem Laid.customFrees (hs : Laid s) (hobjects : ∀ p ∈ ptrs, ∃ n, Object s p.toNat n) (hnodup : ptrs.Nodup)
    (callsite : Word) : Laid (s.customFrees callsite ptrs) ∧
      (∀ a m, Object (s.customFrees callsite ptrs) a m ↔ Object s a m ∧ ∀ p ∈ ptrs, a ≠ p.toNat) ∧
      (s.customFrees callsite ptrs).heap.memory = s.heap.memory := by
  induction ptrs generalizing s with
  | nil =>
    refine ⟨hs, fun a m => ?_, rfl⟩
    simp [DirectHeap.customFrees]
  | cons p ptrs ih =>
    obtain ⟨hnew, hnodup⟩ := List.nodup_cons.mp hnodup
    obtain ⟨n, hp⟩ := hobjects p List.mem_cons_self
    have hafter : Laid (s.customFree callsite p) := hs.customFree (hs.closes hp)
    have hobject (a m : Nat) : Object (s.customFree callsite p) a m ↔ Object s a m ∧ a ≠ p.toNat :=
      hs.object_free hp
    have hrest : ∀ q ∈ ptrs, ∃ n, Object (s.customFree callsite p) q.toNat n := by
      intro q hq
      obtain ⟨m, hm⟩ := hobjects q (List.mem_cons_of_mem p hq)
      refine ⟨m, (hobject _ _).mpr ⟨hm, ?_⟩⟩
      intro heq
      exact hnew (BitVec.eq_of_toNat_eq heq ▸ hq)
    obtain ⟨hlaid, hobjects, hmemory⟩ := ih hafter hrest hnodup
    refine ⟨hlaid, fun a m => ?_, hmemory.trans (memory_free s.heap callsite p)⟩
    rw [List.forall_mem_cons, ← and_assoc, ← hobject]
    exact hobjects a m

/-- A request that is answered with null changes no object. -/
theorem Laid.failed (hs : Laid s) (hm : s.heap.malloc callsite sz place = some (0, h)) :
    (∀ a m, Object ⟨h, grant s.live sz 0 place⟩ a m ↔ Object s a m) ∧ h.memory = s.heap.memory := by
  cases place with
  | slot sc i => exact absurd rfl ((answered_iff hs hm).mp trivial)
  | mapped place =>
    have hslots (sc i : Nat) : SlotLive h sc i ↔ SlotLive s.heap sc i :=
      slotLive_congr (congrFun (mapped_of_malloc hm).1 sc)
    have haddress := slotAddress_congr (malloc_mapped hm).1
    constructor
    · intro a m
      constructor
      · intro hobject
        cases hobject with
        | @slot sc i hslot =>
          rw [haddress]
          exact .slot ((hslots sc i).mp hslot)
        | mapped ho => exact .mapped ho
      · intro hobject
        cases hobject with
        | @slot sc i hslot =>
          rw [← haddress]
          exact .slot (s := ⟨h, s.live⟩) ((hslots sc i).mpr hslot)
        | mapped ho => exact .mapped (s := ⟨h, s.live⟩) ho
    · rw [DieHardHeap.malloc] at hm
      split at hm
      case isFalse => contradiction
      case isTrue =>
        rw [allocateDirect] at hm
        split at hm
        case isTrue =>
          cases hm
          rfl
        case isFalse =>
          split at hm
          case isTrue =>
            cases hm
            rfl
          case isFalse hplace =>
            cases hm
            exact absurd rfl hplace

/-- The objects are still there, with their bytes. -/
structure Extends (s s' : DirectHeap) : Prop where
  laid : Laid s'
  object : ∀ a m, Object s a m → Object s' a m
  memory : ∀ a m, Object s a m → ∀ x : Word, a ≤ x.toNat → x.toNat < a + m →
    s'.heap.memory x = s.heap.memory x

theorem Laid.extends (hs : Laid s) (hopens : s.Opens callsite sz place)
    (hm : s.heap.malloc callsite sz place = some (ptr, h)) : Extends s ⟨h, grant s.live sz ptr place⟩ := by
  have hlaid := hs.malloc hopens.1 hopens.2 hm
  by_cases hptr : ptr = 0
  · subst hptr
    obtain ⟨hobject, hmemory⟩ := hs.failed hm
    exact ⟨hlaid, fun a m => (hobject a m).mpr, fun _ _ _ x _ _ => congrFun hmemory x⟩
  · obtain ⟨n, -, hadded⟩ := hs.added hopens.1 hopens.2 hm hptr
    exact ⟨hlaid, fun a m hobject => (hadded.object a m).mpr (Or.inl hobject),
      fun _ _ hobject _ hlo hhi => hadded.memory_eq hobject hlo hhi⟩

theorem Laid.getAllocCallsite_isSome (hs : Laid s) (hobject : Object s ptr.toNat n) :
    (s.heap.getAllocCallsite ptr).isSome ∧ (s.heap.getObjectID ptr).isSome := by
  by_cases hon : s.heap.isOnHeap ptr = true
  · generalize ha : ptr.toNat = a at hobject
    cases hobject with
    | @slot sc i hslot =>
      obtain ⟨-, hclass⟩ := hs.isOnHeap_slot hslot ha
      rw [getAllocCallsite, getObjectID, if_pos hon, if_pos hon, hclass, PartitionInfo.getAllocCallsite,
        PartitionInfo.getObjectID, hs.objectIndex_slot hslot ha]
      exact ⟨rfl, rfl⟩
    | @mapped o ho =>
      have heq : ptr = o.base := BitVec.eq_of_toNat_eq ha
      rw [heq, (hs.entered o ho).off] at hon
      contradiction
  · rw [getAllocCallsite, getObjectID, if_neg hon, if_neg hon]
    exact ⟨rfl, rfl⟩

end DirectHeap

namespace CorrectedRun

def below (s : CorrectedRun) : DirectHeap := ⟨s.heap.super, s.live⟩

/-- What the loop in `malloc` frees. -/
def due (s : CorrectedRun) (callsite : Word) : List Word :=
  (s.heap.drain callsite s.heap.pqueueSize).1.map PqueueEntry.ptr

/-- The heap below after the loop in `malloc`. -/
def drained (s : CorrectedRun) (callsite : Word) : DirectHeap := s.below.customFrees callsite (s.due callsite)

def write (s : CorrectedRun) (ptr : Word) (b : Byte) : CorrectedRun :=
  { s with heap := { s.heap with
      super := { s.heap.super with memory := Function.update s.heap.super.memory ptr b } } }

def next (s : CorrectedRun) : CorrectedCall → Option CorrectedRun
  | .malloc callsite sz place =>
    (s.heap.malloc callsite sz place).map fun (ptr, heap) =>
      { heap := heap
        live := DirectHeap.grant (s.drained callsite).live (s.heap.padded callsite sz) ptr place
        held := if ptr = 0 then s.held else ⟨ptr, callsite, sz⟩ :: s.held }
  | .free callsite ptr =>
    (s.heap.free callsite ptr).map fun heap =>
      { heap := heap
        -- a deferred free is one more entry in the queue
        live := if heap.pqueueSize = s.heap.pqueueSize then (s.below.customFree callsite ptr).live else s.live
        held := s.held.filter fun o => o.ptr ≠ ptr }
  | .write ptr b => some (s.write ptr b)

def waiting (s : CorrectedRun) : Multiset Word := s.heap.entries.map PqueueEntry.ptr

def owned (s : CorrectedRun) : Multiset Word := s.waiting + ↑(s.held.map HeldObject.ptr)

/-- `mmap` keeps its promise, and the program frees what it holds and writes into owned objects. -/
def Allowed (s : CorrectedRun) : CorrectedCall → Prop
  | .malloc callsite sz place => (s.drained callsite).Opens callsite (s.heap.padded callsite sz) place
  | .free _ ptr => ptr ∈ s.held.map HeldObject.ptr
  | .write ptr _ => ∃ p ∈ s.owned, p.toNat ≤ ptr.toNat ∧ ptr.toNat < p.toNat + (s.heap.super.getSize p).toNat

instance (s : CorrectedRun) : (call : CorrectedCall) → Decidable (s.Allowed call)
  | .malloc _ _ _ => inferInstanceAs (Decidable (_ ∧ _))
  | .free _ _ => inferInstanceAs (Decidable (_ ∈ _))
  | .write _ _ => Multiset.decidableExistsMultiset

structure Inv (s : CorrectedRun) : Prop where
  laid : DirectHeap.Laid s.below
  ordered : s.heap.Ordered
  size_le : s.heap.pqueueSize ≤ pqueueLimit
  held : ∀ o ∈ s.held, ∃ n, (s.heap.padded o.callsite o.sz).toNat ≤ n ∧ DirectHeap.Object s.below o.ptr.toNat n
  waiting : ∀ p ∈ s.waiting, ∃ n, DirectHeap.Object s.below p.toNat n
  nodup : s.owned.Nodup

/-- What stays owned keeps its bytes, those apart that the call writes. -/
def Frame (s s' : CorrectedRun) (call : CorrectedCall) : Prop :=
  ∀ p, p ∈ s'.waiting ∨ p ∈ s.held.map HeldObject.ptr → ∀ n, DirectHeap.Object s.below p.toNat n →
    ∀ x : Word, p.toNat ≤ x.toNat → x.toNat < p.toNat + n → ¬ call.writes x →
      s'.heap.super.memory x = s.heap.super.memory x

variable {s s' : CorrectedRun} {callsite sz ptr : Word} {place : DieHardHeap.Placement}

theorem mem_owned {p : Word} : p ∈ s.owned ↔ p ∈ s.waiting ∨ p ∈ s.held.map HeldObject.ptr := Multiset.mem_add

theorem Inv.object (hi : s.Inv) {p : Word} (hp : p ∈ s.owned) : ∃ n, DirectHeap.Object s.below p.toNat n := by
  rcases mem_owned.mp hp with hp | hp
  · exact hi.waiting p hp
  · obtain ⟨o, ho, rfl⟩ := List.mem_map.mp hp
    obtain ⟨n, -, hobject⟩ := hi.held o ho
    exact ⟨n, hobject⟩

theorem card_entries (h : CorrectingHeap DieHardHeap) : h.entries.card = h.pqueueSize :=
  card_elems h.pqueue h.pqueueSize

/-- What the loop in `malloc` leaves: the objects that were not due are as they were. -/
structure Drains (s : CorrectedRun) (callsite : Word) (h : CorrectingHeap DieHardHeap) : Prop where
  drained : CorrectingHeap.Drained callsite s.heap (s.heap.drain callsite s.heap.pqueueSize).1 h
  heap : (s.drained callsite).heap = h.super
  laid : DirectHeap.Laid (s.drained callsite)
  waiting : s.waiting = ↑(s.due callsite) + h.entries.map PqueueEntry.ptr
  object : ∀ p, p ∈ h.entries.map PqueueEntry.ptr ∨ p ∈ s.held.map HeldObject.ptr → ∀ n,
    DirectHeap.Object s.below p.toNat n → DirectHeap.Object (s.drained callsite) p.toNat n
  memory : (s.drained callsite).heap.memory = s.heap.super.memory

theorem Inv.drains (hi : s.Inv) (callsite : Word) :
    s.Drains callsite (s.heap.drain callsite s.heap.pqueueSize).2 := by
  have hdrained := hi.ordered.drain callsite (Nat.le_refl s.heap.pqueueSize)
  have hwaiting : s.waiting = ↑(s.due callsite) +
      (s.heap.drain callsite s.heap.pqueueSize).2.entries.map PqueueEntry.ptr := by
    rw [CorrectedRun.waiting, hdrained.entries, Multiset.map_add, Multiset.map_coe]
    rfl
  have hnodup := hi.nodup
  rw [owned, hwaiting, add_assoc, Multiset.nodup_add] at hnodup
  obtain ⟨hdue, -, hdisjoint⟩ := hnodup
  have hobjects : ∀ p ∈ s.due callsite, ∃ n, DirectHeap.Object s.below p.toNat n := by
    intro p hp
    apply hi.waiting
    rw [hwaiting]
    exact Multiset.mem_add.mpr (Or.inl hp)
  obtain ⟨hlaid, hobject, hmemory⟩ := hi.laid.customFrees hobjects hdue callsite
  refine ⟨hdrained, ?_, hlaid, hwaiting, ?_, hmemory⟩
  · rw [hdrained.super]
    exact DirectHeap.heap_customFrees s.below callsite _
  · intro p hp n hold
    refine (hobject _ _).mpr ⟨hold, ?_⟩
    -- an object that is due is neither left in the queue nor held
    intro q hq heq
    obtain rfl : p = q := BitVec.eq_of_toNat_eq heq
    exact Multiset.disjoint_left.mp hdisjoint hq (Multiset.mem_add.mpr hp)

namespace Drains

variable {h : CorrectingHeap DieHardHeap}

theorem mem_owned (hd : s.Drains callsite h) {p : Word}
    (hp : p ∈ h.entries.map PqueueEntry.ptr ∨ p ∈ s.held.map HeldObject.ptr) : p ∈ s.owned := by
  rw [CorrectedRun.mem_owned, hd.waiting]
  exact hp.imp_left fun hp => Multiset.mem_add.mpr (Or.inr hp)

theorem nodup (hd : s.Drains callsite h) (hnodup : s.owned.Nodup) :
    (h.entries.map PqueueEntry.ptr + ↑(s.held.map HeldObject.ptr)).Nodup := by
  rw [owned, hd.waiting, add_assoc] at hnodup
  exact (Multiset.nodup_add.mp hnodup).2.1

theorem padded_eq (hd : s.Drains callsite h) (callsite' sz : Word) :
    h.padded callsite' sz = s.heap.padded callsite' sz := by
  simp only [CorrectingHeap.padded, hd.drained.patch]

theorem size_le (hd : s.Drains callsite h) : h.pqueueSize ≤ s.heap.pqueueSize := by
  have hcard := congrArg Multiset.card hd.drained.entries
  rw [Multiset.card_add, card_entries, card_entries] at hcard
  omega

theorem notMem_of_added (hd : s.Drains callsite h) (hi : s.Inv) {t : DirectHeap} {n : Nat}
    (hadded : DirectHeap.Added (s.drained callsite) t ptr n) :
    ptr ∉ h.entries.map PqueueEntry.ptr + ↑(s.held.map HeldObject.ptr) := by
  intro hmem
  have hmem := Multiset.mem_add.mp hmem
  obtain ⟨m, hobject⟩ := hi.object (hd.mem_owned hmem)
  have hold := hd.object ptr hmem m hobject
  have hnew : DirectHeap.Object t ptr.toNat n := (hadded.object _ _).mpr (Or.inr ⟨rfl, rfl⟩)
  exact Blocks.not_apart_self (hadded.laid.object_pos hnew) (hd.laid.object_pos hold) (hadded.apart _ _ hold)

end Drains

theorem Inv.malloc (hi : s.Inv) (hok : s.Allowed (.malloc callsite sz place))
    (hn : s.next (.malloc callsite sz place) = some s') :
    s'.Inv ∧ s.Frame s' (.malloc callsite sz place) := by
  have hd := hi.drains callsite
  obtain ⟨⟨ptr, heap⟩, hm, rfl⟩ := Option.map_eq_some_iff.mp hn
  obtain ⟨⟨q, super⟩, hanswer, heq⟩ := Option.map_eq_some_iff.mp hm
  obtain ⟨rfl, rfl⟩ := Prod.mk.inj heq
  have hanswer : (s.drained callsite).heap.malloc callsite (s.heap.padded callsite sz) place = some (q, super) := by
    rw [hd.heap]
    exact hanswer
  have hextends := hd.laid.extends hok hanswer
  generalize (s.heap.drain callsite s.heap.pqueueSize).2 = h at hd ⊢
  have hheld : ∀ o ∈ s.held, ∃ n, (h.padded o.callsite o.sz).toNat ≤ n ∧ DirectHeap.Object
      ⟨super, DirectHeap.grant (s.drained callsite).live (s.heap.padded callsite sz) q place⟩ o.ptr.toNat n := by
    intro o ho
    obtain ⟨n, hle, hobject⟩ := hi.held o ho
    rw [hd.padded_eq]
    exact ⟨n, hle, hextends.object _ _ (hd.object _ (Or.inr (List.mem_map_of_mem ho)) n hobject)⟩
  refine ⟨⟨hextends.laid, hd.drained.ordered, hd.size_le.trans hi.size_le, ?_, ?_, ?_⟩, ?_⟩
  · change ∀ o ∈ (if q = 0 then s.held else ⟨q, callsite, sz⟩ :: s.held), _
    by_cases hq : q = 0
    · rw [if_pos hq]
      exact hheld
    · obtain ⟨n, hle, hadded⟩ := hd.laid.added hok.1 hok.2 hanswer hq
      rw [if_neg hq, List.forall_mem_cons]
      refine ⟨⟨n, ?_, (hadded.object _ _).mpr (Or.inr ⟨rfl, rfl⟩)⟩, hheld⟩
      exact (hd.padded_eq callsite sz).symm ▸ hle
  · intro p hp
    obtain ⟨n, hobject⟩ := hi.object (hd.mem_owned (Or.inl hp))
    exact ⟨n, hextends.object _ _ (hd.object p (Or.inl hp) n hobject)⟩
  · change (h.entries.map PqueueEntry.ptr +
      ↑((if q = 0 then s.held else ⟨q, callsite, sz⟩ :: s.held).map HeldObject.ptr)).Nodup
    by_cases hq : q = 0
    · rw [if_pos hq]
      exact hd.nodup hi.nodup
    · obtain ⟨n, -, hadded⟩ := hd.laid.added hok.1 hok.2 hanswer hq
      rw [if_neg hq, List.map_cons, ← Multiset.cons_coe, Multiset.add_cons, Multiset.nodup_cons]
      exact ⟨hd.notMem_of_added hi hadded, hd.nodup hi.nodup⟩
  · intro p hp n hobject x hlo hhi _
    exact (hextends.memory _ _ (hd.object p hp n hobject) x hlo hhi).trans (congrFun hd.memory x)

theorem held_eq_cons (hnodup : (s.held.map HeldObject.ptr).Nodup) (hptr : ptr ∈ s.held.map HeldObject.ptr) :
    (↑(s.held.map HeldObject.ptr) : Multiset Word) =
      ptr ::ₘ ↑((s.held.filter fun o => o.ptr ≠ ptr).map HeldObject.ptr) := by
  have hfilter : (s.held.filter fun o => o.ptr ≠ ptr).map HeldObject.ptr =
      (s.held.map HeldObject.ptr).filter fun p => p ≠ ptr := by
    rw [List.filter_map]
    rfl
  have herase : (s.held.map HeldObject.ptr).filter (fun p => p ≠ ptr) = (s.held.map HeldObject.ptr).erase ptr := by
    rw [hnodup.erase_eq_filter]
    congr 1
    funext p
    simp [bne, beq_eq_decide]
  rw [hfilter, herase, Multiset.cons_coe, Multiset.coe_eq_coe]
  exact List.perm_cons_erase hptr

theorem Inv.nodup_filter (hi : s.Inv) (hptr : ptr ∈ s.held.map HeldObject.ptr) :
    ptr ∉ s.waiting + ↑((s.held.filter fun o => o.ptr ≠ ptr).map HeldObject.ptr) ∧
      (s.waiting + ↑((s.held.filter fun o => o.ptr ≠ ptr).map HeldObject.ptr)).Nodup := by
  have hnodup := hi.nodup
  have hheld : (s.held.map HeldObject.ptr).Nodup := (Multiset.nodup_add.mp hnodup).2.1
  rw [owned, held_eq_cons hheld hptr, Multiset.add_cons] at hnodup
  exact Multiset.nodup_cons.mp hnodup

theorem Inv.release (hi : s.Inv) (hptr : ptr ∈ s.held.map HeldObject.ptr) (callsite : Word) :
    Inv ⟨{ s.heap with super := SuperHeap.free s.heap.super callsite ptr }, (s.below.customFree callsite ptr).live,
      s.held.filter fun o => o.ptr ≠ ptr⟩ := by
  obtain ⟨hnot, hrest⟩ := hi.nodup_filter hptr
  obtain ⟨n, hobject⟩ := hi.object (mem_owned.mpr (Or.inr hptr))
  have hlaid : DirectHeap.Laid (s.below.customFree callsite ptr) := hi.laid.customFree (hi.laid.closes hobject)
  have hkeeps (p : Word) (hp : p ≠ ptr) (m : Nat) (hp' : DirectHeap.Object s.below p.toNat m) :
      DirectHeap.Object (s.below.customFree callsite ptr) p.toNat m :=
    (hi.laid.object_free hobject).mpr ⟨hp', fun h => hp (BitVec.eq_of_toNat_eq h)⟩
  refine ⟨hlaid, hi.ordered, hi.size_le, ?_, ?_, hrest⟩
  · intro o ho
    obtain ⟨ho, hne⟩ := List.mem_filter.mp ho
    obtain ⟨m, hle, ho⟩ := hi.held o ho
    exact ⟨m, hle, hkeeps _ (of_decide_eq_true hne) m ho⟩
  · intro p hp
    obtain ⟨m, hp'⟩ := hi.waiting p hp
    refine ⟨m, hkeeps p ?_ m hp'⟩
    rintro rfl
    exact hnot (Multiset.mem_add.mpr (Or.inl hp))

theorem Inv.defer (hi : s.Inv) (hptr : ptr ∈ s.held.map HeldObject.ptr) (hlt : s.heap.pqueueSize < pqueueLimit)
    (deathTime : Nat) : Inv ⟨s.heap.push ⟨ptr, deathTime⟩, s.live, s.held.filter fun o => o.ptr ≠ ptr⟩ := by
  obtain ⟨hnot, hrest⟩ := hi.nodup_filter hptr
  have hwaiting : (s.heap.push ⟨ptr, deathTime⟩).entries.map PqueueEntry.ptr = ptr ::ₘ s.waiting := by
    rw [CorrectingHeap.entries_push, Multiset.map_cons]
    rfl
  refine ⟨hi.laid, hi.ordered.push _, hlt, ?_, ?_, ?_⟩
  · intro o ho
    exact hi.held o (List.mem_of_mem_filter ho)
  · intro p hp
    rw [CorrectedRun.waiting, hwaiting] at hp
    rcases Multiset.mem_cons.mp hp with rfl | hp
    · exact hi.object (mem_owned.mpr (Or.inr hptr))
    · exact hi.waiting p hp
  · rw [owned, CorrectedRun.waiting, hwaiting, Multiset.cons_add, Multiset.nodup_cons]
    exact ⟨hnot, hrest⟩

theorem Inv.free (hi : s.Inv) (hok : s.Allowed (.free callsite ptr))
    (hn : s.next (.free callsite ptr) = some s') : s'.Inv ∧ s.Frame s' (.free callsite ptr) := by
  obtain ⟨heap, hf, rfl⟩ := Option.map_eq_some_iff.mp hn
  rcases CorrectingHeap.free_cases hf with ⟨a, -, -, rfl⟩ | ⟨a, id, -, -, -, hlt, rfl⟩
  · simp only [if_pos]
    refine ⟨hi.release hok callsite, ?_⟩
    intro p _ m _ x _ _ _
    exact congrFun (DirectHeap.memory_free s.heap.super callsite ptr) x
  · have hsize : (s.heap.push ⟨ptr, (s.heap.patch.getLifeExtension a callsite + id).toNat⟩).pqueueSize ≠
        s.heap.pqueueSize := Nat.succ_ne_self _
    simp only [if_neg hsize]
    exact ⟨hi.defer hok hlt _, fun _ _ _ _ _ _ _ _ => rfl⟩

theorem Inv.write (hi : s.Inv) (ptr : Word) (b : Byte) :
    (s.write ptr b).Inv ∧ s.Frame (s.write ptr b) (.write ptr b) := by
  have hlaid := hi.laid.setMemory (Function.update s.heap.super.memory ptr b)
  refine ⟨⟨hlaid, hi.ordered, hi.size_le, ?_, ?_, hi.nodup⟩, ?_⟩
  · intro o ho
    obtain ⟨n, hle, hobject⟩ := hi.held o ho
    exact ⟨n, hle, DirectHeap.object_setMemory.mpr hobject⟩
  · intro p hp
    obtain ⟨n, hobject⟩ := hi.waiting p hp
    exact ⟨n, DirectHeap.object_setMemory.mpr hobject⟩
  · intro p _ n _ x _ _ hx
    exact Function.update_of_ne hx ..

theorem Inv.next (hi : s.Inv) {call : CorrectedCall} (hok : s.Allowed call) (hn : s.next call = some s') :
    s'.Inv ∧ s.Frame s' call := by
  cases call with
  | malloc callsite sz place => exact hi.malloc hok hn
  | free callsite ptr => exact hi.free hok hn
  | write ptr b =>
    cases hn
    exact hi.write ptr b

def start (heap dlBase stackBase heapConfigFlags : Word) (patch : PatchInfo) (globalCt : Word) : CorrectedRun :=
  ⟨.initial (.initial heap dlBase stackBase heapConfigFlags) patch globalCt, [], []⟩

variable {heap dlBase stackBase heapConfigFlags globalCt : Word} {patch : PatchInfo}

theorem inv_start (hne : heap ≠ 0) (hfits : heap.toNat + DieHardHeap.maxHeapSize < 2 ^ 32) :
    (start heap dlBase stackBase heapConfigFlags patch globalCt).Inv where
  laid := DirectHeap.laid_initial hne hfits dlBase stackBase heapConfigFlags
  ordered := CorrectingHeap.ordered_initial _ patch globalCt
  size_le := Nat.zero_le _
  held _ ho := absurd ho List.not_mem_nil
  waiting p hp := absurd hp (Multiset.notMem_zero p)
  nodup := Multiset.nodup_zero

theorem inv_of_reach (hne : heap ≠ 0) (hfits : heap.toNat + DieHardHeap.maxHeapSize < 2 ^ 32)
    (hr : Reach next Allowed (start heap dlBase stackBase heapConfigFlags patch globalCt) s) : s.Inv := by
  apply hr.invariant
  · exact inv_start hne hfits
  · intro r call r' hi hok hn
    exact (hi.next hok hn).1

def Extended (s : CorrectedRun) (callsite ptr : Word) : Prop :=
  ∃ a, SuperHeap.getAllocCallsite s.heap.super ptr = some a ∧ s.heap.patch.getLifeExtension a callsite ≠ 0

theorem Inv.free_eq_none_iff (hi : s.Inv) {o : HeldObject} (ho : o ∈ s.held) (callsite : Word) :
    s.heap.free callsite o.ptr = none ↔ s.Extended callsite o.ptr ∧ s.heap.pqueueSize = pqueueLimit := by
  obtain ⟨n, -, hobject⟩ := hi.held o ho
  obtain ⟨hsite, hid⟩ := hi.laid.getAllocCallsite_isSome hobject
  obtain ⟨a, ha⟩ := Option.isSome_iff_exists.mp hsite
  obtain ⟨id, hid⟩ := Option.isSome_iff_exists.mp hid
  have hsite : SuperHeap.getAllocCallsite s.heap.super o.ptr = some a := ha
  have hid : SuperHeap.getObjectID s.heap.super o.ptr = some id := hid
  have hle := hi.size_le
  rw [CorrectingHeap.free, Extended, hsite, hid]
  simp only [Option.bind_eq_bind, Option.bind_some, Option.some.injEq, exists_eq_left']
  split
  case isTrue hzero => simp [hzero]
  case isFalse hne =>
    split
    case isTrue hlt => simp [Nat.ne_of_lt hlt]
    case isFalse hge =>
      refine iff_of_true rfl ⟨hne, ?_⟩
      omega

/-- Held objects have room for the request and the padding, and the program may free them. Objects that wait in the
queue are objects still, and no two objects that wait or are held share a byte or change in a call that does not
write them. -/
structure Corrected (s : CorrectedRun) : Prop where
  large : ∀ o ∈ s.held, ∃ n, (s.heap.padded o.callsite o.sz).toNat ≤ n ∧ DirectHeap.Object s.below o.ptr.toNat n ∧
    (s.heap.super.getSize o.ptr).toNat = n
  kept : ∀ p ∈ s.waiting, ∃ n, DirectHeap.Object s.below p.toNat n
  once : s.owned.Nodup
  apart : ∀ p ∈ s.owned, ∀ q ∈ s.owned, p ≠ q → ∀ m n, DirectHeap.Object s.below p.toNat m →
    DirectHeap.Object s.below q.toNat n → Blocks.Apart p.toNat m q.toNat n
  frame : ∀ call s', s.Allowed call → s.next call = some s' → s.Frame s' call
  fails : ∀ o ∈ s.held, ∀ callsite, s.heap.free callsite o.ptr = none ↔
    s.Extended callsite o.ptr ∧ s.heap.pqueueSize = pqueueLimit

/-- Whatever the patches are, the objects of the program are its own, and so are those that wait. -/
theorem reach_corrected (hne : heap ≠ 0) (hfits : heap.toNat + DieHardHeap.maxHeapSize < 2 ^ 32)
    (hr : Reach next Allowed (start heap dlBase stackBase heapConfigFlags patch globalCt) s) : Corrected s := by
  have hi := inv_of_reach hne hfits hr
  refine ⟨?_, hi.waiting, hi.nodup, ?_, fun call s' hok hn => (hi.next hok hn).2,
    fun o ho callsite => hi.free_eq_none_iff ho callsite⟩
  · intro o ho
    obtain ⟨n, hle, hobject⟩ := hi.held o ho
    exact ⟨n, hle, hobject, hi.laid.getSize_eq hobject⟩
  · intro p _ q _ hpq m n hp hq
    exact hi.laid.objects_apart hp hq fun h => hpq (BitVec.eq_of_toNat_eq h)

/-- Requests from call site 1 get eight bytes more, and frees from call site 2 of their objects wait for two
allocations. -/
def bothPatches : PatchInfo where
  overflowHash := fun k => if k = 1 then 8 else 0
  dangleHash := fun k => if k = 3 then 2 else 0

def danglingWrite : List CorrectedCall :=
  [.malloc 1 8 (.slot 1 0), .write 0x4040000f#32 6, .free 2 0x40400000#32, .write 0x40400000#32 7,
    .malloc 1 8 (.slot 1 1)]

def patchedStart : CorrectedRun := start 0x40000000#32 0 0 0 bothPatches 0

theorem corrected_danglingWrite :
    Corrected (final next patchedStart danglingWrite) ∧
    (final next patchedStart danglingWrite).held = [⟨0x40400010#32, 1, 8⟩] ∧
    (final next patchedStart danglingWrite).heap.super.memory 0x40400000#32 = 7 :=
  ⟨reach_corrected (by decide) (by decide)
    (reach_final (guarded_of_bool (by decide +kernel)) (by decide +kernel)), by decide +kernel, by decide +kernel⟩

end CorrectedRun

end DieHard.Exterminator
