import DieHard.Lib.BinaryHeap
import DieHard.Lib.Transition
import DieHard.Exterminator.Heap

/-!
# The correcting heap

`CorrectingHeap` pads requests and defers frees as a table of patches says. A deferred free waits in a
priority queue, and `malloc` first frees what is due. The due entries are found with a member of the
class that has the name of the allocation clock and that nothing ever sets.
-/

namespace DieHard.Exterminator

open BinaryHeap Transition

/-- `HASH_SIZE` -/
def hashSize : Nat := 1021

structure PatchInfo where
  overflowHash : Nat → Word
  dangleHash : Nat → Word

namespace PatchInfo

def hash (callsite : Word) : Nat := callsite.toNat % hashSize

def getPadding (p : PatchInfo) (callsite : Word) : Word := p.overflowHash (hash callsite)

def getLifeExtension (p : PatchInfo) (allocSite freeSite : Word) : Word :=
  p.dangleHash (hash (allocSite ^^^ freeSite))

end PatchInfo

/-- The template parameter `SuperHeap`. Calls get their call site; `ω` says where an object is placed.
Asking about a pointer may abort. -/
class SuperHeap (σ : Type) (ω : outParam Type) where
  malloc (s : σ) (callsite sz : Word) (place : ω) : Option (Word × σ)
  free (s : σ) (callsite ptr : Word) : σ
  getAllocCallsite (s : σ) (ptr : Word) : Option Word
  getObjectID (s : σ) (ptr : Word) : Option Word

instance : SuperHeap DieHardHeap DieHardHeap.Placement where
  malloc := DieHardHeap.malloc
  free := DieHardHeap.free
  getAllocCallsite := DieHardHeap.getAllocCallsite
  getObjectID := DieHardHeap.getObjectID

structure PqueueEntry where
  ptr : Word
  deathTime : Nat
  deriving DecidableEq

/-- `PQUEUE_SIZE` -/
def pqueueLimit : Nat := 1024

structure CorrectingHeap (σ : Type) where
  super : σ
  patch : PatchInfo
  /-- the member, not the clock -/
  globalCt : Word
  pqueue : Nat → PqueueEntry
  pqueueSize : Nat

namespace CorrectingHeap

variable {σ ω : Type} [SuperHeap σ ω]

/-- `pqueue` maps fresh memory; `globalCt` is whatever the storage of the heap holds. -/
def initial (super : σ) (patch : PatchInfo) (globalCt : Word) : CorrectingHeap σ where
  super := super
  patch := patch
  globalCt := globalCt
  pqueue := fun _ => ⟨0, 0⟩
  pqueueSize := 0

def entries (h : CorrectingHeap σ) : Multiset PqueueEntry := elems h.pqueue h.pqueueSize

/-- The condition of the loop in `malloc`. -/
def isDue (h : CorrectingHeap σ) : Bool :=
  h.pqueueSize ≠ 0 ∧ (h.pqueue 0).deathTime ≤ h.globalCt.toNat

/-- The body of the loop in `malloc`. -/
def release (h : CorrectingHeap σ) (callsite : Word) : CorrectingHeap σ :=
  { h with
    super := SuperHeap.free h.super callsite (h.pqueue 0).ptr
    pqueue := popHeap PqueueEntry.deathTime h.pqueue h.pqueueSize
    pqueueSize := h.pqueueSize - 1 }

/-- The loop in `malloc`, with the entries that it passes to `SuperHeap::free`. -/
def drain (callsite : Word) : Nat → CorrectingHeap σ → List PqueueEntry × CorrectingHeap σ
  | 0, h => ([], h)
  | fuel + 1, h =>
    if h.isDue then
      let rest := drain callsite fuel (h.release callsite)
      (h.pqueue 0 :: rest.1, rest.2)
    else ([], h)

def padded (h : CorrectingHeap σ) (callsite sz : Word) : Word :=
  let pad := h.patch.getPadding callsite
  if pad ≠ 0 then sz + pad else sz

def malloc (h : CorrectingHeap σ) (callsite sz : Word) (place : ω) : Option (Word × CorrectingHeap σ) :=
  -- each round takes an entry out of the queue
  let drained := (h.drain callsite h.pqueueSize).2
  (SuperHeap.malloc drained.super callsite (h.padded callsite sz) place).map fun (ptr, super) =>
    (ptr, { drained with super := super })

/-- `push_heap` of a new last entry. -/
def push (h : CorrectingHeap σ) (entry : PqueueEntry) : CorrectingHeap σ :=
  { h with
    pqueue := pushHeap PqueueEntry.deathTime (Function.update h.pqueue h.pqueueSize entry)
      (h.pqueueSize + 1)
    pqueueSize := h.pqueueSize + 1 }

/-- The answer is `none` where the pointer makes the program abort, and where the queue is full, so that a build without
assertions writes past it. -/
def free (h : CorrectingHeap σ) (callsite ptr : Word) : Option (CorrectingHeap σ) := do
  let allocSite ← SuperHeap.getAllocCallsite h.super ptr
  let td := h.patch.getLifeExtension allocSite callsite
  if td = 0 then some { h with super := SuperHeap.free h.super callsite ptr }
  else
    let id ← SuperHeap.getObjectID h.super ptr
    if h.pqueueSize < pqueueLimit then some (h.push ⟨ptr, (td + id).toNat⟩) else none

def Ordered (h : CorrectingHeap σ) : Prop := IsHeap PqueueEntry.deathTime h.pqueue h.pqueueSize

theorem ordered_initial (super : σ) (patch : PatchInfo) (globalCt : Word) :
    (initial super patch globalCt).Ordered := fun _ _ hlt => absurd hlt (Nat.not_lt_zero _)

variable {h : CorrectingHeap σ}

theorem Ordered.push (ho : h.Ordered) (entry : PqueueEntry) : (h.push entry).Ordered := by
  apply pushHeap_isHeap
  intro i hpos hi
  have hp := parent_lt hpos
  rw [Function.update_of_ne (by omega), Function.update_of_ne (by omega)]
  exact ho i hpos hi

theorem entries_push (h : CorrectingHeap σ) (entry : PqueueEntry) :
    (h.push entry).entries = entry ::ₘ h.entries := by
  have hrest : elems (Function.update h.pqueue h.pqueueSize entry) h.pqueueSize =
      elems h.pqueue h.pqueueSize := by
    apply Multiset.map_congr rfl
    intro i hi
    rw [Function.update_of_ne (Multiset.mem_range.mp hi).ne]
  simp only [entries, CorrectingHeap.push]
  rw [elems_pushHeap, elems_succ, Function.update_self, hrest]

theorem Ordered.release (ho : h.Ordered) (hne : h.pqueueSize ≠ 0) (callsite : Word) :
    (h.release callsite).Ordered := by
  obtain ⟨n, hn⟩ := Nat.exists_eq_succ_of_ne_zero hne
  simp only [Ordered, CorrectingHeap.release, hn] at ho ⊢
  exact popHeap_isHeap ho

theorem entries_release (hne : h.pqueueSize ≠ 0) (callsite : Word) :
    h.entries = h.pqueue 0 ::ₘ (h.release callsite).entries := by
  obtain ⟨n, hn⟩ := Nat.exists_eq_succ_of_ne_zero hne
  simp only [entries, CorrectingHeap.release, hn]
  exact elems_popHeap _ _ n

theorem Ordered.first_le (ho : h.Ordered) {x : PqueueEntry} (hx : x ∈ h.entries) :
    (h.pqueue 0).deathTime ≤ x.deathTime := by
  obtain ⟨i, hi, rfl⟩ := mem_elems.mp hx
  exact IsHeap.first_le _ ho hi

/-- What the loop does: it frees the entries that the member lets pass, each once, and leaves the others
in the queue. -/
structure Drained (callsite : Word) (h : CorrectingHeap σ) (freed : List PqueueEntry)
    (h' : CorrectingHeap σ) : Prop where
  ordered : h'.Ordered
  entries : h.entries = freed + h'.entries
  super : h'.super = freed.foldl (fun s x => SuperHeap.free s callsite x.ptr) h.super
  patch : h'.patch = h.patch
  globalCt : h'.globalCt = h.globalCt
  due : ∀ x ∈ freed, x.deathTime ≤ h.globalCt.toNat
  pending : ∀ x ∈ h'.entries, h.globalCt.toNat < x.deathTime

theorem Ordered.drained_nil (ho : h.Ordered) (hnot : h.isDue = false) (callsite : Word) :
    Drained callsite h [] h := by
  refine ⟨ho, by simp, rfl, rfl, rfl, by simp, ?_⟩
  intro x hx
  have hfirst := ho.first_le hx
  have hne : h.pqueueSize ≠ 0 := by
    intro hzero
    simp [CorrectingHeap.entries, hzero, elems] at hx
  simp only [isDue, hne, ne_eq, not_false_eq_true, true_and, decide_eq_false_iff_not, Nat.not_le]
    at hnot
  omega

theorem Ordered.drain (ho : h.Ordered) (callsite : Word) {fuel : Nat} (hfuel : h.pqueueSize ≤ fuel) :
    Drained callsite h (h.drain callsite fuel).1 (h.drain callsite fuel).2 := by
  induction fuel generalizing h with
  | zero => exact ho.drained_nil (by simp [isDue, Nat.le_zero.mp hfuel]) callsite
  | succ fuel ih =>
    rw [CorrectingHeap.drain]
    split
    · rename_i hdue
      simp only [isDue, decide_eq_true_eq] at hdue
      have hsize : (h.release callsite).pqueueSize ≤ fuel := by
        simp only [CorrectingHeap.release]
        omega
      have hrest := ih (ho.release hdue.1 callsite) hsize
      refine ⟨hrest.ordered, ?_, hrest.super, hrest.patch, hrest.globalCt, ?_, hrest.pending⟩
      · rw [entries_release hdue.1 callsite, hrest.entries, ← Multiset.cons_coe, Multiset.cons_add]
      · intro x hx
        rcases List.mem_cons.mp hx with rfl | hx
        · exact hdue.2
        · exact hrest.due x hx
    · exact ho.drained_nil (Bool.eq_false_iff.mpr ‹_›) callsite

end CorrectingHeap

end DieHard.Exterminator
