import DieHard.Exterminator.CorrectedRuns
import DieHard.Exterminator.HeapPatches
import DieHard.Exterminator.ReadFile

/-!
# From the dumps to the next run

What the comparison of the heaps finds becomes padding in the database, a line of its file and an entry of the
table that the next run reads. The objects of the call site then have room for the overflow.
-/

namespace DieHard.Exterminator

open Transition PatchInfo PatchDatabase

theorem le_two_pow_log2_iff {n x : Nat} : n ≤ 2 ^ log2 x ↔ ∀ q, x ≤ 2 ^ q → n ≤ 2 ^ q := by
  constructor
  · intro h q hq
    exact h.trans (Nat.pow_le_pow_right Nat.two_pos (log2_le_iff.mpr hq))
  · intro h
    exact h _ (log2_le_iff.mp (Nat.le_refl _))

/-- The powers of two that suffice for the padded request suffice for the old slot and the padding, unless the padded
request fits into `n + 1` slots and these are a power of two. -/
theorem padded_covers_iff {k n d sz : Nat} (hk : 3 ≤ k) (hpos : 0 < d) (hd : d ≤ 2 ^ k) :
    (∀ q, max (sz + (n * 2 ^ k + d)) 8 ≤ 2 ^ q → 2 ^ k + (n * 2 ^ k + d) ≤ 2 ^ q) ↔
      ¬ ((∃ j, n + 1 = 2 ^ j) ∧ sz + d ≤ 2 ^ k) := by
  have height : 2 ^ 3 ≤ 2 ^ k := Nat.pow_le_pow_right Nat.two_pos hk
  constructor
  · rintro h ⟨⟨j, hj⟩, hle⟩
    have hprod : 2 ^ (j + k) = n * 2 ^ k + 2 ^ k := by rw [pow_add, ← hj, Nat.succ_mul]
    have hcovers := h (j + k) (by rw [hprod]; omega)
    rw [hprod] at hcovers
    omega
  · intro hnot q hq
    by_contra hlt
    rw [Nat.not_le] at hlt
    have hfits : sz + (n * 2 ^ k + d) ≤ 2 ^ q := (Nat.le_max_left _ _).trans hq
    apply hnot
    rcases Nat.lt_or_ge q k with hqk | hkq
    · -- a class below the old one: the padding is less than a slot
      have hless : 2 ^ q < 2 ^ k := Nat.pow_lt_pow_right (by decide) hqk
      have hzero : n = 0 := by
        by_contra hne
        have hone : 1 * 2 ^ k ≤ n * 2 ^ k := Nat.mul_le_mul_right _ (Nat.one_le_iff_ne_zero.mpr hne)
        omega
      exact ⟨⟨0, by omega⟩, by omega⟩
    · -- between `n` and `n + 2` slots there is one multiple of a slot
      obtain ⟨i, rfl⟩ := Nat.exists_eq_add_of_le hkq
      rw [pow_add] at hfits hlt
      have hlo : n * 2 ^ k < 2 ^ i * 2 ^ k := by rw [Nat.mul_comm (2 ^ i)]; omega
      have hhi : 2 ^ i * 2 ^ k < (n + 2) * 2 ^ k := by
        rw [Nat.mul_comm (2 ^ i), Nat.add_mul]
        omega
      have hslots : 2 ^ i = n + 1 := by
        have := Nat.lt_of_mul_lt_mul_right hlo
        have := Nat.lt_of_mul_lt_mul_right hhi
        omega
      refine ⟨⟨i, hslots.symm⟩, ?_⟩
      rw [hslots, Nat.mul_comm (2 ^ k) (n + 1), Nat.succ_mul] at hfits
      omega

namespace WorklistItem

variable {item : WorklistItem} {b : Best}

/-- The class of the padded request has room for all bytes up to the last corrupt one, unless the distance of the
slots is a power of two and the request was so small that its padding only fills that many slots. -/
theorem Candidate.covers_iff (hb : item.Candidate b) {k : Nat} (hsize : item.perr.info.size.toNat = 2 ^ (k + 3))
    {sz pad : Word} (hpad : pad.toNat = item.padding b.slot b.offset)
    (hsmall : sz.toNat + pad.toNat ≤ DieHardHeap.maxObjectSize) :
    2 ^ (k + 3) + pad.toNat ≤ 2 ^ (DieHardHeap.sizeClass (sz + pad) + 3) ↔
      ¬ ((∃ j, item.dx - b.slot = 2 ^ j) ∧ sz.toNat + b.offset ≤ 2 ^ (k + 3)) := by
  have hlt := hb.lt
  have hd := overflowOffset_le hb.offset
  obtain ⟨n, hn⟩ := Nat.exists_eq_add_of_lt hlt
  have hdistance : item.dx - b.slot = n + 1 := by omega
  have hpadding : pad.toNat = n * 2 ^ (k + 3) + b.offset := by
    rw [hpad, padding, hdistance, hsize, Nat.add_sub_cancel]
  have hsum : (sz + pad).toNat = sz.toNat + pad.toNat := by
    rw [BitVec.toNat_add, Nat.mod_eq_of_lt]
    simp only [DieHardHeap.maxObjectSize] at hsmall
    omega
  have hclass : DieHardHeap.sizeClass (sz + pad) + 3 = log2 (max (sz + pad).toNat 8) := by
    have hthree : ¬ log2 (max (sz + pad).toNat 8) ≤ 2 := by
      rw [log2_le_iff]
      omega
    rw [DieHardHeap.sizeClass]
    omega
  rw [hclass, le_two_pow_log2_iff, hsum, hpadding, hdistance]
  exact padded_covers_iff (Nat.le_add_left 3 k) hb.reached (hsize ▸ hd)

def overflowedObject : Best := ⟨7, 0, 4⟩

set_option maxRecDepth 10000 in
theorem candidate_overflowedObject : overflowedItem.Candidate overflowedObject :=
  ⟨by decide, by decide, rfl, rfl, by decide, rfl, by decide⟩

theorem covers_iff_overflowedObject :
    (2 ^ (0 + 3) + (4#32).toNat ≤ 2 ^ (DieHardHeap.sizeClass (5#32 + 4#32) + 3) ↔
      ¬ ((∃ j, overflowedItem.dx - overflowedObject.slot = 2 ^ j) ∧
        (5#32).toNat + overflowedObject.offset ≤ 2 ^ (0 + 3))) ∧
    (2 ^ (0 + 3) + (4#32).toNat ≤ 2 ^ (DieHardHeap.sizeClass (4#32 + 4#32) + 3) ↔
      ¬ ((∃ j, overflowedItem.dx - overflowedObject.slot = 2 ^ j) ∧
        (4#32).toNat + overflowedObject.offset ≤ 2 ^ (0 + 3))) :=
  ⟨candidate_overflowedObject.covers_iff rfl rfl (by decide),
    candidate_overflowedObject.covers_iff rfl rfl (by decide)⟩

end WorklistItem

namespace HeapComparison

variable {c : HeapComparison} {evalProbability : Int → Int → ℚ} {db db' : PatchDatabase} {site : Word} {v : Nat}

theorem Pads.exists_patch (hpads : c.Pads site v) (h : c.compareHeaps evalProbability db = some db') :
    ∃ e, db'.overflowPatches[site]? = some e ∧ v ≤ e.delta.toNat := by
  obtain ⟨reports, hreports, h⟩ := Option.bind_eq_some_iff.mp h
  obtain ⟨score, hscore, h⟩ := Option.bind_eq_some_iff.mp h
  have hreported : v ∈ MaxTable.Reported db.deltaOf (reports.filterMap Report.padding) site := by
    rw [reported_deltas, deltas_heapReports hreports]
    exact Or.inr hpads
  obtain ⟨w, hw, hle⟩ := MaxTable.exists_le_of_reported hreported
  rw [← deltaOf_reportAll, deltaOf, ← (onlyDangles_dangPtrReadSearch hscore h).overflow] at hw
  obtain ⟨e, he, rfl⟩ := Option.map_eq_some_iff.mp hw
  exact ⟨e, he, hle⟩

end HeapComparison

theorem PatchInfo.le_getPadding {p p' : PatchInfo} {db : PatchDatabase} {junk : Nat → Char} {site : Word}
    {e : OverflowElement} (hread : p.readFile db.outputPatch.1 junk = some p')
    (hlargest : LastIsLargest db.overflowPatches hash OverflowElement.delta)
    (he : db.overflowPatches[site]? = some e) : e.delta ≤ p'.getPadding site := by
  rw [db.outputPatch_eq, readFile_records, foldl_store_records] at hread
  obtain ⟨-, rfl⟩ := hread
  exact (stored_le_iff hash OverflowElement.delta p.overflowHash).mpr hlargest site e he

namespace CorrectedRun

variable {s s' : CorrectedRun} {heap dlBase stackBase heapConfigFlags globalCt : Word} {patch : PatchInfo}

theorem patch_next {call : CorrectedCall} (hi : s.Inv) (hn : s.next call = some s') :
    s'.heap.patch = s.heap.patch := by
  cases call with
  | malloc callsite sz place =>
    obtain ⟨⟨ptr, heap⟩, hm, rfl⟩ := Option.map_eq_some_iff.mp hn
    obtain ⟨⟨q, super⟩, -, heq⟩ := Option.map_eq_some_iff.mp hm
    obtain ⟨-, rfl⟩ := Prod.mk.inj heq
    exact (hi.drains callsite).drained.patch
  | free callsite ptr =>
    obtain ⟨heap, hf, rfl⟩ := Option.map_eq_some_iff.mp hn
    rcases CorrectingHeap.free_cases hf with ⟨a, -, -, rfl⟩ | ⟨a, id, -, -, -, -, rfl⟩
    · rfl
    · rfl
  | write ptr b =>
    cases hn
    rfl

theorem patch_of_reach (hne : heap ≠ 0) (hfits : heap.toNat + DieHardHeap.maxHeapSize < 2 ^ 32)
    (hr : Reach next Allowed (start heap dlBase stackBase heapConfigFlags patch globalCt) s) :
    s.heap.patch = patch := by
  apply hr.invariant_of_reach (I := fun s => s.heap.patch = patch)
  · rfl
  · intro r call r' hr hpatch _ hn
    rw [patch_next (inv_of_reach hne hfits hr) hn, hpatch]

theorem toNat_padded {h : CorrectingHeap DieHardHeap} {callsite sz : Word}
    (hwrap : sz.toNat + (h.patch.getPadding callsite).toNat < 2 ^ 32) :
    (h.padded callsite sz).toNat = sz.toNat + (h.patch.getPadding callsite).toNat := by
  rw [CorrectingHeap.padded]
  split
  case isTrue => rw [BitVec.toNat_add, Nat.mod_eq_of_lt hwrap]
  case isFalse hzero =>
    rw [not_not.mp hzero]
    rfl

/-- In every run with the patches that the comparison of the heaps has led to, each object of a call site has room
for its request and for the padding of every suspect of the site. -/
theorem reach_repaired {c : HeapComparison} {evalProbability : Int → Int → ℚ} {db db' : PatchDatabase}
    {p p' : PatchInfo} {junk : Nat → Char} {o : HeldObject} {v : Nat}
    (hcompare : c.compareHeaps evalProbability db = some db')
    (hread : p.readFile db'.outputPatch.1 junk = some p')
    (hlargest : LastIsLargest db'.overflowPatches hash OverflowElement.delta)
    (hne : heap ≠ 0) (hfits : heap.toNat + DieHardHeap.maxHeapSize < 2 ^ 32)
    (hr : Reach next Allowed (start heap dlBase stackBase heapConfigFlags p' globalCt) s) (ho : o ∈ s.held)
    (hwrap : o.sz.toNat + (p'.getPadding o.callsite).toNat < 2 ^ 32) (hpads : c.Pads o.callsite v) :
    ∃ n, o.sz.toNat + v ≤ n ∧ DirectHeap.Object s.below o.ptr.toNat n := by
  obtain ⟨e, he, hle⟩ := hpads.exists_patch hcompare
  have hpadding : e.delta.toNat ≤ (p'.getPadding o.callsite).toNat := le_getPadding hread hlargest he
  obtain ⟨n, hsize, hobject⟩ := (inv_of_reach hne hfits hr).held o ho
  have hpatch := patch_of_reach hne hfits hr
  rw [toNat_padded (by rw [hpatch]; exact hwrap), hpatch] at hsize
  exact ⟨n, by omega, hobject⟩

def overflowedReports : List Report := [.overflow 0x77#32 4, .overflow 0x77#32 4, .overflow 0x77#32 4]

def repaired : PatchDatabase := empty.reportAll overflowedReports

def repairedPatch : PatchInfo := repaired.records.foldl store ⟨fun _ => 0, fun _ => 0⟩

private theorem compareHeaps_eq :
    HeapComparison.overflowedHeaps.compareHeaps HeapComparison.tosses empty = some repaired := by
  have hscore : HeapComparison.overflowedHeaps.canaryScore.map (·.toList) = some [((0, 1), (3, 0))] := by
    decide +kernel
  obtain ⟨score, hscore, hlist⟩ := Option.map_eq_some_iff.mp hscore
  have hsearch : HeapComparison.overflowedHeaps.searchObject HeapComparison.tosses repaired 0 1 3 0 =
      some repaired := by
    have hprinted : ¬ HeapComparison.tosses 0 3 < printedBelow := by decide +kernel
    have hdangled : ¬ HeapComparison.tosses 0 3 < dangledBelow := by decide +kernel
    have hallocated : WorklistItem.overflowed.idToAllocSite 1#32 = some 0x77#32 := by decide
    have hfreed : WorklistItem.overflowed.idToFreeSite 1#32 = some 0#32 := by decide
    have hfirst : HeapComparison.overflowedHeaps.replicas.head? = some WorklistItem.overflowedReplica := rfl
    have hpartition : WorklistItem.overflowedReplica.pinfoPtr 0 = some WorklistItem.overflowed := rfl
    simp [HeapComparison.searchObject, HeapComparison.printScore, hprinted, hdangled, hfirst, hpartition, hallocated,
      hfreed]
  have hstatic : repaired.staticInfo.toList = [] := by decide +kernel
  rw [HeapComparison.compareHeaps, HeapComparison.heapReports_overflowedHeaps, Option.bind_eq_bind,
    Option.bind_some, hscore, Option.bind_eq_bind, Option.bind_some, HeapComparison.dangPtrReadSearch, hlist]
  change (Option.map _ ((HeapComparison.overflowedHeaps.searchObject HeapComparison.tosses repaired 0 1 3 0).bind
    some)) = _
  rw [hsearch, Option.bind_some, Option.map_some, inspectStaticInfo, hstatic, List.foldl_nil]

private theorem pads_overflowedHeaps : HeapComparison.overflowedHeaps.Pads 0x77#32 4 := by
  have hmem : 4 ∈ empty.deltas overflowedReports 0x77#32 := Or.inr ⟨4, List.mem_cons_self, rfl⟩
  rw [overflowedReports, HeapComparison.deltas_heapReports HeapComparison.heapReports_overflowedHeaps] at hmem
  rcases hmem with hmem | hmem
  · simp [deltaOf, empty] at hmem
  · exact hmem

private theorem lastIsLargest_repaired : LastIsLargest repaired.overflowPatches hash OverflowElement.delta := by
  have hsite : ∀ site e, repaired.overflowPatches[site]? = some e → site = 0x77#32 := by
    intro site e he
    by_contra hne
    have hdelta : repaired.deltaOf site = none := by
      rw [repaired, deltaOf_reportAll]
      simp [overflowedReports, Report.padding, MaxTable.raiseAll, MaxTable.raise, Function.update_of_ne hne, deltaOf,
        empty]
    rw [deltaOf, he] at hdelta
    cases hdelta
  intro site site' e e' he he' _ _
  rw [hsite site e he] at he
  rw [hsite site' e' he'] at he'
  cases he.symm.trans he'
  exact BitVec.le_refl _

private theorem readFile_repaired :
    PatchInfo.readFile ⟨fun _ => 0, fun _ => 0⟩ repaired.outputPatch.1 (fun _ => '\x00') = some repairedPatch := by
  rw [repaired.outputPatch_eq, readFile_records]
  exact ⟨Or.inr ⟨100, by decide +kernel, by decide, by decide⟩, rfl⟩

def repairedRun : List CorrectedCall := [.malloc 0x77 8 (.slot 1 0)]

theorem repaired_overflow : ∃ n, (8#32).toNat + 4 ≤ n ∧ DirectHeap.Object
    (final next (start 0x40000000#32 0 0 0 repairedPatch 0) repairedRun).below (0x40400000#32).toNat n :=
  reach_repaired (o := ⟨0x40400000#32, 0x77, 8⟩) compareHeaps_eq readFile_repaired
    lastIsLargest_repaired (by decide) (by decide)
    (reach_final (guarded_of_bool (by decide +kernel)) (by decide +kernel)) (by decide +kernel) (by decide +kernel)
    pads_overflowedHeaps

end CorrectedRun

end DieHard.Exterminator
