import DieHard.Lib.MaxTable
import DieHard.Exterminator.PatchFile

/-!
# Reports of errors

The patcher turns each error that it finds into a patch: padding for the allocations of a site, or a longer
life for the objects of an allocation site and a free site. A patch takes the place of a weaker one.
-/

namespace DieHard.Exterminator

open Std (ExtTreeMap LawfulEqCmp)

namespace PatchDatabase

/-- `do_overflow` -/
def doOverflow (db : PatchDatabase) (callsite delta : Word) : PatchDatabase :=
  if db.overflowPatches[callsite]?.any fun overflow => overflow.delta > delta then db
  else db.addOverflowPatch ⟨callsite, delta⟩

/-- `do_dang_ptr`; the times are `int`s. -/
def doDangPtr (db : PatchDatabase) (allocSite freeSite td : Word) : PatchDatabase :=
  let td := (if td = 0 then 1 else td) * 2
  if db.danglePatches[(allocSite, freeSite)]?.any fun dangle => td.slt dangle.td then db
  else db.addDanglePatch ⟨allocSite, freeSite, td⟩

inductive Report
  | overflow (callsite delta : Word)
  | dangPtr (allocSite freeSite td : Word)

def report (db : PatchDatabase) : Report → PatchDatabase
  | .overflow callsite delta => db.doOverflow callsite delta
  | .dangPtr allocSite freeSite td => db.doDangPtr allocSite freeSite td

def reportAll (db : PatchDatabase) (reports : List Report) : PatchDatabase := reports.foldl report db

def deltaOf (db : PatchDatabase) (site : Word) : Option Nat :=
  db.overflowPatches[site]?.map fun overflow => overflow.delta.toNat

def tdOf (db : PatchDatabase) (key : Sites) : Option Int :=
  db.danglePatches[key]?.map fun dangle => dangle.td.toInt

def deltas (db : PatchDatabase) (reports : List Report) (site : Word) : Set Nat :=
  {v | db.deltaOf site = some v ∨ ∃ delta, .overflow site delta ∈ reports ∧ delta.toNat = v}

def tds (db : PatchDatabase) (reports : List Report) (key : Sites) : Set Int :=
  {v | db.tdOf key = some v ∨ ∃ td, .dangPtr key.1 key.2 td ∈ reports ∧ 2 * max td.toInt 1 = v}

/-- The tables have the largest of the reported values, in whatever order they are reported. -/
structure KeepsStrongest (db : PatchDatabase) (reports : List Report) : Prop where
  overflow : ∀ site v, (db.reportAll reports).deltaOf site = some v ↔ IsGreatest (db.deltas reports site) v
  dangle : ∀ key v, (db.reportAll reports).tdOf key = some v ↔ IsGreatest (db.tds reports key) v
  perm : ∀ reports', reports.Perm reports' →
    (db.reportAll reports').overflowPatches = (db.reportAll reports).overflowPatches ∧
      (db.reportAll reports').danglePatches = (db.reportAll reports).danglePatches

variable {db db' : PatchDatabase} {reports reports' : List Report}

theorem getElem?_addDanglePatch (db : PatchDatabase) (patch : DangleElement) (key : Sites) :
    (db.addDanglePatch patch).danglePatches[key]? =
      if (patch.allocSite, patch.freeSite) = key then some patch else db.danglePatches[key]? := by
  simp only [addDanglePatch, ExtTreeMap.getElem?_insert, ExtTreeMap.getElem?_erase,
    LawfulEqCmp.compare_eq_iff_eq]
  split <;> rfl

def Report.padding : Report → Option (Word × Nat)
  | .overflow callsite delta => some (callsite, delta.toNat)
  | .dangPtr _ _ _ => none

def Report.extension : Report → Option (Sites × Int)
  | .overflow _ _ => none
  | .dangPtr allocSite freeSite td => some ((allocSite, freeSite), 2 * max td.toInt 1)

theorem deltaOf_doOverflow (db : PatchDatabase) (callsite delta : Word) :
    (db.doOverflow callsite delta).deltaOf = MaxTable.raise db.deltaOf (callsite, delta.toNat) := by
  funext site
  rw [MaxTable.raise, Function.update_apply, doOverflow]
  simp only [deltaOf]
  by_cases hsite : site = callsite
  · subst hsite
    rw [if_pos rfl]
    cases hfind : db.overflowPatches[site]? with
    | none => simp [getElem?_addOverflowPatch]
    | some overflow =>
      simp only [Option.any_some, decide_eq_true_eq, Option.map_some, Option.elim_some]
      split
      case isTrue hweaker =>
        have hle : delta.toNat ≤ overflow.delta.toNat := Nat.le_of_lt hweaker
        simp [hfind, hle]
      case isFalse hnot =>
        have hle : overflow.delta.toNat ≤ delta.toNat := Nat.le_of_not_lt hnot
        simp [getElem?_addOverflowPatch, hle]
  · rw [if_neg hsite]
    split
    · rfl
    · simp [getElem?_addOverflowPatch, Ne.symm hsite]

theorem toInt_doubled {td : Word} (hlo : 0 ≤ td.toInt) (hhi : td.toInt < 2 ^ 30) :
    ((if td = 0 then 1 else td) * 2).toInt = 2 * max td.toInt 1 := by
  by_cases hzero : td = 0
  · subst hzero
    decide
  · have hne : td.toInt ≠ 0 := by
      intro h
      exact hzero (BitVec.eq_of_toInt_eq h)
    have htwo : (2 : Word).toInt = 2 := by decide
    rw [if_neg hzero, BitVec.toInt_mul, htwo, max_eq_left (by omega), Int.mul_comm]
    apply Int.bmod_eq_of_le_mul_two
    · omega
    · omega

theorem tdOf_doDangPtr (db : PatchDatabase) (allocSite freeSite : Word) {td : Word} (hlo : 0 ≤ td.toInt)
    (hhi : td.toInt < 2 ^ 30) : (db.doDangPtr allocSite freeSite td).tdOf =
      MaxTable.raise db.tdOf ((allocSite, freeSite), 2 * max td.toInt 1) := by
  have hdoubled := toInt_doubled hlo hhi
  funext key
  rw [MaxTable.raise, Function.update_apply, doDangPtr]
  generalize (if td = 0 then 1 else td) * 2 = doubled at hdoubled ⊢
  simp only [tdOf, ← hdoubled]
  by_cases hkey : key = (allocSite, freeSite)
  · subst hkey
    rw [if_pos rfl]
    cases hfind : db.danglePatches[(allocSite, freeSite)]? with
    | none => simp [getElem?_addDanglePatch]
    | some dangle =>
      simp only [Option.any_some, BitVec.slt_iff_toInt_lt, Option.map_some, Option.elim_some]
      split
      case isTrue hweaker => simp [hfind, hweaker.le]
      case isFalse hnot => simp [getElem?_addDanglePatch, not_lt.mp hnot]
  · rw [if_neg hkey]
    split
    · rfl
    · simp [getElem?_addDanglePatch, Ne.symm hkey]

theorem danglePatches_doOverflow (db : PatchDatabase) (callsite delta : Word) :
    (db.doOverflow callsite delta).danglePatches = db.danglePatches := by
  rw [doOverflow]
  split <;> rfl

theorem overflowPatches_doDangPtr (db : PatchDatabase) (allocSite freeSite td : Word) :
    (db.doDangPtr allocSite freeSite td).overflowPatches = db.overflowPatches := by
  rw [doDangPtr]
  generalize (if td = 0 then 1 else td) * 2 = doubled
  split <;> rfl

theorem deltaOf_reportAll (db : PatchDatabase) (reports : List Report) :
    (db.reportAll reports).deltaOf = MaxTable.raiseAll db.deltaOf (reports.filterMap Report.padding) := by
  induction reports generalizing db with
  | nil => rfl
  | cons r reports ih =>
    rw [reportAll, List.foldl_cons, ← reportAll, ih]
    cases r with
    | overflow callsite delta =>
      rw [report, deltaOf_doOverflow]
      rfl
    | dangPtr allocSite freeSite td =>
      have hsame : (db.doDangPtr allocSite freeSite td).deltaOf = db.deltaOf := by
        funext site
        rw [deltaOf, overflowPatches_doDangPtr, deltaOf]
      rw [report, hsame]
      rfl

def Doubles (reports : List Report) : Prop :=
  ∀ allocSite freeSite td, .dangPtr allocSite freeSite td ∈ reports → 0 ≤ td.toInt ∧ td.toInt < 2 ^ 30

theorem tdOf_reportAll (db : PatchDatabase) (h : Doubles reports) :
    (db.reportAll reports).tdOf = MaxTable.raiseAll db.tdOf (reports.filterMap Report.extension) := by
  induction reports generalizing db with
  | nil => rfl
  | cons r reports ih =>
    have hrest : Doubles reports := fun allocSite freeSite td hmem =>
      h allocSite freeSite td (List.mem_cons_of_mem _ hmem)
    rw [reportAll, List.foldl_cons, ← reportAll, ih _ hrest]
    cases r with
    | overflow callsite delta =>
      have hsame : (db.doOverflow callsite delta).tdOf = db.tdOf := by
        funext key
        rw [tdOf, danglePatches_doOverflow, tdOf]
      rw [report, hsame]
      rfl
    | dangPtr allocSite freeSite td =>
      obtain ⟨hlo, hhi⟩ := h allocSite freeSite td List.mem_cons_self
      rw [report, tdOf_doDangPtr db allocSite freeSite hlo hhi]
      rfl

theorem getElem?_overflowPatches (db : PatchDatabase) (site : Word) :
    db.overflowPatches[site]? = (db.deltaOf site).map fun v => ⟨site, BitVec.ofNat 32 v⟩ := by
  rw [deltaOf]
  cases hfind : db.overflowPatches[site]? with
  | none => rfl
  | some e =>
    have hcallsite := db.callsite_eq site e hfind
    simp [← hcallsite]

theorem getElem?_danglePatches (db : PatchDatabase) (key : Sites) :
    db.danglePatches[key]? = (db.tdOf key).map fun v => ⟨key.1, key.2, BitVec.ofInt 32 v⟩ := by
  rw [tdOf]
  cases hfind : db.danglePatches[key]? with
  | none => rfl
  | some e =>
    have hsites := db.sites_eq key e hfind
    simp [← hsites]

theorem sameTables (hdelta : db.deltaOf = db'.deltaOf) (htd : db.tdOf = db'.tdOf) :
    db.overflowPatches = db'.overflowPatches ∧ db.danglePatches = db'.danglePatches := by
  constructor
  · apply ExtTreeMap.ext_getElem?
    intro site
    rw [getElem?_overflowPatches, getElem?_overflowPatches, hdelta]
  · apply ExtTreeMap.ext_getElem?
    intro key
    rw [getElem?_danglePatches, getElem?_danglePatches, htd]

theorem reported_deltas (db : PatchDatabase) (reports : List Report) (site : Word) :
    MaxTable.Reported db.deltaOf (reports.filterMap Report.padding) site = db.deltas reports site := by
  ext v
  apply or_congr Iff.rfl
  rw [List.mem_filterMap]
  constructor
  · intro ⟨r, hr, hpadding⟩
    cases r with
    | overflow callsite delta =>
      cases hpadding
      exact ⟨delta, hr, rfl⟩
    | dangPtr _ _ _ => cases hpadding
  · intro ⟨delta, hmem, hv⟩
    exact ⟨_, hmem, by rw [← hv]; rfl⟩

theorem reported_tds (db : PatchDatabase) (reports : List Report) (key : Sites) :
    MaxTable.Reported db.tdOf (reports.filterMap Report.extension) key = db.tds reports key := by
  ext v
  apply or_congr Iff.rfl
  rw [List.mem_filterMap]
  constructor
  · intro ⟨r, hr, hextension⟩
    cases r with
    | overflow _ _ => cases hextension
    | dangPtr allocSite freeSite td =>
      cases hextension
      exact ⟨td, hr, rfl⟩
  · intro ⟨td, hmem, hv⟩
    exact ⟨_, hmem, by rw [← hv]; rfl⟩

/-- Whatever the reports are and in whatever order they come, each site keeps the largest value. -/
theorem keepsStrongest (db : PatchDatabase) {reports : List Report}
    (h : ∀ allocSite freeSite td, .dangPtr allocSite freeSite td ∈ reports →
      0 ≤ td.toInt ∧ td.toInt < 2 ^ 30) : KeepsStrongest db reports := by
  constructor
  · intro site v
    rw [deltaOf_reportAll, MaxTable.raiseAll_eq_some_iff, reported_deltas]
  · intro key v
    rw [tdOf_reportAll db h, MaxTable.raiseAll_eq_some_iff, reported_tds]
  · intro reports' hperm
    have h' : Doubles reports' := fun allocSite freeSite td hmem =>
      h allocSite freeSite td (hperm.mem_iff.mpr hmem)
    apply sameTables
    · rw [deltaOf_reportAll, deltaOf_reportAll]
      exact (MaxTable.raiseAll_perm _ (hperm.filterMap _)).symm
    · rw [tdOf_reportAll db h, tdOf_reportAll db h']
      exact (MaxTable.raiseAll_perm _ (hperm.filterMap _)).symm

def threeReports : List Report := [.overflow 1 8, .dangPtr 1 2 0, .overflow 1 4]

theorem keepsStrongest_threeReports : KeepsStrongest empty threeReports := by
  apply keepsStrongest
  intro allocSite freeSite td hmem
  simp only [threeReports, List.mem_cons, reduceCtorEq, Report.dangPtr.injEq, List.not_mem_nil, or_false,
    false_or] at hmem
  obtain ⟨-, -, rfl⟩ := hmem
  decide

end PatchDatabase

end DieHard.Exterminator
