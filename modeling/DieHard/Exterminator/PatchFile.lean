import DieHard.Exterminator.Partition
import DieHard.Lib.Numeral

/-!
# The patch file

The patcher keeps its patches and the counts of the static test in maps, and writes them as lines of
text, first the patches for overflows, then those for dangling pointers, then the counts.
-/

namespace DieHard.Exterminator

open Numeral Std

/-- `overflow_element` -/
structure OverflowElement where
  callsite : Word
  delta : Word
  deriving DecidableEq

/-- `dangle_element`; `td` is an `int`. -/
structure DangleElement where
  allocSite : Word
  freeSite : Word
  td : Word
  deriving DecidableEq

def overflowType : List Char := ['o', 'v', 'e', 'r', 'f', 'l', 'o', 'w']

def dangleType : List Char := ['d', 'a', 'n', 'g', 'l', 'e']

def statType : List Char := ['s', 't', 'a', 't']

def OverflowElement.write (e : OverflowElement) : List Char :=
  overflowType ++ [' '] ++ hex e.callsite.toNat ++ [' '] ++ decimal e.delta.toInt ++ ['\n']

def DangleElement.write (e : DangleElement) : List Char :=
  dangleType ++ [' '] ++ hex e.allocSite.toNat ++ [' '] ++ hex e.freeSite.toNat ++ [' '] ++
    decimal e.td.toInt ++ ['\n']

abbrev Sites := Word × Word

/-- The line of `output_patch` for an entry of `static_info`. -/
def writeStat (key heads : Sites) : List Char :=
  statType ++ [' '] ++ hex key.1.toNat ++ [' '] ++ hex key.2.toNat ++ [' '] ++
    decimal heads.1.toInt ++ [' '] ++ decimal heads.2.toInt ++ ['\n']

def sitesOrder : Sites → Sites → Ordering := compareLex (compareOn Prod.fst) (compareOn Prod.snd)

instance : TransOrd Word := inferInstance

instance : TransCmp sitesOrder := inferInstanceAs (TransCmp (compareLex _ _))

instance : LawfulEqCmp sitesOrder where
  eq_of_compare := by
    intro a b h
    obtain ⟨hfst, hsnd⟩ := Ordering.then_eq_eq.mp h
    exact Prod.ext (LawfulEqCmp.eq_of_compare hfst) (LawfulEqCmp.eq_of_compare hsnd)

/-- The maps of `patch_db.cpp`, with the sites that `add_dangle_patch` has been called for. Patches stand
under their own sites. -/
structure PatchDatabase where
  overflowPatches : ExtTreeMap Word OverflowElement
  danglePatches : ExtTreeMap Sites DangleElement sitesOrder
  staticInfo : ExtTreeMap Sites Sites sitesOrder
  dragMap : Sites → Word
  updatedDangles : List Sites
  callsite_eq : ∀ (site : Word) (e : OverflowElement), overflowPatches[site]? = some e →
    e.callsite = site
  sites_eq : ∀ (key : Sites) (e : DangleElement), danglePatches[key]? = some e →
    (e.allocSite, e.freeSite) = key
  mem_updatedDangles : ∀ key, key ∈ updatedDangles ↔ key ∈ danglePatches

namespace PatchDatabase

def empty : PatchDatabase where
  overflowPatches := ∅
  danglePatches := ∅
  staticInfo := ∅
  dragMap := fun _ => 0
  updatedDangles := []
  callsite_eq := by simp
  sites_eq := by simp
  mem_updatedDangles := by simp

def addOverflowPatch (db : PatchDatabase) (patch : OverflowElement) : PatchDatabase :=
  { db with
    overflowPatches := (db.overflowPatches.erase patch.callsite).insert patch.callsite patch
    callsite_eq := by
      intro site e he
      rw [ExtTreeMap.getElem?_insert] at he
      split at he
      · rename_i hsite
        cases he
        exact LawfulEqCmp.eq_of_compare hsite
      · rw [ExtTreeMap.getElem?_erase] at he
        split at he
        · cases he
        · exact db.callsite_eq site e he }

theorem getElem?_addOverflowPatch (db : PatchDatabase) (patch : OverflowElement) (site : Word) :
    (db.addOverflowPatch patch).overflowPatches[site]? =
      if patch.callsite = site then some patch else db.overflowPatches[site]? := by
  simp only [addOverflowPatch, ExtTreeMap.getElem?_insert, ExtTreeMap.getElem?_erase,
    LawfulEqCmp.compare_eq_iff_eq]
  split <;> rfl

def addDanglePatch (db : PatchDatabase) (patch : DangleElement) : PatchDatabase :=
  { db with
    danglePatches := (db.danglePatches.erase (patch.allocSite, patch.freeSite)).insert
      (patch.allocSite, patch.freeSite) patch
    updatedDangles := db.updatedDangles ++ [(patch.allocSite, patch.freeSite)]
    sites_eq := by
      intro key e he
      rw [ExtTreeMap.getElem?_insert] at he
      split at he
      · rename_i hkey
        cases he
        exact LawfulEqCmp.eq_of_compare hkey
      · rw [ExtTreeMap.getElem?_erase] at he
        split at he
        · cases he
        · exact db.sites_eq key e he
    mem_updatedDangles := by
      intro key
      rw [List.mem_append, List.mem_singleton, db.mem_updatedDangles, ExtTreeMap.mem_insert,
        ExtTreeMap.mem_erase, LawfulEqCmp.compare_eq_iff_eq]
      constructor
      · rintro (hkey | rfl)
        · by_cases hsites : (patch.allocSite, patch.freeSite) = key
          · exact Or.inl hsites
          · exact Or.inr ⟨fun he => hsites (LawfulEqCmp.eq_of_compare he), hkey⟩
        · exact Or.inl rfl
      · rintro (rfl | ⟨-, hkey⟩)
        · exact Or.inr rfl
        · exact Or.inl hkey }

/-- `update_static_info`; the counts and `drag` are `int`s. -/
def updateStaticInfo (db : PatchDatabase) (key : Sites) (h t drag : Word) : PatchDatabase :=
  let heads := db.staticInfo.getD key (0, 0)
  { db with
    staticInfo := db.staticInfo.insert key (heads.1 + h, heads.2 + t)
    dragMap := if db.dragMap key = 0 ∨ drag.slt (db.dragMap key) then
      Function.update db.dragMap key drag else db.dragMap }

/-- `output_patch`; it drops the counts of the sites with a patch. -/
def outputPatch (db : PatchDatabase) : List Char × PatchDatabase :=
  let staticInfo := db.updatedDangles.foldl (fun m key => m.erase key) db.staticInfo
  (db.overflowPatches.toList.flatMap (fun entry => entry.2.write) ++
    db.danglePatches.toList.flatMap (fun entry => entry.2.write) ++
    staticInfo.toList.flatMap (fun entry => writeStat entry.1 entry.2),
    { db with staticInfo := staticInfo })

end PatchDatabase

/-- `isspace` -/
def isSpace (c : Char) : Bool := c = ' ' ∨ 9 ≤ c.toNat ∧ c.toNat ≤ 13

/-- Text without white space and without the end of a string. -/
structure IsWord (w : List Char) : Prop where
  ne_nil : w ≠ []
  not_space : ∀ c ∈ w, isSpace c = false
  not_nul : ∀ c ∈ w, c ≠ '\x00'

theorem digitValue_of_isSpace {c : Char} (h : isSpace c = true) : digitValue c = 36 := by
  have hsmall : c.toNat < 33 := by
    simp only [isSpace, decide_eq_true_eq] at h
    rcases h with rfl | h
    · decide
    · omega
  have hvalues : ∀ n < 33, isSpace (Char.ofNat n) = true → digitValue (Char.ofNat n) = 36 := by decide
  have hc := hvalues c.toNat hsmall
  rw [Char.ofNat_toNat] at hc
  exact hc h

theorem IsWord.of_digits {base : Nat} {w : List Char} (hne : w ≠ []) (hmax : base ≤ 36)
    (h : ∀ c ∈ w, isDigit base c = true) : IsWord w := by
  have hvalue {c : Char} (hc : c ∈ w) : digitValue c ≠ 36 := by
    have hdigit := h c hc
    rw [isDigit, decide_eq_true_eq] at hdigit
    omega
  refine ⟨hne, ?_, ?_⟩
  · intro c hc
    by_contra hspace
    exact hvalue hc (digitValue_of_isSpace (by simpa using hspace))
  · rintro c hc rfl
    exact hvalue hc (by decide)

theorem IsWord.cons {c : Char} {w : List Char} (h : IsWord w) (hc : isSpace c = false)
    (hnul : c ≠ '\x00') : IsWord (c :: w) :=
  ⟨List.cons_ne_nil c w, List.forall_mem_cons.mpr ⟨hc, h.not_space⟩,
    List.forall_mem_cons.mpr ⟨hnul, h.not_nul⟩⟩

theorem isWord_hex (n : Nat) : IsWord (hex n) := by
  have hdigits : IsWord (Nat.toDigits 16 n) :=
    .of_digits Nat.toDigits_ne_nil (by decide) (isDigit_of_mem_toDigits (by decide) (by decide) n)
  exact (hdigits.cons (by decide) (by decide)).cons (by decide) (by decide)

theorem isWord_decimal (z : Int) : IsWord (decimal z) := by
  have hdigits : IsWord (Nat.toDigits 10 z.natAbs) :=
    .of_digits Nat.toDigits_ne_nil (by decide) (isDigit_of_mem_toDigits (by decide) (by decide) _)
  rw [decimal]
  split
  · exact hdigits.cons (by decide) (by decide)
  · exact hdigits

theorem IsWord.dropWhile {w : List Char} (h : IsWord w) (rest : List Char) :
    (w ++ rest).dropWhile isSpace = w ++ rest := by
  cases w with
  | nil => exact absurd rfl h.ne_nil
  | cons c w =>
    have hc := h.not_space c List.mem_cons_self
    simp [hc]

theorem IsWord.span {w : List Char} (h : IsWord w) {c : Char} (hc : isSpace c = true) (rest : List Char) :
    (w ++ c :: rest).span (fun c => !isSpace c) = (w, c :: rest) := by
  have hw : ∀ c ∈ w, (!isSpace c) = true := fun d hd => by simp [h.not_space d hd]
  rw [List.span_eq_takeWhile_dropWhile, List.takeWhile_append_of_pos hw, List.dropWhile_append_of_pos hw]
  simp [hc]

/-- A line of the file. -/
inductive Record
  | overflow (e : OverflowElement)
  | dangle (e : DangleElement)
  | stat (key heads : Sites)

namespace Record

def text : Record → List Char
  | overflow e => e.write
  | dangle e => e.write
  | stat key heads => writeStat key heads

/-- The first word of the line. -/
def type : Record → List Char
  | overflow _ => overflowType
  | dangle _ => dangleType
  | stat _ _ => statType

/-- The first call site of the line. -/
def site : Record → Word
  | overflow e => e.callsite
  | dangle e => e.allocSite
  | stat key _ => key.1

/-- What follows the first call site. -/
def body : Record → List Char
  | overflow e => ' ' :: decimal e.delta.toInt ++ ['\n']
  | dangle e => ' ' :: hex e.freeSite.toNat ++ ' ' :: decimal e.td.toInt ++ ['\n']
  | stat key heads => ' ' :: hex key.2.toNat ++ ' ' :: decimal heads.1.toInt ++
      ' ' :: decimal heads.2.toInt ++ ['\n']

theorem text_eq (r : Record) : r.text = r.type ++ ' ' :: (hex r.site.toNat ++ r.body) := by
  cases r with
  | overflow e => simp [text, type, site, body, OverflowElement.write]
  | dangle e => simp [text, type, site, body, DangleElement.write]
  | stat key heads => simp [text, type, site, body, writeStat]

theorem isWord_type (r : Record) : IsWord r.type := by
  have hword {w : List Char} (hne : w ≠ []) (hall : w.all (fun c => !isSpace c && c != '\x00') = true) :
      IsWord w := by
    rw [List.all_eq_true] at hall
    exact ⟨hne, fun c hc => by simpa using (Bool.and_eq_true_iff.mp (hall c hc)).1,
      fun c hc => by simpa using (Bool.and_eq_true_iff.mp (hall c hc)).2⟩
  cases r with
  | overflow _ => exact hword (w := overflowType) (by decide) (by decide)
  | dangle _ => exact hword (w := dangleType) (by decide) (by decide)
  | stat _ _ => exact hword (w := statType) (by decide) (by decide)

end Record

namespace PatchDatabase

/-- The counts that `output_patch` keeps. -/
def kept (db : PatchDatabase) : ExtTreeMap Sites Sites sitesOrder :=
  db.updatedDangles.foldl (fun m key => m.erase key) db.staticInfo

/-- The lines of the file. -/
def records (db : PatchDatabase) : List Record :=
  db.overflowPatches.toList.map (fun entry => .overflow entry.2) ++
    db.danglePatches.toList.map (fun entry => .dangle entry.2) ++
    db.kept.toList.map fun entry => .stat entry.1 entry.2

theorem outputPatch_eq (db : PatchDatabase) : db.outputPatch.1 = db.records.flatMap Record.text := by
  simp only [outputPatch, records, kept, List.flatMap_append, List.flatMap_map]
  rfl

theorem getElem?_kept (db : PatchDatabase) (key : Sites) :
    db.kept[key]? = if key ∈ db.danglePatches then none else db.staticInfo[key]? := by
  have herase (keys : List Sites) (m : ExtTreeMap Sites Sites sitesOrder) :
      (keys.foldl (fun m key => m.erase key) m)[key]? = if key ∈ keys then none else m[key]? := by
    induction keys generalizing m with
    | nil => simp
    | cons k keys ih =>
      simp only [List.foldl_cons, ih, ExtTreeMap.getElem?_erase, LawfulEqCmp.compare_eq_iff_eq]
      by_cases hk : k = key
      · simp [hk]
      · simp [hk, Ne.symm hk]
  rw [kept, herase]
  simp only [db.mem_updatedDangles]

end PatchDatabase

end DieHard.Exterminator
