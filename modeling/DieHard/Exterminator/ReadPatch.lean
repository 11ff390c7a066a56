import DieHard.Exterminator.PatchFile

/-!
# Reading the patch file back

`read_patch` takes the file apart with formatted input and adds what it finds to the database. What
`output_patch` has written comes back as it was.
-/

namespace DieHard.Exterminator

open Numeral
open Std (ExtTreeMap)

def signed (negative : Bool) (n : Nat) : Int := if negative then -n else n

def isInt (z : Int) : Bool := -2 ^ 31 ≤ z ∧ z < 2 ^ 31

/-- The nearest `int`. -/
def clampInt (z : Int) : Word :=
  if z < -2 ^ 31 then BitVec.intMin 32 else if 2 ^ 31 ≤ z then BitVec.intMax 32 else BitVec.ofInt 32 z

/-- A stream: what is left of the file, the base of the last manipulator, and no extraction has failed. -/
structure Istream where
  rest : List Char
  base : Nat
  good : Bool

namespace Istream

def ofFile (file : List Char) : Istream := ⟨file, 10, true⟩

/-- `in >> std::hex` and `in >> std::dec` -/
def setBase (s : Istream) (base : Nat) : Istream := { s with base := base }

def sentry (s : Istream) : Istream :=
  let rest := s.rest.dropWhile isSpace
  { s with rest := rest, good := s.good && !rest.isEmpty }

/-- `in >> str` for a string that holds `old`. -/
def readString (s : Istream) (old : List Char) : List Char × Istream :=
  let s := s.sentry
  if s.good then
    let word := s.rest.span fun c => !isSpace c
    (word.1, { s with rest := word.2 })
  else (old, s)

/-- `in >> n` for an `unsigned` that holds `old`; a sign is taken modulo 2³². -/
def readUnsigned (s : Istream) (old : Word) : Word × Istream :=
  let s := s.sentry
  if s.good then
    match Numeral.read s.base s.rest with
    | none => (0, { s with good := false })
    | some (negative, n, rest) =>
      (if 2 ^ 32 ≤ n then BitVec.allOnes 32
        else if negative then -BitVec.ofNat 32 n else BitVec.ofNat 32 n,
        { s with rest := rest, good := n < 2 ^ 32 })
  else (old, s)

/-- `in >> n` for an `int` that holds `old`. -/
def readInt (s : Istream) (old : Word) : Word × Istream :=
  let s := s.sentry
  if s.good then
    match Numeral.read s.base s.rest with
    | none => (0, { s with good := false })
    | some (negative, n, rest) =>
      (clampInt (signed negative n), { s with rest := rest, good := isInt (signed negative n) })
  else (old, s)

def left (s : Istream) : Nat := if s.good then s.rest.length + 1 else 0

variable (s : Istream) (old : Word)

theorem left_sentry_le : s.sentry.left ≤ s.left := by
  have hle := (List.dropWhile_sublist (p := isSpace) (l := s.rest)).length_le
  by_cases hgood : s.good = true
  · simp only [left, sentry, hgood, Bool.true_and, if_true]
    split <;> omega
  · simp [left, sentry, hgood]

theorem left_readUnsigned_le : (s.readUnsigned old).2.left ≤ s.left := by
  refine Nat.le_trans ?_ s.left_sentry_le
  simp only [readUnsigned]
  generalize s.sentry = s
  cases hgood : s.good with
  | false => simp
  | true =>
    cases hread : Numeral.read s.base s.rest with
    | none => simp [left]
    | some r =>
      have hle := length_of_read hread
      simp only [left, if_true, hgood]
      split <;> omega

theorem left_readInt_le : (s.readInt old).2.left ≤ s.left := by
  refine Nat.le_trans ?_ s.left_sentry_le
  simp only [readInt]
  generalize s.sentry = s
  cases hgood : s.good with
  | false => simp
  | true =>
    cases hread : Numeral.read s.base s.rest with
    | none => simp [left]
    | some r =>
      have hle := length_of_read hread
      simp only [left, if_true, hgood]
      split <;> omega

theorem left_readString_lt (hgood : s.good = true) (old : List Char) :
    (s.readString old).2.left < s.left := by
  simp only [readString, sentry, hgood, Bool.true_and]
  have hle := (List.dropWhile_sublist (p := isSpace) (l := s.rest)).length_le
  have hhead := List.head?_dropWhile_not isSpace s.rest
  cases hrest : s.rest.dropWhile isSpace with
  | nil => simp [left, hgood]
  | cons c cs =>
    rw [hrest] at hle hhead
    have hc : isSpace c = false := by simpa using hhead
    have hcs := (List.dropWhile_sublist (p := fun c => !isSpace c) (l := cs)).length_le
    simp only [List.isEmpty_cons, Bool.not_false, if_true, left, hgood,
      List.span_eq_takeWhile_dropWhile, List.dropWhile_cons, hc, List.length_cons] at hle ⊢
    omega

end Istream

namespace PatchDatabase

/-- The rest of a line; `uninit` is what the local variables hold. -/
def readRecord (uninit : Word) (type : List Char) (allocSite : Word) (s : Istream) (db : PatchDatabase) :
    Istream × PatchDatabase :=
  if type = overflowType then
    let (padding, s) := (s.setBase 10).readInt uninit
    (s, db.addOverflowPatch ⟨allocSite, padding⟩)
  else if type = dangleType then
    let (freeSite, s) := (s.setBase 16).readUnsigned uninit
    let (td, s) := (s.setBase 10).readInt uninit
    (s, db.addDanglePatch ⟨allocSite, freeSite, td⟩)
  else if type = statType then
    let (freeSite, s) := (s.setBase 16).readUnsigned uninit
    let (h, s) := (s.setBase 10).readUnsigned uninit
    let (t, s) := s.readUnsigned uninit
    (s, db.updateStaticInfo (allocSite, freeSite) h t 0)
  else (s, db)

/-- `in >> type >> std::hex >> alloc_site` -/
def readHeader (type : List Char) (allocSite : Word) (s : Istream) : List Char × Word × Istream :=
  let (type, s) := s.readString type
  let (allocSite, s) := (s.setBase 16).readUnsigned allocSite
  (type, allocSite, s)

theorem left_readRecord_le (uninit : Word) (type : List Char) (allocSite : Word) (s : Istream)
    (db : PatchDatabase) : (readRecord uninit type allocSite s db).1.left ≤ s.left := by
  simp only [readRecord]
  split
  · exact Istream.left_readInt_le _ _
  · split
    · exact (Istream.left_readInt_le _ _).trans (Istream.left_readUnsigned_le _ _)
    · split
      · exact ((Istream.left_readUnsigned_le _ _).trans (Istream.left_readUnsigned_le _ _)).trans
          (Istream.left_readUnsigned_le _ _)
      · exact Nat.le_refl _

theorem left_readHeader_lt (type : List Char) (allocSite : Word) {s : Istream} (hgood : s.good = true) :
    (readHeader type allocSite s).2.2.left < s.left :=
  (Istream.left_readUnsigned_le _ _).trans_lt (s.left_readString_lt hgood type)

/-- The loop of `read_patch`, after the type and the site of a line. -/
def readLoop (uninit : Word) (type : List Char) (allocSite : Word) (s : Istream) (db : PatchDatabase) :
    PatchDatabase :=
  if s.good then
    let record := readRecord uninit type allocSite s db
    if record.1.good then
      let header := readHeader type allocSite record.1
      readLoop uninit header.1 header.2.1 header.2.2 record.2
    else record.2
  else db
termination_by s.left
decreasing_by
  exact (left_readHeader_lt _ _ ‹_›).trans_le (left_readRecord_le _ _ _ _ _)

def readPatch (uninit : Word) (file : List Char) (db : PatchDatabase) : PatchDatabase :=
  let header := readHeader [] uninit (.ofFile file)
  readLoop uninit header.1 header.2.1 header.2.2 db

end PatchDatabase

theorem ends_space {base : Nat} (hmax : base ≤ 36) {c : Char} (hc : isSpace c = true) (rest : List Char) :
    Ends base (c :: rest) := by
  intro d hd
  cases hd
  rw [isDigit, digitValue_of_isSpace hc]
  exact decide_eq_false (by omega)

theorem clampInt_toInt (w : Word) : clampInt w.toInt = w ∧ isInt w.toInt = true := by
  have hlo := w.le_two_mul_toInt
  have hhi := w.two_mul_toInt_lt
  have hmin : ¬ w.toInt < -2 ^ 31 := by omega
  have hmax : ¬ 2 ^ 31 ≤ w.toInt := by omega
  refine ⟨?_, by simp only [isInt, decide_eq_true_eq]; omega⟩
  rw [clampInt, if_neg hmin, if_neg hmax, BitVec.ofInt_toInt]

theorem signed_natAbs (z : Int) : signed (decide (z < 0)) z.natAbs = z := by
  simp only [signed, decide_eq_true_eq]
  split <;> omega

namespace Istream

variable {cs rest : List Char} {b : Nat} {c : Char}

theorem readString_word {w : List Char} (hw : IsWord w) (hcs : cs.dropWhile isSpace = w ++ c :: rest)
    (hc : isSpace c = true) (old : List Char) :
    (⟨cs, b, true⟩ : Istream).readString old = (w, ⟨c :: rest, b, true⟩) := by
  have hne : (w ++ c :: rest).isEmpty = false := by simp
  simp only [readString, sentry, hcs, hne, hw.span hc, Bool.not_false, Bool.and_self, if_true]

theorem readUnsigned_hex (w : Word) (c : Char) (rest : List Char)
    (hcs : cs.dropWhile isSpace = hex w.toNat ++ c :: rest)
    (hc : isSpace c = true) (old : Word) :
    (⟨cs, 16, true⟩ : Istream).readUnsigned old = (w, ⟨c :: rest, 16, true⟩) := by
  have hne : (hex w.toNat ++ c :: rest).isEmpty = false := by simp
  have hread := read_hex w.toNat (ends_space (by decide) hc rest)
  have hlt : ¬ 2 ^ 32 ≤ w.toNat := Nat.not_le.mpr w.isLt
  simp only [readUnsigned, sentry, hcs, hne, hread, Bool.not_false, Bool.and_self, if_true, hlt, if_false,
    Bool.false_eq_true, w.isLt, decide_true, BitVec.ofNat_toNat, BitVec.setWidth_eq]

theorem readUnsigned_decimal (w : Word) (c : Char) (rest : List Char)
    (hcs : cs.dropWhile isSpace = decimal w.toInt ++ c :: rest)
    (hc : isSpace c = true) (old : Word) :
    (⟨cs, 10, true⟩ : Istream).readUnsigned old = (w, ⟨c :: rest, 10, true⟩) := by
  have hne : (decimal w.toInt ++ c :: rest).isEmpty = false := by simp
  have hread := read_decimal w.toInt (ends_space (by decide) hc rest)
  have hlo := w.le_two_mul_toInt
  have hhi := w.two_mul_toInt_lt
  have hlt : w.toInt.natAbs < 2 ^ 32 := by omega
  have hle : ¬ 2 ^ 32 ≤ w.toInt.natAbs := by omega
  have hvalue : (if decide (w.toInt < 0) = true then -BitVec.ofNat 32 w.toInt.natAbs
      else BitVec.ofNat 32 w.toInt.natAbs) = w := by
    have hint : (BitVec.ofInt 32 (signed (decide (w.toInt < 0)) w.toInt.natAbs)) = w := by
      rw [signed_natAbs, BitVec.ofInt_toInt]
    refine Eq.trans ?_ hint
    rw [signed]
    split
    · rw [BitVec.ofInt_neg, BitVec.ofInt_natCast]
    · rw [BitVec.ofInt_natCast]
  simp only [readUnsigned, sentry, hcs, hne, hread, Bool.not_false, Bool.and_self, if_true, hle, if_false,
    hlt, decide_true, hvalue]

theorem readInt_decimal (w : Word) (c : Char) (rest : List Char)
    (hcs : cs.dropWhile isSpace = decimal w.toInt ++ c :: rest)
    (hc : isSpace c = true) (old : Word) :
    (⟨cs, 10, true⟩ : Istream).readInt old = (w, ⟨c :: rest, 10, true⟩) := by
  have hne : (decimal w.toInt ++ c :: rest).isEmpty = false := by simp
  have hread := read_decimal w.toInt (ends_space (by decide) hc rest)
  obtain ⟨hclamp, hint⟩ := clampInt_toInt w
  simp only [readInt, sentry, hcs, hne, hread, Bool.not_false, Bool.and_self, if_true, signed_natAbs,
    hclamp, hint]

end Istream

namespace PatchDatabase

/-- What a line does to the database. -/
def apply (db : PatchDatabase) : Record → PatchDatabase
  | .overflow e => db.addOverflowPatch e
  | .dangle e => db.addDanglePatch e
  | .stat key heads => db.updateStaticInfo key heads.1 heads.2 0

theorem dropWhile_space {w : List Char} (hw : IsWord w) (rest : List Char) :
    (' ' :: (w ++ rest)).dropWhile isSpace = w ++ rest := by
  rw [List.dropWhile_cons_of_pos (by decide), hw.dropWhile]

theorem readRecord_body (uninit : Word) (r : Record) (b : Nat) (rest : List Char) (db : PatchDatabase) :
    readRecord uninit r.type r.site ⟨r.body ++ rest, b, true⟩ db = (⟨'\n' :: rest, 10, true⟩, db.apply r) := by
  cases r with
  | overflow e =>
    have hdelta := Istream.readInt_decimal e.delta '\n' rest
      (dropWhile_space (isWord_decimal _) _) (by decide) uninit
    simp only [readRecord, Record.type, Record.site, Record.body, if_true, Istream.setBase,
      List.cons_append, List.append_assoc, List.nil_append, hdelta, apply]
  | dangle e =>
    have hne : dangleType ≠ overflowType := by decide
    have hfree := Istream.readUnsigned_hex e.freeSite ' ' (decimal e.td.toInt ++ '\n' :: rest)
      (dropWhile_space (isWord_hex _) _) (by decide) uninit
    have htd := Istream.readInt_decimal e.td '\n' rest
      (dropWhile_space (isWord_decimal _) _) (by decide) uninit
    simp only [readRecord, Record.type, Record.site, Record.body, if_true, Istream.setBase, hne, if_false,
      List.cons_append, List.append_assoc, List.nil_append, hfree, htd, apply]
  | stat key heads =>
    have hne : statType ≠ overflowType := by decide
    have hne' : statType ≠ dangleType := by decide
    have hfree := Istream.readUnsigned_hex key.2 ' '
      (decimal heads.1.toInt ++ ' ' :: (decimal heads.2.toInt ++ '\n' :: rest))
      (dropWhile_space (isWord_hex _) _) (by decide) uninit
    have hh := Istream.readUnsigned_decimal heads.1 ' ' (decimal heads.2.toInt ++ '\n' :: rest)
      (dropWhile_space (isWord_decimal _) _) (by decide) uninit
    have ht := Istream.readUnsigned_decimal heads.2 '\n' rest
      (dropWhile_space (isWord_decimal _) _) (by decide) uninit
    simp only [readRecord, Record.type, Record.site, Record.body, if_true, Istream.setBase, hne, hne',
      if_false, List.cons_append, List.append_assoc, List.nil_append, hfree, hh, ht, apply]

theorem readHeader_text {cs : List Char} (type : List Char) (site : Word) (r : Record) (b : Nat)
    (rest : List Char) (hcs : cs.dropWhile isSpace = r.text ++ rest) :
    readHeader type site ⟨cs, b, true⟩ = (r.type, r.site, ⟨r.body ++ rest, 16, true⟩) := by
  have htype : cs.dropWhile isSpace = r.type ++ ' ' :: (hex r.site.toNat ++ (r.body ++ rest)) := by
    rw [hcs, r.text_eq]
    simp only [List.append_assoc, List.cons_append]
  have hstring := Istream.readString_word (b := b) r.isWord_type htype (by decide) type
  obtain ⟨cs', hbody⟩ : ∃ cs', r.body ++ rest = ' ' :: cs' := by
    cases r <;> exact ⟨_, rfl⟩
  have hsite := Istream.readUnsigned_hex r.site ' ' cs'
    (dropWhile_space (isWord_hex _) _) (by decide) site
  rw [hbody] at hstring ⊢
  simp only [readHeader, hstring, Istream.setBase, hsite]

theorem readLoop_header_end {uninit : Word} {type : List Char} {site : Word} {cs : List Char} {b : Nat}
    (hcs : cs.dropWhile isSpace = []) (db : PatchDatabase) :
    let header := readHeader type site ⟨cs, b, true⟩
    readLoop uninit header.1 header.2.1 header.2.2 db = db := by
  have hheader : (readHeader type site ⟨cs, b, true⟩).2.2.good = false := by
    simp [readHeader, Istream.readString, Istream.sentry, Istream.readUnsigned, Istream.setBase, hcs]
  simp only
  rw [readLoop, hheader]
  exact if_neg (by decide)

theorem readLoop_body (uninit : Word) (rs : List Record) (r : Record) (b : Nat) (db : PatchDatabase) :
    readLoop uninit r.type r.site ⟨r.body ++ rs.flatMap Record.text, b, true⟩ db =
      (r :: rs).foldl apply db := by
  induction rs generalizing r b db with
  | nil =>
    rw [readLoop]
    simp only [if_true, List.flatMap_nil, readRecord_body, List.foldl_cons, List.foldl_nil]
    exact readLoop_header_end (by decide) _
  | cons r' rs ih =>
    have hskip : ('\n' :: (r'.text ++ rs.flatMap Record.text)).dropWhile isSpace =
        r'.text ++ rs.flatMap Record.text := by
      rw [List.dropWhile_cons_of_pos (by decide), r'.text_eq, List.append_assoc, r'.isWord_type.dropWhile]
    rw [readLoop]
    simp only [if_true, List.flatMap_cons, readRecord_body, readHeader_text _ _ _ _ _ hskip, ih,
      List.foldl_cons]

theorem readPatch_records (uninit : Word) (rs : List Record) (db : PatchDatabase) :
    readPatch uninit (rs.flatMap Record.text) db = rs.foldl apply db := by
  cases rs with
  | nil =>
    rw [readPatch]
    exact readLoop_header_end rfl db
  | cons r rs =>
    have hskip : (r.text ++ rs.flatMap Record.text).dropWhile isSpace =
        r.text ++ rs.flatMap Record.text := by
      rw [r.text_eq, List.append_assoc, r.isWord_type.dropWhile]
    simp only [readPatch, List.flatMap_cons, Istream.ofFile, readHeader_text _ _ _ _ _ hskip, readLoop_body]

section Maps

variable {κ ν : Type} {cmp : κ → κ → Ordering} [Std.TransCmp cmp] [Std.LawfulEqCmp cmp]

theorem foldl_insert_toList (m : ExtTreeMap κ ν cmp) :
    m.toList.foldl (fun m' entry => m'.insert entry.1 entry.2) ∅ = m := by
  classical
  rw [← ExtTreeMap.ofList_eq_foldl]
  apply ExtTreeMap.ext_getElem?
  intro key
  cases hkey : m[key]? with
  | some v =>
    exact ExtTreeMap.getElem?_ofList_of_mem Std.ReflCmp.compare_self ExtTreeMap.distinct_keys_toList
      (ExtTreeMap.mem_toList_iff_getElem?_eq_some.mpr hkey)
  | none =>
    apply ExtTreeMap.getElem?_ofList_of_contains_eq_false
    rw [List.contains_eq_mem, decide_eq_false_iff_not]
    intro hmem
    obtain ⟨entry, hentry, rfl⟩ := List.mem_map.mp hmem
    have hsome := ExtTreeMap.mem_toList_iff_getElem?_eq_some.mp hentry
    rw [hkey] at hsome
    cases hsome

theorem insert_erase (m : ExtTreeMap κ ν cmp) (key : κ) (v : ν) :
    (m.erase key).insert key v = m.insert key v := by
  apply ExtTreeMap.ext_getElem?
  intro k
  simp only [ExtTreeMap.getElem?_insert, ExtTreeMap.getElem?_erase]
  split <;> rfl

end Maps

variable {db : PatchDatabase}

theorem foldl_overflow (l : List (Word × OverflowElement)) (hl : ∀ entry ∈ l, entry.2.callsite = entry.1)
    (db : PatchDatabase) :
    let db' := (l.map fun entry => Record.overflow entry.2).foldl apply db
    db'.overflowPatches = l.foldl (fun m entry => m.insert entry.1 entry.2) db.overflowPatches ∧
      db'.danglePatches = db.danglePatches ∧ db'.staticInfo = db.staticInfo := by
  induction l generalizing db with
  | nil => exact ⟨rfl, rfl, rfl⟩
  | cons entry l ih =>
    obtain ⟨hoverflow, hdangle, hstat⟩ := ih (fun e he => hl e (List.mem_cons_of_mem _ he))
      (db.addOverflowPatch entry.2)
    refine ⟨hoverflow.trans ?_, hdangle, hstat⟩
    simp only [List.foldl_cons, addOverflowPatch, insert_erase, hl entry List.mem_cons_self]

theorem foldl_dangle (l : List (Sites × DangleElement))
    (hl : ∀ entry ∈ l, (entry.2.allocSite, entry.2.freeSite) = entry.1) (db : PatchDatabase) :
    let db' := (l.map fun entry => Record.dangle entry.2).foldl apply db
    db'.danglePatches = l.foldl (fun m entry => m.insert entry.1 entry.2) db.danglePatches ∧
      db'.overflowPatches = db.overflowPatches ∧ db'.staticInfo = db.staticInfo := by
  induction l generalizing db with
  | nil => exact ⟨rfl, rfl, rfl⟩
  | cons entry l ih =>
    obtain ⟨hdangle, hoverflow, hstat⟩ := ih (fun e he => hl e (List.mem_cons_of_mem _ he))
      (db.addDanglePatch entry.2)
    refine ⟨hdangle.trans ?_, hoverflow, hstat⟩
    simp only [List.foldl_cons, addDanglePatch, insert_erase, hl entry List.mem_cons_self]

theorem foldl_stat (l : List (Sites × Sites))
    (hdistinct : l.Pairwise fun a b => ¬ sitesOrder a.1 b.1 = .eq) (db : PatchDatabase)
    (hnew : ∀ entry ∈ l, entry.1 ∉ db.staticInfo) :
    let db' := (l.map fun entry => Record.stat entry.1 entry.2).foldl apply db
    db'.staticInfo = l.foldl (fun m entry => m.insert entry.1 entry.2) db.staticInfo ∧
      db'.overflowPatches = db.overflowPatches ∧ db'.danglePatches = db.danglePatches := by
  induction l generalizing db with
  | nil => exact ⟨rfl, rfl, rfl⟩
  | cons entry l ih =>
    have hentry : (db.apply (.stat entry.1 entry.2)).staticInfo =
        db.staticInfo.insert entry.1 entry.2 := by
      have hzero : db.staticInfo.getD entry.1 (0, 0) = (0, 0) :=
        ExtTreeMap.getD_eq_fallback (hnew entry List.mem_cons_self)
      simp only [apply, updateStaticInfo, hzero, zero_add]
    have hrest : ∀ e ∈ l, e.1 ∉ (db.apply (.stat entry.1 entry.2)).staticInfo := by
      intro e he
      rw [hentry, ExtTreeMap.mem_insert]
      rintro (heq | hmem)
      · exact (List.pairwise_cons.mp hdistinct).1 e he heq
      · exact hnew e (List.mem_cons_of_mem _ he) hmem
    obtain ⟨hstat, hoverflow, hdangle⟩ := ih (List.pairwise_cons.mp hdistinct).2 _ hrest
    refine ⟨hstat.trans ?_, hoverflow, hdangle⟩
    rw [hentry, List.foldl_cons]

/-- The lines of a database, read into an empty one. -/
theorem foldl_records (db : PatchDatabase) :
    (db.records.foldl apply empty).overflowPatches = db.overflowPatches ∧
      (db.records.foldl apply empty).danglePatches = db.danglePatches ∧
      (db.records.foldl apply empty).staticInfo = db.kept := by
  have hcallsite : ∀ entry ∈ db.overflowPatches.toList, entry.2.callsite = entry.1 := fun entry he =>
    db.callsite_eq _ _ (ExtTreeMap.mem_toList_iff_getElem?_eq_some.mp he)
  have hsites : ∀ entry ∈ db.danglePatches.toList, (entry.2.allocSite, entry.2.freeSite) = entry.1 :=
    fun entry he => db.sites_eq _ _ (ExtTreeMap.mem_toList_iff_getElem?_eq_some.mp he)
  obtain ⟨hoverflow, hdangle, hstat⟩ := foldl_overflow _ hcallsite empty
  simp only [records, List.foldl_append]
  generalize (db.overflowPatches.toList.map fun entry => Record.overflow entry.2).foldl apply empty = db₁
    at hoverflow hdangle hstat ⊢
  obtain ⟨hdangle', hoverflow', hstat'⟩ := foldl_dangle _ hsites db₁
  generalize (db.danglePatches.toList.map fun entry => Record.dangle entry.2).foldl apply db₁ = db₂
    at hdangle' hoverflow' hstat' ⊢
  have hempty : db₂.staticInfo = ∅ := hstat'.trans hstat
  obtain ⟨hstat'', hoverflow'', hdangle''⟩ := foldl_stat db.kept.toList ExtTreeMap.distinct_keys_toList db₂
    (by simp [hempty])
  refine ⟨?_, ?_, ?_⟩
  · rw [hoverflow'', hoverflow', hoverflow]
    exact foldl_insert_toList _
  · rw [hdangle'', hdangle', hdangle]
    exact foldl_insert_toList _
  · rw [hstat'', hempty]
    exact foldl_insert_toList _

/-- What `output_patch` has written, `read_patch` reads back, and it is written again. -/
theorem readPatch_outputPatch (uninit : Word) (db : PatchDatabase) :
    let db' := readPatch uninit db.outputPatch.1 empty
    db'.overflowPatches = db.overflowPatches ∧ db'.danglePatches = db.danglePatches ∧
      (∀ key : Sites, db'.staticInfo[key]? = if key ∈ db.danglePatches then none else db.staticInfo[key]?) ∧
      db'.outputPatch.1 = db.outputPatch.1 := by
  have hfile : readPatch uninit db.outputPatch.1 empty = db.records.foldl apply empty := by
    rw [db.outputPatch_eq, readPatch_records]
  obtain ⟨hoverflow, hdangle, hstat⟩ := foldl_records db
  simp only [hfile]
  generalize db.records.foldl apply empty = db' at hoverflow hdangle hstat ⊢
  have hkept : db'.kept = db.kept := by
    apply ExtTreeMap.ext_getElem?
    intro key
    rw [getElem?_kept, hstat, hdangle, getElem?_kept]
    split <;> rfl
  refine ⟨hoverflow, hdangle, ?_, ?_⟩
  · intro key
    rw [hstat, getElem?_kept]
  · rw [outputPatch_eq, outputPatch_eq, records, records, hoverflow, hdangle, hkept]

end PatchDatabase

end DieHard.Exterminator
