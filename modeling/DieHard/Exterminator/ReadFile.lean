import DieHard.Exterminator.Correct
import DieHard.Exterminator.ReadPatch
import Mathlib.Data.List.TakeWhile

/-!
# The patches that the runtime honours

`PatchInfo::readFile` reads the patch file with one `read` into a buffer of 1024 bytes, takes words out
of the buffer up to the next white space, and stores each patch in the bucket of its hash.
-/

namespace DieHard.Exterminator

open Numeral
open Std (ExtTreeMap)

/-- `get_string_bit(bit, buf, idx)` on `buf` from `idx` on: the string in `bit`, and `buf` from the new
`idx` on. The answer is `none` where it reads beyond `buf`. -/
def getStringBit (buf : List Char) : Option (List Char × List Char) :=
  let word := buf.span fun c => !isSpace c
  let rest := word.2.dropWhile isSpace
  if word.2 = [] ∨ rest = [] then none else some (word.1.takeWhile fun c => c ≠ '\x00', rest)

theorem getStringBit_word {w : List Char} (hw : IsWord w) {c : Char} (hc : isSpace c = true)
    {rest : List Char} (hrest : rest.dropWhile isSpace ≠ []) :
    getStringBit (w ++ c :: rest) = some (w, rest.dropWhile isSpace) := by
  have hnul : w.takeWhile (fun c => decide (c ≠ '\x00')) = w := by
    rw [List.takeWhile_eq_self_iff]
    exact fun d hd => decide_eq_true (hw.not_nul d hd)
  simp only [getStringBit, hw.span hc, List.dropWhile_cons_of_pos hc, hrest, hnul, reduceCtorEq, or_self,
    if_false]

/-- A word ends before a character that is not white space. -/
theorem getStringBit_cases {buf bit rest : List Char} (h : getStringBit buf = some (bit, rest)) :
    ∃ x c rest', buf = x ++ rest ∧ x ≠ [] ∧ rest = c :: rest' ∧ isSpace c = false := by
  simp only [getStringBit, List.span_eq_takeWhile_dropWhile] at h
  split at h
  · cases h
  · rename_i hne
    rw [not_or] at hne
    simp only [Option.some.injEq, Prod.mk.injEq] at h
    obtain ⟨-, rfl⟩ := h
    generalize hword : buf.takeWhile (fun c => !isSpace c) = word
    generalize hafter : buf.dropWhile (fun c => !isSpace c) = after at hne ⊢
    have hbuf : buf = word ++ after := by
      rw [← hword, ← hafter, List.takeWhile_append_dropWhile]
    -- what follows the word begins with white space
    have hspaces : after.takeWhile isSpace ≠ [] := by
      have hhead := List.head?_dropWhile_not (fun c => !isSpace c) buf
      rw [hafter] at hhead
      cases after with
      | nil => exact absurd rfl hne.1
      | cons d after =>
        have hd : isSpace d = true := by simpa using hhead
        simp [hd]
    have hhead := List.head?_dropWhile_not isSpace after
    cases hrest : after.dropWhile isSpace with
    | nil => exact absurd hrest hne.2
    | cons c rest' =>
      rw [hrest] at hhead
      refine ⟨word ++ after.takeWhile isSpace, c, rest', ?_, by simp [hspaces], rfl, by simpa using hhead⟩
      rw [hbuf, List.append_assoc, ← hrest, List.takeWhile_append_dropWhile]

theorem length_of_getStringBit {buf bit rest : List Char} (h : getStringBit buf = some (bit, rest)) :
    rest.length < buf.length := by
  obtain ⟨x, -, -, rfl, hx, -, -⟩ := getStringBit_cases h
  have hpos := List.length_pos_iff.mpr hx
  rw [List.length_append]
  omega

/-- `(unsigned) strtoll(bit, NULL, 16)` -/
def strtoll (bit : List Char) : Word :=
  match Numeral.read 16 bit with
  | none => 0
  | some (negative, n, _) => BitVec.ofInt 32 (max (-2 ^ 63) (min (2 ^ 63 - 1) (signed negative n)))

/-- `strtol(bit, NULL, 10)` -/
def strtol (bit : List Char) : Word :=
  match Numeral.read 10 bit with
  | none => 0
  | some (negative, n, _) => clampInt (signed negative n)

namespace PatchInfo

/-- The words that follow the first word of a line. -/
def readLine (p : PatchInfo) (bit buf : List Char) : Option (List Char × PatchInfo) :=
  if bit = overflowType then do
    let (bit, buf) ← getStringBit buf
    let site := strtoll bit
    let (bit, buf) ← getStringBit buf
    let pad := strtol bit
    some (buf, { p with overflowHash := Function.update p.overflowHash (hash site) pad })
  else if bit = dangleType then do
    let (bit, buf) ← getStringBit buf
    let allocSite := strtoll bit
    let (bit, buf) ← getStringBit buf
    let freeSite := strtoll bit
    let (bit, buf) ← getStringBit buf
    let td := strtol bit
    some (buf, { p with dangleHash := Function.update p.dangleHash (hash (allocSite ^^^ freeSite)) td })
  else if bit = statType then do
    let (_, buf) ← getStringBit buf
    let (_, buf) ← getStringBit buf
    let (_, buf) ← getStringBit buf
    let (_, buf) ← getStringBit buf
    some (buf, p)
  else some (buf, p)

theorem readLine_keeps {Q : List Char → Prop}
    (hQ : ∀ buf bit rest, Q buf → getStringBit buf = some (bit, rest) → Q rest) {p p' : PatchInfo}
    {bit buf buf' : List Char} (h : p.readLine bit buf = some (buf', p')) (hbuf : Q buf) : Q buf' := by
  simp only [readLine] at h
  split at h
  · obtain ⟨⟨bit₁, buf₁⟩, h₁, h⟩ := Option.bind_eq_some_iff.mp h
    obtain ⟨⟨bit₂, buf₂⟩, h₂, h⟩ := Option.bind_eq_some_iff.mp h
    cases h
    exact hQ _ _ _ (hQ _ _ _ hbuf h₁) h₂
  · split at h
    · obtain ⟨⟨bit₁, buf₁⟩, h₁, h⟩ := Option.bind_eq_some_iff.mp h
      obtain ⟨⟨bit₂, buf₂⟩, h₂, h⟩ := Option.bind_eq_some_iff.mp h
      obtain ⟨⟨bit₃, buf₃⟩, h₃, h⟩ := Option.bind_eq_some_iff.mp h
      cases h
      exact hQ _ _ _ (hQ _ _ _ (hQ _ _ _ hbuf h₁) h₂) h₃
    · split at h
      · obtain ⟨⟨bit₁, buf₁⟩, h₁, h⟩ := Option.bind_eq_some_iff.mp h
        obtain ⟨⟨bit₂, buf₂⟩, h₂, h⟩ := Option.bind_eq_some_iff.mp h
        obtain ⟨⟨bit₃, buf₃⟩, h₃, h⟩ := Option.bind_eq_some_iff.mp h
        obtain ⟨⟨bit₄, buf₄⟩, h₄, h⟩ := Option.bind_eq_some_iff.mp h
        cases h
        exact hQ _ _ _ (hQ _ _ _ (hQ _ _ _ (hQ _ _ _ hbuf h₁) h₂) h₃) h₄
      · cases h
        exact hbuf

theorem length_of_readLine {p p' : PatchInfo} {bit buf buf' : List Char}
    (h : p.readLine bit buf = some (buf', p')) : buf'.length ≤ buf.length :=
  readLine_keeps (Q := fun b => b.length ≤ buf.length)
    (fun _ _ _ hle hbit => (length_of_getStringBit hbit).le.trans hle) h (Nat.le_refl _)

/-- The loop of `readFile` on `buf` from `idx` on; the last `tail` bytes are no part of the file. -/
def readLoop (tail : Nat) (buf : List Char) (p : PatchInfo) : Option PatchInfo :=
  if tail < buf.length then
    match _hbit : getStringBit buf with
    | none => none
    | some (bit, buf₁) =>
      match _hline : p.readLine bit buf₁ with
      | none => none
      | some (buf₂, p) => readLoop tail buf₂ p
  else some p
termination_by buf.length
decreasing_by exact (length_of_readLine _hline).trans_lt (length_of_getStringBit _hbit)

theorem readLoop_line {tail : Nat} {buf bit buf₁ buf₂ : List Char} {p p' : PatchInfo}
    (hlt : tail < buf.length) (hbit : getStringBit buf = some (bit, buf₁))
    (hline : p.readLine bit buf₁ = some (buf₂, p')) : p.readLoop tail buf = p'.readLoop tail buf₂ := by
  rw [readLoop, if_pos hlt]
  split
  · rename_i hnone
    cases hnone.symm.trans hbit
  · rename_i hsome
    cases hsome.symm.trans hbit
    split
    · rename_i hnone
      cases hnone.symm.trans hline
    · rename_i hsome'
      cases hsome'.symm.trans hline
      rfl

/-- The bytes of `buf`. -/
def bufferSize : Nat := 1024

/-- What `buf` holds behind a file, where it held `junk` before. -/
def behind (file : List Char) (junk : Nat → Char) : List Char :=
  ((List.range bufferSize).drop file.length).map junk

/-- `readFile` of a file that can be opened. -/
def readFile (p : PatchInfo) (file : List Char) (junk : Nat → Char) : Option PatchInfo :=
  p.readLoop (bufferSize - file.length) (file.take bufferSize ++ behind file junk)

/-- The loop never comes to the end of a buffer that ends with white space behind the file: it reads on
beyond the buffer. -/
theorem readLoop_trapped {g : List Char} (hg : ∀ c ∈ g, isSpace c = true) (pre : List Char)
    (hpre : pre ≠ []) (p : PatchInfo) : p.readLoop g.length (pre ++ g) = none := by
  -- words that end before the end of the buffer leave something of the file
  let Q : List Char → Prop := fun buf => ∃ pre, pre ≠ [] ∧ buf = pre ++ g
  have hQ : ∀ buf bit rest, Q buf → getStringBit buf = some (bit, rest) → Q rest := by
    rintro buf bit rest ⟨pre, -, rfl⟩ hbit
    obtain ⟨x, c, rest', hbuf, -, rfl, hc⟩ := getStringBit_cases hbit
    rcases List.append_eq_append_iff.mp hbuf with ⟨a, rfl, hrest⟩ | ⟨a, rfl, hrest⟩
    · have hmem := hg c (hrest ▸ by simp)
      rw [hc] at hmem
      cases hmem
    · refine ⟨a, ?_, hrest⟩
      rintro rfl
      have hmem := hg c (by rw [← List.nil_append g, ← hrest]; exact List.mem_cons_self)
      rw [hc] at hmem
      cases hmem
  suffices hnone : ∀ n buf p, buf.length ≤ n → Q buf → readLoop g.length buf p = none from
    hnone _ _ p (Nat.le_refl _) ⟨pre, hpre, rfl⟩
  intro n
  induction n with
  | zero =>
    rintro buf p hle ⟨pre, hpre, rfl⟩
    exact absurd (List.length_pos_iff.mpr hpre) (by simp only [List.length_append] at hle; omega)
  | succ n ih =>
    intro buf p hle hbuf
    have hlt : g.length < buf.length := by
      obtain ⟨pre, hpre, rfl⟩ := hbuf
      have hpos := List.length_pos_iff.mpr hpre
      rw [List.length_append]
      omega
    rw [readLoop, if_pos hlt]
    split
    · rfl
    · rename_i bit buf₁ hbit
      split
      · rfl
      · rename_i buf₂ p' hline
        have hshort := length_of_getStringBit hbit
        have hshort' := length_of_readLine hline
        exact ih buf₂ p' (by omega) (readLine_keeps hQ hline (hQ _ _ _ hbuf hbit))

/-- What a line does to the tables. -/
def store (p : PatchInfo) : Record → PatchInfo
  | .overflow e => { p with overflowHash := Function.update p.overflowHash (hash e.callsite) e.delta }
  | .dangle e =>
    { p with dangleHash := Function.update p.dangleHash (hash (e.allocSite ^^^ e.freeSite)) e.td }
  | .stat _ _ => p

theorem strtoll_hex (w : Word) : strtoll (hex w.toNat) = w := by
  have hread : read 16 (hex w.toNat ++ []) = some (false, w.toNat, []) :=
    read_hex w.toNat fun c hc => by cases hc
  rw [List.append_nil] at hread
  have hlt := w.isLt
  have hclamp : max (-2 ^ 63) (min (2 ^ 63 - 1) (w.toNat : Int)) = w.toNat := by omega
  simp only [strtoll, hread, signed, Bool.false_eq_true, if_false, hclamp, BitVec.ofInt_natCast,
    BitVec.ofNat_toNat, BitVec.setWidth_eq]

theorem strtol_decimal (w : Word) : strtol (decimal w.toInt) = w := by
  have hread : read 10 (decimal w.toInt ++ []) = some (decide (w.toInt < 0), w.toInt.natAbs, []) :=
    read_decimal w.toInt fun c hc => by cases hc
  rw [List.append_nil] at hread
  simp only [strtol, hread, signed_natAbs, (clampInt_toInt w).1]

theorem getStringBit_next {w w' : List Char} (hw : IsWord w) (hw' : IsWord w') (rest : List Char) :
    getStringBit (w ++ ' ' :: (w' ++ rest)) = some (w, w' ++ rest) := by
  have hskip := hw'.dropWhile rest
  rw [getStringBit_word hw (by decide), hskip]
  rw [hskip]
  exact fun he => hw'.ne_nil (List.append_eq_nil_iff.mp he).1

/-- The words of a line, with something that is not white space behind it. -/
theorem readLine_text (r : Record) (p : PatchInfo) {rest : List Char} (hrest : rest.dropWhile isSpace ≠ []) :
    ∃ buf, getStringBit (r.text ++ rest) = some (r.type, buf) ∧
      p.readLine r.type buf = some (rest.dropWhile isSpace, p.store r) := by
  refine ⟨hex r.site.toNat ++ (r.body ++ rest), ?_, ?_⟩
  · rw [r.text_eq]
    simp only [List.append_assoc, List.cons_append]
    exact getStringBit_next r.isWord_type (isWord_hex _) _
  cases r with
  | overflow e =>
    have hsite := getStringBit_next (isWord_hex e.callsite.toNat) (isWord_decimal e.delta.toInt)
      ('\n' :: rest)
    have hdelta := getStringBit_word (isWord_decimal e.delta.toInt) (c := '\n') (by decide) hrest
    simp only [readLine, Record.type, Record.site, Record.body, if_true, List.append_assoc,
      List.cons_append, List.nil_append, hsite, hdelta, Option.bind_eq_bind, Option.bind_some, strtoll_hex,
      strtol_decimal, store]
  | dangle e =>
    have hne : dangleType ≠ overflowType := by decide
    have halloc := getStringBit_next (isWord_hex e.allocSite.toNat) (isWord_hex e.freeSite.toNat)
      (' ' :: (decimal e.td.toInt ++ '\n' :: rest))
    have hfree := getStringBit_next (isWord_hex e.freeSite.toNat) (isWord_decimal e.td.toInt)
      ('\n' :: rest)
    have htd := getStringBit_word (isWord_decimal e.td.toInt) (c := '\n') (by decide) hrest
    simp only [readLine, Record.type, Record.site, Record.body, hne, if_true, if_false, List.append_assoc,
      List.cons_append, List.nil_append, halloc, hfree, htd, Option.bind_eq_bind, Option.bind_some,
      strtoll_hex, strtol_decimal, store]
  | stat key heads =>
    have hne : statType ≠ overflowType := by decide
    have hne' : statType ≠ dangleType := by decide
    have halloc := getStringBit_next (isWord_hex key.1.toNat) (isWord_hex key.2.toNat)
      (' ' :: (decimal heads.1.toInt ++ ' ' :: (decimal heads.2.toInt ++ '\n' :: rest)))
    have hfree := getStringBit_next (isWord_hex key.2.toNat) (isWord_decimal heads.1.toInt)
      (' ' :: (decimal heads.2.toInt ++ '\n' :: rest))
    have hh := getStringBit_next (isWord_decimal heads.1.toInt) (isWord_decimal heads.2.toInt)
      ('\n' :: rest)
    have ht := getStringBit_word (isWord_decimal heads.2.toInt) (c := '\n') (by decide) hrest
    simp only [readLine, Record.type, Record.site, Record.body, hne, hne', if_true, if_false,
      List.append_assoc, List.cons_append, List.nil_append, halloc, hfree, hh, ht, Option.bind_eq_bind,
      Option.bind_some, store]

theorem text_ne_nil (r : Record) : r.text ≠ [] := by
  rw [r.text_eq]
  exact fun he => r.isWord_type.ne_nil (List.append_eq_nil_iff.mp he).1

theorem dropWhile_text (r : Record) (rest : List Char) :
    (r.text ++ rest).dropWhile isSpace = r.text ++ rest := by
  rw [r.text_eq, List.append_assoc, r.isWord_type.dropWhile]

/-- The loop takes all lines if something that is not white space is behind them. -/
theorem readLoop_records {g : List Char} (hg : g.dropWhile isSpace ≠ []) (rs : List Record)
    (p : PatchInfo) : p.readLoop g.length (rs.flatMap Record.text ++ g) = some (rs.foldl store p) := by
  induction rs generalizing p with
  | nil =>
    rw [readLoop]
    exact if_neg (Nat.lt_irrefl _)
  | cons r rs ih =>
    have hskip : ∃ buf, (rs.flatMap Record.text ++ g).dropWhile isSpace = buf ∧ buf ≠ [] ∧
        ∀ p : PatchInfo, p.readLoop g.length buf = p.readLoop g.length (rs.flatMap Record.text ++ g) := by
      cases rs with
      | nil =>
        refine ⟨_, rfl, hg, ?_⟩
        intro p
        have hle := (List.dropWhile_sublist (p := isSpace) (l := g)).length_le
        rw [List.flatMap_nil, List.nil_append, readLoop, readLoop, if_neg (Nat.not_lt.mpr hle),
          if_neg (Nat.lt_irrefl _)]
      | cons r' rs =>
        rw [List.flatMap_cons, List.append_assoc, dropWhile_text]
        exact ⟨_, rfl, fun he => text_ne_nil r' (List.append_eq_nil_iff.mp he).1, fun _ => rfl⟩
    obtain ⟨buf, hbuf, hne, hloop⟩ := hskip
    have hskipped : (rs.flatMap Record.text ++ g).dropWhile isSpace ≠ [] := hbuf ▸ hne
    obtain ⟨buf₁, hbit, hline⟩ := readLine_text r p hskipped
    have hlt : g.length < (r.text ++ (rs.flatMap Record.text ++ g)).length := by
      have hpos := List.length_pos_iff.mpr (text_ne_nil r)
      simp only [List.length_append]
      omega
    rw [List.flatMap_cons, List.append_assoc, readLoop_line hlt hbit hline, hbuf, hloop, ih,
      List.foldl_cons]

def Readable (file : List Char) (junk : Nat → Char) : Prop :=
  file = [] ∨ ∃ i, file.length ≤ i ∧ i < bufferSize ∧ isSpace (junk i) = false

theorem length_behind (file : List Char) (junk : Nat → Char) :
    (behind file junk).length = bufferSize - file.length := by
  rw [behind, List.length_map, List.length_drop, List.length_range]

theorem mem_behind {file : List Char} {junk : Nat → Char} {c : Char} :
    c ∈ behind file junk ↔ ∃ i, file.length ≤ i ∧ i < bufferSize ∧ junk i = c := by
  simp only [behind, List.mem_map, List.mem_drop_iff_getElem, List.getElem_range, List.length_range]
  constructor
  · rintro ⟨_, ⟨i, hi, rfl⟩, rfl⟩
    exact ⟨i + file.length, Nat.le_add_left _ _, by omega, by rw [Nat.add_comm]⟩
  · rintro ⟨i, hle, hlt, rfl⟩
    exact ⟨i, ⟨i - file.length, by omega, by omega⟩, rfl⟩

/-- `readFile` stays within its buffer if and only if the file is readable, and then it takes all lines. -/
theorem readFile_records (rs : List Record) (junk : Nat → Char) (p p' : PatchInfo) :
    p.readFile (rs.flatMap Record.text) junk = some p' ↔
      Readable (rs.flatMap Record.text) junk ∧ p' = rs.foldl store p := by
  have hlength := length_behind (rs.flatMap Record.text) junk
  by_cases hempty : rs = []
  · subst hempty
    have hloop : p.readFile ([].flatMap Record.text) junk = some p := by
      rw [readFile, readLoop]
      refine if_neg ?_
      simp only [List.flatMap_nil, List.take_nil, List.nil_append] at hlength ⊢
      omega
    rw [hloop, Option.some.injEq]
    exact ⟨fun he => ⟨Or.inl rfl, he.symm⟩, fun he => he.2.symm⟩
  have hne : rs.flatMap Record.text ≠ [] := by
    obtain ⟨r, rs, rfl⟩ := List.exists_cons_of_ne_nil hempty
    exact fun he => text_ne_nil r (List.append_eq_nil_iff.mp he).1
  by_cases hread : ∃ i, (rs.flatMap Record.text).length ≤ i ∧ i < bufferSize ∧ isSpace (junk i) = false
  · have hend : (behind (rs.flatMap Record.text) junk).dropWhile isSpace ≠ [] := by
      obtain ⟨i, hle, hlt, hi⟩ := hread
      intro hall
      have hspace := List.dropWhile_eq_nil_iff.mp hall _ (mem_behind.mpr ⟨i, hle, hlt, rfl⟩)
      rw [hi] at hspace
      cases hspace
    have hshort : (rs.flatMap Record.text).take bufferSize = rs.flatMap Record.text := by
      obtain ⟨i, hle, hlt, -⟩ := hread
      exact List.take_of_length_le (by omega)
    rw [readFile, hshort, ← hlength, readLoop_records hend, Option.some.injEq]
    exact ⟨fun he => ⟨Or.inr hread, he.symm⟩, fun he => he.2.symm⟩
  · have hspaces : ∀ c ∈ behind (rs.flatMap Record.text) junk, isSpace c = true := by
      intro c hc
      obtain ⟨i, hle, hlt, rfl⟩ := mem_behind.mp hc
      by_contra hi
      exact hread ⟨i, hle, hlt, by simpa using hi⟩
    have hpre : (rs.flatMap Record.text).take bufferSize ≠ [] := by
      simp [hne, bufferSize]
    rw [readFile, ← hlength, readLoop_trapped hspaces _ hpre]
    constructor
    · intro he
      cases he
    · rintro ⟨he | he, -⟩
      · exact absurd he hne
      · exact absurd he hread

section Buckets

variable {ε : Type} {bucket : ε → Nat} {value : ε → Word}

def stored (bucket : ε → Nat) (value : ε → Word) (l : List ε) (table : Nat → Word) : Nat → Word :=
  l.foldl (fun table x => Function.update table (bucket x) (value x)) table

/-- `x` is the last entry of its bucket. -/
def IsLast (bucket : ε → Nat) (l : List ε) (x : ε) : Prop :=
  ∃ l₁ l₂, l = l₁ ++ x :: l₂ ∧ ∀ y ∈ l₂, bucket y ≠ bucket x

theorem stored_of_ne (l : List ε) (table : Nat → Word) {i : Nat} (h : ∀ y ∈ l, bucket y ≠ i) :
    stored bucket value l table i = table i := by
  induction l generalizing table with
  | nil => rfl
  | cons x l ih =>
    have hx := h x List.mem_cons_self
    rw [stored, List.foldl_cons, ← stored, ih _ fun y hy => h y (List.mem_cons_of_mem _ hy),
      Function.update_of_ne (Ne.symm hx)]

theorem IsLast.stored {l : List ε} {x : ε} (h : IsLast bucket l x) (value : ε → Word)
    (table : Nat → Word) : stored bucket value l table (bucket x) = value x := by
  obtain ⟨l₁, l₂, rfl, hl₂⟩ := h
  rw [PatchInfo.stored, List.foldl_append, List.foldl_cons, ← PatchInfo.stored, stored_of_ne _ _ hl₂,
    Function.update_self]

theorem exists_isLast (bucket : ε → Nat) {l : List ε} {x : ε} (hx : x ∈ l) :
    ∃ y ∈ l, IsLast bucket l y ∧ bucket y = bucket x := by
  induction l generalizing x with
  | nil => cases hx
  | cons z l ih =>
    by_cases hlater : ∃ y ∈ l, bucket y = bucket x
    · obtain ⟨y, hy, hyx⟩ := hlater
      obtain ⟨w, hw, ⟨l₁, l₂, rfl, hl₂⟩, hwy⟩ := ih hy
      exact ⟨w, List.mem_cons_of_mem _ hw, ⟨z :: l₁, l₂, rfl, hl₂⟩, hwy.trans hyx⟩
    · obtain rfl : x = z := by
        rcases List.mem_cons.mp hx with rfl | hx
        · rfl
        · exact absurd ⟨x, hx, rfl⟩ hlater
      exact ⟨x, hx, ⟨[], l, rfl, fun y hy he => hlater ⟨y, hy, he⟩⟩, rfl⟩

end Buckets

section Maps

variable {κ ε : Type} {cmp : κ → κ → Ordering} [Std.TransCmp cmp] [Std.LawfulEqCmp cmp]

def LastIsLargest (m : ExtTreeMap κ ε cmp) (bucket : κ → Nat) (value : ε → Word) : Prop :=
  ∀ (key key' : κ) (e e' : ε), m[key]? = some e → m[key']? = some e' → bucket key = bucket key' →
    (∀ key'' ∈ m, bucket key'' = bucket key' → (cmp key'' key').isLE) → value e ≤ value e'

variable {m : ExtTreeMap κ ε cmp} {bucket : κ → Nat} {value : ε → Word}

/-- The last entry of a bucket has its largest key. -/
theorem isLast_toList_iff {x : κ × ε} (hx : x ∈ m.toList) :
    IsLast (fun x => bucket x.1) m.toList x ↔
      ∀ key ∈ m, bucket key = bucket x.1 → (cmp key x.1).isLE := by
  have hordered := m.ordered_keys_toList
  constructor
  · rintro ⟨l₁, l₂, hl, hl₂⟩ key hkey hbucket
    obtain ⟨e, he⟩ := Option.isSome_iff_exists.mp (ExtTreeMap.isSome_getElem?_iff_mem.mpr hkey)
    have hmem := ExtTreeMap.mem_toList_iff_getElem?_eq_some.mpr he
    rw [hl] at hmem hordered
    rcases List.mem_append.mp hmem with h₁ | h₂
    · exact Ordering.isLE_of_eq_lt ((List.pairwise_append.mp hordered).2.2 _ h₁ _ List.mem_cons_self)
    · rcases List.mem_cons.mp h₂ with rfl | h₂
      · exact Ordering.isLE_of_eq_eq Std.ReflCmp.compare_self
      · exact absurd hbucket (hl₂ _ h₂)
  · intro hlast
    obtain ⟨l₁, l₂, hl⟩ := List.append_of_mem hx
    refine ⟨l₁, l₂, hl, ?_⟩
    intro y hy hbucket
    have hmem : y ∈ m.toList := by
      rw [hl]
      exact List.mem_append_right _ (List.mem_cons_of_mem _ hy)
    have hsome : m[y.1]? = some y.2 := ExtTreeMap.mem_toList_iff_getElem?_eq_some.mp hmem
    have hkey : y.1 ∈ m := ExtTreeMap.mem_iff_isSome_getElem?.mpr (by rw [hsome]; rfl)
    have hle := hlast y.1 hkey hbucket
    rw [hl] at hordered
    have hlt := (List.pairwise_cons.mp (List.pairwise_append.mp hordered).2.1).1 y hy
    rw [Std.OrientedCmp.gt_of_lt hlt] at hle
    cases hle

theorem stored_le_iff (bucket : κ → Nat) (value : ε → Word) (table : Nat → Word) :
    (∀ (key : κ) (e : ε), m[key]? = some e →
      value e ≤ stored (fun x => bucket x.1) (fun x => value x.2) m.toList table (bucket key)) ↔
      LastIsLargest m bucket value := by
  constructor
  · intro hstored key key' e e' he he' hbucket hlast
    have hlast' : IsLast (fun x => bucket x.1) m.toList (key', e') :=
      (isLast_toList_iff (ExtTreeMap.mem_toList_iff_getElem?_eq_some.mpr he')).mpr hlast
    have hle := hstored key e he
    rwa [hbucket, hlast'.stored _ table] at hle
  · intro hlargest key e he
    obtain ⟨⟨key', e'⟩, hmem, hlast, hbucket⟩ := exists_isLast (fun x : κ × ε => bucket x.1)
      (ExtTreeMap.mem_toList_iff_getElem?_eq_some.mpr he)
    have hvalue := hlast.stored (fun x : κ × ε => value x.2) table
    rw [show bucket key = bucket key' from hbucket.symm, hvalue]
    exact hlargest key key' e e' he (ExtTreeMap.mem_toList_iff_getElem?_eq_some.mp hmem) hbucket.symm
      ((isLast_toList_iff hmem).mp hlast)

end Maps

theorem foldl_store_overflow (l : List (Word × OverflowElement))
    (hl : ∀ entry ∈ l, entry.2.callsite = entry.1) (p : PatchInfo) :
    (l.map fun entry => Record.overflow entry.2).foldl store p =
      { p with overflowHash := stored (fun x => hash x.1) (fun x => x.2.delta) l p.overflowHash } := by
  induction l generalizing p with
  | nil => rfl
  | cons entry l ih =>
    rw [List.map_cons, List.foldl_cons, ih fun e he => hl e (List.mem_cons_of_mem _ he)]
    simp only [store, hl entry List.mem_cons_self, stored, List.foldl_cons]

theorem foldl_store_dangle (l : List (Sites × DangleElement))
    (hl : ∀ entry ∈ l, (entry.2.allocSite, entry.2.freeSite) = entry.1) (p : PatchInfo) :
    (l.map fun entry => Record.dangle entry.2).foldl store p =
      { p with dangleHash := stored (fun x => hash (x.1.1 ^^^ x.1.2)) (fun x => x.2.td) l p.dangleHash } := by
  induction l generalizing p with
  | nil => rfl
  | cons entry l ih =>
    have hsites := hl entry List.mem_cons_self
    rw [List.map_cons, List.foldl_cons, ih fun e he => hl e (List.mem_cons_of_mem _ he)]
    simp only [store, ← hsites, stored, List.foldl_cons]

theorem foldl_store_stat (l : List (Sites × Sites)) (p : PatchInfo) :
    (l.map fun entry => Record.stat entry.1 entry.2).foldl store p = p := by
  induction l generalizing p with
  | nil => rfl
  | cons entry l ih => exact ih p

theorem foldl_store_records (db : PatchDatabase) (p : PatchInfo) :
    db.records.foldl store p =
      ⟨stored (fun x => hash x.1) (fun x => x.2.delta) db.overflowPatches.toList p.overflowHash,
        stored (fun x => hash (x.1.1 ^^^ x.1.2)) (fun x => x.2.td) db.danglePatches.toList p.dangleHash⟩ := by
  have hcallsite : ∀ entry ∈ db.overflowPatches.toList, entry.2.callsite = entry.1 := fun entry he =>
    db.callsite_eq _ _ (ExtTreeMap.mem_toList_iff_getElem?_eq_some.mp he)
  have hsites : ∀ entry ∈ db.danglePatches.toList, (entry.2.allocSite, entry.2.freeSite) = entry.1 :=
    fun entry he => db.sites_eq _ _ (ExtTreeMap.mem_toList_iff_getElem?_eq_some.mp he)
  rw [PatchDatabase.records, List.foldl_append, List.foldl_append, foldl_store_overflow _ hcallsite,
    foldl_store_dangle _ hsites, foldl_store_stat]

/-- The runtime reads the file of the database and honours every patch; the numbers are compared as
`size_t`. -/
def Honours (p : PatchInfo) (db : PatchDatabase) (junk : Nat → Char) : Prop :=
  ∃ p', p.readFile db.outputPatch.1 junk = some p' ∧
    (∀ (site : Word) (e : OverflowElement), db.overflowPatches[site]? = some e →
      e.delta ≤ p'.getPadding site) ∧
    ∀ (key : Sites) (e : DangleElement), db.danglePatches[key]? = some e →
      e.td ≤ p'.getLifeExtension key.1 key.2

theorem honours_cases {p : PatchInfo} {db : PatchDatabase} {junk : Nat → Char} :
    Honours p db junk ↔ Readable db.outputPatch.1 junk ∧
      (∀ (site : Word) (e : OverflowElement), db.overflowPatches[site]? = some e →
        e.delta ≤ stored (fun x => hash x.1) (fun x => x.2.delta) db.overflowPatches.toList p.overflowHash
          (hash site)) ∧
      ∀ (key : Sites) (e : DangleElement), db.danglePatches[key]? = some e →
        e.td ≤ stored (fun x => hash (x.1.1 ^^^ x.1.2)) (fun x => x.2.td) db.danglePatches.toList
          p.dangleHash (hash (key.1 ^^^ key.2)) := by
  rw [Honours, db.outputPatch_eq]
  simp only [readFile_records, foldl_store_records]
  constructor
  · rintro ⟨_, ⟨hread, rfl⟩, hkept⟩
    exact ⟨hread, hkept⟩
  · rintro ⟨hread, hkept⟩
    exact ⟨_, ⟨hread, rfl⟩, hkept⟩

/-- Every patch is honoured if and only if the file can be read to its end and no patch is larger than
the last one of its bucket. -/
theorem honours_iff (p : PatchInfo) (db : PatchDatabase) (junk : Nat → Char) :
    Honours p db junk ↔ Readable db.outputPatch.1 junk ∧
      LastIsLargest db.overflowPatches hash OverflowElement.delta ∧
      LastIsLargest db.danglePatches (fun key => hash (key.1 ^^^ key.2)) DangleElement.td := by
  rw [honours_cases]
  refine and_congr_right fun _ => and_congr ?_ ?_
  · exact stored_le_iff hash OverflowElement.delta p.overflowHash
  · exact stored_le_iff (fun key : Sites => hash (key.1 ^^^ key.2)) DangleElement.td p.dangleHash

def twoSites : PatchDatabase :=
  (PatchDatabase.empty.addOverflowPatch ⟨1, 8⟩).addOverflowPatch ⟨1022, 4⟩

/-- The padding of site 1 is lost. -/
theorem not_honours_twoSites : ¬ ∀ (p : PatchInfo) (db : PatchDatabase) (junk : Nat → Char),
    Honours p db junk := by
  intro h
  have hkept := (honours_cases.mp (h ⟨fun _ => 0, fun _ => 0⟩ twoSites fun _ => '\x00')).2.1
  have hlargest := (stored_le_iff hash OverflowElement.delta _).mp hkept
  have hsites (site : Word) : twoSites.overflowPatches[site]? =
      if 1022 = site then some ⟨1022, 4⟩ else if 1 = site then some ⟨1, 8⟩ else none := by
    rw [twoSites, PatchDatabase.getElem?_addOverflowPatch, PatchDatabase.getElem?_addOverflowPatch]
    simp only [PatchDatabase.empty, ExtTreeMap.getElem?_empty]
  have hle := hlargest 1 1022 ⟨1, 8⟩ ⟨1022, 4⟩ (by rw [hsites]; decide) (by rw [hsites]; decide) rfl ?_
  · exact absurd hle (by decide)
  · intro key hkey _
    have hsome := ExtTreeMap.mem_iff_isSome_getElem?.mp hkey
    rw [hsites] at hsome
    split at hsome
    · rename_i hkey
      subst hkey
      decide
    · split at hsome
      · rename_i hkey
        subst hkey
        decide
      · cases hsome

end PatchInfo

end DieHard.Exterminator
