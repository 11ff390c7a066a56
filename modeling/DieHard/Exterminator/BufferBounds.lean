import DieHard.Exterminator.ReadFile

/-!
# The bounds of the buffer

`readFile` keeps the index at which it stands in the buffer, and looks at it only before the first word of a
line. `get_string_bit` stops at a byte that is not white space, and behind the last word there is none among
the bytes that have been read.
-/

namespace DieHard.Exterminator

open Numeral

/-- The bytes of `bit`. -/
def bitSize : Nat := 1024

/-- The loop of `get_string_bit` that copies a word. The answer is `none` where it reads a byte that has not
been read from the file, or writes behind `bit`. -/
def copyWord (buf : List Char) (i idx : Nat) : Option (Nat × Nat) :=
  match _h : buf[idx]? with
  | none => none
  | some c =>
    if isSpace c then some (i, idx)
    else if i < bitSize then copyWord buf (i + 1) (idx + 1)
    else none
termination_by buf.length - idx
decreasing_by
  have hlt := (List.getElem?_eq_some_iff.mp _h).1
  omega

/-- The loop that skips white space. -/
def skipSpaces (buf : List Char) (idx : Nat) : Option Nat :=
  match _h : buf[idx]? with
  | none => none
  | some c => if isSpace c then skipSpaces buf (idx + 1) else some idx
termination_by buf.length - idx
decreasing_by
  have hlt := (List.getElem?_eq_some_iff.mp _h).1
  omega

/-- `get_string_bit(bit, buf, idx)`: the string in `bit` and the new `idx`. -/
def getStringBitAt (buf : List Char) (idx : Nat) : Option (List Char × Nat) := do
  let (i, idx') ← copyWord buf 0 idx
  -- the end of the string
  if bitSize ≤ i then none
  else
    let idx'' ← skipSpaces buf idx'
    some (((buf.drop idx).take i).takeWhile fun c => c ≠ '\x00', idx'')

variable {buf bit : List Char} {c : Char} {i idx : Nat}

theorem drop_of_getElem? (h : buf[idx]? = some c) : buf.drop idx = c :: buf.drop (idx + 1) := by
  obtain ⟨hlt, hc⟩ := List.getElem?_eq_some_iff.mp h
  rw [List.drop_eq_getElem_cons hlt, hc]

theorem copyWord_eq (hlen : buf.length ≤ bitSize) (hi : i ≤ idx) : copyWord buf i idx =
    let word := (buf.drop idx).span fun c => !isSpace c
    if word.2 = [] then none else some (i + word.1.length, idx + word.1.length) := by
  simp only [List.span_eq_takeWhile_dropWhile]
  fun_induction copyWord buf i idx with
  | case1 i idx h =>
    rw [List.getElem?_eq_none_iff] at h
    simp [List.drop_eq_nil_of_le h]
  | case2 i idx c h hspace =>
    rw [drop_of_getElem? h]
    simp [hspace]
  | case3 i idx c h hword hfits ih =>
    rw [drop_of_getElem? h, ih (by omega)]
    simp [hword, Nat.add_assoc, Nat.add_comm 1]
  | case4 i idx c h hword hfull =>
    have hlt := (List.getElem?_eq_some_iff.mp h).1
    omega

theorem skipSpaces_eq (buf : List Char) (idx : Nat) : skipSpaces buf idx =
    let rest := (buf.drop idx).dropWhile isSpace
    if rest = [] then none else some (buf.length - rest.length) := by
  fun_induction skipSpaces buf idx with
  | case1 idx h =>
    rw [List.getElem?_eq_none_iff] at h
    simp [List.drop_eq_nil_of_le h]
  | case2 idx c h hspace ih =>
    rw [drop_of_getElem? h, ih]
    simp [hspace]
  | case3 idx c h hword =>
    have hlt := (List.getElem?_eq_some_iff.mp h).1
    have hidx : idx = buf.length - (buf.length - (idx + 1) + 1) := by omega
    rw [drop_of_getElem? h]
    simpa [hword] using hidx

/-- The word is copied and what is left of the buffer is what `getStringBit` leaves. -/
theorem getStringBit_drop (hlen : buf.length ≤ bitSize) (idx : Nat) : getStringBit (buf.drop idx) =
    (getStringBitAt buf idx).map fun r => (r.1, buf.drop r.2) := by
  simp only [getStringBit, getStringBitAt, copyWord_eq hlen (Nat.zero_le idx), skipSpaces_eq,
    List.span_eq_takeWhile_dropWhile, Nat.zero_add]
  generalize hword : (buf.drop idx).takeWhile (fun c => !isSpace c) = word
  generalize hafter : (buf.drop idx).dropWhile (fun c => !isSpace c) = after
  have hsplit : buf.drop idx = word ++ after := by
    rw [← hword, ← hafter, List.takeWhile_append_dropWhile]
  by_cases hend : after = []
  · simp [hend]
  have hfits : ¬ bitSize ≤ word.length := by
    have hpos := List.length_pos_iff.mpr hend
    have hlength := congrArg List.length hsplit
    rw [List.length_drop, List.length_append] at hlength
    omega
  have htake : (buf.drop idx).take word.length = word := by
    rw [hsplit, List.take_left]
  have hdrop : buf.drop (idx + word.length) = after := by
    rw [← List.drop_drop, hsplit, List.drop_left]
  have hsuffix : after.dropWhile isSpace <:+ buf :=
    (List.dropWhile_suffix _).trans (hdrop ▸ List.drop_suffix _ _)
  have hrest : buf.drop (buf.length - (after.dropWhile isSpace).length) = after.dropWhile isSpace :=
    (List.suffix_iff_eq_drop.mp hsuffix).symm
  simp only [hend, if_false, false_or, Option.bind_eq_bind, Option.bind_some, hfits, htake, hdrop]
  split
  · rfl
  · simp [hrest]

theorem lt_of_getStringBitAt (hlen : buf.length ≤ bitSize) (h : getStringBitAt buf idx = some (bit, i)) :
    idx < i ∧ i < buf.length := by
  have hstring := getStringBit_drop hlen idx
  rw [h, Option.map_some] at hstring
  have hshort := length_of_getStringBit hstring
  obtain ⟨-, c, rest, -, -, hrest, -⟩ := getStringBit_cases hstring
  have hlength := congrArg List.length hrest
  simp only [List.length_drop, List.length_cons] at hshort hlength
  omega

namespace PatchInfo

/-- The words that follow the first word of a line. -/
def readLineAt (p : PatchInfo) (bit buf : List Char) (idx : Nat) : Option (Nat × PatchInfo) :=
  if bit = overflowType then do
    let (bit, idx) ← getStringBitAt buf idx
    let site := strtoll bit
    let (bit, idx) ← getStringBitAt buf idx
    let pad := strtol bit
    some (idx, { p with overflowHash := Function.update p.overflowHash (hash site) pad })
  else if bit = dangleType then do
    let (bit, idx) ← getStringBitAt buf idx
    let allocSite := strtoll bit
    let (bit, idx) ← getStringBitAt buf idx
    let freeSite := strtoll bit
    let (bit, idx) ← getStringBitAt buf idx
    let td := strtol bit
    some (idx, { p with dangleHash := Function.update p.dangleHash (hash (allocSite ^^^ freeSite)) td })
  else if bit = statType then do
    let (_, idx) ← getStringBitAt buf idx
    let (_, idx) ← getStringBitAt buf idx
    let (_, idx) ← getStringBitAt buf idx
    let (_, idx) ← getStringBitAt buf idx
    some (idx, p)
  else some (idx, p)

theorem readLine_drop (hlen : buf.length ≤ bitSize) (p : PatchInfo) (bit : List Char) (idx : Nat) :
    p.readLine bit (buf.drop idx) = (p.readLineAt bit buf idx).map fun r => (buf.drop r.1, r.2) := by
  have hbind {α : Type} (idx : Nat) (f : List Char × List Char → Option α) :
      (getStringBit (buf.drop idx)).bind f =
        (getStringBitAt buf idx).bind fun r => f (r.1, buf.drop r.2) := by
    rw [getStringBit_drop hlen, Option.bind_map]
    rfl
  simp only [readLine, readLineAt, Option.bind_eq_bind, hbind]
  split
  · simp [Option.map_bind]
  · split
    · simp [Option.map_bind]
    · split
      · simp [Option.map_bind]
      · rfl

theorem sub_le_of_readLineAt (hlen : buf.length ≤ bitSize) {p p' : PatchInfo} {i' : Nat}
    (h : p.readLineAt bit buf i = some (i', p')) : buf.length - i' ≤ buf.length - i := by
  have hline := readLine_drop hlen p bit i
  rw [h, Option.map_some] at hline
  have hle := length_of_readLine hline
  rwa [List.length_drop, List.length_drop] at hle

/-- The bytes that one `read` puts into `buf`. -/
abbrev Bytes := {buf : List Char // buf.length ≤ bufferSize}

def Bytes.ofFile (file : List Char) : Bytes := ⟨file.take bufferSize, List.length_take_le _ _⟩

/-- The loop of `readFile` from `idx` on. -/
def readLoopAt (buf : Bytes) (idx : Nat) (p : PatchInfo) : Option PatchInfo :=
  if idx < buf.1.length then
    match _hbit : getStringBitAt buf.1 idx with
    | none => none
    | some (bit, idx₁) =>
      match _hline : p.readLineAt bit buf.1 idx₁ with
      | none => none
      | some (idx₂, p) => readLoopAt buf idx₂ p
  else some p
termination_by buf.1.length - idx
decreasing_by
  have hlt := lt_of_getStringBitAt buf.2 _hbit
  have hle := sub_le_of_readLineAt buf.2 _hline
  omega

/-- `readFile` of a file that can be opened. The answer is `none` where it reads a byte of `buf` that `read`
has not put there, or writes behind `bit`. -/
def readFileAt (p : PatchInfo) (file : List Char) : Option PatchInfo := readLoopAt (.ofFile file) 0 p

/-- `readFile` returns, and stays inside of the bytes that it has read and of `bit`. -/
def InBounds (p : PatchInfo) (file : List Char) : Prop := (p.readFileAt file).isSome

/-- The loop on the bytes of the file alone. -/
theorem readLoopAt_eq (buf : Bytes) (idx : Nat) (p : PatchInfo) :
    readLoopAt buf idx p = p.readLoop 0 (buf.1.drop idx) := by
  fun_induction readLoopAt buf idx p with
  | case1 idx p hlt hbit =>
    have hstring := getStringBit_drop buf.2 idx
    rw [hbit, Option.map_none] at hstring
    rw [readLoop, if_pos (by rw [List.length_drop]; omega)]
    split
    · rfl
    · rename_i hsome
      cases hsome.symm.trans hstring
  | case2 idx p hlt bit idx₁ hbit hline =>
    have hstring := getStringBit_drop buf.2 idx
    have hwords := readLine_drop buf.2 p bit idx₁
    rw [hbit, Option.map_some] at hstring
    rw [hline, Option.map_none] at hwords
    rw [readLoop, if_pos (by rw [List.length_drop]; omega)]
    split
    · rfl
    · rename_i hsome
      cases hsome.symm.trans hstring
      split
      · rfl
      · rename_i hsome'
        cases hsome'.symm.trans hwords
  | case3 idx p hlt bit idx₁ hbit idx₂ p' hline ih =>
    have hstring := getStringBit_drop buf.2 idx
    have hwords := readLine_drop buf.2 p bit idx₁
    rw [hbit, Option.map_some] at hstring
    rw [hline, Option.map_some] at hwords
    rw [ih, readLoop_line (by rw [List.length_drop]; omega) hstring hwords]
  | case4 idx p hge =>
    rw [readLoop, if_neg (by rw [List.length_drop]; omega)]

theorem readFileAt_of_ne_nil (p : PatchInfo) {file : List Char} (hne : file ≠ []) :
    p.readFileAt file = none := by
  have htake : file.take bufferSize ≠ [] := by
    simp [hne, bufferSize]
  rw [readFileAt, readLoopAt_eq, List.drop_zero, Bytes.ofFile]
  have htrapped := readLoop_trapped (g := []) (by simp) _ htake p
  rwa [List.append_nil] at htrapped

/-- `readFile` stays in its bounds for the empty file only. -/
theorem inBounds_iff_nil (p : PatchInfo) (file : List Char) : InBounds p file ↔ file = [] := by
  constructor
  · intro h
    by_contra hne
    rw [InBounds, readFileAt_of_ne_nil p hne] at h
    cases h
  · intro h
    subst h
    rw [InBounds, readFileAt, readLoopAt]
    rfl

def onePatch : List Char := (OverflowElement.mk 1 8).write

theorem not_inBounds_onePatch : ¬ ∀ p file, InBounds p file := by
  intro h
  have hsome := h ⟨fun _ => 0, fun _ => 0⟩ onePatch
  rw [InBounds, readFileAt_of_ne_nil _ (by decide)] at hsome
  cases hsome

end PatchInfo

end DieHard.Exterminator
