import Mathlib.Tactic

/-!
# Numbers as text

Numbers are written in a base up to 16 and read back. A reader takes an optional sign, the prefix `0x`
in base 16, and as many digits as there are.
-/

namespace Numeral

/-- The value of a digit, with letters of both cases. -/
def digitValue (c : Char) : Nat :=
  if c.isDigit then c.toNat - '0'.toNat
  else if 'a' ≤ c ∧ c ≤ 'z' then c.toNat - 'a'.toNat + 10
  else if 'A' ≤ c ∧ c ≤ 'Z' then c.toNat - 'A'.toNat + 10
  else 36

def isDigit (base : Nat) (c : Char) : Bool := digitValue c < base

def ofDigits (base : Nat) (cs : List Char) : Nat := cs.foldl (fun n c => base * n + digitValue c) 0

variable {base : Nat}

theorem digitValue_digitChar {d : Nat} (hd : d < 16) : digitValue d.digitChar = d := by
  revert hd
  revert d
  decide

theorem ofDigits_append (base : Nat) (cs : List Char) (c : Char) :
    ofDigits base (cs ++ [c]) = base * ofDigits base cs + digitValue c := by
  simp only [ofDigits, List.foldl_append, List.foldl_cons, List.foldl_nil]

section ToDigits

variable (hb : 1 < base) (hmax : base ≤ 16)
include hb hmax

theorem ofDigits_toDigits (n : Nat) : ofDigits base (Nat.toDigits base n) = n := by
  induction n using Nat.strong_induction_on with
  | _ n ih =>
    by_cases hlt : n < base
    · rw [Nat.toDigits_of_lt_base hlt]
      simp only [ofDigits, List.foldl_cons, List.foldl_nil, Nat.mul_zero, Nat.zero_add]
      exact digitValue_digitChar (by omega)
    · have hpos : 0 < n := by omega
      have hmod : n % base < base := Nat.mod_lt n (by omega)
      rw [Nat.toDigits_of_base_le hb (by omega), ofDigits_append, ih _ (Nat.div_lt_self hpos hb),
        digitValue_digitChar (by omega)]
      exact Nat.div_add_mod n base

theorem isDigit_of_mem_toDigits (n : Nat) : ∀ c ∈ Nat.toDigits base n, isDigit base c = true := by
  have hdigit {d : Nat} (hd : d < base) : isDigit base d.digitChar = true := by
    rw [isDigit, digitValue_digitChar (by omega)]
    exact decide_eq_true hd
  induction n using Nat.strong_induction_on with
  | _ n ih =>
    intro c hc
    by_cases hlt : n < base
    · rw [Nat.toDigits_of_lt_base hlt, List.mem_singleton] at hc
      exact hc ▸ hdigit hlt
    · rw [Nat.toDigits_of_base_le hb (by omega), List.mem_append, List.mem_singleton] at hc
      rcases hc with hc | rfl
      · exact ih _ (Nat.div_lt_self (by omega) hb) c hc
      · exact hdigit (Nat.mod_lt n (by omega))

end ToDigits

/-- The optional sign; `true` is a minus. -/
def skipSign : List Char → Bool × List Char
  | '-' :: cs => (true, cs)
  | '+' :: cs => (false, cs)
  | cs => (false, cs)

/-- `0x` before a digit, in base 16. -/
def skipPrefix (base : Nat) : List Char → List Char
  | '0' :: x :: c :: cs =>
    if base = 16 ∧ (x = 'x' ∨ x = 'X') ∧ isDigit 16 c then c :: cs else '0' :: x :: c :: cs
  | cs => cs

/-- The sign and the magnitude of the number at the head, and what follows it. -/
def read (base : Nat) (cs : List Char) : Option (Bool × Nat × List Char) :=
  let signed := skipSign cs
  let digits := (skipPrefix base signed.2).span (isDigit base)
  if digits.1 = [] then none else some (signed.1, ofDigits base digits.1, digits.2)

theorem length_skipSign_le (cs : List Char) : (skipSign cs).2.length ≤ cs.length := by
  fun_cases skipSign cs with
  | case1 cs => exact Nat.le_succ _
  | case2 cs => exact Nat.le_succ _
  | case3 => exact Nat.le_refl _

theorem length_skipPrefix_le (base : Nat) (cs : List Char) : (skipPrefix base cs).length ≤ cs.length := by
  fun_cases skipPrefix base cs with
  | case1 x c cs => simp only [List.length_cons]; omega
  | _ => exact Nat.le_refl _

/-- What follows a number is no longer than what the reader has got. -/
theorem length_of_read {cs rest : List Char} {neg : Bool} {n : Nat}
    (h : read base cs = some (neg, n, rest)) : rest.length ≤ cs.length := by
  simp only [read] at h
  split at h
  · cases h
  · simp only [Option.some.injEq, Prod.mk.injEq] at h
    obtain ⟨-, -, rfl⟩ := h
    rw [List.span_eq_takeWhile_dropWhile]
    calc (((skipPrefix base (skipSign cs).2).dropWhile (isDigit base)).length)
        ≤ (skipPrefix base (skipSign cs).2).length := (List.dropWhile_sublist _).length_le
      _ ≤ (skipSign cs).2.length := length_skipPrefix_le base _
      _ ≤ cs.length := length_skipSign_le cs

def Ends (base : Nat) (rest : List Char) : Prop := ∀ c ∈ rest.head?, isDigit base c = false

theorem span_digits {cs rest : List Char} (hcs : ∀ c ∈ cs, isDigit base c = true)
    (hrest : Ends base rest) : (cs ++ rest).span (isDigit base) = (cs, rest) := by
  rw [List.span_eq_takeWhile_dropWhile, List.takeWhile_append_of_pos hcs,
    List.dropWhile_append_of_pos hcs]
  cases rest with
  | nil => simp
  | cons c rest =>
    have hc : isDigit base c = false := hrest c rfl
    simp [hc]

theorem skipPrefix_of_ne (hne : base ≠ 16) (cs : List Char) : skipPrefix base cs = cs := by
  fun_cases skipPrefix base cs with
  | case1 x c cs hx => exact absurd hx.1 hne
  | _ => rfl

theorem read_toDigits (hb : 1 < base) (hmax : base < 16) (n : Nat) {rest : List Char}
    (hrest : Ends base rest) {cs : List Char} {neg : Bool}
    (hcs : skipSign cs = (neg, Nat.toDigits base n ++ rest)) : read base cs = some (neg, n, rest) := by
  have hprefix := skipPrefix_of_ne (Nat.ne_of_lt hmax) (Nat.toDigits base n ++ rest)
  simp only [read, hcs, hprefix, span_digits (isDigit_of_mem_toDigits hb hmax.le n) hrest,
    Nat.toDigits_ne_nil, if_false, ofDigits_toDigits hb hmax.le]

/-- `%d` -/
def decimal (z : Int) : List Char :=
  if z < 0 then '-' :: Nat.toDigits 10 z.natAbs else Nat.toDigits 10 z.natAbs

/-- `0x%x` -/
def hex (n : Nat) : List Char := '0' :: 'x' :: Nat.toDigits 16 n

/-- Digits begin with no sign. -/
theorem skipSign_toDigits (hb : 1 < base) (hmax : base ≤ 16) (n : Nat) (rest : List Char) :
    skipSign (Nat.toDigits base n ++ rest) = (false, Nat.toDigits base n ++ rest) := by
  have hdigits := isDigit_of_mem_toDigits hb hmax n
  have hne : Nat.toDigits base n ≠ [] := Nat.toDigits_ne_nil
  generalize Nat.toDigits base n = ds at hdigits hne
  cases ds with
  | nil => exact absurd rfl hne
  | cons d ds =>
    have hd := hdigits d List.mem_cons_self
    have hminus : d ≠ '-' := by
      rintro rfl
      simp only [isDigit, show digitValue '-' = 36 by decide, decide_eq_true_eq] at hd
      omega
    have hplus : d ≠ '+' := by
      rintro rfl
      simp only [isDigit, show digitValue '+' = 36 by decide, decide_eq_true_eq] at hd
      omega
    simp [skipSign, hminus, hplus]

theorem read_decimal (z : Int) {rest : List Char} (hrest : Ends 10 rest) :
    read 10 (decimal z ++ rest) = some (decide (z < 0), z.natAbs, rest) := by
  rw [decimal]
  split
  · rename_i hneg
    rw [decide_eq_true hneg]
    exact read_toDigits (by decide) (by decide) _ hrest rfl
  · rename_i hpos
    rw [decide_eq_false hpos]
    exact read_toDigits (by decide) (by decide) _ hrest
      (skipSign_toDigits (by decide) (by decide) _ rest)

theorem read_hex (n : Nat) {rest : List Char} (hrest : Ends 16 rest) :
    read 16 (hex n ++ rest) = some (false, n, rest) := by
  have hdigits := isDigit_of_mem_toDigits (by decide : 1 < 16) (by decide) n
  have hspan := span_digits hdigits hrest
  have hne : Nat.toDigits 16 n ≠ [] := Nat.toDigits_ne_nil
  have hprefix : skipPrefix 16 (hex n ++ rest) = Nat.toDigits 16 n ++ rest := by
    rw [hex]
    generalize Nat.toDigits 16 n = ds at hdigits hne
    cases ds with
    | nil => exact absurd rfl hne
    | cons d ds => simp [skipPrefix, hdigits d List.mem_cons_self]
  have hsign : skipSign (hex n ++ rest) = (false, hex n ++ rest) := by
    simp [hex, skipSign]
  simp only [read, hsign, hprefix, hspan, hne, if_false, ofDigits_toDigits (by decide : 1 < 16)
    (by decide : 16 ≤ 16)]

end Numeral
