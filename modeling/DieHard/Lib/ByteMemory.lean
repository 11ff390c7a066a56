import DieHard.Lib.Blocks

/-!
# Memory with words

A memory has a byte at each address. A word takes some bytes in a row, of which the first is the lowest. A list may
be threaded through words: each one has the address of the next, and the last one has zero.
-/

namespace ByteMemory

open Blocks

abbrev Memory := Nat → BitVec 8

variable {m m' : Memory} {a b v w : Nat}

/-- The word of `w` bytes at an address. -/
def load (m : Memory) : (w a : Nat) → Nat
  | 0, _ => 0
  | w + 1, a => (m a).toNat + 256 * load m w (a + 1)

def store (m : Memory) (w a v : Nat) : Memory := fun p =>
  if a ≤ p ∧ p < a + w then BitVec.ofNat 8 (v / 256 ^ (p - a)) else m p

theorem store_of_apart {p : Nat} (h : p < a ∨ a + w ≤ p) : store m w a v p = m p := if_neg (by omega)

theorem load_congr (h : ∀ i < w, m (a + i) = m' (a + i)) : load m w a = load m' w a := by
  induction w generalizing a with
  | zero => rfl
  | succ w ih =>
    have hfirst := h 0 (Nat.succ_pos w)
    rw [Nat.add_zero] at hfirst
    have hrest : load m w (a + 1) = load m' w (a + 1) := by
      apply ih
      intro i hi
      rw [Nat.add_assoc, Nat.add_comm 1]
      exact h (i + 1) (Nat.succ_lt_succ hi)
    rw [load, load, hfirst, hrest]

theorem load_of_apart {n : Nat} (hsame : ∀ p, p < b ∨ b + n ≤ p → m' p = m p) (h : Apart a w b n) :
    load m' w a = load m w a := by
  apply load_congr
  intro i hi
  apply hsame
  rcases h with h | h <;> omega

theorem load_store_of_apart {n : Nat} (h : Apart a n b w) : load (store m w b v) n a = load m n a :=
  load_of_apart (fun _ => store_of_apart) h

theorem load_store (m : Memory) (w a v : Nat) : load (store m w a v) w a = v % 256 ^ w := by
  induction w generalizing a v with
  | zero => rw [load, pow_zero, Nat.mod_one]
  | succ w ih =>
    have hfirst : (store m (w + 1) a v a).toNat = v % 256 := by
      rw [store, if_pos (by omega), Nat.sub_self, pow_zero, Nat.div_one, BitVec.toNat_ofNat]
    have hrest : load (store m (w + 1) a v) w (a + 1) = load (store m w (a + 1) (v / 256)) w (a + 1) := by
      apply load_congr
      intro i hi
      rw [store, store, if_pos (by omega), if_pos (by omega), show a + 1 + i - a = i + 1 by omega,
        show a + 1 + i - (a + 1) = i by omega, pow_succ', Nat.div_div_eq_div_mul]
    rw [load, hfirst, hrest, ih, pow_succ', Nat.mod_mul]

theorem load_store_of_lt (hv : v < 256 ^ w) : load (store m w a v) w a = v := by
  rw [load_store, Nat.mod_eq_of_lt hv]

/-- The words at the addresses of the list are threaded, and `p` is the address of the first. -/
def Chain (m : Memory) (w : Nat) : Nat → List Nat → Prop
  | p, [] => p = 0
  | p, q :: qs => p = q ∧ q ≠ 0 ∧ Chain m w (load m w q) qs

variable {p q : Nat} {qs : List Nat}

theorem chain_nil (m : Memory) (w : Nat) : Chain m w 0 [] := rfl

theorem Chain.congr (h : Chain m w p qs) (hsame : ∀ q ∈ qs, load m' w q = load m w q) : Chain m' w p qs := by
  induction qs generalizing p with
  | nil => exact h
  | cons q qs ih =>
    obtain ⟨rfl, hne, hrest⟩ := h
    refine ⟨rfl, hne, ?_⟩
    rw [hsame p List.mem_cons_self]
    exact ih hrest fun q hq => hsame q (List.mem_cons_of_mem _ hq)

theorem Chain.store_of_apart (h : Chain m w p qs) {n : Nat} (hapart : ∀ q ∈ qs, Apart q w a n) :
    Chain (store m n a v) w p qs :=
  h.congr fun q hq => load_store_of_apart (hapart q hq)

theorem Chain.push (h : Chain m w p qs) (hp : p < 256 ^ w) (hq : q ≠ 0) (hapart : ∀ r ∈ qs, Apart r w q w) :
    Chain (store m w q p) w q (q :: qs) := by
  refine ⟨rfl, hq, ?_⟩
  rw [load_store_of_lt hp]
  exact h.store_of_apart hapart

theorem Chain.eq_nil_iff (h : Chain m w p qs) : qs = [] ↔ p = 0 := by
  cases qs with
  | nil => exact iff_of_true rfl h
  | cons q qs =>
    obtain ⟨rfl, hne, -⟩ := h
    exact iff_of_false (List.cons_ne_nil _ _) hne

theorem Chain.pop (h : Chain m w p qs) (hp : p ≠ 0) : ∃ rest, qs = p :: rest ∧ Chain m w (load m w p) rest := by
  cases qs with
  | nil => exact absurd h hp
  | cons q qs =>
    obtain ⟨rfl, -, hrest⟩ := h
    exact ⟨qs, rfl, hrest⟩

end ByteMemory
