import DieHard.Lib.LinearProbing
import DieHard.Lib.Transition

/-!
# The hash table that grows

`DynamicHashTable` probes linearly and doubles its size before more than one eighth of it is taken. Over
every sequence of insertions of different keys it is a map, its probe loops end, and it stays within its
load factor, as long as it starts with four entries at least.
-/

namespace DieHard

open LinearProbing Transition

universe u

/-- The table; an entry that is not valid is `none`. -/
structure DynamicHashTable (V : Type u) where
  size : Nat
  mask : Nat
  entries : Nat → Option V
  numElements : Nat

namespace DynamicHashTable

variable {V : Type u} (hashCode : V → BitVec 64)

/-- The ways in which a call fails to return. -/
inductive Failure
  | abort
  | assertFailed
  | outOfFuel
  deriving DecidableEq, Repr

/-- `LOAD_FACTOR_RECIPROCAL`. -/
def loadFactorReciprocal : Nat := 8

def expansionFactor : Nat := 2

/-- `allocTable`: none of the new entries is valid. -/
def allocTable : Nat → Option V := fun _ => none

/-- The constructor; `size` is `INIT_SIZE / sizeof(VALUE_TYPE)`. -/
def new (size : Nat) : DynamicHashTable V := ⟨size, size - 1, allocTable, 0⟩

/-- `(begin - 1 + _size) & _mask`, where `begin - 1` may be negative. -/
def lim (t : DynamicHashTable V) (start : Nat) : Nat := (start + t.size - 1) &&& t.mask

/-- The loop of `insertOne`, from entry `i` on. -/
def insertOneLoop (t : DynamicHashTable V) (s : V) (lim : Nat) :
    Nat → Nat → Except Failure (DynamicHashTable V)
  | 0, _ => .error .outOfFuel
  | fuel + 1, i =>
    if i = lim then .error .assertFailed
    else
      match t.entries i with
      | none => .ok { t with entries := Function.update t.entries i (some s) }
      | some _ => insertOneLoop t s lim fuel ((i + 1) &&& t.mask)

def insertOne (t : DynamicHashTable V) (s : V) : Except Failure (DynamicHashTable V) :=
  let start := (hashCode s).toNat &&& t.mask
  insertOneLoop t s (t.lim start) t.size start

/-- One turn of the loop of `grow`; the new table goes with the number of valid old entries so far. -/
def rehashEntry (old : Nat → Option V) (r : DynamicHashTable V × Nat) (i : Nat) :
    Except Failure (DynamicHashTable V × Nat) :=
  match old i with
  | none => .ok r
  | some v => do
    let t ← insertOne hashCode r.1 v
    return (t, r.2 + 1)

/-- The loop of `grow` over the first `n` old entries. -/
def rehash (old : Nat → Option V) (n : Nat) (t : DynamicHashTable V) :
    Except Failure (DynamicHashTable V × Nat) :=
  (List.range n).foldlM (rehashEntry hashCode old) (t, 0)

def grow (t : DynamicHashTable V) : Except Failure (DynamicHashTable V) := do
  let size := t.size * expansionFactor
  let r ← rehash hashCode t.entries t.size ⟨size, size - 1, allocTable, t.numElements⟩
  if r.2 = t.numElements then .ok r.1 else .error .assertFailed

/-- The first part of `insert`: grow before the table is fuller than its load factor. -/
def makeRoom (t : DynamicHashTable V) : Except Failure (DynamicHashTable V) :=
  if t.size / loadFactorReciprocal < t.numElements + 1 then grow hashCode t else .ok t

def insert (t : DynamicHashTable V) (s : V) : Except Failure (DynamicHashTable V) := do
  let t ← makeRoom hashCode t
  let t ← insertOne hashCode t s
  return { t with numElements := t.numElements + 1 }

/-- The loop of `find`, from entry `i` on. -/
def findLoop (t : DynamicHashTable V) (key : BitVec 64) (lim : Nat) :
    Nat → Nat → Except Failure (Option V)
  | 0, _ => .error .outOfFuel
  | fuel + 1, i =>
    if i = lim then .error .abort
    else
      match t.entries i with
      | some v =>
        if hashCode v = key then .ok (some v) else findLoop t key lim fuel ((i + 1) &&& t.mask)
      | none => .ok none

/-- `get`, with the value where it returns true. -/
def get (t : DynamicHashTable V) (key : BitVec 64) : Except Failure (Option V) :=
  let start := key.toNat &&& t.mask
  findLoop hashCode t key (t.lim start) t.size start

/-- The entry where a key is looked for first, in a table of `n` entries. -/
def home (n : Nat) (key : BitVec 64) : Nat := key.toNat % n

/-- The mask takes remainders. -/
structure Masked (t : DynamicHashTable V) : Prop where
  size_powerOfTwo : t.size.isPowerOfTwo
  mask_eq : t.mask = t.size - 1

section Loops

variable {hashCode} {t : DynamicHashTable V} {b d : Nat}

theorem Masked.size_pos (h : t.Masked) : 0 < t.size := by
  obtain ⟨k, hk⟩ := h.size_powerOfTwo
  rw [hk]
  exact Nat.two_pow_pos k

theorem Masked.and_mask (h : t.Masked) (n : Nat) : n &&& t.mask = n % t.size := by
  obtain ⟨k, hk⟩ := h.size_powerOfTwo
  rw [h.mask_eq, hk, Nat.and_two_pow_sub_one_eq_mod]

theorem Masked.lim_eq (h : t.Masked) (b : Nat) : t.lim b = probe t.size b (t.size - 1) := by
  rw [lim, h.and_mask, probe, Nat.add_sub_assoc h.size_pos]

theorem Masked.probe_ne_lim (h : t.Masked) {j : Nat} (hj : j + 1 < t.size) (b : Nat) :
    probe t.size b j ≠ t.lim b := by
  rw [h.lim_eq]
  intro he
  have hlast := probe_inj (by omega) (by omega) he
  omega

theorem Masked.next (h : t.Masked) (b j : Nat) :
    (probe t.size b j + 1) &&& t.mask = probe t.size b (j + 1) := by
  rw [h.and_mask, probe_succ]

theorem Masked.start (h : t.Masked) (key : BitVec 64) : key.toNat &&& t.mask = home t.size key :=
  h.and_mask _

theorem Masked.probe_home (h : t.Masked) (key : BitVec 64) :
    probe t.size (home t.size key) 0 = home t.size key :=
  probe_zero (Nat.mod_lt _ h.size_pos)

theorem Masked.insertOneLoop (h : t.Masked) (hd : FirstFree t.size t.entries b d) (hlt : d + 1 < t.size)
    (s : V) {m j fuel : Nat} (hm : j + m = d) (hfuel : m < fuel) :
    insertOneLoop t s (t.lim b) fuel (probe t.size b j) =
      .ok { t with entries := Function.update t.entries (probe t.size b d) (some s) } := by
  induction m generalizing j fuel with
  | zero =>
    obtain ⟨fuel, rfl⟩ := Nat.exists_eq_add_one_of_ne_zero (Nat.ne_of_gt hfuel)
    obtain rfl : j = d := by omega
    rw [DynamicHashTable.insertOneLoop, if_neg (h.probe_ne_lim hlt b), hd.free]
  | succ m ih =>
    obtain ⟨fuel, rfl⟩ := Nat.exists_eq_add_one_of_ne_zero (Nat.ne_of_gt (Nat.zero_lt_of_lt hfuel))
    obtain ⟨u, hu⟩ := Option.isSome_iff_exists.mp (hd.full j (by omega))
    rw [DynamicHashTable.insertOneLoop, if_neg (h.probe_ne_lim (by omega) b), hu]
    dsimp only
    rw [h.next]
    exact ih (by omega) (by omega)

theorem Masked.insertOne (h : t.Masked) {s : V}
    (hd : FirstFree t.size t.entries (home t.size (hashCode s)) d) (hlt : d + 1 < t.size) :
    insertOne hashCode t s = .ok { t with
      entries := Function.update t.entries (probe t.size (home t.size (hashCode s)) d) (some s) } := by
  have hloop := h.insertOneLoop hd hlt s (Nat.zero_add d) (by omega : d < t.size)
  rw [h.probe_home] at hloop
  rw [DynamicHashTable.insertOne, h.start]
  exact hloop

theorem Masked.findLoop (h : t.Masked) {key : BitVec 64} (hlt : d + 1 < t.size)
    (hpass : ∀ j < d, ∃ u, t.entries (probe t.size b j) = some u ∧ hashCode u ≠ key)
    {answer : Option V} (hstop : t.entries (probe t.size b d) = answer)
    (hkey : ∀ v, answer = some v → hashCode v = key) {m j fuel : Nat} (hm : j + m = d)
    (hfuel : m < fuel) :
    findLoop hashCode t key (t.lim b) fuel (probe t.size b j) = .ok answer := by
  induction m generalizing j fuel with
  | zero =>
    obtain ⟨fuel, rfl⟩ := Nat.exists_eq_add_one_of_ne_zero (Nat.ne_of_gt hfuel)
    obtain rfl : j = d := by omega
    rw [DynamicHashTable.findLoop, if_neg (h.probe_ne_lim hlt b), hstop]
    cases answer with
    | none => rfl
    | some v => exact if_pos (hkey v rfl)
  | succ m ih =>
    obtain ⟨fuel, rfl⟩ := Nat.exists_eq_add_one_of_ne_zero (Nat.ne_of_gt (Nat.zero_lt_of_lt hfuel))
    obtain ⟨u, hu, hne⟩ := hpass j (by omega)
    rw [DynamicHashTable.findLoop, if_neg (h.probe_ne_lim (by omega) b), hu]
    dsimp only
    rw [if_neg hne, h.next]
    exact ih (by omega) (by omega)

theorem Masked.get (h : t.Masked) {key : BitVec 64} (hlt : d + 1 < t.size)
    (hpass : ∀ j < d, ∃ u, t.entries (probe t.size (home t.size key) j) = some u ∧ hashCode u ≠ key)
    {answer : Option V} (hstop : t.entries (probe t.size (home t.size key) d) = answer)
    (hkey : ∀ v, answer = some v → hashCode v = key) : get hashCode t key = .ok answer := by
  have hloop := h.findLoop hlt hpass hstop hkey (Nat.zero_add d) (by omega : d < t.size)
  rw [h.probe_home] at hloop
  rw [DynamicHashTable.get, h.start]
  exact hloop

end Loops

/-- The table holds the values of which `held` says so, and there is room for one more. -/
structure Stores (t : DynamicHashTable V) (held : V → Prop) (count : Nat) : Prop where
  masked : t.Masked
  probing : Probing t.size hashCode (home t.size) t.entries
  holds_iff : ∀ v, Holds t.size t.entries v ↔ held v
  occupied_eq : occupied t.size t.entries = count

section Stores

variable {hashCode} {t : DynamicHashTable V} {held : V → Prop} {count : Nat}

theorem Stores.get_held (h : Stores hashCode t held count) (hroom : count + 1 < t.size) {v : V}
    (hv : held v) : get hashCode t (hashCode v) = .ok (some v) := by
  obtain ⟨d, hd, hfree⟩ := exists_firstFree (by rwa [h.occupied_eq]) (home t.size (hashCode v))
  obtain ⟨e, hed, hslot, hpass⟩ := h.probing.found ((h.holds_iff v).mpr hv) hfree
  apply h.masked.get (by omega) hpass hslot
  intro u hu
  rw [Option.some.inj hu]

theorem Stores.get_missing (h : Stores hashCode t held count) (hroom : count + 1 < t.size)
    {key : BitVec 64} (hk : ∀ v, held v → hashCode v ≠ key) : get hashCode t key = .ok none := by
  obtain ⟨d, hd, hfree⟩ := exists_firstFree (by rwa [h.occupied_eq]) (home t.size key)
  apply h.masked.get hd _ hfree.free
  · intro u hu
    cases hu
  · exact hfree.missed h.masked.size_pos fun v hv => hk v ((h.holds_iff v).mp hv)

theorem Stores.insertOne (h : Stores hashCode t held count) (hroom : count + 1 < t.size) {v : V}
    (hnew : ∀ u, held u → hashCode u ≠ hashCode v) :
    ∃ t', insertOne hashCode t v = .ok t' ∧ t'.size = t.size ∧ t'.numElements = t.numElements ∧
      Stores hashCode t' (fun u => held u ∨ u = v) (count + 1) := by
  obtain ⟨d, hd, hfree⟩ := exists_firstFree (by rwa [h.occupied_eq]) (home t.size (hashCode v))
  have hlt := probe_lt h.masked.size_pos (home t.size (hashCode v)) d
  refine ⟨_, h.masked.insertOne hfree hd, rfl, rfl, ⟨h.masked.1, h.masked.2⟩, ?_, ?_, ?_⟩
  · exact h.probing.insert hfree (by omega) fun u hu => hnew u ((h.holds_iff u).mp hu)
  · intro u
    rw [← h.holds_iff u]
    exact holds_update hlt hfree.free u v
  · rw [← h.occupied_eq]
    exact occupied_update hlt hfree.free v

theorem stores_alloc (hashCode : V → BitVec 64) {size : Nat} (hs : size.isPowerOfTwo) (n : Nat) :
    Stores hashCode ⟨size, size - 1, allocTable, n⟩ (fun _ => False) 0 := by
  refine ⟨⟨hs, rfl⟩, probing_none _ _ _, ?_, occupied_none _⟩
  rintro v
  constructor
  · rintro ⟨i, -, h⟩
    cases h
  · exact False.elim

theorem rehash_succ (hashCode : V → BitVec 64) (old : Nat → Option V) (m : Nat)
    (t : DynamicHashTable V) : rehash hashCode old (m + 1) t =
      (rehash hashCode old m t).bind fun r => rehashEntry hashCode old r m := by
  rw [rehash, List.range_succ, List.foldlM_append, rehash]
  simp only [List.foldlM_cons, List.foldlM_nil, bind_pure]
  rfl

/-- The loop of `grow` moves all values of the old entries. -/
theorem rehash_stores {old : Nat → Option V} {n m : Nat} (hm : m ≤ n)
    (hold : Probing n hashCode (home n) old) {t : DynamicHashTable V}
    (ht : Stores hashCode t (fun _ => False) 0) (hroom : occupied n old < t.size) :
    ∃ t', rehash hashCode old m t = .ok (t', occupied m old) ∧ t'.size = t.size ∧
      t'.numElements = t.numElements ∧
      Stores hashCode t' (fun v => ∃ i < m, old i = some v) (occupied m old) := by
  induction m with
  | zero =>
    have hzero : occupied 0 old = 0 := rfl
    rw [hzero]
    refine ⟨t, rfl, rfl, rfl, ht.masked, ht.probing, ?_, ht.occupied_eq⟩
    intro v
    rw [ht.holds_iff]
    simp
  | succ m ih =>
    obtain ⟨t', hrehash, hsize, hnum, hstores⟩ := ih (by omega)
    have hsucc := occupied_succ m old
    have hle := occupied_mono old hm
    rw [rehash_succ, hrehash]
    have hiff (v : V) : (∃ i < m + 1, old i = some v) ↔ (∃ i < m, old i = some v) ∨ old m = some v := by
      constructor
      · rintro ⟨i, hi, he⟩
        rcases Nat.lt_succ_iff_lt_or_eq.mp hi with hlt | rfl
        · exact Or.inl ⟨i, hlt, he⟩
        · exact Or.inr he
      · rintro (⟨i, hi, he⟩ | he)
        · exact ⟨i, by omega, he⟩
        · exact ⟨m, by omega, he⟩
    cases hslot : old m with
    | none =>
      rw [hslot] at hsucc
      rw [hsucc]
      refine ⟨t', ?_, hsize, hnum, hstores.masked, hstores.probing, ?_, hstores.occupied_eq⟩
      · simp only [Except.bind, rehashEntry, hslot]
        rfl
      · intro v
        rw [hstores.holds_iff, hiff, hslot]
        simp
    | some v =>
      rw [hslot] at hsucc
      rw [hsucc] at hle ⊢
      -- the key of `v` is new, as the old table holds it once
      have hnew : ∀ u, (∃ i < m, old i = some u) → hashCode u ≠ hashCode v := by
        rintro u ⟨i, hi, hu⟩ hkey
        have hsame := hold.distinct i m u v (by omega) (by omega) hu hslot hkey
        omega
      obtain ⟨t'', hone, hsize', hnum', hstores'⟩ := hstores.insertOne (by
        rw [hsize]
        simp only [Option.isSome_some, if_true] at hle
        omega) hnew
      refine ⟨t'', ?_, hsize'.trans hsize, hnum'.trans hnum, hstores'.masked, hstores'.probing, ?_,
        hstores'.occupied_eq⟩
      · simp only [Except.bind, rehashEntry, hslot, hone]
        rfl
      · intro u
        rw [hstores'.holds_iff, hiff, hslot, Option.some.injEq]
        exact or_congr_right eq_comm

theorem Stores.grow (h : Stores hashCode t held count) (hnum : t.numElements = count)
    (hroom : count < t.size * 2) : ∃ t', grow hashCode t = .ok t' ∧ t'.size = t.size * 2 ∧
      t'.numElements = t.numElements ∧ Stores hashCode t' held count := by
  have hpow : (t.size * 2).isPowerOfTwo := by
    obtain ⟨k, hk⟩ := h.masked.size_powerOfTwo
    exact ⟨k + 1, by rw [hk, Nat.pow_succ]⟩
  obtain ⟨t', hrehash, hsize, hnum', hstores⟩ := rehash_stores (Nat.le_refl t.size) h.probing
    (stores_alloc hashCode hpow t.numElements) (by rwa [h.occupied_eq])
  rw [h.occupied_eq] at hrehash hstores
  refine ⟨t', ?_, hsize, hnum', hstores.masked, hstores.probing, ?_, hstores.occupied_eq⟩
  · have hgrow : DynamicHashTable.grow hashCode t = (rehash hashCode t.entries t.size
        ⟨t.size * 2, t.size * 2 - 1, allocTable, t.numElements⟩).bind fun r =>
          if r.2 = t.numElements then .ok r.1 else .error .assertFailed := rfl
    rw [hgrow, hrehash]
    exact if_pos hnum.symm
  · intro v
    rw [hstores.holds_iff, ← h.holds_iff]
    rfl

end Stores

/-- The table is a map with the given values, and no more than an eighth of it is taken. -/
structure Inv (t : DynamicHashTable V) (inserted : List V) : Prop where
  stores : Stores hashCode t (· ∈ inserted) inserted.length
  numElements_eq : t.numElements = inserted.length
  four_le : 4 ≤ t.size
  load : t.numElements ≤ t.size / loadFactorReciprocal

section Invariant

variable {hashCode} {t : DynamicHashTable V} {inserted : List V}

theorem inv_new (hashCode : V → BitVec 64) {size : Nat} (hs : size.isPowerOfTwo) (h4 : 4 ≤ size) :
    Inv hashCode (new size) [] := by
  have hstores := stores_alloc hashCode hs 0
  refine ⟨⟨hstores.masked, hstores.probing, ?_, hstores.occupied_eq⟩, rfl, h4, Nat.zero_le _⟩
  intro v
  rw [show (new size : DynamicHashTable V) = ⟨size, size - 1, allocTable, 0⟩ from rfl,
    hstores.holds_iff]
  simp

theorem Inv.room (h : Inv hashCode t inserted) : inserted.length + 1 < t.size := by
  have hload := h.load
  have h4 := h.four_le
  rw [h.numElements_eq, loadFactorReciprocal] at hload
  omega

theorem Inv.makeRoom (h : Inv hashCode t inserted) :
    ∃ t', makeRoom hashCode t = .ok t' ∧ Stores hashCode t' (· ∈ inserted) inserted.length ∧
      t'.numElements = inserted.length ∧ t.size ≤ t'.size ∧
      inserted.length + 1 ≤ t'.size / loadFactorReciprocal := by
  have hload := h.load
  have h4 := h.four_le
  have hnum := h.numElements_eq
  rw [loadFactorReciprocal] at hload
  rw [DynamicHashTable.makeRoom, loadFactorReciprocal]
  split
  · have hroom := h.room
    obtain ⟨t', hgrow, hsize, hnum', hstores⟩ := h.stores.grow hnum (by omega)
    exact ⟨t', hgrow, hstores, hnum'.trans hnum, by omega, by omega⟩
  · exact ⟨t, rfl, h.stores, hnum, Nat.le_refl _, by omega⟩

/-- `insert` of a new key succeeds, and adds the value. -/
theorem Inv.insert (h : Inv hashCode t inserted) {v : V}
    (hnew : ∀ u ∈ inserted, hashCode u ≠ hashCode v) :
    ∃ t', insert hashCode t v = .ok t' ∧ Inv hashCode t' (v :: inserted) := by
  obtain ⟨t₁, hroom, hstores, hnum, hle, hload⟩ := h.makeRoom
  have hlen := h.room
  obtain ⟨t₂, hone, hsize, hnum', hstores'⟩ := hstores.insertOne (by omega) hnew
  refine ⟨{ t₂ with numElements := t₂.numElements + 1 }, ?_, ⟨⟨hstores'.masked.1, hstores'.masked.2⟩,
    hstores'.probing, ?_, hstores'.occupied_eq⟩, ?_, ?_, ?_⟩
  · have hinsert : DynamicHashTable.insert hashCode t v = (DynamicHashTable.makeRoom hashCode t).bind
        fun t => (DynamicHashTable.insertOne hashCode t v).bind fun t =>
          .ok { t with numElements := t.numElements + 1 } := rfl
    rw [hinsert, hroom]
    simp only [Except.bind, hone]
  · intro u
    rw [List.mem_cons, or_comm]
    exact hstores'.holds_iff u
  · show t₂.numElements + 1 = inserted.length + 1
    rw [hnum', hnum]
  · show 4 ≤ t₂.size
    rw [hsize]
    exact h.four_le.trans hle
  · show t₂.numElements + 1 ≤ t₂.size / loadFactorReciprocal
    rw [hnum', hnum, hsize]
    exact hload

end Invariant

/-- A table with the values that have been inserted. -/
structure Ledger (V : Type u) where
  table : DynamicHashTable V
  inserted : List V

inductive Call (V : Type u)
  | insert (s : V)
  | get (k : BitVec 64)

def roomSize (t : DynamicHashTable V) : Nat :=
  if t.size / loadFactorReciprocal < t.numElements + 1 then t.size * expansionFactor else t.size

namespace Ledger

def next (l : Ledger V) : Call V → Option (Ledger V)
  | .insert s => (insert hashCode l.table s).toOption.map fun t => ⟨t, s :: l.inserted⟩
  | .get k => (get hashCode l.table k).toOption.map fun _ => l

def ok (l : Ledger V) : Call V → Prop
  | .insert s => (∀ u ∈ l.inserted, hashCode u ≠ hashCode s) ∧ l.table.roomSize < 2 ^ 31
  | .get _ => True

/-- The table is the map of the inserted values. -/
structure IsMap (l : Ledger V) : Prop where
  found : ∀ v ∈ l.inserted, get hashCode l.table (hashCode v) = .ok (some v)
  missing : ∀ k, (∀ v ∈ l.inserted, hashCode v ≠ k) → get hashCode l.table k = .ok none
  /-- No assertion fails, and no loop ends without an answer. -/
  inserts : ∀ v, l.ok hashCode (.insert v) → ∃ t, insert hashCode l.table v = .ok t
  load : l.inserted ≠ [] → l.table.numElements ≤ l.table.size / loadFactorReciprocal

variable {hashCode} {l l' : Ledger V}

theorem next_inv (h : Inv hashCode l.table l.inserted) {c : Call V} (hok : l.ok hashCode c)
    (hn : l.next hashCode c = some l') : Inv hashCode l'.table l'.inserted := by
  cases c with
  | insert s =>
    obtain ⟨t, hinsert, hinv⟩ := h.insert hok.1
    rw [next, hinsert] at hn
    cases hn
    exact hinv
  | get k =>
    obtain ⟨v, -, rfl⟩ := Option.map_eq_some_iff.mp hn
    exact h

theorem isMap_of_inv (h : Inv hashCode l.table l.inserted) : l.IsMap hashCode := by
  refine ⟨?_, ?_, ?_, fun _ => h.load⟩
  · intro v hv
    exact h.stores.get_held h.room hv
  · intro k hk
    exact h.stores.get_missing h.room hk
  · intro v hok
    obtain ⟨t, hinsert, -⟩ := h.insert hok.1
    exact ⟨t, hinsert⟩

theorem get_new_one (hashCode : V → BitVec 64) (k : BitVec 64) :
    get hashCode (new 1) k = .error .abort := by
  simp [DynamicHashTable.get, findLoop, new, lim]

theorem insert_new_two (hashCode : V → BitVec 64) (v : V) :
    ∃ t, insert hashCode (new 2) v = .ok t ∧ t.numElements = 1 ∧ t.size = 4 := by
  have hstores : Stores hashCode (new 2) (fun _ => False) 0 := stores_alloc hashCode ⟨1, rfl⟩ 0
  obtain ⟨t₁, hgrow, hsize, hnum, hgrown⟩ := hstores.grow rfl (Nat.zero_lt_succ 3)
  have hsize : t₁.size = 4 := hsize
  obtain ⟨t₂, hone, hsize', hnum', -⟩ := hgrown.insertOne (v := v) (by omega) fun u hu => hu.elim
  have hfull : (new 2 : DynamicHashTable V).size / loadFactorReciprocal <
      (new 2 : DynamicHashTable V).numElements + 1 := by simp [new, loadFactorReciprocal]
  have hroom : makeRoom hashCode (new 2 : DynamicHashTable V) = .ok t₁ := by
    rw [makeRoom, if_pos hfull, hgrow]
  refine ⟨{ t₂ with numElements := t₂.numElements + 1 }, ?_, ?_, hsize'.trans hsize⟩
  · have hinsert : insert hashCode (new 2) v = (makeRoom hashCode (new 2)).bind
        fun t => (insertOne hashCode t v).bind fun t =>
          .ok { t with numElements := t.numElements + 1 } := rfl
    rw [hinsert, hroom]
    simp only [Except.bind, hone]
  · show t₂.numElements + 1 = 1
    rw [hnum', hnum]
    rfl

/-- Over all sequences of calls the table is a map that keeps its load factor, if and only if it starts
with four entries at least. -/
theorem isMap_iff [Inhabited V] (hashCode : V → BitVec 64) {n : Nat} (hn : n.isPowerOfTwo)
    (hlt : n < 2 ^ 31) :
    (∀ l, Reach (next hashCode) (ok hashCode) ⟨new n, []⟩ l → l.IsMap hashCode) ↔ 4 ≤ n := by
  constructor
  · intro h
    by_contra hsmall
    obtain ⟨k, rfl⟩ := hn
    have hk : k < 2 := by
      by_contra hk
      exact hsmall (Nat.pow_le_pow_right (n := 2) Nat.two_pos (Nat.le_of_not_lt hk))
    interval_cases k
    · have hmissing := (h _ .refl).missing 0 (by simp)
      rw [get_new_one] at hmissing
      cases hmissing
    · obtain ⟨t, hinsert, hnum, hsize⟩ := insert_new_two hashCode (default : V)
      have hstep : next hashCode ⟨new 2, []⟩ (.insert default) = some ⟨t, [default]⟩ := by
        rw [next, hinsert]
        rfl
      have hok : ok hashCode (⟨new 2, []⟩ : Ledger V) (.insert default) :=
        ⟨by simp, by simp [roomSize, new, loadFactorReciprocal, expansionFactor]⟩
      have hload := (h _ (Reach.refl.step hok hstep)).load (List.cons_ne_nil _ _)
      rw [show t.numElements = 1 from hnum, show t.size = 4 from hsize] at hload
      revert hload
      decide
  · intro h4 l hr
    apply isMap_of_inv
    apply hr.invariant (I := fun l => Inv hashCode l.table l.inserted)
    · exact inv_new hashCode hn h4
    · intro r c r' hi hok hstep
      exact next_inv hi hok hstep

instance (l : Ledger (BitVec 64)) : (c : Call (BitVec 64)) → Decidable (ok id l c)
  -- over the list, not over all keys
  | .insert s => @instDecidableAnd _ _ (List.decidableBAll (fun u => id u ≠ id s) l.inserted) (Nat.decLt _ _)
  | .get _ => instDecidableTrue

def threeKeys : List (Call (BitVec 64)) := [.insert 5, .insert 13, .get 13, .insert 6, .get 21]

private theorem reach_threeKeys : Reach (next id) (ok id) (⟨new 8, []⟩ : Ledger (BitVec 64))
    (final (next id) ⟨new 8, []⟩ threeKeys) :=
  reach_final (guarded_of_bool (by decide +kernel)) (by decide +kernel)

theorem isMap_eight : (final (next id) (⟨new 8, []⟩ : Ledger (BitVec 64)) threeKeys).IsMap id :=
  (isMap_iff id ⟨3, rfl⟩ (by decide)).mpr (by decide) _ reach_threeKeys

/-- `get` aborts in a table of one entry. -/
theorem not_isMap_one : ¬ ∀ n : Nat, n.isPowerOfTwo → n < 2 ^ 31 → ∀ l : Ledger (BitVec 64),
    Reach (next id) (ok id) ⟨new n, []⟩ l → l.IsMap id := by
  intro h
  have hmissing := (h 1 ⟨0, rfl⟩ (by decide) ⟨new 1, []⟩ .refl).missing 0 (by simp)
  rw [get_new_one] at hmissing
  cases hmissing

end Ledger

end DynamicHashTable

end DieHard
