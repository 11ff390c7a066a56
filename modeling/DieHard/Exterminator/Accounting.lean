import DieHard.Exterminator.DieFast
import DieHard.Lib.Counting

/-!
# The count of requests

`_requested` is meant to count the set bits of `_allocated`. `freeObject` takes one off whether or not the
bit was set, and `checkOverflow` sets a bit without adding one. Where no free does either, the count is the
load of the partition, and requests are refused at the threshold and not before.
-/

namespace DieHard.Exterminator

open Transition

namespace DieFastPartition

/-- The lines of `allocObject` from the successful `tryToSet` on, without `DIEHARD_DIEFAST`. -/
def takeUnchecked (p : DieFastPartition) (objectIndex : Nat) (callsite globalCt : Word) :
    Option Word × DieFastPartition :=
  let ptr := p.slotStart objectIndex
  let info : PartitionInfo := { p.info with
    requested := p.info.requested + 1
    allocated := p.info.allocated.set objectIndex
    hasData := p.info.hasData.set objectIndex }
  let memory := p.memory.fill (p.wordIndex ptr) p.info.size 0
  (some ptr, { p with info := info.allocEvent objectIndex callsite globalCt, memory := memory })

/-- The loop of `allocObject` around the lines `take`. -/
def probe (take : DieFastPartition → Nat → Option Word × DieFastPartition) :
    DieFastPartition → List Word → Option (Option Word × DieFastPartition)
  | p, rngs =>
    if p.info.threshold ≤ p.info.requested then some (none, p)
    else
      match rngs with
      | [] => none
      | rng :: rngs =>
        let objectIndex := (rng &&& BitVec.ofNat 32 (p.info.elements - 1)).toNat
        if p.info.allocated.isSet objectIndex then probe take p rngs
        else
          match take p objectIndex with
          | (some ptr, p) => some (some ptr, p)
          | (none, p) => probe take p rngs
  termination_by structural _ rngs => rngs

/-- `allocObject` of a build with or without `DIEHARD_DIEFAST`. -/
def alloc (dieFast : Bool) (callsite globalCt : Word) (p : DieFastPartition) (rngs : List Word) :
    Option (Option Word × DieFastPartition) :=
  if dieFast then p.allocObject callsite globalCt rngs
  else probe (fun p i => p.takeUnchecked i callsite globalCt) p rngs

/-- `freeObject` of a build with or without `DIEHARD_DIEFAST`. -/
def free (dieFast : Bool) (p : DieFastPartition) (ptr callsite globalCt rng : Word) : DieFastPartition :=
  if dieFast then p.freeObject ptr callsite globalCt rng
  else
    match p.info.objectIndex ptr with
    | none => p
    | some objectIndex => p.releaseSlot objectIndex callsite globalCt

/-- The number of set bits of `_allocated`. -/
def load (p : DieFastPartition) : Nat :=
  Nat.count (fun i => p.info.allocated.isSet i = true) p.info.elements

/-- The count is the load, within the threshold, and a request is refused exactly where the load has
reached it. -/
structure Accounted (dieFast : Bool) (p : DieFastPartition) : Prop where
  requested_eq : p.info.requested = p.load
  nonneg : 0 ≤ p.info.requested
  requested_le : p.info.requested ≤ p.info.threshold
  refuses : p.info.threshold ≤ p.load →
    ∀ callsite globalCt rngs, alloc dieFast callsite globalCt p rngs = some (none, p)
  refused : ∀ callsite globalCt rngs q, alloc dieFast callsite globalCt p rngs = some (none, q) →
    q.info.threshold ≤ q.load
  granted : ∀ callsite globalCt rngs ptr q,
    alloc dieFast callsite globalCt p rngs = some (some ptr, q) →
      p.load < p.info.threshold ∧ q.load ≤ q.info.threshold

/-- The slot behind slot `i` is free, holds no data and has been written to. -/
def OverflownBehind (p : DieFastPartition) (i : Nat) : Prop :=
  i + 1 < p.info.elements ∧ p.info.hasData.isSet (i + 1) = false ∧
    p.info.allocated.isSet (i + 1) = false ∧
    p.memory.checkNot (p.wordIndex (p.slotStart (i + 1))) p.info.size p.sentinel = true

instance (p : DieFastPartition) (i : Nat) : Decidable (p.OverflownBehind i) :=
  inferInstanceAs (Decidable (_ ∧ _ ∧ _ ∧ _))

/-- A partition that `initialize` has set up, with any threshold. -/
def initialized (sizeClass : Nat) (h : sizeClass < numberOfClasses) (threshold : Nat)
    (start sentinel flags : Word) (memory : Words) : DieFastPartition :=
  let p := DieFastPartition.initial sizeClass h start sentinel flags memory
  { p with info := { p.info with threshold := threshold } }

end DieFastPartition

/-- Calls of `allocObject` and `freeObject`, and what the program does to the memory between them. -/
inductive PartitionAction
  | alloc (callsite globalCt : Word) (rngs : List Word)
  | free (ptr callsite globalCt rng : Word)
  | write (memory : Words)

namespace PartitionAction

open DieFastPartition

variable (dieFast : Bool)

def next (p : DieFastPartition) : PartitionAction → Option DieFastPartition
  | .alloc callsite globalCt rngs => (p.alloc dieFast callsite globalCt rngs).map Prod.snd
  | .free ptr callsite globalCt rng => some (p.free dieFast ptr callsite globalCt rng)
  | .write memory => some { p with memory := memory }

/-- Only pointers into the partition are freed. -/
def inPartition (p : DieFastPartition) : PartitionAction → Prop
  | .alloc _ _ _ => True
  | .free ptr _ _ _ => (ptr - p.info.partitionStart).toNat < partitionSize
  | .write _ => True

/-- Besides, a free is of an allocated slot, and in a DieFast build no free slot behind it has been
overflown. -/
def counts (p : DieFastPartition) : PartitionAction → Prop
  | .alloc _ _ _ => True
  | .free ptr _ _ _ => (ptr - p.info.partitionStart).toNat < partitionSize ∧
    ∀ i, p.info.objectIndex ptr = some i →
      p.info.allocated.isSet i = true ∧ (dieFast = true → ¬ p.OverflownBehind i)
  | .write _ => True

end PartitionAction

namespace DieFastPartition

section Load

variable {p q : DieFastPartition} {i : Nat}

theorem load_eq_succ (hi : i < p.info.elements) (hclear : p.info.allocated.isSet i = false)
    (helements : q.info.elements = p.info.elements)
    (hset : ∀ j, q.info.allocated.isSet j = (p.info.allocated.isSet j || decide (j = i))) :
    q.load = p.load + 1 := by
  have hcount := Counting.count_update (p := fun j => p.info.allocated.isSet j = true)
    (q := fun j => q.info.allocated.isSet j = true) hi fun j hj => by simp [hset, hj]
  simp only [hclear, hset, Bool.false_eq_true, if_false, Nat.add_zero, decide_true, Bool.or_true,
    if_true] at hcount
  simp only [load, hset, helements]
  exact hcount

theorem load_eq_pred (hi : i < p.info.elements) (hbit : p.info.allocated.isSet i = true)
    (helements : q.info.elements = p.info.elements)
    (hset : ∀ j, q.info.allocated.isSet j = (p.info.allocated.isSet j && decide (j ≠ i))) :
    q.load + 1 = p.load := by
  apply (load_eq_succ (helements ▸ hi) _ helements.symm _).symm
  · simp [hset]
  · intro j
    rw [hset]
    by_cases hj : j = i
    · simp [hj, hbit]
    · simp [hj]

end Load

/-- The count is the load, and within the threshold. -/
structure Counted (p : DieFastPartition) : Prop where
  requested_eq : p.info.requested = p.load
  requested_le : p.info.requested ≤ p.info.threshold

/-- The lines that take a slot count it. -/
structure Takes (p : DieFastPartition) (i : Nat) (q : DieFastPartition) : Prop where
  requested : q.info.requested = p.info.requested + 1
  isSet : ∀ j, q.info.allocated.isSet j = (p.info.allocated.isSet j || decide (j = i))
  threshold : q.info.threshold = p.info.threshold
  elements : q.info.elements = p.info.elements

variable {p q : DieFastPartition} {i : Nat} {callsite globalCt : Word} {dieFast : Bool}

theorem Takes.counted (h : p.Takes i q) (hp : p.Counted) (hi : i < p.info.elements)
    (hclear : p.info.allocated.isSet i = false) (hroom : p.info.requested < p.info.threshold) :
    q.Counted := by
  have hload := load_eq_succ hi hclear h.elements h.isSet
  have hp := hp.requested_eq
  constructor
  · rw [h.requested, hload, hp, Nat.cast_succ]
  · rw [h.requested, h.threshold]
    omega

theorem takes_takeUnchecked : p.Takes i (p.takeUnchecked i callsite globalCt).2 :=
  ⟨rfl, fun j => BitArray.isSet_set p.info.allocated i j, rfl, rfl⟩

theorem takes_takeSlot : p.Takes i (p.takeSlot i callsite globalCt).2 := by
  rw [takeSlot]
  dsimp only
  split
  · exact ⟨rfl, fun j => BitArray.isSet_set p.info.allocated i j, rfl, rfl⟩
  · exact ⟨rfl, fun j => BitArray.isSet_set p.info.allocated i j, rfl, rfl⟩

theorem allocObject_eq_probe (p : DieFastPartition) (rngs : List Word) :
    p.allocObject callsite globalCt rngs =
      probe (fun p i => p.takeSlot i callsite globalCt) p rngs := by
  induction rngs generalizing p with
  | nil => rfl
  | cons rng rngs ih =>
    rw [allocObject, probe]
    split
    · rfl
    · dsimp only
      split
      · exact ih p
      · split <;> simp_all

/-- What a call of `allocObject` leaves behind, with a slot or without. -/
structure ProbeSpec (p : DieFastPartition) (r : Option Word × DieFastPartition) : Prop where
  counted : r.2.Counted
  load_le : p.load ≤ r.2.load
  threshold : r.2.info.threshold = p.info.threshold
  refused : r.1 = none → r.2.info.threshold ≤ r.2.load
  granted : r.1 ≠ none → p.load < r.2.load

theorem probeSpec {take : DieFastPartition → Nat → Option Word × DieFastPartition}
    (htake : ∀ (p : DieFastPartition) (i : Nat), p.Takes i (take p i).2)
    {rngs : List Word} {r : Option Word × DieFastPartition}
    (hp : p.Counted) (h : probe take p rngs = some r) : ProbeSpec p r := by
  induction rngs generalizing p with
  | nil =>
    rw [probe] at h
    split at h
    case isTrue hfull =>
      cases h
      refine ⟨hp, Nat.le_refl _, rfl, ?_, fun hne => absurd rfl hne⟩
      intro _
      rw [hp.requested_eq] at hfull
      exact Int.ofNat_le.mp hfull
    case isFalse => contradiction
  | cons rng rngs ih =>
    rw [probe] at h
    split at h
    case isTrue hfull =>
      cases h
      refine ⟨hp, Nat.le_refl _, rfl, ?_, fun hne => absurd rfl hne⟩
      intro _
      rw [hp.requested_eq] at hfull
      exact Int.ofNat_le.mp hfull
    case isFalse hroom =>
      dsimp only at h
      split at h
      case isTrue => exact ih hp h
      case isFalse hclear =>
        have hclear := Bool.eq_false_iff.mpr hclear
        have hin := p.mask_lt rng
        generalize (rng &&& BitVec.ofNat 32 (p.info.elements - 1)).toNat = i at h hclear hin
        have htakes := htake p i
        have hcounted := htakes.counted hp hin hclear (Int.not_le.mp hroom)
        have hload := load_eq_succ hin hclear htakes.elements htakes.isSet
        split at h
        case h_1 ptr q hq =>
          cases h
          rw [hq] at htakes hcounted hload
          exact ⟨hcounted, by omega, htakes.threshold, fun hne => absurd hne (Option.some_ne_none ptr),
            fun _ => by omega⟩
        case h_2 q hq =>
          rw [hq] at htakes hcounted hload
          have hrest := ih hcounted h
          have hle := hrest.load_le
          exact ⟨hrest.counted, by omega, hrest.threshold.trans htakes.threshold, hrest.refused,
            fun _ => by omega⟩

theorem Counted.alloc (hp : p.Counted) {rngs : List Word} {r : Option Word × DieFastPartition}
    (h : p.alloc dieFast callsite globalCt rngs = some r) : ProbeSpec p r := by
  cases dieFast with
  | false => exact probeSpec (fun _ _ => takes_takeUnchecked) hp h
  | true => exact probeSpec (fun _ _ => takes_takeSlot) hp ((allocObject_eq_probe p rngs).symm.trans h)

/-- The lines that release a slot take one off the count. -/
structure Releases (p : DieFastPartition) (i : Nat) (q : DieFastPartition) : Prop where
  requested : q.info.requested = p.info.requested - 1
  isSet : ∀ j, q.info.allocated.isSet j = (p.info.allocated.isSet j && decide (j ≠ i))
  threshold : q.info.threshold = p.info.threshold
  elements : q.info.elements = p.info.elements

theorem Releases.counted (h : p.Releases i q) (hp : p.Counted) (hi : i < p.info.elements)
    (hbit : p.info.allocated.isSet i = true) : q.Counted := by
  have hload := load_eq_pred hi hbit h.elements h.isSet
  have hle := hp.requested_le
  have hp := hp.requested_eq
  constructor
  · rw [h.requested]
    omega
  · rw [h.requested, h.threshold]
    omega

theorem releases_releaseSlot : p.Releases i (p.releaseSlot i callsite globalCt) :=
  ⟨rfl, fun j => BitArray.isSet_reset p.info.allocated i j, rfl, rfl⟩

/-- A pointer at which a slot starts. -/
theorem objectIndex_eq_some {ptr : Word} (h : p.info.objectIndex ptr = some i)
    (hin : (ptr - p.info.partitionStart).toNat < partitionSize) :
    i < p.info.elements ∧ ptr = p.slotStart i := by
  have hclass := p.info.class_lt
  simp only [numberOfClasses] at hclass
  simp only [PartitionInfo.objectIndex] at h
  split at h
  case isTrue hmask =>
    rw [p.info.size_eq] at hmask
    have hdvd := dvd_of_and_not_two_pow_sub_one (by omega) hmask
    obtain ⟨k, hk⟩ := hdvd
    have hi : i = k := by
      rw [← Option.some.inj h, hk, Nat.shiftRight_eq_div_pow, Nat.mul_div_cancel_left _ (Nat.two_pow_pos _)]
    constructor
    · have hsize : p.info.elements * 2 ^ (p.info.sizeClass + 3) = partitionSize := by
        rw [p.info.elements_eq_pow, ← Nat.pow_add,
          show 19 - p.info.sizeClass + (p.info.sizeClass + 3) = 22 by omega]
        rfl
      rw [hk, ← hsize, Nat.mul_comm] at hin
      rw [hi]
      exact Nat.lt_of_mul_lt_mul_right hin
    · rw [slotStart, hi, p.info.size_eq, Nat.mul_comm, ← hk, BitVec.ofNat_toNat, BitVec.setWidth_eq,
        add_comm, sub_add_cancel]
  case isFalse => contradiction

theorem checkNot_cleanSlot (hi : i < p.info.elements) (hnext : i + 1 < p.info.elements) :
    (p.cleanSlot (p.slotStart i) i).memory.checkNot (p.wordIndex (p.slotStart (i + 1))) p.info.size
      p.sentinel = p.memory.checkNot (p.wordIndex (p.slotStart (i + 1))) p.info.size p.sentinel := by
  rw [Words.checkNot, Words.checkNot, Bool.eq_iff_iff, List.any_eq_true, List.any_eq_true]
  apply exists_congr
  intro j
  apply and_congr_right
  intro hj
  rw [p.wordIndex_slotStart hnext]
  have hsame := p.fill_slot p.sentinel (i := i + 1) hi (List.mem_range.mp hj)
  rw [if_neg (Nat.succ_ne_self i)] at hsame
  rw [← hsame]
  rfl

/-- A slot is overflown behind the freed one only if it was before the free. -/
theorem releases_checkOverflow (hq : p.Releases i q) (hi : i < p.info.elements)
    (hbehind : ¬ p.OverflownBehind i) (hinfo : q.info.partitionStart = p.info.partitionStart)
    (hsize : q.info.size = p.info.size) (hsentinel : q.sentinel = p.sentinel)
    (hdata : q.info.hasData.isSet (i + 1) = p.info.hasData.isSet (i + 1))
    (hcheck : i + 1 < p.info.elements → q.memory.checkNot (p.wordIndex (p.slotStart (i + 1)))
      p.info.size p.sentinel = p.memory.checkNot (p.wordIndex (p.slotStart (i + 1))) p.info.size
        p.sentinel) : p.Releases i (q.checkOverflow (p.slotStart i) i) := by
  rw [checkOverflow]
  split
  case isTrue htest =>
    obtain ⟨hlt, hclear, hcorrupt⟩ := htest
    rw [hq.elements] at hlt
    have hnext : i + 1 < p.info.elements := by omega
    have hslot : q.wordIndex (p.slotStart i + BitVec.ofNat 32 q.info.size) =
        p.wordIndex (p.slotStart (i + 1)) := by
      rw [hsize, p.slotStart_succ, wordIndex, hinfo, wordIndex]
    rw [hslot, hsize, hsentinel, hcheck hnext] at hcorrupt
    have hbit : p.info.allocated.isSet (i + 1) = true := by
      cases hbit : p.info.allocated.isSet (i + 1) with
      | true => rfl
      | false => exact absurd ⟨hnext, hdata ▸ hclear, hbit, hcorrupt⟩ hbehind
    refine ⟨hq.requested, ?_, hq.threshold, hq.elements⟩
    intro j
    refine (BitArray.isSet_set q.info.allocated (i + 1) j).trans ?_
    rw [hq.isSet]
    by_cases hj : j = i + 1
    · simp [hj, hbit]
    · simp [hj]
  case isFalse => exact hq

theorem releases_forceFreeIndex (hi : i < p.info.elements) (hbehind : ¬ p.OverflownBehind i)
    (callsite globalCt rng : Word) :
    p.Releases i (p.forceFreeIndex (p.slotStart i) i callsite globalCt rng) := by
  have hreleased : p.Releases i (p.releaseSlot i callsite globalCt) := releases_releaseSlot
  have hcleaned : p.Releases i ((p.releaseSlot i callsite globalCt).cleanSlot (p.slotStart i) i) :=
    ⟨hreleased.requested, hreleased.isSet, rfl, rfl⟩
  rw [forceFreeIndex]
  split
  · apply releases_checkOverflow hcleaned hi hbehind rfl rfl rfl
    · refine (BitArray.isSet_reset p.info.hasData i (i + 1)).trans ?_
      simp
    · exact fun hnext => checkNot_cleanSlot hi hnext
  · exact releases_checkOverflow hreleased hi hbehind rfl rfl rfl rfl fun _ => rfl

theorem Counted.free (hp : p.Counted) {ptr : Word} (rng : Word)
    (hin : (ptr - p.info.partitionStart).toNat < partitionSize)
    (hok : ∀ i, p.info.objectIndex ptr = some i →
      p.info.allocated.isSet i = true ∧ (dieFast = true → ¬ p.OverflownBehind i)) :
    (p.free dieFast ptr callsite globalCt rng).Counted := by
  rw [DieFastPartition.free, freeObject]
  cases hindex : p.info.objectIndex ptr with
  | none => cases dieFast <;> exact hp
  | some i =>
    obtain ⟨hbit, hbehind⟩ := hok i hindex
    obtain ⟨hi, rfl⟩ := objectIndex_eq_some hindex hin
    cases dieFast with
    | false => exact releases_releaseSlot.counted hp hi hbit
    | true => exact (releases_forceFreeIndex hi (hbehind rfl) callsite globalCt rng).counted hp hi hbit

theorem Counted.accounted (hp : p.Counted) : Accounted dieFast p := by
  have hrequested := hp.requested_eq
  refine ⟨hrequested, by omega, hp.requested_le, ?_, ?_, ?_⟩
  · intro hfull callsite globalCt rngs
    have hfull : (p.info.threshold : Int) ≤ p.info.requested := by omega
    cases dieFast with
    | false => cases rngs <;> exact if_pos hfull
    | true => cases rngs <;> exact if_pos hfull
  · intro callsite globalCt rngs q hq
    exact (hp.alloc hq).refused rfl
  · intro callsite globalCt rngs ptr q hq
    have hspec := hp.alloc hq
    have hlt := hspec.granted (Option.some_ne_none ptr)
    have hcounted := hspec.counted.requested_eq
    have hle := hspec.counted.requested_le
    rw [hspec.threshold] at hle ⊢
    dsimp only at hlt hcounted hle ⊢
    omega

theorem counted_initialized {sizeClass : Nat} (h : sizeClass < numberOfClasses) (threshold : Nat)
    (start sentinel flags : Word) (memory : Words) :
    (initialized sizeClass h threshold start sentinel flags memory).Counted := by
  have hload : (initialized sizeClass h threshold start sentinel flags memory).load = 0 := by
    apply Nat.count_of_forall_not
    intro i _
    simp [initialized, DieFastPartition.initial, PartitionInfo.initial, BitArray.isSet]
  constructor
  · rw [hload]
    rfl
  · exact Int.natCast_nonneg threshold

end DieFastPartition

namespace PartitionAction

open DieFastPartition

variable {dieFast : Bool} {p q : DieFastPartition}

theorem counted_next {a : PartitionAction} (hp : p.Counted) (hok : counts dieFast p a)
    (hn : next dieFast p a = some q) : q.Counted := by
  cases a with
  | alloc callsite globalCt rngs =>
    obtain ⟨r, hr, rfl⟩ := Option.map_eq_some_iff.mp hn
    exact (hp.alloc hr).counted
  | free ptr callsite globalCt rng =>
    cases hn
    exact hp.free rng hok.1 hok.2
  | write memory =>
    cases hn
    exact ⟨hp.requested_eq, hp.requested_le⟩

/-- As long as frees are of allocated slots with no overflown free slot behind them, the count is the load
of the partition, whatever else the program does. -/
theorem reach_accounted {sizeClass : Nat} {h : sizeClass < numberOfClasses} {threshold : Nat}
    {start sentinel flags : Word} {memory : Words}
    (hr : Reach (next dieFast) (counts dieFast)
      (initialized sizeClass h threshold start sentinel flags memory) p) : Accounted dieFast p := by
  have hp : p.Counted := by
    apply hr.invariant (I := Counted)
    · exact counted_initialized h threshold start sentinel flags memory
    · intro r a r' hr hok hn
      exact counted_next hr hok hn
  exact hp.accounted

instance (p : DieFastPartition) : (a : PartitionAction) → Decidable (inPartition p a)
  | .alloc _ _ _ => instDecidableTrue
  | .free _ _ _ _ => inferInstanceAs (Decidable (_ < _))
  | .write _ => instDecidableTrue

instance (p : DieFastPartition) : (a : PartitionAction) → Decidable (counts dieFast p a)
  | .alloc _ _ _ => instDecidableTrue
  | .free ptr _ _ _ => by
    refine @instDecidableAnd _ _ _ ?_
    cases p.info.objectIndex ptr with
    | none => exact isTrue (fun _ h => nomatch h)
    | some i => exact decidable_of_iff (p.info.allocated.isSet i = true ∧
        (dieFast = true → ¬ p.OverflownBehind i)) ⟨fun h _ hi => Option.some.inj hi ▸ h, fun h => h i rfl⟩
  | .write _ => instDecidableTrue

def sixteen : DieFastPartition :=
  initialized 0 numberOfClasses_pos 16 0x40000000#32 0x9efbdbb3#32 0 fun _ => 0

def retiredNeighbour : List PartitionAction :=
  [.alloc 1 1 [7], .alloc 1 2 [7, 8], .write fun w => if w = 18 then 5 else 0x9efbdbb3#32,
    .alloc 1 3 [9, 10], .free 0x40000040#32 2 3 0]

private theorem reach_retiredNeighbour : Reach (next true) (counts true) sixteen
    (final (next true) sixteen retiredNeighbour) :=
  reach_final (guarded_of_bool (by decide +kernel)) (by decide +kernel)

theorem accounted_retiredNeighbour :
    Accounted true (final (next true) sixteen retiredNeighbour) ∧
    (final (next true) sixteen retiredNeighbour).info.requested = 3 :=
  ⟨reach_accounted reach_retiredNeighbour, by decide +kernel⟩

def doubleFree : List PartitionAction :=
  [.alloc 1 1 [7], .free 0x40000038#32 2 2 0, .free 0x40000038#32 2 2 0]

/-- The count falls below zero. -/
theorem not_accounted : ∃ p, Reach (next true) inPartition sixteen p ∧ ¬ Accounted true p := by
  refine ⟨final (next true) sixteen doubleFree,
    reach_final (guarded_of_bool (by decide +kernel)) (by decide +kernel), ?_⟩
  intro h
  have hrequested : (final (next true) sixteen doubleFree).info.requested = -1 := by decide +kernel
  have hnonneg := h.nonneg
  rw [hrequested] at hnonneg
  contradiction

end PartitionAction

end DieHard.Exterminator
