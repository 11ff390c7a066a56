import DieHard.Lib.Transition
import DieHard.Exterminator.Partition
import DieHard.Util.Size

/-!
# A partition that looks for overflows

With `DIEHARD_DIEFAST`, free slots hold a sentinel in every word, half of the time. A bit `_hasData` for
each slot says whether it need not: `malloc` looks at the slot that it takes, `free` at the slot behind
the one that it gives back. `DIEHARD_REPLICATED` is 0, as in the build of `libdiefast.so`.
-/

namespace DieHard.Exterminator

open Transition

abbrev Words := Nat → Word

namespace Words

/-- `checkNot`: a word of the buffer at `l` differs from `val`. -/
def checkNot (memory : Words) (l sz : Nat) (val : Word) : Bool :=
  (List.range (sz / 4)).any fun i => memory (l + i) ≠ val

/-- `fill`; each round of the loop writes two words. -/
def fill (memory : Words) (l sz : Nat) (val : Word) : Words :=
  fun w => if l ≤ w ∧ w < l + 2 * (sz / 8) then val else memory w

variable {memory : Words} {l sz w : Nat} {val : Word}

theorem checkNot_eq_false (h : ∀ i < sz / 4, memory (l + i) = val) : memory.checkNot l sz val = false := by
  rw [checkNot, List.any_eq_false]
  intro i hi
  simp [h i (List.mem_range.mp hi)]

theorem fill_inside (hl : l ≤ w) (hw : w < l + 2 * (sz / 8)) : memory.fill l sz val w = val :=
  if_pos ⟨hl, hw⟩

theorem fill_outside (hw : w < l ∨ l + 2 * (sz / 8) ≤ w) : memory.fill l sz val w = memory w := by
  apply if_neg
  omega

end Words

/-- A partition of a DieFast heap with its memory. -/
structure DieFastPartition where
  info : PartitionInfo
  memory : Words
  sentinel : Word
  /-- `_heap_config_flags` -/
  flags : Word
  /-- how often `diefast_error` has been called -/
  errors : Nat

namespace DieFastPartition

/-- `DIEHARD_BAD_REPLICA` -/
def badReplica : Word := 2#32

/-- `diefast_error`; whether the program goes on is left open. -/
def diefastError (p : DieFastPartition) : DieFastPartition :=
  { p with flags := p.flags ||| badReplica, errors := p.errors + 1 }

/-- `initialize`, which fills the partition at once. -/
def initial (sizeClass : Nat) (h : sizeClass < numberOfClasses) (start sentinel flags : Word)
    (memory : Words) : DieFastPartition where
  info := .initial sizeClass h start
  memory := memory.fill 0 (partitionSize / 2 ^ (sizeClass + 3) * 2 ^ (sizeClass + 3)) sentinel
  sentinel := sentinel
  flags := flags
  errors := 0

/-- The word at address `ptr`. -/
def wordIndex (p : DieFastPartition) (ptr : Word) : Nat := (ptr - p.info.partitionStart).toNat / 4

/-- The address of slot `objectIndex`. -/
def slotStart (p : DieFastPartition) (objectIndex : Nat) : Word :=
  p.info.partitionStart + BitVec.ofNat 32 (objectIndex * p.info.size)

/-- The lines of `allocObject` from the successful `tryToSet` on; there is no object where the slot has
been written to. -/
def takeSlot (p : DieFastPartition) (objectIndex : Nat) (callsite globalCt : Word) :
    Option Word × DieFastPartition :=
  let ptr := p.slotStart objectIndex
  let info : PartitionInfo := { p.info with
    requested := p.info.requested + 1
    allocated := p.info.allocated.set objectIndex }
  let p : DieFastPartition := { p with info := info }
  if !p.info.hasData.isSet objectIndex && p.memory.checkNot (p.wordIndex ptr) p.info.size p.sentinel then
    (none, p.diefastError)
  else
    let info : PartitionInfo := { p.info with hasData := p.info.hasData.set objectIndex }
    let memory := p.memory.fill (p.wordIndex ptr) p.info.size 0
    (some ptr, { p with info := info.allocEvent objectIndex callsite globalCt, memory := memory })

/-- `allocObject` with the numbers that the generator draws; the answer is `none` where they run out in
the loop. -/
def allocObject (callsite globalCt : Word) :
    DieFastPartition → List Word → Option (Option Word × DieFastPartition)
  | p, rngs =>
    if p.info.threshold ≤ p.info.requested then some (none, p)
    else
      match rngs with
      | [] => none
      | rng :: rngs =>
        let objectIndex := (rng &&& BitVec.ofNat 32 (p.info.elements - 1)).toNat
        if p.info.allocated.isSet objectIndex then allocObject callsite globalCt p rngs
        else
          match p.takeSlot objectIndex callsite globalCt with
          | (some ptr, p) => some (some ptr, p)
          | (none, p) => allocObject callsite globalCt p rngs
  termination_by structural _ rngs => rngs

/-- `checkOverflow`; the test of the slot before is switched off. -/
def checkOverflow (p : DieFastPartition) (ptr : Word) (index : Nat) : DieFastPartition :=
  if index < p.info.elements - 1 ∧ p.info.hasData.isSet (index + 1) = false ∧
      p.memory.checkNot (p.wordIndex (ptr + BitVec.ofNat 32 p.info.size)) p.info.size p.sentinel then
    let info : PartitionInfo := { p.info with allocated := p.info.allocated.set (index + 1) }
    ({ p with info := info } : DieFastPartition).diefastError
  else p

/-- The lines of `forceFreeIndex` up to the metadata. -/
def releaseSlot (p : DieFastPartition) (objectIndex : Nat) (callsite globalCt : Word) : DieFastPartition :=
  let info : PartitionInfo := { p.info with
    requested := p.info.requested - 1
    allocated := p.info.allocated.reset objectIndex }
  { p with info := info.freeEvent objectIndex callsite globalCt }

/-- The branch of `forceFreeIndex` that fills the slot. -/
def cleanSlot (p : DieFastPartition) (ptr : Word) (objectIndex : Nat) : DieFastPartition :=
  let info : PartitionInfo := { p.info with hasData := p.info.hasData.reset objectIndex }
  { p with info := info, memory := p.memory.fill (p.wordIndex ptr) p.info.size p.sentinel }

/-- `forceFreeIndex`; `rng` is the coin. -/
def forceFreeIndex (p : DieFastPartition) (ptr : Word) (objectIndex : Nat) (callsite globalCt rng : Word) :
    DieFastPartition :=
  let p := p.releaseSlot objectIndex callsite globalCt
  let p := if p.flags &&& badReplica = 0 ∧ rng % 2 = 0 then p.cleanSlot ptr objectIndex else p
  p.checkOverflow ptr objectIndex

def freeObject (p : DieFastPartition) (ptr callsite globalCt rng : Word) : DieFastPartition :=
  match p.info.objectIndex ptr with
  | none => p
  | some objectIndex => p.forceFreeIndex ptr objectIndex callsite globalCt rng

section Slots

variable (p : DieFastPartition) {i j w : Nat}

theorem size_eq_words : p.info.size = 4 * (p.info.size / 4) := (Nat.mul_div_cancel' p.info.dvd_size).symm

theorem two_mul_div_eight : 2 * (p.info.size / 8) = p.info.size / 4 := by
  have hsize : p.info.size = 2 ^ p.info.sizeClass * 8 := p.info.size_eq.trans (Nat.pow_add 2 _ 3)
  omega

theorem mul_size_lt (hi : i < p.info.elements) : i * p.info.size < 2 ^ 32 := by
  have hend := p.info.slot_end_le hi
  simp only [partitionSize] at hend
  omega

theorem toNat_slotStart_sub (hi : i < p.info.elements) :
    (p.slotStart i - p.info.partitionStart).toNat = i * p.info.size := by
  have hlt := p.mul_size_lt hi
  rw [slotStart, add_sub_cancel_left, BitVec.toNat_ofNat, Nat.mod_eq_of_lt hlt]

theorem wordIndex_slotStart (hi : i < p.info.elements) :
    p.wordIndex (p.slotStart i) = i * (p.info.size / 4) := by
  rw [wordIndex, p.toNat_slotStart_sub hi, Nat.mul_div_assoc i p.info.dvd_size]

theorem mask_lt (rng : Word) :
    (rng &&& BitVec.ofNat 32 (p.info.elements - 1)).toNat < p.info.elements := by
  have hpos : 0 < p.info.elements := by
    rw [p.info.elements_eq_pow]
    exact Nat.two_pow_pos _
  have hlt := p.info.elements_lt
  have hle : (rng &&& BitVec.ofNat 32 (p.info.elements - 1)).toNat ≤ p.info.elements - 1 := by
    rw [BitVec.toNat_and, BitVec.toNat_ofNat, Nat.mod_eq_of_lt (by omega)]
    exact Nat.and_le_right
  omega

theorem wordIndex_inside {address : Word} (hi : i < p.info.elements)
    (hin : (address - p.slotStart i).toNat < p.info.size) :
    ∃ j < p.info.size / 4, p.wordIndex address = i * (p.info.size / 4) + j := by
  have hsize := p.size_eq_words
  have hlast := p.info.slot_end_le hi
  have hoffset : (address - p.info.partitionStart).toNat =
      i * p.info.size + (address - p.slotStart i).toNat := by
    have hsum : address - p.info.partitionStart =
        (p.slotStart i - p.info.partitionStart) + (address - p.slotStart i) := by
      rw [add_comm, sub_add_sub_cancel]
    rw [hsum, BitVec.toNat_add, p.toNat_slotStart_sub hi, Nat.mod_eq_of_lt]
    simp only [partitionSize] at hlast
    omega
  refine ⟨(address - p.slotStart i).toNat / 4, by omega, ?_⟩
  rw [wordIndex, hoffset]
  generalize (address - p.slotStart i).toNat = o
  have hslot : i * p.info.size = 4 * (i * (p.info.size / 4)) := by
    rw [← Nat.mul_assoc, Nat.mul_comm 4 i, Nat.mul_assoc, ← hsize]
  omega

theorem slotStart_succ (i : Nat) : p.slotStart i + BitVec.ofNat 32 p.info.size = p.slotStart (i + 1) := by
  rw [slotStart, slotStart, BitVec.add_assoc, Nat.succ_mul, BitVec.ofNat_add]

theorem slotStart_inj (hi : i < p.info.elements) (hj : j < p.info.elements)
    (h : p.slotStart i = p.slotStart j) : i = j := by
  have hpos : 0 < p.info.size := by
    rw [p.info.size_eq]
    exact Nat.two_pow_pos _
  have hsub := p.toNat_slotStart_sub hi
  rw [h, p.toNat_slotStart_sub hj] at hsub
  exact (Nat.eq_of_mul_eq_mul_right hpos hsub).symm

theorem objectIndex_slotStart (hi : i < p.info.elements) :
    p.info.objectIndex (p.slotStart i) = some i := p.info.objectIndex_start hi

end Slots

/-- A `fill` of slot `k` changes the words of slot `k`. -/
theorem fill_slot (p : DieFastPartition) {i j k : Nat} (val : Word) (hk : k < p.info.elements)
    (hj : j < p.info.size / 4) :
    p.memory.fill (p.wordIndex (p.slotStart k)) p.info.size val (i * (p.info.size / 4) + j) =
      if i = k then val else p.memory (i * (p.info.size / 4) + j) := by
  rw [p.wordIndex_slotStart hk]
  split
  · rename_i heq
    subst heq
    apply Words.fill_inside
    · omega
    · rw [p.two_mul_div_eight]
      omega
  · rename_i hne
    apply Words.fill_outside
    rw [p.two_mul_div_eight]
    rcases Nat.lt_or_gt_of_ne hne with hlt | hgt
    · left
      have hle : (i + 1) * (p.info.size / 4) ≤ k * (p.info.size / 4) := Nat.mul_le_mul_right _ hlt
      rw [Nat.succ_mul] at hle
      omega
    · right
      have hle : (k + 1) * (p.info.size / 4) ≤ i * (p.info.size / 4) := Nat.mul_le_mul_right _ hgt
      rw [Nat.succ_mul] at hle
      omega

/-- A slot whose bit `_hasData` is clear holds the sentinel in every word. -/
def Clean (p : DieFastPartition) : Prop :=
  ∀ i < p.info.elements, p.info.hasData.isSet i = false → ∀ j < p.info.size / 4,
    p.memory (i * (p.info.size / 4) + j) = p.sentinel

/-- The allocated slots are those that the program holds, and nothing has been reported. -/
structure Sound (p : DieFastPartition) (live : Finset Word) : Prop where
  allocated : ∀ i, p.info.allocated.isSet i = true → i < p.info.elements ∧ p.slotStart i ∈ live
  live : ∀ ptr ∈ live, ∃ i < p.info.elements, ptr = p.slotStart i ∧ p.info.allocated.isSet i = true
  hasData : ∀ i, p.info.allocated.isSet i = true → p.info.hasData.isSet i = true
  clean : p.Clean
  errors : p.errors = 0

theorem Clean.checkNot_slot {p : DieFastPartition} (hc : p.Clean) {i : Nat} (hi : i < p.info.elements)
    (hclear : p.info.hasData.isSet i = false) :
    p.memory.checkNot (p.wordIndex (p.slotStart i)) p.info.size p.sentinel = false := by
  apply Words.checkNot_eq_false
  intro j hj
  rw [p.wordIndex_slotStart hi]
  exact hc i hi hclear j hj

section Operations

variable {p : DieFastPartition} {live : Finset Word} {i : Nat} {callsite globalCt : Word}

theorem Sound.takeSlot (hs : p.Sound live) (hi : i < p.info.elements)
    (hfree : p.info.allocated.isSet i = false) (callsite globalCt : Word) :
    ∃ p', p.takeSlot i callsite globalCt = (some (p.slotStart i), p') ∧
      p'.Sound (insert (p.slotStart i) live) := by
  have hcheck : (!p.info.hasData.isSet i &&
      p.memory.checkNot (p.wordIndex (p.slotStart i)) p.info.size p.sentinel) = false := by
    cases hdata : p.info.hasData.isSet i with
    | true => rfl
    | false => exact hs.clean.checkNot_slot hi hdata
  refine ⟨_, if_neg (Bool.eq_false_iff.mp hcheck), ?_⟩
  constructor
  · intro k hk
    have hk : p.info.allocated.isSet k = true ∨ k = i := by
      simpa [PartitionInfo.allocEvent, BitArray.isSet_set] using hk
    rcases hk with hk | rfl
    · exact ⟨(hs.allocated k hk).1, Finset.mem_insert_of_mem (hs.allocated k hk).2⟩
    · exact ⟨hi, Finset.mem_insert_self _ _⟩
  · intro ptr hptr
    rcases Finset.mem_insert.mp hptr with rfl | hptr
    · exact ⟨i, hi, rfl, by simp [PartitionInfo.allocEvent, BitArray.isSet_set]⟩
    · obtain ⟨k, hk, rfl, hset⟩ := hs.live ptr hptr
      exact ⟨k, hk, rfl, by simp [PartitionInfo.allocEvent, BitArray.isSet_set, hset]⟩
  · intro k hk
    have hk : p.info.allocated.isSet k = true ∨ k = i := by
      simpa [PartitionInfo.allocEvent, BitArray.isSet_set] using hk
    show (p.info.hasData.set i).isSet k = true
    rw [BitArray.isSet_set]
    rcases hk with hk | rfl
    · simp [hs.hasData k hk]
    · simp
  · intro k hk hdata j hj
    have hdata : p.info.hasData.isSet k = false ∧ k ≠ i := by
      simpa [PartitionInfo.allocEvent, BitArray.isSet_set] using hdata
    refine (p.fill_slot 0 hi hj).trans ?_
    rw [if_neg hdata.2]
    exact hs.clean k hk hdata.1 j hj
  · exact hs.errors

theorem Sound.allocObject (hs : p.Sound live) {rngs : List Word} {object : Option Word}
    {p' : DieFastPartition} (ha : p.allocObject callsite globalCt rngs = some (object, p')) :
    p'.Sound (object.elim live fun ptr => insert ptr live) := by
  induction rngs with
  | nil =>
    rw [DieFastPartition.allocObject] at ha
    split at ha <;> cases ha
    exact hs
  | cons rng rngs ih =>
    rw [DieFastPartition.allocObject] at ha
    split at ha
    · cases ha
      exact hs
    · dsimp only at ha
      split at ha
      · exact ih ha
      · rename_i hfree
        obtain ⟨q, htake, hq⟩ := hs.takeSlot (p.mask_lt rng) (Bool.eq_false_iff.mpr hfree) callsite globalCt
        rw [htake] at ha
        cases ha
        exact hq

theorem Sound.checkOverflow_eq (hs : p.Sound live) (hi : i < p.info.elements) :
    p.checkOverflow (p.slotStart i) i = p := by
  apply if_neg
  rintro ⟨hlt, hclear, hcheck⟩
  rw [p.slotStart_succ, hs.clean.checkNot_slot (by omega) hclear] at hcheck
  cases hcheck

theorem Sound.releaseSlot (hs : p.Sound live) (hi : i < p.info.elements) (callsite globalCt : Word) :
    (p.releaseSlot i callsite globalCt).Sound (live.erase (p.slotStart i)) := by
  have hset (k : Nat) : (p.releaseSlot i callsite globalCt).info.allocated.isSet k = true ↔
      p.info.allocated.isSet k = true ∧ k ≠ i := by
    simp [DieFastPartition.releaseSlot, PartitionInfo.freeEvent, BitArray.isSet_reset]
  constructor
  · intro k hk
    obtain ⟨hk, hne⟩ := (hset k).mp hk
    obtain ⟨hlt, hmem⟩ := hs.allocated k hk
    refine ⟨hlt, Finset.mem_erase_of_ne_of_mem ?_ hmem⟩
    intro heq
    exact hne (p.slotStart_inj hlt hi heq)
  · intro ptr hptr
    obtain ⟨hne, hptr⟩ := Finset.mem_erase.mp hptr
    obtain ⟨k, hk, rfl, hset'⟩ := hs.live ptr hptr
    refine ⟨k, hk, rfl, (hset k).mpr ⟨hset', ?_⟩⟩
    rintro rfl
    exact hne rfl
  · intro k hk
    exact hs.hasData k ((hset k).mp hk).1
  · exact hs.clean
  · exact hs.errors

theorem Sound.cleanSlot (hs : p.Sound live) (hi : i < p.info.elements)
    (hfree : p.info.allocated.isSet i = false) : (p.cleanSlot (p.slotStart i) i).Sound live := by
  constructor
  · exact hs.allocated
  · exact hs.live
  · intro k hk
    show (p.info.hasData.reset i).isSet k = true
    have hne : k ≠ i := by
      rintro rfl
      exact Bool.false_ne_true (hfree.symm.trans hk)
    rw [BitArray.isSet_reset, hs.hasData k hk]
    simp [hne]
  · intro k hk hdata j hj
    refine (p.fill_slot p.sentinel hi hj).trans ?_
    split
    · rfl
    · rename_i hne
      have hdata : p.info.hasData.isSet k = false := by
        simpa [DieFastPartition.cleanSlot, BitArray.isSet_reset, hne] using hdata
      exact hs.clean k hk hdata j hj
  · exact hs.errors

theorem Sound.forceFreeIndex (hs : p.Sound live) (hi : i < p.info.elements) (callsite globalCt rng : Word) :
    (p.forceFreeIndex (p.slotStart i) i callsite globalCt rng).Sound (live.erase (p.slotStart i)) := by
  have hreleased := hs.releaseSlot hi callsite globalCt
  have hfree : (p.releaseSlot i callsite globalCt).info.allocated.isSet i = false := by
    simp [DieFastPartition.releaseSlot, PartitionInfo.freeEvent, BitArray.isSet_reset]
  rw [DieFastPartition.forceFreeIndex]
  split
  · have hcleaned := hreleased.cleanSlot hi hfree
    exact (hcleaned.checkOverflow_eq hi).symm ▸ hcleaned
  · exact (hreleased.checkOverflow_eq hi).symm ▸ hreleased

theorem Sound.freeObject (hs : p.Sound live) {ptr : Word} (hlive : ptr ∈ live)
    (callsite globalCt rng : Word) :
    (p.freeObject ptr callsite globalCt rng).Sound (live.erase ptr) := by
  obtain ⟨i, hi, rfl, -⟩ := hs.live ptr hlive
  rw [DieFastPartition.freeObject, p.objectIndex_slotStart hi]
  exact hs.forceFreeIndex hi callsite globalCt rng

theorem Sound.write (hs : p.Sound live) {ptr address : Word} (hlive : ptr ∈ live)
    (hin : (address - ptr).toNat < p.info.size) (value : Word) :
    Sound { p with memory := Function.update p.memory (p.wordIndex address) value } live := by
  refine ⟨hs.allocated, hs.live, hs.hasData, ?_, hs.errors⟩
  intro k hk hdata j hj
  obtain ⟨i, hi, rfl, hset⟩ := hs.live ptr hlive
  have hne : k ≠ i := by
    rintro rfl
    exact Bool.false_ne_true (hdata.symm.trans (hs.hasData k hset))
  obtain ⟨j', hj', hword⟩ := p.wordIndex_inside hi hin
  show Function.update p.memory (p.wordIndex address) value (k * (p.info.size / 4) + j) = p.sentinel
  rw [Function.update_of_ne, hs.clean k hk hdata j hj]
  rw [hword]
  intro heq
  -- the word of another slot
  have hquot : (k * (p.info.size / 4) + j) / (p.info.size / 4) = k := by
    rw [Nat.mul_comm, Nat.mul_add_div (by omega), Nat.div_eq_of_lt hj, Nat.add_zero]
  rw [heq, Nat.mul_comm, Nat.mul_add_div (by omega), Nat.div_eq_of_lt hj', Nat.add_zero] at hquot
  exact hne hquot.symm

theorem sound_initial {sizeClass : Nat} (h : sizeClass < numberOfClasses)
    (start sentinel flags : Word) (memory : Words) :
    (initial sizeClass h start sentinel flags memory).Sound ∅ := by
  have hclear (i : Nat) : BitArray.isSet (fun _ => 0) i = false := by
    simp [BitArray.isSet]
  constructor
  · intro i hi
    exact absurd hi (Bool.eq_false_iff.mp (hclear i))
  · intro ptr hptr
    exact absurd hptr (Finset.notMem_empty ptr)
  · intro i hi
    exact absurd hi (Bool.eq_false_iff.mp (hclear i))
  · intro i hi _ j hj
    have hle : (i + 1) * (2 ^ (sizeClass + 3) / 4) ≤
        partitionSize / 2 ^ (sizeClass + 3) * (2 ^ (sizeClass + 3) / 4) := Nat.mul_le_mul_right _ hi
    apply Words.fill_inside (Nat.zero_le _)
    have hsize : 2 ^ (sizeClass + 3) = 2 ^ sizeClass * 8 := Nat.pow_add 2 _ 3
    have hj : j < 2 ^ (sizeClass + 3) / 4 := hj
    have hwords : 2 * (partitionSize / 2 ^ (sizeClass + 3) * 2 ^ (sizeClass + 3) / 8) =
        partitionSize / 2 ^ (sizeClass + 3) * (2 ^ (sizeClass + 3) / 4) := by
      rw [hsize, ← Nat.mul_assoc, Nat.mul_div_cancel _ (by decide), show 2 ^ sizeClass * 8 / 4 =
        2 ^ sizeClass * 2 by omega, Nat.mul_comm 2, Nat.mul_assoc]
    rw [hwords]
    show i * (2 ^ (sizeClass + 3) / 4) + j < _
    rw [Nat.succ_mul] at hle
    omega
  · rfl

end Operations

end DieFastPartition

/-- What the program, or the handler of its signals, does. -/
inductive DieFastAction
  | malloc (callsite globalCt : Word) (rngs : List Word)
  | free (ptr callsite globalCt rng : Word)
  /-- The word around `address` becomes `value`. -/
  | write (address value : Word)
  /-- `dump_heap(true)` -/
  | dumpHeap

/-- A partition and the slots that the program holds. -/
structure DieFastSession where
  partition : DieFastPartition
  live : Finset Word

namespace DieFastSession

open DieFastPartition

def next (s : DieFastSession) : DieFastAction → Option DieFastSession
  | .malloc callsite globalCt rngs =>
    (s.partition.allocObject callsite globalCt rngs).map fun (object, partition) =>
      ⟨partition, object.elim s.live fun ptr => insert ptr s.live⟩
  | .free ptr callsite globalCt rng =>
    some ⟨s.partition.freeObject ptr callsite globalCt rng, s.live.erase ptr⟩
  | .write address value =>
    let memory := Function.update s.partition.memory (s.partition.wordIndex address) value
    some { s with partition := { s.partition with memory := memory } }
  | .dumpHeap =>
    let flags := s.partition.flags ||| DieFastPartition.badReplica
    some { s with partition := { s.partition with flags := flags } }

/-- The program frees the start of a slot that it holds, and writes inside of such slots. -/
def correct (s : DieFastSession) : DieFastAction → Prop
  | .malloc _ _ _ => True
  | .free ptr _ _ _ => ptr ∈ s.live
  | .write address _ => ∃ ptr ∈ s.live, (address - ptr).toNat < s.partition.info.size
  | .dumpHeap => True

instance (s : DieFastSession) (a : DieFastAction) : Decidable (s.correct a) :=
  match a with
  | .malloc _ _ _ => isTrue trivial
  | .free ptr _ _ _ => inferInstanceAs (Decidable (ptr ∈ s.live))
  | .write address _ =>
    inferInstanceAs (Decidable (∃ ptr ∈ s.live, (address - ptr).toNat < s.partition.info.size))
  | .dumpHeap => isTrue trivial

theorem sound_next {s s' : DieFastSession} {a : DieFastAction} (hs : s.partition.Sound s.live)
    (hok : s.correct a) (hn : s.next a = some s') : s'.partition.Sound s'.live := by
  cases a with
  | malloc callsite globalCt rngs =>
    obtain ⟨⟨object, partition⟩, ha, rfl⟩ := Option.map_eq_some_iff.mp hn
    exact hs.allocObject ha
  | free ptr callsite globalCt rng =>
    cases hn
    exact hs.freeObject hok callsite globalCt rng
  | write address value =>
    cases hn
    obtain ⟨ptr, hlive, hin⟩ := hok
    exact hs.write hlive hin value
  | dumpHeap =>
    cases hn
    exact ⟨hs.allocated, hs.live, hs.hasData, hs.clean, hs.errors⟩

/-- However the coins fall, the slots whose bit `_hasData` is clear hold the sentinel, `diefast_error` is
not called, and each allocated slot is one that the program holds. -/
theorem reach_noFalseAlarm {sizeClass : Nat} {h : sizeClass < numberOfClasses}
    {start sentinel flags : Word} {memory : Words} {s : DieFastSession}
    (hr : Reach next correct ⟨.initial sizeClass h start sentinel flags memory, ∅⟩ s) :
    s.partition.Clean ∧ s.partition.errors = 0 ∧
      ∀ i, s.partition.info.allocated.isSet i = true → s.partition.slotStart i ∈ s.live := by
  have hs : s.partition.Sound s.live := by
    apply hr.invariant (I := fun s => s.partition.Sound s.live)
    · exact sound_initial h start sentinel flags memory
    · intro r a r' hr hok hn
      exact sound_next hr hok hn
  exact ⟨hs.clean, hs.errors, fun i hi => (hs.allocated i hi).2⟩

def firstSession : DieFastSession :=
  ⟨.initial 0 numberOfClasses_pos 0x40000000#32 0x9efbdbb3#32 1 fun _ => 0, ∅⟩

def neighbourRun : List DieFastAction :=
  [.malloc 1 1 [0], .malloc 1 2 [0, 1], .free 0x40000008#32 2 2 0, .free 0x40000000#32 2 2 0]

theorem noFalseAlarm_neighbour : (final next firstSession neighbourRun).partition.Clean ∧
    (final next firstSession neighbourRun).partition.errors = 0 ∧
    ∀ i, (final next firstSession neighbourRun).partition.info.allocated.isSet i = true →
      (final next firstSession neighbourRun).partition.slotStart i ∈
        (final next firstSession neighbourRun).live :=
  reach_noFalseAlarm (reach_final (guarded_of_bool (by decide +kernel)) (by decide +kernel))

end DieFastSession

end DieHard.Exterminator
