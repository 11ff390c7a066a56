import DieHard.Exterminator.CompareWords
import DieHard.Exterminator.RoundTrip

/-!
# Looking up an object by its allocation

`make_partition_maps` goes through all slots of all partitions and remembers for each allocation the last
slot that has its number. The lookups of a partition assert that the place is in this partition, so that
they abort where they should say that the object is gone.
-/

namespace DieHard.Exterminator

open Codec

namespace Pinfo

/-- Slot `j` has allocation `id`. -/
def HasId (p : Pinfo) (j : Nat) (id : Word) : Prop :=
  j < p.elements.toNat ∧ (p.slotInfo.getD j ⟨0, 0, 0, 0⟩).id = id

instance (p : Pinfo) (j : Nat) (id : Word) : Decidable (p.HasId j id) :=
  inferInstanceAs (Decidable (_ ∧ _))

theorem mem_slots {p : Pinfo} {id : Word} {j : Nat} : (id, j) ∈ p.slots ↔ p.HasId j id := by
  simp only [slots, List.mem_map, List.mem_range, Prod.mk.injEq, HasId]
  constructor
  · intro ⟨k, hk, hid, hkj⟩
    subst hkj
    exact ⟨hk, hid⟩
  · intro ⟨hj, hid⟩
    exact ⟨j, hj, hid, rfl⟩

end Pinfo

namespace PinfoPtr

variable (p : PinfoPtr)

/-- `IDtoDX(id)`. The answer is `none` where an assertion fails; an allocation without a slot has the entry
(-1, -1), which is of no partition. -/
def idToDx (id : Word) : Option Int :=
  if id < p.rep.file.globalAllocs then (p.pmap id).map Int.ofNat else none

/-- `DXhasData(which)` -/
def dxHasData (which : Int) : Option Bool :=
  if 0 ≤ which ∧ which.toNat < p.info.elements.toNat then some (p.info.dxHasData which.toNat) else none

/-- `DXallocated(which)` -/
def dxAllocated (which : Int) : Option Bool :=
  if 0 ≤ which ∧ which.toNat < p.info.elements.toNat then some (p.info.dxAllocated which.toNat) else none

/-- `IDhasData(which)` -/
def idHasData (which : Word) : Option Bool := do
  let dx ← p.idToDx which
  if dx ≠ -1 then p.dxHasData dx else some false

/-- `IDallocated(which)` -/
def idAllocated (which : Word) : Option Bool := do
  let dx ← p.idToDx which
  if dx ≠ -1 then p.dxAllocated dx else some false

/-- `IDtoPointer(idx)`: the first word of the object in the heap, or `none` for the address of nothing. -/
def idToPointer (id : Word) : Option (Option Nat) :=
  (p.pmap id).map fun (dx : Nat) => if (dx : Int) ≠ -1 then some (p.dxToPointer dx 0) else none

/-- `check_sentinel(p, dx)` -/
def checkSentinel (dx : Int) : Bool := p.info.checkSentinel p.rep.file.sentinelValue dx.toNat

/-- The tests with which `compare_slot` and `eq_partition` leave out a replica. -/
def leftOut (oid : Word) : Option Bool :=
  if p.rep.file.globalAllocs ≤ oid then some true
  else do
    let dx ← p.idToDx oid
    if dx < 0 then some true
    else do
      let hasData ← p.idHasData oid
      some (!hasData && p.checkSentinel dx)

/-- The answer of `IDtoDX` is a slot with the allocation, or -1 where the partition has none, and no
assertion of the lookups fails. -/
structure Answers (id : Word) : Prop where
  idToDx : ∃ dx, p.idToDx id = some dx ∧ ((∃ j, p.info.HasId j id ∧ dx = j) ∨
    (∀ j, ¬ p.info.HasId j id) ∧ dx = -1)
  idHasData : (p.idHasData id).isSome
  idAllocated : (p.idAllocated id).isSome
  idToPointer : (p.idToPointer id).isSome
  leftOut : (p.leftOut id).isSome

def LastHolder (id : Word) : Prop :=
  (∃ j, p.info.HasId j id) ∧
    ∀ i q, p.index < i → p.rep.file.partitions[i]? = some q → ∀ j, ¬ q.HasId j id

end PinfoPtr

section Map

variable {κ β : Type} [DecidableEq κ]

def fill (l : List (κ × β)) (m : κ → Option β) : κ → Option β :=
  l.foldl (fun m e => Function.update m e.1 (some e.2)) m

theorem fill_cases (l : List (κ × β)) (m : κ → Option β) (k : κ) :
    (∃ v, (k, v) ∈ l ∧ fill l m k = some v) ∨ (∀ v, (k, v) ∉ l) ∧ fill l m k = m k := by
  induction l generalizing m with
  | nil => exact Or.inr ⟨fun _ => List.not_mem_nil, rfl⟩
  | cons e l ih =>
    rw [fill, List.foldl_cons, ← fill]
    rcases ih (Function.update m e.1 (some e.2)) with ⟨v, hv, hfill⟩ | ⟨hnone, hfill⟩
    · exact Or.inl ⟨v, List.mem_cons_of_mem _ hv, hfill⟩
    · by_cases hk : k = e.1
      · subst hk
        rw [Function.update_self] at hfill
        exact Or.inl ⟨e.2, List.mem_cons_self, hfill⟩
      · rw [Function.update_of_ne hk] at hfill
        refine Or.inr ⟨?_, hfill⟩
        intro v hv
        rcases List.mem_cons.mp hv with he | hv
        · exact hk (congrArg Prod.fst he)
        · exact hnone v hv

theorem fill_append (l l' : List (κ × β)) (m : κ → Option β) : fill (l ++ l') m = fill l' (fill l m) :=
  List.foldl_append

end Map

/-- The entries of the partitions, of which the first has number `n`. -/
def slotEntries (partitions : List Pinfo) (n : Nat) : List (Word × Nat × Nat) :=
  (partitions.zipIdx n).flatMap fun (p, i) => p.slots.map fun (id, j) => (id, i, j)

theorem slotEntries_append (ps qs : List Pinfo) (n : Nat) :
    slotEntries (ps ++ qs) n = slotEntries ps n ++ slotEntries qs (n + ps.length) := by
  rw [slotEntries, List.zipIdx_append, List.flatMap_append]
  rfl

theorem mem_slotEntries {partitions : List Pinfo} {n : Nat} {id : Word} {i j : Nat} :
    (id, i, j) ∈ slotEntries partitions n ↔
      ∃ k q, partitions[k]? = some q ∧ i = n + k ∧ q.HasId j id := by
  simp only [slotEntries, List.mem_flatMap, List.mem_map, Prod.exists, Prod.mk.injEq]
  constructor
  · intro ⟨q, i', hq, id', j', hslot, hid, hi, hj⟩
    subst hid hi hj
    rw [List.mem_zipIdx_iff_le_and_getElem?_sub] at hq
    exact ⟨i' - n, q, hq.2, by have := hq.1; dsimp at this; omega, Pinfo.mem_slots.mp hslot⟩
  · intro ⟨k, q, hq, hi, hid⟩
    refine ⟨q, i, ?_, id, j, Pinfo.mem_slots.mpr hid, rfl, rfl, rfl⟩
    rw [List.mem_zipIdx_iff_le_and_getElem?_sub]
    subst hi
    exact ⟨Nat.le_add_right n k, by simpa using hq⟩

theorem storeEntries_eq_fill {β : Type} (field : LosEntry → β) (entries : List LosEntry)
    (los : Word → Option β) :
    storeEntries field entries los = fill (entries.map fun e => (e.vaddr, field e)) los := by
  rw [storeEntries, fill, List.foldl_map]

theorem isSome_storeEntries {β : Type} (field : LosEntry → β) (entries : List LosEntry) (va : Word) :
    (storeEntries field entries (fun _ => none) va).isSome ↔ va ∈ entries.map LosEntry.vaddr := by
  rw [storeEntries_eq_fill]
  rcases fill_cases (entries.map fun e => (e.vaddr, field e)) (fun _ => none) va with
    ⟨v, hv, hfill⟩ | ⟨hnone, hfill⟩
  · obtain ⟨e, he, heq⟩ := List.mem_map.mp hv
    rw [hfill]
    exact iff_of_true rfl (List.mem_map.mpr ⟨e, he, congrArg Prod.fst heq⟩)
  · rw [hfill]
    apply iff_of_false (by simp)
    intro hmem
    obtain ⟨e, he, hva⟩ := List.mem_map.mp hmem
    exact hnone (field e) (List.mem_map.mpr ⟨e, he, by rw [hva]⟩)

theorem yields_readPartition : Yields readPartition fun p => p.sizeInWords = p.size / 4 := by
  refine (yields_true _).bind ?_
  intro size _
  refine (yields_true _).bind ?_
  intro elements _
  refine (yields_true _).bind ?_
  intro vaddrStart _
  refine (yields_true _).bind ?_
  intro bitmap _
  refine (yields_true _).bind ?_
  intro hasData _
  refine (yields_true _).bind ?_
  intro slotInfo _
  refine (yields_true _).bind ?_
  intro heap _
  exact yields_pure rfl

theorem yields_readFile : Yields readFile fun r => (∀ p ∈ r.partitions, p.sizeInWords = p.size / 4) ∧
    ∃ entries, r.losSize = storeEntries LosEntry.size entries fun _ => none := by
  refine (yields_true _).bind ?_
  intro globalAllocs _
  refine (yields_true _).bind ?_
  intro sentinelValue _
  refine (yields_true _).bind ?_
  intro ptrBase _
  refine (yields_true _).bind ?_
  intro stackBase _
  refine (yields_true _).bind ?_
  intro heapConfigFlags _
  refine (yields_true _).bind ?_
  intro numberOfPartitions _
  refine (yields_replicate yields_readPartition _).bind ?_
  intro partitions hpartitions
  refine (yields_true _).bind ?_
  intro numLosEntries _
  refine (yields_true _).bind ?_
  intro entries _
  exact yields_pure ⟨hpartitions, entries, rfl⟩

theorem verifyCanaries_file (r : Replica) :
    r.verifyCanaries.partitions = r.partitions ∧ r.verifyCanaries.losSize = r.losSize := by
  rw [Replica.verifyCanaries]
  split <;> exact ⟨rfl, rfl⟩

theorem readCore_cases {core : List Byte} {file : Replica} {pmap : Word → Option (Nat × Nat)}
    (h : readCore core = some (file, pmap)) : ∃ r rest, readFile (words core) = some (r, rest) ∧
      r.makePartitionMaps = some pmap ∧ file = r.verifyCanaries := by
  obtain ⟨⟨r, rest⟩, hfile, hr⟩ := Option.bind_eq_some_iff.mp h
  obtain ⟨pmap', hmaps, hpair⟩ := Option.bind_eq_some_iff.mp hr
  have hpair := Option.some.inj hpair
  obtain rfl : pmap' = pmap := congrArg Prod.snd hpair
  exact ⟨r, rest, hfile, hmaps, (congrArg Prod.fst hpair).symm⟩

theorem exists_pinfoPtr {core : List Byte} {file : Replica} {pmap : Word → Option (Nat × Nat)}
    (h : readCore core = some (file, pmap)) {i : Nat} {info : Pinfo} (hi : file.partitions[i]? = some info) :
    ∃ p : PinfoPtr, p.rep.file = file ∧ p.rep.pmap = pmap ∧ p.index = i ∧ p.info = info := by
  obtain ⟨r, rest, hfile, -, rfl⟩ := readCore_cases h
  obtain ⟨hsizes, entries, hlos⟩ := yields_readFile _ _ _ hfile
  obtain ⟨hpartitions, hlosSize⟩ := verifyCanaries_file r
  let rep : LoadedReplica :=
    { file := r.verifyCanaries
      pmap := pmap
      losKeys := entries.map LosEntry.vaddr
      mem_losKeys := by
        intro va
        rw [hlosSize, hlos]
        exact (isSome_storeEntries LosEntry.size entries va).symm }
  have hmem : info ∈ r.partitions := hpartitions ▸ List.mem_of_getElem? hi
  exact ⟨⟨rep, i, info, hi, hsizes info hmem⟩, rfl, rfl, rfl, rfl⟩

namespace PinfoPtr

variable {p : PinfoPtr} {core : List Byte} {id : Word} {j : Nat}

theorem pmap_eq_fill (h : readCore core = some (p.rep.file, p.rep.pmap)) :
    p.rep.pmap = fill (slotEntries p.rep.file.partitions 0) fun _ => none := by
  obtain ⟨r, rest, -, hmaps, hfile⟩ := readCore_cases h
  simp only [Replica.makePartitionMaps] at hmaps
  split at hmaps
  case isTrue =>
    rw [hfile, (verifyCanaries_file r).1]
    exact (Option.some.inj hmaps).symm
  case isFalse => cases hmaps

theorem hasId_of_pmap (h : readCore core = some (p.rep.file, p.rep.pmap)) (hj : p.pmap id = some j) :
    p.info.HasId j id := by
  obtain ⟨⟨i, j'⟩, hplace, hin⟩ := Option.bind_eq_some_iff.mp hj
  rw [pmap_eq_fill h] at hplace
  split at hin
  case isTrue hi =>
    obtain rfl := Option.some.inj hin
    rcases fill_cases (slotEntries p.rep.file.partitions 0) (fun _ => none) id with
      ⟨v, hv, hfill⟩ | ⟨-, hfill⟩
    · obtain rfl := Option.some.inj (hplace.symm.trans hfill)
      obtain ⟨k, q, hq, hk, hid⟩ := mem_slotEntries.mp hv
      dsimp only at hi hid
      rw [hk, Nat.zero_add] at hi
      rw [hi, p.partitions_index] at hq
      exact Option.some.inj hq ▸ hid
    · cases hplace.symm.trans hfill
  case isFalse => cases hin

/-- The map leads to the last partition that has the allocation. -/
theorem pmap_isSome_iff (h : readCore core = some (p.rep.file, p.rep.pmap)) :
    (p.pmap id).isSome ↔ p.LastHolder id := by
  obtain ⟨hindex, hinfo⟩ := List.getElem?_eq_some_iff.mp p.partitions_index
  have hlength : (p.rep.file.partitions.take p.index).length = p.index := by
    rw [List.length_take]
    omega
  have hentries : slotEntries p.rep.file.partitions 0 =
      slotEntries (p.rep.file.partitions.take p.index) 0 ++ (slotEntries [p.info] p.index ++
        slotEntries (p.rep.file.partitions.drop (p.index + 1)) (p.index + 1)) := by
    conv_lhs => rw [← List.take_append_drop p.index p.rep.file.partitions, slotEntries_append, hlength,
      List.drop_eq_getElem_cons hindex, hinfo, Nat.zero_add, ← List.singleton_append, slotEntries_append]
    rfl
  have hpmap := pmap_eq_fill h
  rw [hentries, fill_append, fill_append] at hpmap
  rw [LastHolder, pmap, hpmap]
  rcases fill_cases (slotEntries (p.rep.file.partitions.drop (p.index + 1)) (p.index + 1)) _ id with
    ⟨⟨i, j⟩, hv, hfill⟩ | ⟨hlater, hfill⟩
  · -- a later partition has the allocation
    rw [hfill]
    obtain ⟨k, q, hq, hk, hid⟩ := mem_slotEntries.mp hv
    rw [List.getElem?_drop] at hq
    have hne : i ≠ p.index := by omega
    constructor
    · intro hsome
      simp [hne] at hsome
    · intro ⟨_, hnone⟩
      exact absurd hid (hnone _ q (by omega) hq j)
  · rw [hfill]
    have hnone : ∀ i q, p.index < i → p.rep.file.partitions[i]? = some q → ∀ j, ¬ q.HasId j id := by
      intro i q hi hq j hid
      apply hlater (i, j)
      rw [mem_slotEntries]
      refine ⟨i - (p.index + 1), q, ?_, by omega, hid⟩
      rwa [List.getElem?_drop, Nat.add_sub_cancel' hi]
    rw [and_iff_left hnone]
    rcases fill_cases (slotEntries [p.info] p.index) _ id with ⟨⟨i, j⟩, hv, hfill⟩ | ⟨hown, hfill⟩
    · -- the partition itself has it
      rw [hfill]
      obtain ⟨k, q, hq, hk, hid⟩ := mem_slotEntries.mp hv
      rw [List.getElem?_singleton] at hq
      split at hq
      case isTrue hzero =>
        obtain rfl := Option.some.inj hq
        constructor
        · intro _
          exact ⟨j, hid⟩
        · intro _
          simp [hk, hzero]
      case isFalse => cases hq
    · -- only earlier partitions may have it
      rw [hfill]
      constructor
      · intro hsome
        exfalso
        rcases fill_cases (slotEntries (p.rep.file.partitions.take p.index) 0) (fun _ => none) id with
          ⟨⟨i, j⟩, hv, hfill⟩ | ⟨-, hfill⟩
        · obtain ⟨k, q, hq, hk, -⟩ := mem_slotEntries.mp hv
          have hlt := (List.getElem?_eq_some_iff.mp hq).1
          have hne : i ≠ p.index := by omega
          rw [hfill] at hsome
          simp [hne] at hsome
        · rw [hfill] at hsome
          cases hsome
      · intro ⟨j, hid⟩
        exact absurd (mem_slotEntries.mpr ⟨0, p.info, rfl, rfl, hid⟩) (hown (p.index, j))

/-- A lookup answers as its callers expect exactly where the partition is the last one with a slot of the
allocation. -/
theorem answers_iff (h : readCore core = some (p.rep.file, p.rep.pmap))
    (hid : id < p.rep.file.globalAllocs) : p.Answers id ↔ p.LastHolder id := by
  rw [← pmap_isSome_iff h]
  constructor
  · intro hanswers
    obtain ⟨dx, hdx, -⟩ := hanswers.idToDx
    rw [idToDx, if_pos hid, Option.map_eq_some_iff] at hdx
    obtain ⟨j, hj, -⟩ := hdx
    rw [hj]
    rfl
  · intro hsome
    obtain ⟨j, hj⟩ := Option.isSome_iff_exists.mp hsome
    have hholds := hasId_of_pmap h hj
    have hdx : p.idToDx id = some (j : Int) := by
      rw [idToDx, if_pos hid, hj]
      rfl
    have hrange : 0 ≤ (j : Int) ∧ (j : Int).toNat < p.info.elements.toNat :=
      ⟨Int.natCast_nonneg j, hholds.1⟩
    have hdata : p.idHasData id = some (p.info.dxHasData j) := by
      simp [idHasData, hdx, dxHasData, hholds.1]
    constructor
    · exact ⟨j, hdx, Or.inl ⟨j, hholds, rfl⟩⟩
    · rw [hdata]
      rfl
    · simp [idAllocated, hdx, dxAllocated, hholds.1]
    · simp [idToPointer, hj]
    · rw [leftOut, if_neg (BitVec.not_le.mpr hid), hdx]
      simp only [Option.bind_eq_bind, Option.bind_some, hdata]
      split <;> rfl

def reusedCore : List Byte :=
  ([3, 0x9efbdbb3#32, 0xb0000000#32, 0xbf000000#32, 0, 1, 8, 32, 0x40000000#32, 1, 1, 2, 0, 0, 0] ++
    List.replicate 124 0 ++ List.replicate 64 0x9efbdbb3#32 ++ [0]).flatMap bytes

def reusedPartition : Pinfo :=
  ⟨8, 2, 32, 0x40000000#32, 0x40000100#32, [1], [1],
    ⟨2, 0, 0, 0⟩ :: List.replicate 31 ⟨0, 0, 0, 0⟩, List.replicate 64 0x9efbdbb3#32⟩

def reusedReplica : LoadedReplica where
  file := ⟨3, 0x9efbdbb3#32, 0xb0000000#32, 0xbf000000#32, 0, [reusedPartition], fun _ => none, fun _ => none⟩
  pmap := fill (slotEntries [reusedPartition] 0) fun _ => none
  losKeys := []
  mem_losKeys := by simp

theorem two_eq_eight_div : (2 : Word) = 8 / 4 := by decide

def reused : PinfoPtr := ⟨reusedReplica, 0, reusedPartition, rfl, two_eq_eight_div⟩

set_option maxRecDepth 10000 in
theorem readCore_reused : readCore reusedCore = some (reused.rep.file, reused.rep.pmap) := by
  rw [readCore, reusedCore, words_bytes]
  rfl

theorem answers_reused : reused.Answers 2 := by
  apply (answers_iff readCore_reused (by decide)).mpr
  refine ⟨⟨0, by decide⟩, ?_⟩
  intro i q hi hq
  obtain ⟨k, rfl⟩ := Nat.exists_eq_succ_of_ne_zero (Nat.ne_of_gt hi)
  cases hq

/-- Allocation 1 has no slot any more, and the assertion fails. -/
theorem not_answers_reused : ¬ ∀ (core : List Byte) (p : PinfoPtr) (id : Word),
    readCore core = some (p.rep.file, p.rep.pmap) → 0 < id → id < p.rep.file.globalAllocs →
      p.Answers id := by
  intro h
  obtain ⟨dx, hdx, -⟩ := (h reusedCore reused 1 readCore_reused (by decide) (by decide)).idToDx
  have hnone : reused.idToDx 1 = none := by decide
  rw [hnone] at hdx
  cases hdx

end PinfoPtr

end DieHard.Exterminator
