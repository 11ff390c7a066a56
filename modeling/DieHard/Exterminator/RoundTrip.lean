import DieHard.Exterminator.CoreFile

/-!
# What the patcher reads is what the heap was

The file is a list of words, in the layout in which `read_core` takes them.
-/

namespace DieHard.Exterminator

open Codec

theorem word_bytes (w : Word) :
    word (w.extractLsb' 0 8) (w.extractLsb' 8 8) (w.extractLsb' 16 8) (w.extractLsb' 24 8) = w := by
  apply BitVec.eq_of_getLsbD_eq
  intro i hi
  simp only [word, BitVec.getLsbD_append, BitVec.getLsbD_extractLsb']
  split
  · simp_all
  · split
    · have h8 : i - 8 < 8 := by omega
      have hsum : 8 + (i - 8) = i := by omega
      simp [h8, hsum]
    · split
      · have h8 : i - 8 - 8 < 8 := by omega
        have hsum : 16 + (i - 8 - 8) = i := by omega
        simp [h8, hsum]
      · have h8 : i - 8 - 8 - 8 < 8 := by omega
        have hsum : 24 + (i - 8 - 8 - 8) = i := by omega
        simp [h8, hsum]

theorem bytes_word (a b c d : Byte) : bytes (word a b c d) = [a, b, c, d] := by
  simp only [bytes, word, List.cons.injEq, and_true]
  refine ⟨?_, ?_, ?_, ?_⟩ <;>
  · apply BitVec.eq_of_getLsbD_eq
    intro i hi
    simp only [BitVec.getLsbD_extractLsb', BitVec.getLsbD_append, hi, decide_true, Bool.true_and]
    grind

theorem words_bytes (ws : List Word) : words (ws.flatMap bytes) = ws := by
  induction ws with
  | nil => rfl
  | cons w ws ih =>
    rw [List.flatMap_cons]
    show word _ _ _ _ :: words (ws.flatMap bytes) = w :: ws
    rw [word_bytes, ih]

/-- Word `k` of the memory from address `start` on. -/
def memoryWord (memory : Word → Byte) (start : Word) (k : Nat) : Word :=
  word (memory (start + BitVec.ofNat 32 (4 * k))) (memory (start + BitVec.ofNat 32 (4 * k + 1)))
    (memory (start + BitVec.ofNat 32 (4 * k + 2))) (memory (start + BitVec.ofNat 32 (4 * k + 3)))

def memoryWords (memory : Word → Byte) (start : Word) (n : Nat) : List Word :=
  (List.range n).map (memoryWord memory start)

theorem memoryBytes_eq (memory : Word → Byte) (start : Word) (n : Nat) :
    memoryBytes memory start (4 * n) = (memoryWords memory start n).flatMap bytes := by
  induction n with
  | zero => rfl
  | succ n ih =>
    have hfour : List.range (4 * (n + 1)) =
        List.range (4 * n) ++ [4 * n, 4 * n + 1, 4 * n + 2, 4 * n + 3] := by
      simp [Nat.mul_succ, List.range_succ]
    have hlast : bytes (memoryWord memory start n) =
        [4 * n, 4 * n + 1, 4 * n + 2, 4 * n + 3].map fun k => memory (start + BitVec.ofNat 32 k) :=
      bytes_word _ _ _ _
    simp only [memoryBytes, memoryWords] at ih ⊢
    rw [hfour, List.map_append, ih, List.range_succ, List.map_append, List.flatMap_append, ← hlast,
      List.map_singleton, List.flatMap_singleton]

theorem dumpBitmap_eq (b : BitArray) (elements : Nat) :
    b.dumpBitmap elements = ((List.range (elements / 32)).map b).flatMap bytes := by
  rw [BitArray.dumpBitmap, List.flatMap_map]

def SlotInfo.words (info : SlotInfo) : List Word :=
  [info.id, info.allocCallsite, info.freeCallsite, info.freeTime]

theorem SlotInfo.dump_eq (info : SlotInfo) : info.dump = info.words.flatMap bytes := rfl

theorem decodes_readSlotInfo (info : SlotInfo) : Decodes readSlotInfo info.words info := fun _ => rfl

namespace PartitionInfo

variable (p : PartitionInfo) (memory : Word → Byte)

/-- The words that `dump_heap` writes. -/
def words : List Word :=
  [BitVec.ofNat 32 p.size] ++ ([BitVec.ofNat 32 p.elements] ++ ([p.partitionStart] ++
    ((List.range (p.elements / 32)).map p.allocated ++ ((List.range (p.elements / 32)).map p.hasData ++
      ((List.range p.elements).flatMap (fun idx => (p.slotInfo idx).words) ++
        memoryWords memory p.partitionStart (p.size / 4 * p.elements))))))

/-- The partition as the patcher is to see it. -/
def pinfo : Pinfo where
  size := BitVec.ofNat 32 p.size
  sizeInWords := BitVec.ofNat 32 (p.size / 4)
  elements := BitVec.ofNat 32 p.elements
  vaddrStart := p.partitionStart
  vaddrEnd := p.partitionStart + BitVec.ofNat 32 (p.size * p.elements)
  bitmap := (List.range (p.elements / 32)).map p.allocated
  hasData := (List.range (p.elements / 32)).map p.hasData
  slotInfo := (List.range p.elements).map p.slotInfo
  heap := memoryWords memory p.partitionStart (p.size / 4 * p.elements)

theorem dumpHeap_eq : p.dumpHeap memory = (p.words memory).flatMap bytes := by
  obtain ⟨n, hn⟩ := p.dvd_size
  have hwords : p.size * p.elements = 4 * (p.size / 4 * p.elements) := by
    rw [hn, Nat.mul_div_cancel_left n (by decide), Nat.mul_assoc]
  rw [dumpHeap, hwords, memoryBytes_eq, dumpBitmap_eq, dumpBitmap_eq]
  simp only [words, List.flatMap_append, List.flatMap_singleton, List.flatMap_assoc,
    SlotInfo.dump_eq, List.append_assoc]

theorem size_mul_elements_le : p.size * p.elements ≤ partitionSize := by
  rw [p.elements_eq]
  exact Nat.mul_div_le partitionSize p.size

theorem toNat_bitmapLength : (BitVec.ofNat 32 p.elements / 32).toNat = p.elements / 32 := by
  rw [BitVec.toNat_udiv, BitVec.toNat_ofNat, Nat.mod_eq_of_lt p.elements_lt]
  rfl

theorem toNat_elements : (BitVec.ofNat 32 p.elements).toNat = p.elements := by
  rw [BitVec.toNat_ofNat, Nat.mod_eq_of_lt p.elements_lt]

theorem sizeInWords_eq : BitVec.ofNat 32 p.size / 4 = BitVec.ofNat 32 (p.size / 4) := by
  have hlt := p.size_lt
  apply BitVec.eq_of_toNat_eq
  rw [BitVec.toNat_udiv, BitVec.toNat_ofNat, BitVec.toNat_ofNat, Nat.mod_eq_of_lt hlt,
    Nat.mod_eq_of_lt (by omega)]
  rfl

theorem toNat_heapLength :
    (BitVec.ofNat 32 (p.size / 4) * BitVec.ofNat 32 p.elements).toNat = p.size / 4 * p.elements := by
  have hmul := p.size_mul_elements_le
  have hle : p.size / 4 * p.elements ≤ p.size * p.elements :=
    Nat.mul_le_mul_right p.elements (Nat.div_le_self p.size 4)
  simp only [partitionSize] at hmul
  rw [← BitVec.ofNat_mul, BitVec.toNat_ofNat, Nat.mod_eq_of_lt (by omega)]

theorem decodes_readPartition : Decodes readPartition (p.words memory) (p.pinfo memory) := by
  have hmap (b : BitArray) : ((List.range (p.elements / 32)).map b).length =
      (BitVec.ofNat 32 p.elements / 32).toNat := by
    rw [p.toNat_bitmapLength, List.length_map, List.length_range]
  have hslots : (List.range p.elements).length = (BitVec.ofNat 32 p.elements).toNat := by
    rw [p.toNat_elements, List.length_range]
  have hheap : (memoryWords memory p.partitionStart (p.size / 4 * p.elements)).length =
      (BitVec.ofNat 32 p.size / 4 * BitVec.ofNat 32 p.elements).toNat := by
    rw [p.sizeInWords_eq, p.toNat_heapLength, memoryWords, List.length_map, List.length_range]
  rw [pinfo, ← p.sizeInWords_eq, BitVec.ofNat_mul]
  apply (decodes_next _).bind
  apply (decodes_next _).bind
  apply (decodes_next _).bind
  apply (decodes_take (hmap p.allocated)).bind
  apply (decodes_take (hmap p.hasData)).bind
  apply (decodes_replicate hslots fun idx _ => decodes_readSlotInfo (p.slotInfo idx)).bind
  exact (decodes_take hheap).bind_pure

end PartitionInfo

namespace LargeObjectManager

variable (m : LargeObjectManager) (memory : Word → Byte)

def used : List Nat := (List.range largeEntries).filter fun i => m.values i ≠ 0

def losEntry (i : Nat) : LosEntry :=
  ⟨m.addrs i, m.values i, memoryWords memory (m.addrs i) ((m.values i).toNat / 4)⟩

def entryWords (i : Nat) : List Word :=
  [m.addrs i] ++ ([m.values i] ++ memoryWords memory (m.addrs i) ((m.values i).toNat / 4))

/-- The words that `dump_los` writes. -/
def words : List Word := [m.ct] ++ m.used.flatMap (m.entryWords memory)

theorem length_used : m.used.length = m.ct.toInt.toNat := by
  have hle := m.toNat_ct_le
  simp only [largeEntries] at hle
  rw [BitVec.toInt_eq_toNat_of_lt (by omega), Int.toNat_natCast, m.ct_eq, used, inUse,
    List.countP_eq_length_filter]

theorem flatMap_ite {α β : Type} (l : List α) (p : α → Prop) [DecidablePred p] (f : α → List β) :
    (l.flatMap fun i => if p i then f i else []) = (l.filter fun i => p i).flatMap f := by
  induction l with
  | nil => rfl
  | cons i l ih =>
    rw [List.flatMap_cons, ih]
    by_cases h : p i <;> simp [h]

theorem dumpLos_eq : m.dumpLos memory = (m.words memory).flatMap bytes := by
  have hentry (i : Nat) : bytes (m.addrs i) ++ bytes (m.values i) ++
      memoryBytes memory (m.addrs i) (m.values i).toNat = (m.entryWords memory i).flatMap bytes := by
    obtain ⟨n, hn⟩ := m.dvd_values i
    rw [hn, memoryBytes_eq, entryWords, hn, Nat.mul_div_cancel_left n (by decide)]
    simp only [List.flatMap_append, List.flatMap_singleton, List.append_assoc]
  simp only [dumpLos, hentry]
  rw [flatMap_ite, words, used, List.flatMap_append, List.flatMap_singleton, List.flatMap_assoc]

theorem decodes_readLosEntry (i : Nat) :
    Decodes readLosEntry (m.entryWords memory i) (m.losEntry memory i) := by
  have hlength : (memoryWords memory (m.addrs i) ((m.values i).toNat / 4)).length =
      (m.values i / 4).toNat := by
    rw [memoryWords, List.length_map, List.length_range, BitVec.toNat_udiv]
    rfl
  apply (decodes_next _).bind
  apply (decodes_next _).bind
  exact (decodes_take hlength).bind_pure

theorem mem_used {i : Nat} : i ∈ m.used ↔ i < largeEntries ∧ m.values i ≠ 0 := by
  simp [used]

theorem addrs_injective {i j : Nat} (hi : i ∈ m.used) (hj : j ∈ m.used) (h : m.addrs i = m.addrs j) :
    i = j := by
  rw [mem_used] at hi hj
  rw [← m.getIndex_addrs i hi.1 hi.2, ← m.getIndex_addrs j hj.1 hj.2, h]

/-- The table as a map: the size and the contents of the large object at an address. -/
def largeObject (addr : Word) : Option (Word × List Word) :=
  if m.values (getIndex addr) ≠ 0 ∧ m.addrs (getIndex addr) = addr then
    some (m.values (getIndex addr), memoryWords memory addr ((m.values (getIndex addr)).toNat / 4))
  else none

section Store

variable {β : Type} (field : LosEntry → β) {entries : List LosEntry}

theorem storeEntries_of_forall_ne {addr : Word} (h : ∀ e ∈ entries, e.vaddr ≠ addr)
    (los : Word → Option β) : storeEntries field entries los addr = los addr := by
  induction entries generalizing los with
  | nil => rfl
  | cons e entries ih =>
    have hrest := ih (fun e' he' => h e' (List.mem_cons_of_mem e he'))
      (Function.update los e.vaddr (some (field e)))
    rw [Function.update_of_ne (h e List.mem_cons_self).symm] at hrest
    exact hrest

theorem storeEntries_of_mem {e : LosEntry} (he : e ∈ entries)
    (huniq : ∀ e' ∈ entries, e'.vaddr = e.vaddr → e' = e) (los : Word → Option β) :
    storeEntries field entries los e.vaddr = some (field e) := by
  induction entries generalizing los with
  | nil => cases he
  | cons e' entries ih =>
    by_cases hmem : e ∈ entries
    · exact ih hmem (fun e'' he'' => huniq e'' (List.mem_cons_of_mem e' he'')) _
    · obtain rfl : e = e' := (List.mem_cons.mp he).resolve_right hmem
      have hrest : ∀ e'' ∈ entries, e''.vaddr ≠ e.vaddr := by
        intro e'' he'' hv
        have heq := huniq e'' (List.mem_cons_of_mem e he'') hv
        exact hmem (heq ▸ he'')
      have hstored := storeEntries_of_forall_ne field hrest
        (Function.update los e.vaddr (some (field e)))
      rw [Function.update_self] at hstored
      exact hstored

theorem storeEntries_used (addr : Word) :
    storeEntries field (m.used.map (m.losEntry memory)) (fun _ => none) addr =
      (m.largeObject memory addr).map fun object => field ⟨addr, object.1, object.2⟩ := by
  by_cases hin : m.values (getIndex addr) ≠ 0 ∧ m.addrs (getIndex addr) = addr
  · have hused : getIndex addr ∈ m.used := m.mem_used.mpr ⟨getIndex_lt addr, hin.1⟩
    have huniq : ∀ e ∈ m.used.map (m.losEntry memory),
        e.vaddr = (m.losEntry memory (getIndex addr)).vaddr → e = m.losEntry memory (getIndex addr) := by
      intro e he hv
      obtain ⟨j, hj, rfl⟩ := List.mem_map.mp he
      rw [m.addrs_injective hj hused hv]
    have hstored := storeEntries_of_mem field (List.mem_map_of_mem hused) huniq fun _ => none
    rw [losEntry, hin.2] at hstored
    rw [hstored, largeObject, if_pos hin, Option.map_some]
  · rw [largeObject, if_neg hin, Option.map_none]
    apply storeEntries_of_forall_ne
    intro e he hv
    obtain ⟨i, hi, rfl⟩ := List.mem_map.mp he
    have hiu := m.mem_used.mp hi
    have hindex : getIndex addr = i := by
      rw [← hv]
      exact m.getIndex_addrs i hiu.1 hiu.2
    exact hin (hindex ▸ ⟨hiu.2, hv⟩)

end Store

end LargeObjectManager

namespace DieHardHeap

variable (h : DieHardHeap) (corrupt : Bool)

/-- The words that `dump_heap` writes. -/
def words : List Word :=
  [h.globalCt] ++ ([h.sentinel] ++ ([h.dlBase] ++ ([h.stackBase] ++ ([h.dumpedFlags corrupt] ++
    ([BitVec.ofNat 32 numberOfClasses] ++
      ((List.range numberOfClasses).flatMap (fun sc => (h.partitions sc).words h.memory) ++
        h.largeObjects.words h.memory))))))

/-- The heap as the patcher is to see it. -/
def replica : Replica where
  globalAllocs := h.globalCt
  sentinelValue := h.sentinel
  ptrBase := h.dlBase
  stackBase := h.stackBase
  heapConfigFlags := h.dumpedFlags corrupt
  partitions := (List.range numberOfClasses).map fun sc => (h.partitions sc).pinfo h.memory
  losSize := fun addr => (h.largeObjects.largeObject h.memory addr).map Prod.fst
  losMap := fun addr => (h.largeObjects.largeObject h.memory addr).map Prod.snd

theorem dumpHeap_eq : h.dumpHeap corrupt = (h.words corrupt).flatMap bytes := by
  simp only [dumpHeap, words, List.flatMap_append, List.flatMap_singleton, List.flatMap_assoc,
    PartitionInfo.dumpHeap_eq, LargeObjectManager.dumpLos_eq, List.append_assoc]

theorem decodes_readFile : Decodes readFile (h.words corrupt) (h.replica corrupt) := by
  have hclasses : (List.range numberOfClasses).length =
      (BitVec.ofNat 32 numberOfClasses).toInt.toNat := by decide
  have hsizes : storeEntries LosEntry.size (h.largeObjects.used.map (h.largeObjects.losEntry h.memory))
      (fun _ => none) = (h.replica corrupt).losSize := by
    funext addr
    exact h.largeObjects.storeEntries_used h.memory LosEntry.size addr
  have hcontents : storeEntries LosEntry.contents
      (h.largeObjects.used.map (h.largeObjects.losEntry h.memory)) (fun _ => none) =
      (h.replica corrupt).losMap := by
    funext addr
    exact h.largeObjects.storeEntries_used h.memory LosEntry.contents addr
  have hentries : Decodes (replicate readLosEntry h.largeObjects.ct.toInt.toNat)
      (h.largeObjects.used.flatMap (h.largeObjects.entryWords h.memory))
      (h.largeObjects.used.map (h.largeObjects.losEntry h.memory)) :=
    decodes_replicate h.largeObjects.length_used fun i _ =>
      h.largeObjects.decodes_readLosEntry h.memory i
  have hlast := hentries.bind_pure (f := fun entries => (⟨h.globalCt, h.sentinel, h.dlBase, h.stackBase,
    h.dumpedFlags corrupt, (h.replica corrupt).partitions,
    storeEntries LosEntry.size entries fun _ => none,
    storeEntries LosEntry.contents entries fun _ => none⟩ : Replica))
  rw [hsizes, hcontents] at hlast
  apply (decodes_next _).bind
  apply (decodes_next _).bind
  apply (decodes_next _).bind
  apply (decodes_next _).bind
  apply (decodes_next _).bind
  apply (decodes_next _).bind
  apply (decodes_replicate hclasses fun sc _ => (h.partitions sc).decodes_readPartition h.memory).bind
  exact (decodes_next _).bind hlast

/-- The patcher reads the whole file and sees the heap that was written. -/
theorem readFile_dumpHeap :
    readFile (Exterminator.words (h.dumpHeap corrupt)) = some (h.replica corrupt, []) ∧
      (Exterminator.words (h.dumpHeap corrupt)).flatMap bytes = h.dumpHeap corrupt := by
  have hwords : Exterminator.words (h.dumpHeap corrupt) = h.words corrupt := by
    rw [dumpHeap_eq, words_bytes]
  rw [hwords]
  exact ⟨(h.decodes_readFile corrupt).eq, (h.dumpHeap_eq corrupt).symm⟩

theorem readCore_dumpHeap : readCore (h.dumpHeap corrupt) =
    (h.replica corrupt).makePartitionMaps.map fun pmap => ((h.replica corrupt).verifyCanaries, pmap) := by
  have hwords : Exterminator.words (h.dumpHeap corrupt) = h.words corrupt := by
    rw [dumpHeap_eq, words_bytes]
  rw [readCore, hwords, (h.decodes_readFile corrupt).eq, Option.map_eq_bind]
  rfl

end DieHardHeap

end DieHard.Exterminator
