import DieHard.Heap.SlotIndex
import DieHard.Lib.Regions
import DieHard.Util.DynamicHashTable

/-!
# The page table in its hash table

The miniheaps of a DieHarder build find their objects through one hash table from page numbers to miniheaps and
indices. Over any run of activations, on pages that are mapped nowhere else, no call on the table fails, and it
answers for every address as the map of the pages does.
-/

namespace DieHard

open Blocks Regions Transition

/-- `PageTableEntry` with its page number. -/
structure PageTable.Entry where
  pageNumber : BitVec 64
  entry : PageTableEntry

/-- `DieHarder::PageTable`. -/
abbrev PageTable := DynamicHashTable PageTable.Entry

namespace PageTable

open DynamicHashTable (Failure)

/-- `sizeof(PageTableEntry)`. -/
def entrySize : Nat := 32

def new (b : Build) : PageTable := DynamicHashTable.new (b.pageSize / entrySize)

def getEntry (t : PageTable) (pageNumber : Nat) : Except Failure (Option Entry) :=
  DynamicHashTable.get Entry.pageNumber t (BitVec.ofNat 64 pageNumber)

variable (b : Build)

def getHeap (t : PageTable) (ptr : Addr) : Except Failure (Option MiniId) :=
  (getEntry t (b.computePageNumber ptr)).map (Option.map fun e => e.entry.heap)

/-- `getObjectIndex`; the index is zero where no entry is found. -/
def getObjectIndex (t : PageTable) (ptr : Addr) : Except Failure Nat :=
  (getEntry t (b.computePageNumber ptr)).map fun found =>
    match found with
    | none => 0
    | some e => e.entry.objectIndex

def insert (t : PageTable) (pageNumber : Nat) (heap : MiniId) (index : Nat) : Except Failure PageTable :=
  DynamicHashTable.insert Entry.pageNumber t ⟨BitVec.ofNat 64 pageNumber, heap, index⟩

end PageTable

theorem foldlM_range_related {ε σ τ : Type*} {R : σ → τ → Prop} {f : σ → Nat → Except ε σ} {g : τ → Nat → τ}
    {s : σ} {t : τ} {n : Nat} (h : R s t)
    (hstep : ∀ i < n, ∀ s, R s ((List.range i).foldl g t) →
      ∃ s', f s i = .ok s' ∧ R s' (g ((List.range i).foldl g t) i)) :
    ∃ s', (List.range n).foldlM f s = .ok s' ∧ R s' ((List.range n).foldl g t) := by
  induction n with
  | zero => exact ⟨s, rfl, h⟩
  | succ n ih =>
    obtain ⟨s₁, hs₁, hR⟩ := ih fun i hi => hstep i (Nat.lt_succ_of_lt hi)
    obtain ⟨s₂, hs₂, hR'⟩ := hstep n (Nat.lt_succ_self n) s₁ hR
    refine ⟨s₂, ?_, ?_⟩
    · rw [List.range_succ, List.foldlM_append, hs₁]
      simp only [List.foldlM_cons, List.foldlM_nil, bind_pure]
      exact hs₂
    · rw [List.range_succ, List.foldl_append]
      exact hR'

namespace PageTable

open DynamicHashTable (Failure)

/-- The table holds the entries of the map. -/
structure Agrees (t : PageTable) (pages : Nat → Option PageTableEntry) (inserted : List Entry) : Prop where
  inv : DynamicHashTable.Inv Entry.pageNumber t inserted
  mem_iff : ∀ e, e ∈ inserted ↔ pages e.pageNumber.toNat = some e.entry
  lt : ∀ P, (pages P).isSome → P < 2 ^ 64

variable {t : PageTable} {pages : Nat → Option PageTableEntry} {inserted : List Entry} {P : Nat}

theorem toNat_pageNumber (hP : P < 2 ^ 64) : (BitVec.ofNat 64 P).toNat = P := by
  rw [BitVec.toNat_ofNat, Nat.mod_eq_of_lt hP]

theorem Agrees.getEntry (h : t.Agrees pages inserted) (hP : P < 2 ^ 64) :
    t.getEntry P = .ok ((pages P).map fun e => ⟨BitVec.ofNat 64 P, e⟩) := by
  cases hpage : pages P with
  | none =>
    apply h.inv.stores.get_missing h.inv.room
    intro e he hkey
    have hsome := (h.mem_iff e).mp he
    rw [hkey, toNat_pageNumber hP, hpage] at hsome
    cases hsome
  | some e =>
    have hmem : (⟨BitVec.ofNat 64 P, e⟩ : Entry) ∈ inserted := by
      rw [h.mem_iff, toNat_pageNumber hP]
      exact hpage
    exact h.inv.stores.get_held h.inv.room hmem

/-- Entering a new page into the table enters it into the map. -/
theorem Agrees.insert (h : t.Agrees pages inserted) (hP : P < 2 ^ 64) (hnew : pages P = none) (heap : MiniId)
    (index : Nat) : ∃ t' inserted', t.insert P heap index = .ok t' ∧
      t'.Agrees (Function.update pages P (some ⟨heap, index⟩)) inserted' := by
  have hother : ∀ e ∈ inserted, e.pageNumber ≠ BitVec.ofNat 64 P := by
    intro e he hkey
    have hsome := (h.mem_iff e).mp he
    rw [hkey, toNat_pageNumber hP, hnew] at hsome
    cases hsome
  obtain ⟨t', ht', hinv⟩ := h.inv.insert (v := ⟨BitVec.ofNat 64 P, heap, index⟩) hother
  refine ⟨t', _, ht', hinv, ?_, ?_⟩
  · intro e
    rw [List.mem_cons, h.mem_iff]
    by_cases hkey : e.pageNumber = BitVec.ofNat 64 P
    · have hnat : e.pageNumber.toNat = P := by rw [hkey, toNat_pageNumber hP]
      rw [hnat, Function.update_self, hnew]
      constructor
      · rintro (rfl | hno)
        · rfl
        · cases hno
      · intro he
        left
        cases e with
        | mk pageNumber entry =>
          obtain rfl := Option.some.inj he
          exact congrArg (Entry.mk · _) hkey
    · have hne : e.pageNumber.toNat ≠ P := by
        intro hnat
        apply hkey
        rw [← hnat, BitVec.ofNat_toNat, BitVec.setWidth_eq]
      rw [Function.update_of_ne hne]
      constructor
      · rintro (rfl | he)
        · exact absurd rfl hkey
        · exact he
      · exact Or.inr
  · intro P' hP'
    by_cases hPP' : P' = P
    · rwa [hPP']
    · rw [Function.update_of_ne hPP'] at hP'
      exact h.lt P' hP'

end PageTable

namespace MiniHeapType.Paged

open DynamicHashTable (Failure)

variable {b : Build} (T : MiniHeapType b) (id : MiniId)

def inBounds (m : MiniHeap) (t : PageTable) (ptr : Addr) : Except Failure Bool :=
  if m.isHeapActivated then (t.getHeap b ptr).map fun heap => decide (heap = some id) else .ok false

def computeIndex (t : PageTable) (ptr : Addr) : Except Failure Nat :=
  (t.getObjectIndex b ptr).map fun pageIdx =>
    if T.objectsPerPage = 1 then unsignedInt pageIdx
    else
      let offset := ptr &&& (b.pageSize - 1)
      unsignedInt (pageIdx + (offset >>> staticlog T.objectSize))

def getSize (m : MiniHeap) (t : PageTable) (ptr : Addr) : Except Failure Nat :=
  if b.pageSize ≤ T.objectSize then
    (computeIndex T t ptr).map fun index =>
      let start := RandomMiniHeapDieHarder.getObject T m index
      T.objectSize - (ptr - start)
  else .ok (T.objectSize - modulo T.objectSize ptr)

def insertPages (objectIndex : Nat) (pagesAddr : Addr) (t : PageTable) : Except Failure PageTable :=
  (List.range T.pagesPerObject).foldlM
    (fun t p => t.insert (b.computePageNumber (pagesAddr + p * b.pageSize)) id objectIndex) t

/-- One turn of the mapping loop, with the answer of `MmapWrapper::map`. -/
def mapObjects (source : Nat → Addr) (s : MiniHeap × PageTable) (turn : Nat) :
    Except Failure (MiniHeap × PageTable) :=
  let objectIndex := turn * T.objectsPerPage
  let pagesAddr := source turn
  (insertPages T id objectIndex pagesAddr s.2).map fun t =>
    (RandomMiniHeapDieHarder.setPageFromIndex T s.1 objectIndex pagesAddr, t)

def internalActivate (source : Nat → Addr) (m : MiniHeap) (t : PageTable) :
    Except Failure (MiniHeap × PageTable) :=
  let m := { m with miniHeapBitmap := BitMap.reserve T.nObjects }
  ((List.range (RandomMiniHeapDieHarder.mapTurns T)).foldlM (mapObjects T id source) (m, t)).map fun s =>
    ({ s.1 with isHeapActivated := true }, s.2)

variable {T id} {source : Nat → Addr} {m : MiniHeap} {t : PageTable} {env : Env}

def Matches (t : PageTable) (env : Env) : Prop := ∃ inserted, t.Agrees env.pageTable inserted

private theorem pageTable_insertPages_before (id : MiniId) (objectIndex : Nat) (env : Env) {pagesAddr n P : Nat}
    (hP : ∀ q < n, P ≠ b.computePageNumber (pagesAddr + q * b.pageSize)) :
    ((List.range n).foldl (fun env p =>
      env.insert (b.computePageNumber (pagesAddr + p * b.pageSize)) id objectIndex) env).pageTable P =
        env.pageTable P := by
  induction n with
  | zero => rfl
  | succ n ih =>
    rw [List.range_succ, List.foldl_append, List.foldl_cons, List.foldl_nil]
    exact (Function.update_of_ne (hP n (Nat.lt_succ_self n)) _ _).trans
      (ih fun q hq => hP q (Nat.lt_succ_of_lt hq))

theorem computePageNumber_page (b : Build) (base q : Nat) :
    b.computePageNumber (base + q * b.pageSize) = base / b.pageSize + q := by
  rw [computePageNumber_eq, Nat.add_mul_div_right _ _ (pageSize_pos b)]

theorem Matches.insertPages (h : Matches t env) (id : MiniId) (objectIndex : Nat) {pagesAddr : Nat}
    (hnew : ∀ q < T.pagesPerObject,
      env.pageTable (b.computePageNumber (pagesAddr + q * b.pageSize)) = none)
    (hlt : pagesAddr + T.pagesPerObject * b.pageSize ≤ 2 ^ 64) :
    ∃ t', insertPages T id objectIndex pagesAddr t = .ok t' ∧
      Matches t' (RandomMiniHeapDieHarder.insertPages T id objectIndex pagesAddr env) := by
  apply foldlM_range_related h
  intro q hq t₁ hmatch
  obtain ⟨inserted, hagrees⟩ := hmatch
  have hpage := computePageNumber_page b pagesAddr
  have hother : ∀ q' < q, b.computePageNumber (pagesAddr + q * b.pageSize) ≠
      b.computePageNumber (pagesAddr + q' * b.pageSize) := by
    intro q' hq'
    rw [hpage, hpage]
    omega
  have hfresh := (pageTable_insertPages_before id objectIndex env hother).trans (hnew q hq)
  have hsmall : b.computePageNumber (pagesAddr + q * b.pageSize) < 2 ^ 64 := by
    have hin : q * b.pageSize < T.pagesPerObject * b.pageSize := Nat.mul_lt_mul_of_pos_right hq (pageSize_pos b)
    rw [computePageNumber_eq]
    exact (Nat.div_le_self _ _).trans_lt (hlt.trans_lt' (Nat.add_lt_add_left hin _))
  obtain ⟨t₂, inserted', hinsert, hagrees'⟩ := hagrees.insert hsmall hfresh id objectIndex
  exact ⟨t₂, hinsert, inserted', hagrees'⟩

def Related (r : MiniHeap × PageTable) (a : MiniHeap × Env) : Prop := r.1 = a.1 ∧ Matches r.2 a.2

theorem Matches.internalActivate (h : Matches t env) (id : MiniId)
    (hnew : MiniHeaps.PagesFresh T id source { m with miniHeapBitmap := BitMap.reserve T.nObjects } env)
    (hlt : ∀ j < RandomMiniHeapDieHarder.mapTurns T, source j + T.pagesPerObject * b.pageSize ≤ 2 ^ 64) :
    ∃ r, internalActivate T id source m t = .ok r ∧
      r.1 = (RandomMiniHeapDieHarder.internalActivate T id source m env).1 ∧
      Matches r.2 (RandomMiniHeapDieHarder.internalActivate T id source m env).2 := by
  have hstart : Related ({ m with miniHeapBitmap := BitMap.reserve T.nObjects }, t)
      ({ m with miniHeapBitmap := BitMap.reserve T.nObjects }, env) := ⟨rfl, h⟩
  obtain ⟨r, hr, hmini, hmatch⟩ := foldlM_range_related (f := mapObjects T id source)
    (g := RandomMiniHeapDieHarder.mapObjects T id source) (n := RandomMiniHeapDieHarder.mapTurns T) hstart (by
      rintro j hj ⟨m₁, t₁⟩ ⟨rfl, hmatch⟩
      obtain ⟨-, hpages⟩ := hnew j hj
      have hmapped : Matches t₁ ((T.turns id source _ env j).2.map (source j) (T.pagesPerObject * b.pageSize)) :=
        hmatch
      obtain ⟨t₂, hinsert, hmatch'⟩ := hmapped.insertPages id (j * T.objectsPerPage) hpages (hlt j hj)
      exact ⟨_, by rw [mapObjects, hinsert]; rfl, rfl, hmatch'⟩)
  exact ⟨({ r.1 with isHeapActivated := true }, r.2), by rw [Paged.internalActivate, hr]; rfl,
    by rw [hmini]; rfl, hmatch⟩

end MiniHeapType.Paged

/-- The miniheaps, what they share, and the ranges that have been mapped for them. -/
structure PagedHeaps where
  mini : MiniId → MiniHeap
  mem : Addr → BitVec 8
  reports : List Report
  mapped : List (Addr × Nat)
  table : PageTable

namespace PagedHeaps

open DynamicHashTable (Failure)
open MiniHeaps (Action)
open MiniHeapType.RandomMiniHeapDieHarder (mapTurns)

variable {b : Build} (types : MiniId → MiniHeapType b)

def initial (b : Build) (random : MiniId → BitVec 64) (mem : Addr → BitVec 8) : PagedHeaps :=
  ⟨fun id => MiniHeap.new (random id), mem, [], [], PageTable.new b⟩

def mappings (T : MiniHeapType b) (source : Nat → Addr) : List (Addr × Nat) :=
  (List.range (mapTurns T)).map fun j => (source j, T.pagesPerObject * b.pageSize)

/-- A call that returns. -/
def next (s : PagedHeaps) : Action → Option PagedHeaps
  | .activate id source =>
    if (s.mini id).isHeapActivated then some s
    else if (types id).nObjects + (types id).objectsPerPage ≤ 2 ^ 32 then
      (MiniHeapType.Paged.internalActivate (types id) id source (s.mini id) s.table).toOption.map fun r =>
        { s with
          mini := Function.update s.mini id r.1
          mapped := mappings (types id) source ++ s.mapped
          table := r.2 }
    else none
  | .use id bitmap mem reports =>
    some { s with
      mini := Function.update s.mini id { s.mini id with miniHeapBitmap := bitmap }
      mem := mem
      reports := reports }

/-- `mmap` answers with pages that are not mapped. -/
def Unmapped (T : MiniHeapType b) (source : Nat → Addr) (mapped : List (Addr × Nat)) : Prop :=
  (∀ j < mapTurns T, b.pageSize ∣ source j ∧ source j + T.pagesPerObject * b.pageSize ≤ 2 ^ 64) ∧
    (mappings T source ++ mapped).Pairwise ApartOf

/-- An activation on pages of its own, after which the size of the table is still an `int`. -/
def Permits (s : PagedHeaps) : Action → Prop
  | .activate id source =>
    (s.mini id).isHeapActivated = false → Unmapped (types id) source s.mapped ∧
      ∀ r, MiniHeapType.Paged.internalActivate (types id) id source (s.mini id) s.table = .ok r →
        r.2.size < 2 ^ 31
  | .use _ _ _ _ => True

def inBounds (b : Build) (s : PagedHeaps) (id : MiniId) (ptr : Addr) : Except Failure Bool :=
  MiniHeapType.Paged.inBounds (b := b) id (s.mini id) s.table ptr

/-- `DieHardHeap::getSize` of a DieHarder build. -/
def getSize (s : PagedHeaps) (ptr : Addr) : Except Failure Nat :=
  (s.table.getHeap b ptr).bind fun heap =>
    match heap with
    | none => .ok 0
    | some id => MiniHeapType.Paged.getSize (types id) (s.mini id) s.table ptr

def CoversPage (b : Build) (r : Nat × Nat) (P : Nat) : Prop :=
  ∀ p, b.computePageNumber p = P → r.1 ≤ p ∧ p < r.1 + r.2

variable (b) in
/-- The miniheaps are those of the model with the map, and each page of the map has been mapped for them. -/
structure Refines (s : PagedHeaps) (a : MiniHeaps) : Prop where
  mini : s.mini = a.mini
  table : MiniHeapType.Paged.Matches s.table a.env
  covered : ∀ P, (a.env.pageTable P).isSome → ∃ r ∈ s.mapped, CoversPage b r P

variable {types} {s s' : PagedHeaps} {a : MiniHeaps} {T : MiniHeapType b} {id : MiniId} {source : Nat → Addr}

theorem mem_mappings {r : Nat × Nat} :
    r ∈ mappings T source ↔ ∃ j < mapTurns T, (source j, T.pagesPerObject * b.pageSize) = r := by
  simp [mappings]

theorem Unmapped.apart {mapped : List (Addr × Nat)} (h : Unmapped T source mapped) {j k : Nat}
    (hk : k < mapTurns T) (hjk : j < k) : ApartOf (source j, T.pagesPerObject * b.pageSize)
      (source k, T.pagesPerObject * b.pageSize) := by
  have hpairwise := (List.pairwise_append.mp h.2).1
  rw [mappings, List.pairwise_map] at hpairwise
  have hlength : (List.range (mapTurns T)).length = mapTurns T := List.length_range
  have hapart := List.pairwise_iff_getElem.mp hpairwise j k (by omega) (by omega) hjk
  rwa [List.getElem_range, List.getElem_range] at hapart

theorem Unmapped.apart_mapped {mapped : List (Addr × Nat)} (h : Unmapped T source mapped) {j : Nat}
    (hj : j < mapTurns T) {r : Nat × Nat} (hr : r ∈ mapped) :
    ApartOf (source j, T.pagesPerObject * b.pageSize) r :=
  (List.pairwise_append.mp h.2).2.2 _ (mem_mappings.mpr ⟨j, hj, rfl⟩) r hr

theorem Refines.pagesFresh (h : Refines b s a) (hf : Unmapped T source s.mapped) (m : MiniHeap) :
    MiniHeaps.PagesFresh T id source m a.env := by
  intro j hj
  obtain ⟨hdvd, -⟩ := hf.1 j hj
  refine ⟨hdvd, ?_⟩
  intro q hq
  have hin : source j ≤ source j + q * b.pageSize ∧
      source j + q * b.pageSize < source j + T.pagesPerObject * b.pageSize :=
    ⟨Nat.le_add_right _ _, Nat.add_lt_add_left (Nat.mul_lt_mul_of_pos_right hq (MiniHeapType.pageSize_pos b)) _⟩
  have hearlier : ∀ k < j, ¬ T.IsPageOf (source k) (b.computePageNumber (source j + q * b.pageSize)) := by
    intro k hk hpage
    have hk' := (MiniHeapType.isPageOf_iff (hf.1 k (hk.trans hj)).1 _).mp hpage
    exact (hf.apart hj hk).not_common hk' hin
  rw [(T.mapped_turns id source m a.env j).other _ hearlier]
  by_contra hsome
  obtain ⟨r, hr, hcovers⟩ := h.covered _ (Option.ne_none_iff_isSome.mp hsome)
  exact (hf.apart_mapped hj hr).not_common hin (hcovers _ rfl)

theorem Refines.covered_activate (h : Refines b s a) (hf : Unmapped T source s.mapped) (m : MiniHeap) {P : Nat}
    (hP : ((MiniHeapType.RandomMiniHeapDieHarder.internalActivate T id source m a.env).2.pageTable P).isSome) :
    ∃ r ∈ mappings T source ++ s.mapped, CoversPage b r P := by
  by_cases hpage : ∃ j < mapTurns T, T.IsPageOf (source j) P
  · obtain ⟨j, hj, hpage⟩ := hpage
    refine ⟨_, List.mem_append_left _ (mem_mappings.mpr ⟨j, hj, rfl⟩), ?_⟩
    rintro p rfl
    exact (MiniHeapType.isPageOf_iff (hf.1 j hj).1 p).mp hpage
  · have hother := (T.mapped_turns id source { m with miniHeapBitmap := BitMap.reserve T.nObjects } a.env
      (mapTurns T)).other P (by
        intro j hj hj'
        exact hpage ⟨j, hj, hj'⟩)
    rw [show (MiniHeapType.RandomMiniHeapDieHarder.internalActivate T id source m a.env).2.pageTable P = _ from
      hother] at hP
    obtain ⟨r, hr, hcovers⟩ := h.covered P hP
    exact ⟨r, List.mem_append_right _ hr, hcovers⟩

theorem refines_initial (hpage : 128 ≤ b.pageSize) (random : MiniId → BitVec 64) (mem : Addr → BitVec 8) :
    Refines b (initial b random mem) (MiniHeaps.initial random mem []) where
  mini := rfl
  table := by
    have hsize : (b.pageSize / PageTable.entrySize).isPowerOfTwo :=
      HeapConfig.powerOfTwo_div ⟨5, rfl⟩ b.pageSize_powerOfTwo (by rw [PageTable.entrySize]; omega)
    have hfour : 4 ≤ b.pageSize / PageTable.entrySize := by
      rw [PageTable.entrySize]
      omega
    refine ⟨[], DynamicHashTable.inv_new _ hsize hfour, ?_, ?_⟩
    · intro e
      constructor
      · intro he
        cases he
      · intro he
        cases he
    · intro P hP
      cases hP
  covered := by
    intro P hP
    cases hP

/-- An activation that is permitted returns, unless the miniheap has too many objects, and is one of the model. -/
theorem Refines.activate (h : Refines b s a) (hd : b.dieHarderOn = true)
    (hok : s.Permits types (.activate id source)) (hinactive : (s.mini id).isHeapActivated = false)
    (hcount : (types id).nObjects + (types id).objectsPerPage ≤ 2 ^ 32) :
    a.fresh types (.activate id source) ∧
      ∃ s' a', s.next types (.activate id source) = some s' ∧ a.next types (.activate id source) = some a' ∧
        Refines b s' a' := by
  obtain ⟨hunmapped, -⟩ := hok hinactive
  have hmini : s.mini id = a.mini id := congrFun h.mini id
  obtain ⟨r, hr, hr₁, hmatch⟩ := h.table.internalActivate id (m := s.mini id)
    (h.pagesFresh hunmapped _) fun j hj => (hunmapped.1 j hj).2
  refine ⟨?_, { s with
      mini := Function.update s.mini id r.1
      mapped := mappings (types id) source ++ s.mapped
      table := r.2 },
    ⟨Function.update a.mini id
      (MiniHeapType.RandomMiniHeapDieHarder.internalActivate (types id) id source (s.mini id) a.env).1,
      (MiniHeapType.RandomMiniHeapDieHarder.internalActivate (types id) id source (s.mini id) a.env).2⟩, ?_, ?_, ?_⟩
  · rw [MiniHeaps.fresh, if_pos hd]
    exact h.pagesFresh hunmapped _
  · rw [next, hinactive, if_neg Bool.false_ne_true, if_pos hcount, hr]
    rfl
  · rw [MiniHeaps.next, MiniHeapType.activate, if_pos hd, MiniHeapType.RandomMiniHeapDieHarder.activate, ← hmini,
      hinactive, if_neg Bool.false_ne_true, if_pos hcount]
    rfl
  · exact {
      mini := by
        rw [← h.mini, hr₁]
      table := hmatch
      covered := fun P hP => h.covered_activate hunmapped _ hP }

theorem Refines.next (h : Refines b s a) (hd : b.dieHarderOn = true) {action : Action}
    (hok : s.Permits types action) (hn : s.next types action = some s') :
    ∃ a', (a' = a ∨ a.fresh types action ∧ a.next types action = some a') ∧ Refines b s' a' := by
  cases action with
  | activate id source =>
    cases hactive : (s.mini id).isHeapActivated with
    | true =>
      rw [PagedHeaps.next, if_pos hactive] at hn
      cases hn
      exact ⟨a, Or.inl rfl, h⟩
    | false =>
      by_cases hcount : (types id).nObjects + (types id).objectsPerPage ≤ 2 ^ 32
      · obtain ⟨hfresh, s₁, a', hs₁, ha', hrefines⟩ := h.activate hd hok hactive hcount
        obtain rfl := Option.some.inj (hs₁.symm.trans hn)
        exact ⟨a', Or.inr ⟨hfresh, ha'⟩, hrefines⟩
      · rw [PagedHeaps.next, hactive, if_neg Bool.false_ne_true, if_neg hcount] at hn
        cases hn
  | use id bitmap mem reports =>
    cases hn
    refine ⟨⟨Function.update a.mini id { a.mini id with miniHeapBitmap := bitmap },
      { a.env with mem := mem, reports := reports }⟩, Or.inr ⟨trivial, rfl⟩, ?_, h.table, h.covered⟩
    rw [← h.mini]

theorem exists_refines (hd : b.dieHarderOn = true) (hpage : 128 ≤ b.pageSize) {random : MiniId → BitVec 64}
    {mem : Addr → BitVec 8} (hr : Reach (next types) (Permits types) (initial b random mem) s) :
    ∃ a, Reach (MiniHeaps.next types) (MiniHeaps.fresh types) (MiniHeaps.initial random mem []) a ∧
      Refines b s a := by
  induction hr with
  | refl => exact ⟨_, .refl, refines_initial hpage random mem⟩
  | step _ hok hn ih =>
    obtain ⟨a, ha, h⟩ := ih
    obtain ⟨a', hstep, h'⟩ := h.next hd hok hn
    refine ⟨a', ?_, h'⟩
    rcases hstep with rfl | ⟨hfresh, hnext⟩
    · exact ha
    · exact ha.step hfresh hnext

section Lookups

variable {ptr : Addr}

theorem Refines.getHeap (h : Refines b s a) (hp : b.computePageNumber ptr < 2 ^ 64) :
    s.table.getHeap b ptr = .ok (b.getHeap a.env ptr) := by
  obtain ⟨inserted, hagrees⟩ := h.table
  rw [PageTable.getHeap, hagrees.getEntry hp, Build.getHeap]
  simp only [Except.map, Option.map_map]
  rfl

theorem Refines.inBounds (h : Refines b s a) (hp : b.computePageNumber ptr < 2 ^ 64) (id : MiniId) :
    s.inBounds b id ptr = .ok (MiniHeapType.RandomMiniHeapDieHarder.inBounds (b := b) id (a.mini id) a.env ptr) := by
  rw [PagedHeaps.inBounds, MiniHeapType.Paged.inBounds, h.getHeap hp, ← h.mini,
    MiniHeapType.RandomMiniHeapDieHarder.inBounds]
  cases (s.mini id).isHeapActivated <;> rfl

theorem Refines.computeIndex (h : Refines b s a) (hp : b.computePageNumber ptr < 2 ^ 64) (T : MiniHeapType b) :
    MiniHeapType.Paged.computeIndex T s.table ptr =
      .ok (MiniHeapType.RandomMiniHeapDieHarder.computeIndex T a.env ptr) := by
  obtain ⟨inserted, hagrees⟩ := h.table
  rw [MiniHeapType.Paged.computeIndex, PageTable.getObjectIndex, hagrees.getEntry hp,
    MiniHeapType.RandomMiniHeapDieHarder.computeIndex, MiniHeapType.RandomMiniHeapDieHarder.slotIndex,
    Build.getObjectIndex]
  simp only [Except.map, apply_ite unsignedInt]
  cases a.env.pageTable (b.computePageNumber ptr) <;> rfl

theorem Refines.getSizeOf (h : Refines b s a) (hp : b.computePageNumber ptr < 2 ^ 64) (id : MiniId) :
    MiniHeapType.Paged.getSize (types id) (s.mini id) s.table ptr =
      .ok (MiniHeapType.RandomMiniHeapDieHarder.getSize (types id) (a.mini id) a.env ptr) := by
  rw [MiniHeapType.Paged.getSize, h.computeIndex hp, ← h.mini, MiniHeapType.RandomMiniHeapDieHarder.getSize]
  split <;> rfl

theorem Refines.getSize (h : Refines b s a) (hp : b.computePageNumber ptr < 2 ^ 64) :
    s.getSize types ptr = .ok (match b.getHeap a.env ptr with
      | none => 0
      | some id => MiniHeapType.RandomMiniHeapDieHarder.getSize (types id) (a.mini id) a.env ptr) := by
  rw [PagedHeaps.getSize, h.getHeap hp]
  cases b.getHeap a.env ptr with
  | none => rfl
  | some id => exact h.getSizeOf hp id

end Lookups

variable (types) in
/-- Every address of an object leads to its miniheap, its index and the space left in it, and an address that is not
mapped to nothing. No call on the table fails. -/
structure Finds (s : PagedHeaps) : Prop where
  inBounds : ∀ id, (s.mini id).isHeapActivated = true → ∀ i < (types id).nObjects, i < 2 ^ 32 →
    ∀ o < (types id).objectSize, ∀ id', s.inBounds b id'
      (MiniHeapType.RandomMiniHeapDieHarder.getObject (types id) (s.mini id) i + o) = .ok (decide (id' = id))
  computeIndex : ∀ id, (s.mini id).isHeapActivated = true → ∀ i < (types id).nObjects, i < 2 ^ 32 →
    ∀ o < (types id).objectSize, MiniHeapType.Paged.computeIndex (types id) s.table
      (MiniHeapType.RandomMiniHeapDieHarder.getObject (types id) (s.mini id) i + o) = .ok i
  getSize : ∀ id, (s.mini id).isHeapActivated = true → ∀ i < (types id).nObjects, i < 2 ^ 32 →
    ∀ o < (types id).objectSize, s.getSize types
      (MiniHeapType.RandomMiniHeapDieHarder.getObject (types id) (s.mini id) i + o) =
        .ok ((types id).objectSize - o)
  elsewhere : ∀ ptr < 2 ^ 64, (∀ r ∈ s.mapped, ¬ (r.1 ≤ ptr ∧ ptr < r.1 + r.2)) →
    (∀ id, s.inBounds b id ptr = .ok false) ∧ s.getSize types ptr = .ok 0
  activates : ∀ id source, s.Permits types (.activate id source) → (s.mini id).isHeapActivated = false →
    (types id).nObjects + (types id).objectsPerPage ≤ 2 ^ 32 → (s.next types (.activate id source)).isSome

section Finds

variable (h : Refines b s a) (hd : b.dieHarderOn = true) (harranged : a.Arranged types)
include h hd harranged

theorem Refines.page_lt (ha : (s.mini id).isHeapActivated = true) {i o : Nat} (hi : i < (types id).nObjects)
    (hlt : i < 2 ^ 32) (ho : o < (types id).objectSize) : b.computePageNumber
      (MiniHeapType.RandomMiniHeapDieHarder.getObject (types id) (s.mini id) i + o) < 2 ^ 64 := by
  obtain ⟨inserted, hagrees⟩ := h.table
  have hin := (harranged.slotsInverse (h.mini ▸ ha)).inBounds i hi hlt o ho
  rw [MiniHeapType.inBounds, if_pos hd, MiniHeapType.getObject, if_pos hd, ← h.mini,
    MiniHeapType.RandomMiniHeapDieHarder.inBounds, Bool.and_eq_true, decide_eq_true_eq, Build.getHeap] at hin
  apply hagrees.lt
  obtain ⟨e, he, -⟩ := Option.map_eq_some_iff.mp hin.2
  rw [he]
  rfl

theorem Refines.finds : s.Finds types := by
  have hinverse {id : MiniId} (ha : (s.mini id).isHeapActivated = true) : a.SlotsInverse types id :=
    harranged.slotsInverse (h.mini ▸ ha)
  constructor
  · intro id ha i hi hlt o ho id'
    rw [h.inBounds (h.page_lt hd harranged ha hi hlt ho)]
    have hown := (hinverse ha).inBounds i hi hlt o ho
    have hother := (hinverse ha).inBounds_other i hi hlt o ho id'
    simp only [MiniHeapType.inBounds, MiniHeapType.getObject, if_pos hd, ← h.mini] at hown hother ⊢
    by_cases he : id' = id
    · subst he
      rw [hown, decide_eq_true rfl]
    · rw [hother he, decide_eq_false he]
  · intro id ha i hi hlt o ho
    rw [h.computeIndex (h.page_lt hd harranged ha hi hlt ho)]
    have hindex := (hinverse ha).computeIndex i hi hlt o ho
    simp only [MiniHeapType.computeIndex, MiniHeapType.getObject, if_pos hd, ← h.mini] at hindex
    rw [hindex]
  · intro id ha i hi hlt o ho
    have hown := (hinverse ha).inBounds i hi hlt o ho
    have hsize := (hinverse ha).getSize i hi hlt o ho
    simp only [MiniHeapType.inBounds, MiniHeapType.getSize, MiniHeapType.getObject, if_pos hd, ← h.mini] at hown hsize
    rw [MiniHeapType.RandomMiniHeapDieHarder.inBounds, Bool.and_eq_true, decide_eq_true_eq] at hown
    rw [h.getSize (h.page_lt hd harranged ha hi hlt ho), hown.2, ← hsize, h.mini]
  · intro ptr hptr hunmapped
    have hpage : b.computePageNumber ptr < 2 ^ 64 := by
      rw [MiniHeapType.computePageNumber_eq]
      exact (Nat.div_le_self _ _).trans_lt hptr
    have hnone : b.getHeap a.env ptr = none := by
      rw [Build.getHeap, Option.map_eq_none_iff]
      by_contra hsome
      obtain ⟨r, hr, hcovers⟩ := h.covered _ (Option.ne_none_iff_isSome.mp hsome)
      exact hunmapped r hr (hcovers ptr rfl)
    refine ⟨?_, ?_⟩
    · intro id
      rw [h.inBounds hpage, MiniHeapType.RandomMiniHeapDieHarder.inBounds, hnone]
      simp
    · rw [h.getSize hpage, hnone]
  · intro id source hok hinactive hcount
    obtain ⟨-, s', -, hs', -, -⟩ := h.activate hd hok hinactive hcount
    rw [hs']
    rfl

end Finds

/-- Every run with the hash table is one with the map, and finds every object by any address in it. -/
theorem reach_finds (hd : b.dieHarderOn = true) (hpage : 128 ≤ b.pageSize) {random : MiniId → BitVec 64}
    {mem : Addr → BitVec 8} (hr : Reach (next types) (Permits types) (initial b random mem) s) :
    (∃ a, Reach (MiniHeaps.next types) (MiniHeaps.fresh types) (MiniHeaps.initial random mem []) a ∧
      Refines b s a) ∧ s.Finds types := by
  obtain ⟨a, ha, h⟩ := exists_refines hd hpage hr
  have harranged : a.Arranged types := by
    apply ha.invariant (I := MiniHeaps.Arranged types)
    · exact MiniHeaps.arranged_initial random mem []
    · intro r action r' hi hok hn
      exact hi.next hok hn
  exact ⟨⟨a, ha, h⟩, h.finds hd harranged⟩

instance (T : MiniHeapType b) (source : Nat → Addr) (mapped : List (Addr × Nat)) :
    Decidable (Unmapped T source mapped) := inferInstanceAs (Decidable (_ ∧ _))

/-- Whether the size of the table is an `int` after a call that returns. -/
def small : Except Failure (MiniHeap × PageTable) → Bool
  | .ok r => decide (r.2.size < 2 ^ 31)
  | .error _ => true

theorem small_iff (x : Except Failure (MiniHeap × PageTable)) :
    small x = true ↔ ∀ r, x = .ok r → r.2.size < 2 ^ 31 := by
  cases x with
  | error e => simp [small]
  | ok r => simp [small]

instance (s : PagedHeaps) : ∀ a, Decidable (s.Permits types a)
  | .activate id source => decidable_of_iff ((s.mini id).isHeapActivated = false →
      Unmapped (types id) source s.mapped ∧
        small (MiniHeapType.Paged.internalActivate (types id) id source (s.mini id) s.table) = true)
      (by rw [small_iff]; rfl)
  | .use _ _ _ _ => inferInstanceAs (Decidable True)

def scatteredState : PagedHeaps :=
  final (next MiniHeaps.scatteredTypes) (initial MiniHeaps.scattered (fun _ => 0) fun _ => 0) MiniHeaps.scatteredRun

theorem reach_finds_scattered : scatteredState.Finds MiniHeaps.scatteredTypes := by
  have hrun : (run (next MiniHeaps.scatteredTypes) (initial MiniHeaps.scattered (fun _ => 0) fun _ => 0)
      MiniHeaps.scatteredRun).isSome = true ∧
      guardedBool (next MiniHeaps.scatteredTypes) (Permits MiniHeaps.scatteredTypes)
        (initial MiniHeaps.scattered (fun _ => 0) fun _ => 0) MiniHeaps.scatteredRun = true := by
    decide +kernel
  exact (reach_finds rfl (by decide) (reach_final (guarded_of_bool hrun.2) hrun.1)).2

end PagedHeaps

end DieHard
