import DieHard.Heap.Template
import DieHard.Lib.Transition

/-!
# Activation of miniheaps

`activate` takes one block from the source of memory or maps the objects page by page and enters each
page into the page table. After any activations, of any miniheaps of any sizes, an address of a slot
belongs to one miniheap only, and its index, its slot and the space left in it agree.
-/

namespace DieHard

open Blocks

namespace MiniHeapType

variable {b : Build} {T : MiniHeapType b}

theorem computePageNumber_eq (b : Build) (a : Addr) : b.computePageNumber a = a / b.pageSize :=
  shiftRight_staticlog b.pageSize_powerOfTwo a

/-- `P` is the number of one of the pages of an object that starts at `base`. -/
def IsPageOf (T : MiniHeapType b) (base P : Nat) : Prop :=
  ∃ q < T.pagesPerObject, P = b.computePageNumber (base + q * b.pageSize)

/-- The pages of an aligned block are the pages of its addresses. -/
theorem isPageOf_iff {base : Nat} (hbase : b.pageSize ∣ base) (p : Nat) :
    T.IsPageOf base (b.computePageNumber p) ↔
      base ≤ p ∧ p < base + T.pagesPerObject * b.pageSize := by
  have hpos := pageSize_pos b
  obtain ⟨c, rfl⟩ := hbase
  have hpage (q : Nat) : (b.pageSize * c + q * b.pageSize) / b.pageSize = c + q := by
    rw [Nat.mul_comm q, ← Nat.mul_add, Nat.mul_div_cancel_left _ hpos]
  simp only [IsPageOf, computePageNumber_eq, hpage]
  constructor
  · rintro ⟨q, hq, he⟩
    have hlo := Nat.mul_div_le p b.pageSize
    have hhi := Nat.lt_mul_div_succ p hpos
    rw [he] at hlo hhi
    have h1 : b.pageSize * (c + q + 1) ≤ b.pageSize * c + T.pagesPerObject * b.pageSize := by
      rw [Nat.mul_comm T.pagesPerObject, ← Nat.mul_add]
      exact Nat.mul_le_mul_left _ (by omega)
    rw [Nat.mul_add] at hlo
    exact ⟨by omega, by omega⟩
  · rintro ⟨hlo, hhi⟩
    have h1 : c ≤ p / b.pageSize := by
      rw [Nat.le_div_iff_mul_le hpos, Nat.mul_comm]
      exact hlo
    have h2 : p / b.pageSize < c + T.pagesPerObject := by
      rw [Nat.div_lt_iff_lt_mul hpos, Nat.add_mul, Nat.mul_comm c]
      exact hhi
    exact ⟨p / b.pageSize - c, by omega, by omega⟩

private theorem insertPages_fold (b : Build) (id : MiniId) (objectIndex base : Nat) (env : Env)
    (n : Nat) :
    ∀ e, e = (List.range n).foldl (fun env p =>
        env.insert (b.computePageNumber (base + p * b.pageSize)) id objectIndex) env →
      e.mem = env.mem ∧ e.mapped = env.mapped ∧
      ∀ P, ((∃ q < n, P = b.computePageNumber (base + q * b.pageSize)) →
          e.pageTable P = some ⟨id, objectIndex⟩) ∧
        ((¬ ∃ q < n, P = b.computePageNumber (base + q * b.pageSize)) →
          e.pageTable P = env.pageTable P) := by
  induction n with
  | zero =>
    rintro _ rfl
    exact ⟨rfl, rfl, fun P => ⟨by rintro ⟨q, hq, -⟩; omega, fun _ => rfl⟩⟩
  | succ n ih =>
    rintro _ rfl
    obtain ⟨hmem, hmapped, hpt⟩ := ih _ rfl
    rw [List.range_succ, List.foldl_append, List.foldl_cons, List.foldl_nil]
    refine ⟨hmem, hmapped, ?_⟩
    intro P
    by_cases hP : P = b.computePageNumber (base + n * b.pageSize)
    · refine ⟨?_, fun hno => absurd ⟨n, Nat.lt_succ_self n, hP⟩ hno⟩
      intro _
      simp only [Env.insert]
      rw [hP, Function.update_self]
    · simp only [Env.insert, Function.update_of_ne hP]
      refine ⟨?_, ?_⟩
      · rintro ⟨q, hq, he⟩
        have hqn : q ≠ n := fun h => hP (by rw [he, h])
        exact (hpt P).1 ⟨q, by omega, he⟩
      · intro hno
        exact (hpt P).2 fun ⟨q, hq, he⟩ => hno ⟨q, by omega, he⟩

theorem insertPages_spec (T : MiniHeapType b) (id : MiniId) (objectIndex base : Nat) (env : Env) :
    (RandomMiniHeapDieHarder.insertPages T id objectIndex base env).mem = env.mem ∧
    (RandomMiniHeapDieHarder.insertPages T id objectIndex base env).mapped = env.mapped ∧
    ∀ P, (T.IsPageOf base P →
        (RandomMiniHeapDieHarder.insertPages T id objectIndex base env).pageTable P =
          some ⟨id, objectIndex⟩) ∧
      (¬ T.IsPageOf base P →
        (RandomMiniHeapDieHarder.insertPages T id objectIndex base env).pageTable P =
          env.pageTable P) :=
  insertPages_fold b id objectIndex base env _ _ rfl

/-- What the mapping loop has done after `n` turns. -/
structure Mapped (T : MiniHeapType b) (id : MiniId) (source : Nat → Addr) (n : Nat)
    (m : MiniHeap) (env : Env) (m' : MiniHeap) (env' : Env) : Prop where
  bitmap_eq : m'.miniHeapBitmap = m.miniHeapBitmap
  freedValue_eq : m'.freedValue = m.freedValue
  page : ∀ j < n, m'.mapEntryToPage j = source j
  mem_eq : env'.mem = env.mem
  mapped : ∀ r, r ∈ env'.mapped ↔
    (∃ j < n, r = (source j, T.pagesPerObject * b.pageSize)) ∨ r ∈ env.mapped
  entry : ∀ j < n, ∀ P, T.IsPageOf (source j) P →
    (∀ t < n, t ≠ j → ¬ T.IsPageOf (source t) P) →
    env'.pageTable P = some ⟨id, j * T.objectsPerPage⟩
  other : ∀ P, (∀ j < n, ¬ T.IsPageOf (source j) P) → env'.pageTable P = env.pageTable P
  /-- No entry is ever removed. -/
  isSome : ∀ P, (∃ j < n, T.IsPageOf (source j) P) ∨ (env.pageTable P).isSome →
    (env'.pageTable P).isSome

private theorem Mapped.turn {id : MiniId} {source : Nat → Addr} {n : Nat} {m : MiniHeap} {env : Env}
    {s : MiniHeap × Env} (h : T.Mapped id source n m env s.1 s.2) :
    T.Mapped id source (n + 1) m env (RandomMiniHeapDieHarder.mapObjects T id source s n).1
      (RandomMiniHeapDieHarder.mapObjects T id source s n).2 := by
  have hindex : (n * T.objectsPerPage) >>> staticlog T.objectsPerPage = n := by
    rw [shiftRight_staticlog T.objectsPerPage_powerOfTwo, Nat.mul_div_cancel _ T.objectsPerPage_pos]
  obtain ⟨hmem, hmapped, hpt⟩ := insertPages_spec T id (n * T.objectsPerPage)
    (source n) (s.2.map (source n) (T.pagesPerObject * b.pageSize))
  simp only [RandomMiniHeapDieHarder.mapObjects]
  refine ⟨h.bitmap_eq, h.freedValue_eq, ?_, hmem.trans h.mem_eq, ?_, ?_, ?_, ?_⟩
  · intro j hj
    simp only [RandomMiniHeapDieHarder.setPageFromIndex, hindex]
    by_cases hjn : j = n
    · rw [hjn, Function.update_self]
    · rw [Function.update_of_ne hjn]
      exact h.page j (by omega)
  · intro r
    rw [hmapped, Env.map, List.mem_cons, h.mapped]
    constructor
    · rintro (rfl | ⟨j, hj, rfl⟩ | hr)
      · exact Or.inl ⟨n, Nat.lt_succ_self n, rfl⟩
      · exact Or.inl ⟨j, by omega, rfl⟩
      · exact Or.inr hr
    · rintro (⟨j, hj, rfl⟩ | hr)
      · by_cases hjn : j = n
        · exact Or.inl (by rw [hjn])
        · exact Or.inr (Or.inl ⟨j, by omega, rfl⟩)
      · exact Or.inr (Or.inr hr)
  · intro j hj P hP hno
    by_cases hjn : j = n
    · subst hjn
      exact (hpt P).1 hP
    · rw [(hpt P).2 (hno n (Nat.lt_succ_self n) (Ne.symm hjn))]
      exact h.entry j (by omega) P hP fun t ht => hno t (by omega)
  · intro P hno
    rw [(hpt P).2 (hno n (Nat.lt_succ_self n))]
    exact h.other P fun j hj => hno j (by omega)
  · intro P hP
    by_cases hn : T.IsPageOf (source n) P
    · rw [(hpt P).1 hn]
      rfl
    · rw [(hpt P).2 hn]
      apply h.isSome
      apply hP.imp_left
      rintro ⟨j, hj, hpage⟩
      have hjn : j ≠ n := by
        rintro rfl
        exact hn hpage
      exact ⟨j, by omega, hpage⟩

/-- The miniheap and the shared state after `n` turns of the loop. -/
def turns (T : MiniHeapType b) (id : MiniId) (source : Nat → Addr) (m : MiniHeap) (env : Env) (n : Nat) :
    MiniHeap × Env :=
  (List.range n).foldl (RandomMiniHeapDieHarder.mapObjects T id source) (m, env)

theorem mapped_turns (T : MiniHeapType b) (id : MiniId) (source : Nat → Addr) (m : MiniHeap) (env : Env)
    (n : Nat) :
    T.Mapped id source n m env (T.turns id source m env n).1 (T.turns id source m env n).2 := by
  induction n with
  | zero =>
    refine ⟨rfl, rfl, by omega, rfl, ?_, by omega, fun _ _ => rfl, ?_⟩
    · intro r
      constructor
      · exact Or.inr
      · rintro (⟨j, hj, -⟩ | hr)
        · omega
        · exact hr
    · rintro P (⟨j, hj, -⟩ | hP)
      · omega
      · exact hP
  | succ n ih =>
    rw [turns, List.range_succ, List.foldl_append, List.foldl_cons, List.foldl_nil]
    exact ih.turn

theorem internalActivate_mem (T : MiniHeapType b) (id : MiniId) (source : Nat → Addr) (m : MiniHeap)
    (env : Env) : (RandomMiniHeapDieHarder.internalActivate T id source m env).2.mem = env.mem :=
  (T.mapped_turns id source { m with miniHeapBitmap := BitMap.reserve T.nObjects } env
    (RandomMiniHeapDieHarder.mapTurns T)).mem_eq

def sourceLayout (T : MiniHeapType b) (source : Nat → Addr) : Layout :=
  T.layout ⟨false, 0, BitMap.empty, source 0, source⟩

/-- The offered blocks are aligned and apart from each other. -/
structure Offers (T : MiniHeapType b) (source : Nat → Addr) : Prop where
  dvd : ∀ j < (T.sourceLayout source).count, b.pageSize ∣ (T.sourceLayout source).base j
  ne_zero : b.dieHarderOn = false → source 0 ≠ 0
  apart : ∀ j < (T.sourceLayout source).count, ∀ k < (T.sourceLayout source).count, j ≠ k →
    Apart ((T.sourceLayout source).base j) (T.sourceLayout source).bytes
      ((T.sourceLayout source).base k) (T.sourceLayout source).bytes

/-- What activation does to a miniheap and to the shared state. -/
structure Activation (T : MiniHeapType b) (id : MiniId) (source : Nat → Addr) (env : Env)
    (m' : MiniHeap) (env' : Env) : Prop where
  activated : m'.isHeapActivated = true
  clear : ∀ i, m'.miniHeapBitmap.isSet i = false
  base : ∀ j < (T.sourceLayout source).count, (T.layout m').base j = (T.sourceLayout source).base j
  mapped : ∀ r, r ∈ env'.mapped ↔ (∃ j < (T.sourceLayout source).count,
    r = ((T.sourceLayout source).base j, (T.sourceLayout source).bytes)) ∨ r ∈ env.mapped
  entry : b.dieHarderOn = true → ∀ j p, (T.layout m').InBlock j p →
    env'.pageTable (b.computePageNumber p) = some ⟨id, j * (T.layout m').per⟩
  other : ∀ p, (∀ j, ¬ (T.layout m').InBlock j p) →
    env'.pageTable (b.computePageNumber p) = env.pageTable (b.computePageNumber p)

theorem activate_dieHard {id : MiniId} {source : Nat → Addr} {m : MiniHeap} {env : Env}
    (hd : b.dieHarderOn = false) (ho : T.Offers source) (hm : m.isHeapActivated = false) :
    T.Activation id source env (RandomMiniHeapDieHard.activate T source m env).1
      (RandomMiniHeapDieHard.activate T source m env).2 := by
  have hcount : (T.sourceLayout source).count = 1 := by simp [sourceLayout, layout, hd]
  have hbase (j : Nat) : (T.sourceLayout source).base j = source 0 := by
    simp [sourceLayout, layout, hd]
  have hbytes : (T.sourceLayout source).bytes = T.nObjects * T.objectSize := by
    simp [sourceLayout, layout, Layout.bytes, hd]
  have hmapped (r : Addr × Nat) (env' : Env)
      (he : env'.mapped = (env.map (source 0) (T.nObjects * T.objectSize)).mapped) :
      r ∈ env'.mapped ↔ (∃ j < (T.sourceLayout source).count,
        r = ((T.sourceLayout source).base j, (T.sourceLayout source).bytes)) ∨ r ∈ env.mapped := by
    rw [he, Env.map, List.mem_cons]
    simp only [hcount, hbase, hbytes]
    constructor
    · rintro (hr | hr)
      · exact Or.inl ⟨0, Nat.one_pos, hr⟩
      · exact Or.inr hr
    · rintro (⟨_, -, hr⟩ | hr)
      · exact Or.inl hr
      · exact Or.inr hr
  simp only [RandomMiniHeapDieHard.activate, hm, Bool.false_eq_true, if_false, if_neg (ho.ne_zero hd)]
  split
  · refine ⟨rfl, BitMap.isSet_reserve _, ?_, fun r => hmapped r _ rfl, by simp [hd], fun _ _ => rfl⟩
    intro j _
    rw [hbase]
    simp [layout, hd]
  · refine ⟨rfl, BitMap.isSet_reserve _, ?_, fun r => hmapped r _ rfl, by simp [hd], fun _ _ => rfl⟩
    intro j _
    rw [hbase]
    simp [layout, hd]

theorem activate_dieHarder {id : MiniId} {source : Nat → Addr} {m : MiniHeap} {env : Env}
    (hd : b.dieHarderOn = true) (ho : T.Offers source) :
    T.Activation id source env (RandomMiniHeapDieHarder.internalActivate T id source m env).1
      (RandomMiniHeapDieHarder.internalActivate T id source m env).2 := by
  have hcount : (T.sourceLayout source).count = RandomMiniHeapDieHarder.mapTurns T := if_pos hd
  have hsource (j : Nat) : (T.sourceLayout source).base j = source j := if_pos hd
  have hbytes : (T.sourceLayout source).bytes = T.pagesPerObject * b.pageSize := T.layout_bytes hd _
  have hfold := T.mapped_turns id source { m with miniHeapBitmap := BitMap.reserve T.nObjects } env
    (RandomMiniHeapDieHarder.mapTurns T)
  have hact : RandomMiniHeapDieHarder.internalActivate T id source m env =
      ({ (T.turns id source { m with miniHeapBitmap := BitMap.reserve T.nObjects } env
          (RandomMiniHeapDieHarder.mapTurns T)).1 with isHeapActivated := true },
        (T.turns id source { m with miniHeapBitmap := BitMap.reserve T.nObjects } env
          (RandomMiniHeapDieHarder.mapTurns T)).2) := rfl
  rw [hact]
  generalize T.turns id source { m with miniHeapBitmap := BitMap.reserve T.nObjects } env
    (RandomMiniHeapDieHarder.mapTurns T) = s at hfold
  have hlayout : (T.layout { s.1 with isHeapActivated := true }) = T.layout s.1 := rfl
  have hcount' : (T.layout s.1).count = RandomMiniHeapDieHarder.mapTurns T := if_pos hd
  have hper : (T.layout s.1).per = T.objectsPerPage := if_pos hd
  have hbase (j : Nat) : (T.layout s.1).base j = s.1.mapEntryToPage j := if_pos hd
  have hblock (j p : Nat) (hj : j < RandomMiniHeapDieHarder.mapTurns T) :
      T.IsPageOf (source j) (b.computePageNumber p) ↔ (T.layout s.1).InBlock j p := by
    have hdvd := ho.dvd j (by omega)
    rw [hsource] at hdvd
    rw [isPageOf_iff hdvd, Layout.InBlock, T.layout_bytes hd, hbase, hfold.page j hj, hcount']
    simp only [hj, true_and]
  refine ⟨rfl, ?_, ?_, ?_, ?_, ?_⟩
  · intro i
    rw [hfold.bitmap_eq]
    exact BitMap.isSet_reserve _ _
  · intro j hj
    rw [hlayout, hbase, hfold.page j (by omega), hsource]
  · intro r
    simp only [hfold.mapped, hcount, hsource, hbytes]
  · intro _ j p hj
    rw [hlayout] at hj ⊢
    have hjn : j < RandomMiniHeapDieHarder.mapTurns T := by
      have := hj.1
      omega
    rw [hper]
    refine hfold.entry j hjn _ ((hblock j p hjn).mpr hj) ?_
    intro t ht htj hpage
    have ht' := (hblock t p ht).mp hpage
    have hapart := ho.apart t (by omega) j (by omega) htj
    obtain ⟨-, h1, h2⟩ := hj
    obtain ⟨-, h3, h4⟩ := ht'
    simp only [hsource, hbytes] at hapart
    have hbytes' := T.layout_bytes hd s.1
    rw [hbase, hfold.page j hjn] at h1 h2
    rw [hbase, hfold.page t ht] at h3 h4
    rcases hapart with h | h <;> omega
  · intro p hno
    rw [hlayout] at hno
    exact hfold.other _ fun j hj hpage => hno j ((hblock j p hj).mp hpage)

end MiniHeapType

end DieHard
