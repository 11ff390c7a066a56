import DieHard.Concurrent.Growth

/-!
# Freeing what another thread has allocated

`free` searches the first `_miniHeapsInUse` miniheaps, `malloc` draws among those that `_chunksInUse`
speaks of, and the grower stores `_chunksInUse` first. A call of `free` finds an object exactly when the
miniheap of the object is counted at the moment it loads `_miniHeapsInUse`.
-/

namespace DieHard

open Transition

variable {cfg : HeapConfig} {cls : Nat} {arena : Arena cfg cls}

namespace ConcurrentHeap

variable {h : SharedHeap} {pc : HeapPc} {random : Nat} {s s' : ConcurrentHeap} {a : Action}
  {p i j n u : Nat}

/-- The search of `free(p)` among the first `n` miniheaps has not passed slot `j` of miniheap `i`, or it has
found it. -/
def Searching (p i j n : Nat) (h : SharedHeap) : HeapPc → Prop
  | .freeCached q cached m => q = p ∧ m = n ∧ 0 ≤ cached ∧ cached < n ∧ h.bits i j = true
  | .freeSearch q cached left =>
    q = p ∧ left ≤ n ∧ (i < n → i < left ∧ (i : Int) ≠ cached) ∧ h.bits i j = true
  | .storeCached _ | .subInUse => i < n
  | _ => False

theorem freeIn_of_slotOf (hslot : (arena.layout i).slotOf p = some j) (hbit : h.bits i j = true) :
    freeIn cfg cls arena h i p = some (h.setBit i j false) := by
  simp [freeIn, hslot, hbit]

theorem index_of_freeIn {h' : SharedHeap} {k : Nat} (hslot : (arena.layout i).slotOf p = some j)
    (hf : freeIn cfg cls arena h k p = some h') : k = i := by
  obtain ⟨l, hl, -, -⟩ := freeIn_eq hf
  exact (arena.separate.slot_unique trivial trivial (Blocks.Layout.contains_of_slotOf hl)
    (Blocks.Layout.contains_of_slotOf hslot)).1

/-- An access of the search leads on, and clears the bit when it finds it, or it ends the search with the
right answer. -/
theorem access_searching (hslot : (arena.layout i).slotOf p = some j)
    (hs : Searching p i j n h pc) :
    Searching p i j n (access cfg cls arena random h pc).1 (access cfg cls arena random h pc).2 ∧
        ((access cfg cls arena random h pc).2.freed = true → pc.freed = true ∨
          h.bits i j = true ∧ (access cfg cls arena random h pc).1.bits i j = false) ∨
      ∃ freed, (access cfg cls arena random h pc).2 = .idle (some (.free freed)) ∧
        (freed = true ↔ i < n) ∧ (freed = true → pc = .subInUse) := by
  cases pc with
  | freeCached q cached m =>
    obtain ⟨rfl, rfl, h0, hlt, hbit⟩ := hs
    left
    cases hf : freeIn cfg cls arena h cached.toNat q with
    | none =>
      have hne : (i : Int) ≠ cached := by
        rintro rfl
        rw [Int.toNat_natCast, freeIn_of_slotOf hslot hbit] at hf
        cases hf
      simp only [access, hf]
      refine ⟨⟨rfl, Nat.le_refl _, fun hi => ⟨hi, hne⟩, hbit⟩, ?_⟩
      intro hfreed
      cases hfreed
    | some h' =>
      have hi := index_of_freeIn hslot hf
      rw [hi, freeIn_of_slotOf hslot hbit] at hf
      cases hf
      simp only [access, hi, freeIn_of_slotOf hslot hbit]
      refine ⟨?_, fun _ => Or.inr ⟨hbit, h.setBit_self i j false⟩⟩
      show i < m
      omega
  | freeSearch q cached left =>
    obtain ⟨rfl, hle, hfirst, hbit⟩ := hs
    cases left with
    | zero =>
      refine Or.inr ⟨false, rfl, ?_, fun h => by cases h⟩
      simp only [Bool.false_eq_true, false_iff]
      omega
    | succ k =>
      left
      by_cases hk : (k : Int) = cached
      · simp only [access, if_pos hk]
        refine ⟨⟨rfl, by omega, ?_, hbit⟩, fun h => by cases h⟩
        intro hi
        obtain ⟨hlt, hne⟩ := hfirst hi
        exact ⟨by omega, hne⟩
      cases hf : freeIn cfg cls arena h k q with
      | none =>
        have hne : i ≠ k := by
          rintro rfl
          rw [freeIn_of_slotOf hslot hbit] at hf
          cases hf
        simp only [access, if_neg hk, hf]
        refine ⟨⟨rfl, by omega, ?_, hbit⟩, fun h => by cases h⟩
        intro hi
        obtain ⟨hlt, hcached⟩ := hfirst hi
        exact ⟨by omega, hcached⟩
      | some h' =>
        obtain rfl := index_of_freeIn hslot hf
        simp only [access, if_neg hk, freeIn_of_slotOf hslot hbit]
        refine ⟨?_, fun _ => Or.inr ⟨hbit, h.setBit_self k j false⟩⟩
        show k < n
        omega
  | storeCached k => exact Or.inl ⟨hs, fun _ => Or.inl rfl⟩
  | subInUse => exact Or.inr ⟨true, rfl, iff_of_true rfl hs, fun _ => rfl⟩
  | _ => exact hs.elim

theorem Searching.mono {h' : SharedHeap} (hs : Searching p i j n h pc)
    (hbit : h.bits i j = true → h'.bits i j = true) : Searching p i j n h' pc := by
  cases pc with
  | freeCached q cached m =>
    obtain ⟨hq, hm, h0, hlt, hset⟩ := hs
    exact ⟨hq, hm, h0, hlt, hbit hset⟩
  | freeSearch q cached left =>
    obtain ⟨hq, hle, hfirst, hset⟩ := hs
    exact ⟨hq, hle, hfirst, hbit hset⟩
  | _ => exact hs

theorem bit_kept (hn : next cfg cls arena s a = some s') (hbit : s.heap.bits i j = true)
    (halone : ∀ q, (s.pc a.thread).freeing q = true → (arena.layout i).slotOf q ≠ some j) :
    s'.heap.bits i j = true := by
  obtain ⟨t, rfl, -, rfl⟩ | ⟨t, ptr, rfl, -, rfl⟩ | ⟨t, random, rfl, -, rfl⟩ := next_cases hn
  · exact hbit
  · exact hbit
  · rw [move_heap]
    obtain heq | ⟨again, k, l, -, -, hclear, heq⟩ | ⟨q, k, l, hq, hslot, -, heq, -⟩ :=
      @access_bits cfg cls arena random s.heap (s.pc t)
    · rw [heq]
      exact hbit
    · rw [heq, SharedHeap.setBit_of_ne]
      · exact hbit
      · intro he
        cases he
        rw [hbit] at hclear
        cases hclear
    · rw [heq, SharedHeap.setBit_of_ne]
      · exact hbit
      · intro he
        cases he
        exact halone q hq hslot

/-- A thread that clears the bit has found it. -/
theorem freed_of_clear (hn : next cfg cls arena s a = some s') (hbit : s.heap.bits i j = true)
    (hclear : s'.heap.bits i j = false) :
    (s.pc a.thread).freed = false ∧ (s'.pc a.thread).freed = true := by
  obtain ⟨t, rfl, -, rfl⟩ | ⟨t, ptr, rfl, -, rfl⟩ | ⟨t, random, rfl, -, rfl⟩ := next_cases hn
  · rw [move_heap, hbit] at hclear
    cases hclear
  · rw [move_heap, hbit] at hclear
    cases hclear
  · obtain heq | ⟨again, k, l, -, -, -, heq⟩ | ⟨q, k, l, hq, -, -, -, hfreed⟩ :=
      @access_bits cfg cls arena random s.heap (s.pc t)
    · rw [move_heap, heq, hbit] at hclear
      cases hclear
    · rw [move_heap, heq] at hclear
      by_cases he : (i, j) = (k, l)
      · cases he
        rw [SharedHeap.setBit_self] at hclear
        cases hclear
      · rw [SharedHeap.setBit_of_ne _ _ he, hbit] at hclear
        cases hclear
    · have hpc : ((s.move t (access cfg cls arena random s.heap (s.pc t))).pc t).freed = true := by
        rw [move_pc]
        exact hfreed
      refine ⟨?_, hpc⟩
      change (s.pc t).freed = false
      cases h : s.pc t <;> simp_all [HeapPc.freeing, HeapPc.freed]

/-- The step is an access of thread `u`. -/
def Action.isStep (u : Nat) : Action → Bool
  | step t _ => t == u
  | _ => false

/-- In step `k` thread `u` clears bit `j` of miniheap `i`. -/
def Clears (e : Execution (next cfg cls arena) (fun _ _ => True) .initial) (u i j k : Nat) : Prop :=
  (e.action k).thread = u ∧ (e.state k).heap.bits i j = true ∧ (e.state (k + 1)).heap.bits i j = false

/-- In step `k` thread `u` executes `_inUse.fetch_sub(1)`. -/
def CountsDown (e : Execution (next cfg cls arena) (fun _ _ => True) .initial) (u k : Nat) : Prop :=
  (e.state k).pc u = .subInUse ∧ ∃ random, e.action k = .step u random

/-- Before it has loaded `_miniHeapsInUse` the call has done nothing yet. -/
def Starting (p : Nat) : HeapPc → Prop
  | .loadCached q => q = p
  | .loadNumHeaps q _ => q = p
  | _ => False

/-- The accesses that a call of `free` still makes, when at most `max` miniheaps are in use. -/
def accessesLeft (max : Nat) : HeapPc → Nat
  | .loadCached _ => max + 5
  | .loadNumHeaps _ _ => max + 4
  | .freeCached _ _ n => n + 3
  | .freeSearch _ _ left => left + 2
  | .storeCached _ => 2
  | .subInUse => 1
  | _ => 0

/-- The thread is in a call of `free`. -/
def InFree (pc : HeapPc) : Prop := (∃ p, pc.freeing p = true) ∨ pc.freed = true

theorem InFree.isIdle (hpc : InFree pc) : pc.isIdle = false := by
  cases pc with
  | idle last =>
    obtain ⟨p, hp⟩ | hp := hpc
    · cases hp
    · cases hp
  | _ => rfl

/-- Each access of a call of `free` brings it closer to its return. -/
theorem access_inFree {max : Nat} (hmax : h.miniHeapsInUse ≤ max) (hpc : InFree pc) :
    (∃ freed, (access cfg cls arena random h pc).2 = .idle (some (.free freed))) ∨
      InFree (access cfg cls arena random h pc).2 ∧
        accessesLeft max (access cfg cls arena random h pc).2 + 1 ≤ accessesLeft max pc := by
  have hin (q : Addr) {pc : HeapPc} (hq : pc.freeing q = true) : InFree pc := Or.inl ⟨q, hq⟩
  cases pc with
  | loadCached q => exact Or.inr ⟨hin q (by simp [access, HeapPc.freeing]), Nat.le_refl _⟩
  | loadNumHeaps q cached =>
    right
    rw [access]
    split
    · refine ⟨hin q (by simp [HeapPc.freeing]), ?_⟩
      simp only [accessesLeft]
      omega
    · refine ⟨hin q (by simp [HeapPc.freeing]), ?_⟩
      simp only [accessesLeft]
      omega
  | freeCached q cached m =>
    right
    rw [access]
    split
    · refine ⟨Or.inr rfl, ?_⟩
      simp only [accessesLeft]
      omega
    · exact ⟨hin q (by simp [HeapPc.freeing]), Nat.le_refl _⟩
  | freeSearch q cached left =>
    cases left with
    | zero => exact Or.inl ⟨false, rfl⟩
    | succ k =>
      right
      rw [access]
      split
      · refine ⟨hin q (by simp [HeapPc.freeing]), ?_⟩
        simp only [accessesLeft]
        omega
      split
      · refine ⟨Or.inr rfl, ?_⟩
        simp only [accessesLeft]
        omega
      · refine ⟨hin q (by simp [HeapPc.freeing]), ?_⟩
        simp only [accessesLeft]
        omega
  | storeCached k => exact Or.inr ⟨Or.inr rfl, Nat.le_refl _⟩
  | subInUse => exact Or.inl ⟨true, rfl⟩
  | _ =>
    obtain ⟨p, hp⟩ | hp := hpc
    · cases hp
    · cases hp

section Call

variable {e : Execution (next cfg cls arena) (fun _ _ => True) .initial} {b c m : Nat}

private theorem pc_of_free (hb : b < e.length) (hact : e.action b = .free u p) :
    (e.state (b + 1)).pc u = .loadCached p := by
  have hn := e.step b hb
  rw [hact] at hn
  obtain ⟨t, ht, -, -⟩ | ⟨t, ptr, ht, -, hs⟩ | ⟨t, random, ht, -, -⟩ := next_cases hn
  · cases ht
  · cases ht
    rw [hs, move_pc]
  · cases ht

/-- A call of `free` returns after so many accesses of its own. -/
theorem free_returns (hm : m ≤ e.length) (hbm : b < m) (hact : e.action b = .free u p)
    (hcount : cfg.maxMiniHeaps + 5 < Nat.count (fun k => b + 1 ≤ k ∧ (e.action k).isStep u) m) :
    ∃ c freed, b < c ∧ c < m ∧ (e.state (c + 1)).pc u = .idle (some (.free freed)) ∧
      ∀ k, b < k → k ≤ c → InFree ((e.state k).pc u) := by
  have hfirst := pc_of_free (by omega) hact
  have hin : InFree ((e.state (b + 1)).pc u) := by
    rw [hfirst]
    exact Or.inl ⟨p, by simp [HeapPc.freeing]⟩
  have hstep (k : Nat) (_ : b + 1 ≤ k) (hkm : k < m) (hin : InFree ((e.state k).pc u)) :
      (∃ freed, (e.state (k + 1)).pc u = .idle (some (.free freed))) ∨
        InFree ((e.state (k + 1)).pc u) ∧
          accessesLeft cfg.maxMiniHeaps ((e.state (k + 1)).pc u) + (Action.isStep u (e.action k)).toNat ≤
            accessesLeft cfg.maxMiniHeaps ((e.state k).pc u) := by
    have hg := growing_of_reach (e.reach (k := k) (by omega))
    obtain ⟨x, y, z, -, -, -, hc⟩ := hg.counters
    have hmax : (e.state k).heap.miniHeapsInUse ≤ cfg.maxMiniHeaps := by
      have hle := hc.miniHeaps_le
      omega
    rcases busy_cases (e.step k (by omega)) hin.isIdle with ⟨random, ha, hs⟩ | ⟨hother, hs⟩
    · rw [hs, move_pc, ha]
      rcases @access_inFree cfg cls arena _ _ random _ hmax hin with hend | ⟨hin', hrank⟩
      · exact Or.inl hend
      · refine Or.inr ⟨hin', ?_⟩
        simpa [Action.isStep] using hrank
    · have hstep : (e.action k).isStep u = false := by
        cases ha : e.action k with
        | step t random =>
          simp only [Action.isStep, beq_eq_false_iff_ne, ne_eq]
          rintro rfl
          rw [ha] at hother
          exact hother rfl
        | _ => rfl
      rw [hs, hstep]
      exact Or.inr ⟨hin, Nat.le_refl _⟩
  have hrank : accessesLeft cfg.maxMiniHeaps ((e.state (b + 1)).pc u) <
      Nat.count (fun k => b + 1 ≤ k ∧ (e.action k).isStep u) m := by
    rw [hfirst]
    exact hcount
  obtain ⟨c, hbc, hcm, ⟨freed, hfreed⟩, hbusy⟩ := e.goal_of_rank (fun s => InFree (s.pc u))
    (fun s => accessesLeft cfg.maxMiniHeaps (s.pc u))
    (fun k => ∃ freed, (e.state (k + 1)).pc u = .idle (some (.free freed)))
    (Action.isStep u) hbm hin hstep hrank
  exact ⟨c, freed, hbc, hcm, hfreed, hbusy⟩

/-- What has happened in the call that began with step `b`, by moment `k`. -/
private def History (e : Execution (next cfg cls arena) (fun _ _ => True) .initial)
    (u p i j b k : Nat) : Prop :=
  Starting p ((e.state k).pc u) ∧ (e.state k).heap.bits i j = true ∨
  ∃ load cached, b < load ∧ load < k ∧ (e.state load).pc u = .loadNumHeaps p cached ∧
    (∃ random, e.action load = .step u random) ∧
    Searching p i j (e.state load).heap.miniHeapsInUse (e.state k).heap ((e.state k).pc u) ∧
    (((e.state k).pc u).freed = true → ∃ l, b < l ∧ l < k ∧ Clears e u i j l)

private theorem Searching.of_loadNumHeaps {cached : Int} (hbit : h.bits i j = true) :
    Searching p i j h.miniHeapsInUse (access cfg cls arena random h (.loadNumHeaps p cached)).1
      (access cfg cls arena random h (.loadNumHeaps p cached)).2 := by
  rw [access]
  by_cases hc : 0 ≤ cached ∧ cached < h.miniHeapsInUse
  · rw [if_pos hc]
    exact ⟨rfl, rfl, hc.1, hc.2, hbit⟩
  · rw [if_neg hc]
    refine ⟨rfl, Nat.le_refl _, ?_, hbit⟩
    intro hi
    exact ⟨hi, fun he => hc (by omega)⟩

/-- One step of the call, or of a thread that leaves the slot alone. -/
private theorem History.step {k : Nat} (hslot : (arena.layout i).slotOf p = some j)
    (hk : k < e.length) (hbk : b < k)
    (halone : ∀ v q, ((e.state k).pc v).freeing q = true → (arena.layout i).slotOf q = some j → v = u)
    (hbusy : ((e.state k).pc u).isIdle = false) (hh : History e u p i j b k) :
    History e u p i j b (k + 1) ∨
      ∃ load cached freed, b < load ∧ load < k ∧ (e.state load).pc u = .loadNumHeaps p cached ∧
        (∃ random, e.action load = .step u random) ∧ (∃ random, e.action k = .step u random) ∧
        (e.state (k + 1)).pc u = .idle (some (.free freed)) ∧
        (freed = true ↔ i < (e.state load).heap.miniHeapsInUse) ∧
        (freed = true → (e.state k).pc u = .subInUse ∧ ∃ l, b < l ∧ l < k ∧ Clears e u i j l) := by
  rcases busy_cases (e.step k hk) hbusy with ⟨random, ha, hs⟩ | ⟨hother, hs⟩
  · obtain ⟨hstart, hbit⟩ | ⟨load, cached, hb, hlk, hload, hact, hsearch, hcleared⟩ := hh
    · left
      cases hpc : (e.state k).pc u with
      | loadCached q =>
        rw [hpc] at hstart
        obtain rfl : q = p := hstart
        refine Or.inl ⟨?_, ?_⟩
        · rw [hs, move_pc, hpc]
          rfl
        · rw [hs, move_heap, hpc]
          exact hbit
      | loadNumHeaps q cached =>
        rw [hpc] at hstart
        obtain rfl : q = p := hstart
        refine Or.inr ⟨k, cached, hbk, Nat.lt_succ_self k, hpc, ⟨random, ha⟩, ?_, ?_⟩
        · rw [hs, move_heap, move_pc, hpc]
          exact Searching.of_loadNumHeaps hbit
        · rw [hs, move_pc, hpc, access]
          intro hfreed
          split at hfreed <;> cases hfreed
      | _ =>
        rw [hpc] at hstart
        exact hstart.elim
    · obtain ⟨hsearch', hclear⟩ | ⟨freed, hidle, hiff, hlast⟩ :=
        @access_searching cfg cls arena _ _ random _ _ _ _ hslot hsearch
      · refine Or.inl (Or.inr ⟨load, cached, hb, by omega, hload, hact, ?_, ?_⟩)
        · rw [hs, move_heap, move_pc]
          exact hsearch'
        · rw [hs, move_pc]
          intro hfreed
          rcases hclear hfreed with hf | ⟨hset, hreset⟩
          · obtain ⟨l, hbl, hl, hc⟩ := hcleared hf
            exact ⟨l, hbl, by omega, hc⟩
          · refine ⟨k, hbk, Nat.lt_succ_self k, ?_, hset, ?_⟩
            · rw [ha]
              rfl
            · rw [hs, move_heap]
              exact hreset
      · refine Or.inr ⟨load, cached, freed, hb, hlk, hload, hact, ⟨random, ha⟩, ?_, hiff, ?_⟩
        · rw [hs, move_pc]
          exact hidle
        · intro hf
          refine ⟨hlast hf, hcleared ?_⟩
          rw [hlast hf]
          rfl
  · have hkept (hbit : (e.state k).heap.bits i j = true) :
        (e.state (k + 1)).heap.bits i j = true := by
      apply bit_kept (e.step k hk) hbit
      intro q hq hqslot
      exact hother (halone _ q hq hqslot).symm
    left
    obtain ⟨hstart, hbit⟩ | ⟨load, cached, hb, hlk, hload, hact, hsearch, hcleared⟩ := hh
    · left
      rw [hs]
      exact ⟨hstart, hkept hbit⟩
    · refine Or.inr ⟨load, cached, hb, by omega, hload, hact, ?_, ?_⟩
      · rw [hs]
        exact hsearch.mono hkept
      · rw [hs]
        intro hfreed
        obtain ⟨l, hbl, hl, hc⟩ := hcleared hfreed
        exact ⟨l, hbl, by omega, hc⟩

private theorem freed_kept {k l : Nat} (hl : l ≤ e.length) (hkl : k ≤ l)
    (hbusy : ∀ r, k ≤ r → r ≤ l → InFree ((e.state r).pc u)) (hf : ((e.state k).pc u).freed = true) :
    ((e.state l).pc u).freed = true := by
  refine e.keeps (I := fun _ s => (s.pc u).freed = true) hkl hf ?_
  intro r hkr hrl hfr
  rcases busy_cases (e.step r (by omega)) (hbusy r hkr (by omega)).isIdle with
    ⟨random, -, hs⟩ | ⟨-, hs⟩
  · have hnext := (hbusy (r + 1) (by omega) (by omega)).isIdle
    rw [hs, move_pc] at hnext ⊢
    cases hpc : (e.state r).pc u with
    | storeCached q => rfl
    | subInUse =>
      rw [hpc] at hnext
      cases hnext
    | _ =>
      rw [hpc] at hfr
      cases hfr
  · rw [hs]
    exact hfr

private theorem bit_of_take {t k : Nat} {again : Bool} (hk : k < e.length)
    (hpc : (e.state k).pc t = .tryToSet again i) (hact : e.action k = .step t random)
    (hgot : (e.state (k + 1)).pc t = .addInUse p) (hslot : (arena.layout i).slotOf p = some j) :
    (e.state (k + 1)).heap.bits i j = true := by
  have hidle : ((e.state k).pc t).isIdle = false := by
    rw [hpc]
    rfl
  rcases busy_cases (e.step k hk) hidle with ⟨random', -, hs⟩ | ⟨hother, -⟩
  · rw [hs, move_pc, hpc] at hgot
    rw [hs, move_heap, hpc]
    cases hbit : (e.state k).heap.bits i (modulo (cfg.nObjects ⟨0, cls, i⟩) random') with
    | true =>
      simp only [access, hbit, if_true] at hgot
      cases hgot
    | false =>
      simp only [access, hbit, Bool.false_eq_true, if_false, HeapPc.addInUse.injEq] at hgot ⊢
      have hlt := modulo_lt (cfg.nObjects_pos ⟨0, cls, i⟩) random'
      have hcontains := Blocks.Layout.contains_addr (hlt.trans_le (arena.nObjects_le i))
      rw [← hgot, (arena.separate.slotOf_eq_some trivial).mpr hcontains] at hslot
      cases hslot
      exact SharedHeap.setBit_self _ _ _ _
  · rw [hact] at hother
    exact absurd rfl hother

/-- Thread `t` takes a slot for the object `p`, and thread `u` calls `free(p)`. No other call of `free`
with an address of the slot is under way in between, unless it has reset its bit before. The call of
`free` returns; it returns true, has cleared the bit of `p` once and has decremented `_inUse` once, if
and only if the miniheap of `p` was counted in `_miniHeapsInUse` when the call loaded that counter. -/
theorem free_iff_counted (e : Execution (next cfg cls arena) (fun _ _ => True) .initial)
    {t u p i j k b m random : Nat} {again : Bool}
    (hpc : (e.state k).pc t = .tryToSet again i) (hact : e.action k = .step t random)
    (hgot : (e.state (k + 1)).pc t = .addInUse p) (hslot : (arena.layout i).slotOf p = some j)
    (hkb : k < b) (hfree : e.action b = .free u p) (hbm : b < m) (hm : m ≤ e.length)
    (halone : ∀ l, k < l → l < m → ∀ v q, ((e.state l).pc v).freeing q = true →
      (arena.layout i).slotOf q = some j → v = u ∧ b < l)
    (hcount : cfg.maxMiniHeaps + 5 < Nat.count (fun l => b + 1 ≤ l ∧ (e.action l).isStep u) m) :
    ∃ load cached c freed, b < load ∧ load < c ∧ c ≤ m ∧
      (e.state load).pc u = .loadNumHeaps p cached ∧ (∃ random, e.action load = .step u random) ∧
      (e.state c).pc u = .idle (some (.free freed)) ∧
      (∀ l, b < l → l < c → ((e.state l).pc u).isIdle = false) ∧
      (freed = true ∧ (∃! l, (b < l ∧ l < c) ∧ Clears e u i j l) ∧
          (∃! l, (b < l ∧ l < c) ∧ CountsDown e u l) ↔
        i < (e.state load).heap.miniHeapsInUse) := by
  obtain ⟨c, freed, hbc, hcm, hret, hbusy⟩ := free_returns hm hbm hfree hcount
  have hbit : (e.state (b + 1)).heap.bits i j = true := by
    refine e.keeps (I := fun _ s => s.heap.bits i j = true) (a := k + 1) (by omega)
      (bit_of_take (by omega) hpc hact hgot hslot) ?_
    intro l hkl hlb hset
    apply bit_kept (e.step l (by omega)) hset
    intro q hq hqslot
    have hlate := (halone l (by omega) (by omega) _ q hq hqslot).2
    omega
  have hstep (l : Nat) (hbl : b < l) (hlc : l ≤ c) := History.step (k := l) hslot (by omega) hbl
    (fun v q hq hqslot => (halone l (by omega) (by omega) v q hq hqslot).1)
    (hbusy l hbl hlc).isIdle
  have hhistory : History e u p i j b c := by
    refine e.keeps (I := fun l _ => History e u p i j b l) (a := b + 1) hbc ?_ ?_
    · refine Or.inl ⟨?_, hbit⟩
      rw [pc_of_free (by omega) hfree]
      rfl
    · intro l hbl hlc hh
      rcases hstep l hbl (by omega) hh with hh' | ⟨_, _, _, -, -, -, -, -, hidle, -⟩
      · exact hh'
      · have hnext := (hbusy (l + 1) (by omega) (by omega)).isIdle
        rw [hidle] at hnext
        cases hnext
  obtain hh | ⟨load, cached, freed', hbl, hlc, hload, hlact, ⟨random', hcact⟩, hidle, hiff, hdone⟩ :=
    hstep c hbc (Nat.le_refl c) hhistory
  · -- no place of a call stands at its return
    exfalso
    obtain ⟨hstart, -⟩ | ⟨_, _, -, -, -, -, hsearch, -⟩ := hh
    · rw [hret] at hstart
      exact hstart
    · rw [hret] at hsearch
      exact hsearch
  · rw [hret] at hidle
    cases hidle
    refine ⟨load, cached, c + 1, freed, hbl, by omega, hcm, hload, hlact, hret, ?_, ?_⟩
    · intro l hbl hlc
      exact (hbusy l hbl (by omega)).isIdle
    rw [← hiff]
    refine ⟨fun h => h.1, ?_⟩
    intro hf
    obtain ⟨hlast, l, hbl, hlc, hclears⟩ := hdone hf
    have hordered {r r' : Nat} (hr : b < r) (hr' : r' < c + 1) (hlt : r < r') (hcr : Clears e u i j r)
        (hcr' : Clears e u i j r') : False := by
      have hfr := (freed_of_clear (e.step r (by omega)) hcr.2.1 hcr.2.2).2
      have hfr' := (freed_of_clear (e.step r' (by omega)) hcr'.2.1 hcr'.2.2).1
      rw [hcr.1] at hfr
      rw [hcr'.1] at hfr'
      have hkept := freed_kept (k := r + 1) (l := r') (by omega) hlt
        (fun x hx hx' => hbusy x (by omega) (by omega)) hfr
      rw [hkept] at hfr'
      cases hfr'
    refine ⟨hf, ⟨l, ⟨⟨hbl, by omega⟩, hclears⟩, ?_⟩, ⟨c, ⟨⟨hbc, Nat.lt_succ_self c⟩, hlast, random', hcact⟩, ?_⟩⟩
    · rintro r ⟨⟨hbr, hrc⟩, hcr⟩
      rcases Nat.lt_trichotomy r l with h | h | h
      · exact (hordered hbr (by omega) h hcr hclears).elim
      · exact h
      · exact (hordered hbl hrc h hclears hcr).elim
    · -- a step that counts down is the last one of the call
      rintro r ⟨⟨hbr, hrc⟩, hpcr, random'', hractr⟩
      by_contra hne
      have hn := e.step r (by omega)
      rw [hractr] at hn
      obtain ⟨t', ht', -⟩ | ⟨t', ptr, ht', -⟩ | ⟨t', rnd, ht', -, hs⟩ := next_cases hn
      · cases ht'
      · cases ht'
      · cases ht'
        have hnext := (hbusy (r + 1) (by omega) (by omega)).isIdle
        rw [hs, move_pc, hpcr] at hnext
        cases hnext

/-- Who frees has called `free` before. -/
theorem action_of_freeing {l v q : Nat} (hl : l ≤ e.length) (hq : ((e.state l).pc v).freeing q = true) :
    ∃ b < l, e.action b = .free v q := by
  induction l with
  | zero =>
    rw [e.initial] at hq
    cases hq
  | succ l ih =>
    have hn := e.step l (by omega)
    have hearlier (hq : ((e.state l).pc v).freeing q = true) : ∃ b < l + 1, e.action b = .free v q := by
      obtain ⟨b, hb, hact⟩ := ih (by omega) hq
      exact ⟨b, by omega, hact⟩
    by_cases hv : v = (e.action l).thread
    · obtain ⟨t, ha, -, hs⟩ | ⟨t, ptr, ha, -, hs⟩ | ⟨t, random, ha, -, hs⟩ := next_cases hn <;>
        rw [ha] at hv <;> obtain rfl : v = t := hv <;> rw [hs, move_pc] at hq
      · cases hq
      · obtain rfl : ptr = q := by simpa [HeapPc.freeing] using hq
        exact ⟨l, Nat.lt_succ_self l, ha⟩
      · apply hearlier
        -- an access keeps the argument of its call
        cases hpc : (e.state l).pc v with
        | freeSearch ptr cached left =>
          rw [hpc] at hq
          cases left with
          | zero => cases hq
          | succ k =>
            rw [access] at hq
            repeat' split at hq
            all_goals first | exact hq | cases hq
        | _ =>
          rw [hpc, access] at hq
          repeat' split at hq
          all_goals first | exact hq | cases hq
    · rw [pc_other hn hv] at hq
      exact hearlier hq

end Call

/-- Thread 0 activates the first miniheap and stands before its store to `_miniHeapsInUse`. Thread 1 takes
an object from the new miniheap, frees it, and waits for the end of the growth in its next `malloc`. -/
def earlyFree : List Action :=
  .malloc 0 :: List.replicate 12 (.step 0 0) ++ .malloc 1 :: List.replicate 5 (.step 1 0) ++
    .free 1 0x100000 :: List.replicate 3 (.step 1 0) ++ .malloc 1 :: List.replicate 20 (.step 1 0)

def earlyExecution : Execution (next (.libdieharder false false) 16 (.consecutive _ 16))
    (fun _ _ => True) .initial :=
  .ofRun earlyFree (by decide +kernel) (guarded_true _ _ _)

private theorem alone_earlyExecution {l v q : Nat} (hl : l < 44)
    (hq : ((earlyExecution.state l).pc v).freeing q = true) : v = 1 ∧ 19 < l := by
  obtain ⟨b, hb, hact⟩ := action_of_freeing (e := earlyExecution) (Nat.le_of_lt hl) hq
  have honly : ∀ b < 44, (match earlyFree.getD b default with
      | .free v _ => v == 1 && b == 19
      | _ => true) = true := by decide
  have hb' := honly b (by omega)
  rw [show earlyFree.getD b default = .free v q from hact] at hb'
  simp only [Bool.and_eq_true, beq_iff_eq] at hb'
  exact ⟨hb'.1, by omega⟩

theorem free_iff_counted_early : ∃ load cached c freed, 19 < load ∧ load < c ∧ c ≤ 44 ∧
    (earlyExecution.state load).pc 1 = .loadNumHeaps 0x100000 cached ∧
    (∃ random, earlyExecution.action load = .step 1 random) ∧
    (earlyExecution.state c).pc 1 = .idle (some (.free freed)) ∧
    (∀ l, 19 < l → l < c → ((earlyExecution.state l).pc 1).isIdle = false) ∧
    (freed = true ∧ (∃! l, (19 < l ∧ l < c) ∧ Clears earlyExecution 1 0 0 l) ∧
        (∃! l, (19 < l ∧ l < c) ∧ CountsDown earlyExecution 1 l) ↔
      0 < (earlyExecution.state load).heap.miniHeapsInUse) :=
  free_iff_counted earlyExecution (t := 1) (u := 1) (p := 0x100000) (i := 0) (j := 0) (k := 17)
    (b := 19) (m := 44)
    (show (earlyExecution.state 17).pc 1 = .tryToSet false 0 by decide +kernel)
    (show earlyExecution.action 17 = .step 1 0 by decide +kernel) (by decide +kernel)
    (by decide +kernel) (by decide) (by decide +kernel) (by decide) (by decide)
    (fun l _ hl v q hq _ => alone_earlyExecution hl hq) (by decide +kernel)

/-- The object has been returned to its thread, nobody else frees it, and `free` returns false. -/
theorem not_free_returns_true : ¬ ∀ (cfg : HeapConfig) (cls : Nat) (arena : Arena cfg cls)
    (e : Execution (next cfg cls arena) (fun _ _ => True) .initial)
    (t u p i j k r b m random : Nat) (again : Bool),
    (e.state k).pc t = .tryToSet again i → e.action k = .step t random →
    (e.state (k + 1)).pc t = .addInUse p → (arena.layout i).slotOf p = some j →
    k < r → (e.state r).pc t = .idle (some (.malloc p)) →
    r ≤ b → e.action b = .free u p → b < m → m ≤ e.length →
    (∀ l, k < l → l < m → ∀ v q, ((e.state l).pc v).freeing q = true →
      (arena.layout i).slotOf q = some j → v = u ∧ b < l) →
    cfg.maxMiniHeaps + 5 < Nat.count (fun l => b + 1 ≤ l ∧ (e.action l).isStep u) m →
    ∃ c, b < c ∧ c ≤ m ∧ (∀ l, b < l → l < c → ((e.state l).pc u).isIdle = false) ∧
      (e.state c).pc u = .idle (some (.free true)) := by
  intro h
  obtain ⟨c, hbc, -, hbusy, hret⟩ := h _ _ _ earlyExecution 1 1 0x100000 0 0 17 19 19 44 0 false
    (by decide +kernel) (by decide +kernel) (by decide +kernel) (by decide +kernel) (by decide)
    (by decide +kernel) (by decide) (by decide +kernel) (by decide) (by decide)
    (fun l _ hl v q hq _ => alone_earlyExecution hl hq) (by decide +kernel)
  have hidle : ((earlyExecution.state 23).pc 1).isIdle = true := by decide +kernel
  have hc : c ≤ 23 := by
    by_contra hlt
    rw [hbusy 23 (by decide) (by omega)] at hidle
    cases hidle
  have hnot : ∀ c < 24, (earlyExecution.state c).pc 1 ≠ .idle (some (.free true)) := by
    decide +kernel
  exact hnot c (by omega) hret

end ConcurrentHeap

end DieHard
