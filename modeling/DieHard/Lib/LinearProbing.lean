import Mathlib.Tactic

/-!
# Linear probing

Open addressing over `n` slots. A value is looked for from the home of its key on, slot by slot around
the table. It is found because there is no gap between its home and the slot that holds it; a key that is
not there is given up at the first slot that is free.
-/

namespace LinearProbing

universe u v

/-- The `j`-th slot that is probed from `b` on. -/
def probe (n b j : Nat) : Nat := (b + j) % n

section Probe

variable {n b i j : Nat}

theorem probe_lt (hn : 0 < n) (b j : Nat) : probe n b j < n := Nat.mod_lt _ hn

theorem probe_zero (hb : b < n) : probe n b 0 = b := Nat.mod_eq_of_lt hb

theorem probe_succ (n b j : Nat) : (probe n b j + 1) % n = probe n b (j + 1) := by
  rw [probe, Nat.mod_add_mod, Nat.add_assoc, probe]

theorem probe_inj (hi : i < n) (hj : j < n) (h : probe n b i = probe n b j) : i = j := by
  have hmod : i ≡ j [MOD n] := Nat.ModEq.add_left_cancel' b h
  rwa [Nat.ModEq, Nat.mod_eq_of_lt hi, Nat.mod_eq_of_lt hj] at hmod

end Probe

variable {V : Type u} {K : Type v} {n b d : Nat} {slots : Nat → Option V}

/-- Slot `d` probes after `b` is the first that is free. -/
structure FirstFree (n : Nat) (slots : Nat → Option V) (b d : Nat) : Prop where
  free : slots (probe n b d) = none
  full : ∀ j < d, (slots (probe n b j)).isSome

/-- The table holds `v`. -/
def Holds (n : Nat) (slots : Nat → Option V) (v : V) : Prop := ∃ i < n, slots i = some v

def occupied (n : Nat) (slots : Nat → Option V) : Nat :=
  ((Finset.range n).filter fun i => (slots i).isSome).card

theorem occupied_none (n : Nat) : occupied n (fun _ => (none : Option V)) = 0 := by
  simp [occupied]

theorem occupied_succ (m : Nat) (slots : Nat → Option V) :
    occupied (m + 1) slots = occupied m slots + if (slots m).isSome then 1 else 0 := by
  rw [occupied, Finset.range_add_one, Finset.filter_insert]
  split
  · rw [Finset.card_insert_of_notMem (by simp), occupied]
  · rw [occupied, Nat.add_zero]

theorem occupied_mono (slots : Nat → Option V) {m n : Nat} (h : m ≤ n) :
    occupied m slots ≤ occupied n slots := by
  apply Finset.card_le_card
  exact Finset.filter_subset_filter _ (Finset.range_subset_range.mpr h)

theorem occupied_update {i : Nat} (hi : i < n) (hfree : slots i = none) (v : V) :
    occupied n (Function.update slots i (some v)) = occupied n slots + 1 := by
  have hinsert : (Finset.range n).filter (fun j => (Function.update slots i (some v) j).isSome) =
      insert i ((Finset.range n).filter fun j => (slots j).isSome) := by
    ext j
    by_cases hj : j = i
    · subst hj
      simp [hi]
    · simp [hj]
  rw [occupied, hinsert, Finset.card_insert_of_notMem (by simp [hfree]), occupied]

/-- As long as two slots are free, one of them is found before the last probe. -/
theorem exists_firstFree (h : occupied n slots + 1 < n) (b : Nat) :
    ∃ d, d + 1 < n ∧ FirstFree n slots b d := by
  classical
  by_cases hex : ∃ d, d + 1 < n ∧ slots (probe n b d) = none
  · obtain ⟨hlt, hfree⟩ := Nat.find_spec hex
    refine ⟨Nat.find hex, hlt, hfree, ?_⟩
    intro j hj
    have hnot := Nat.find_min hex hj
    rw [Option.isSome_iff_ne_none]
    intro hnone
    exact hnot ⟨by omega, hnone⟩
  · -- otherwise all slots but one are taken
    exfalso
    have hsub : (Finset.range (n - 1)).image (probe n b) ⊆
        (Finset.range n).filter fun i => (slots i).isSome := by
      intro i hi
      obtain ⟨j, hj, rfl⟩ := Finset.mem_image.mp hi
      have hjn := Finset.mem_range.mp hj
      rw [Finset.mem_filter, Finset.mem_range, Option.isSome_iff_ne_none]
      exact ⟨probe_lt (by omega) b j, fun hnone => hex ⟨j, by omega, hnone⟩⟩
    have hcard := Finset.card_le_card hsub
    rw [Finset.card_image_of_injOn, Finset.card_range] at hcard
    · rw [occupied] at h
      omega
    · intro i hi j hj hij
      have hin := Finset.mem_range.mp hi
      have hjn := Finset.mem_range.mp hj
      exact probe_inj (by omega) (by omega) hij

/-- Every value is reached from the home of its key without a gap, and no two have the same key. -/
structure Probing (n : Nat) (key : V → K) (home : K → Nat) (slots : Nat → Option V) : Prop where
  reach : ∀ i v, i < n → slots i = some v → ∃ d < n, i = probe n (home (key v)) d ∧
    ∀ j < d, (slots (probe n (home (key v)) j)).isSome
  distinct : ∀ i j u v, i < n → j < n → slots i = some u → slots j = some v → key u = key v → i = j

variable {key : V → K} {home : K → Nat}

theorem probing_none (n : Nat) (key : V → K) (home : K → Nat) : Probing n key home (fun _ => none) := by
  refine ⟨?_, ?_⟩
  · intro i v _ h
    cases h
  · intro i j u v _ _ h
    cases h

theorem isSome_update {i j : Nat} {v : V} (h : (slots j).isSome) :
    (Function.update slots i (some v) j).isSome := by
  by_cases hj : j = i
  · simp [hj]
  · simpa [hj] using h

theorem holds_update {i : Nat} (hi : i < n) (hfree : slots i = none) (u v : V) :
    Holds n (Function.update slots i (some v)) u ↔ Holds n slots u ∨ u = v := by
  constructor
  · rintro ⟨j, hj, he⟩
    by_cases hji : j = i
    · right
      simpa [hji, eq_comm] using he
    · left
      exact ⟨j, hj, by simpa [hji] using he⟩
  · rintro (⟨j, hj, he⟩ | rfl)
    · have hji : j ≠ i := by
        rintro rfl
        rw [hfree] at he
        cases he
      exact ⟨j, hj, by simpa [hji] using he⟩
    · exact ⟨i, hi, by simp⟩

/-- A value with a new key goes to the first free slot from its home on. -/
theorem Probing.insert (h : Probing n key home slots) {v : V}
    (hd : FirstFree n slots (home (key v)) d) (hlt : d < n)
    (hnew : ∀ u, Holds n slots u → key u ≠ key v) :
    Probing n key home (Function.update slots (probe n (home (key v)) d) (some v)) := by
  refine ⟨?_, ?_⟩
  · intro i u hi hu
    by_cases hin : i = probe n (home (key v)) d
    · rw [hin, Function.update_self, Option.some.injEq] at hu
      subst hu
      exact ⟨d, hlt, hin, fun j hj => isSome_update (hd.full j hj)⟩
    · rw [Function.update_of_ne hin] at hu
      obtain ⟨e, he, hie, hfull⟩ := h.reach i u hi hu
      exact ⟨e, he, hie, fun j hj => isSome_update (hfull j hj)⟩
  · intro i j u w hi hj hu hw hkey
    by_cases hin : i = probe n (home (key v)) d <;> by_cases hjn : j = probe n (home (key v)) d
    · rw [hin, hjn]
    · rw [hin, Function.update_self, Option.some.injEq] at hu
      rw [Function.update_of_ne hjn] at hw
      subst hu
      exact absurd hkey.symm (hnew w ⟨j, hj, hw⟩)
    · rw [Function.update_of_ne hin] at hu
      rw [hjn, Function.update_self, Option.some.injEq] at hw
      subst hw
      exact absurd hkey (hnew u ⟨i, hi, hu⟩)
    · rw [Function.update_of_ne hin] at hu
      rw [Function.update_of_ne hjn] at hw
      exact h.distinct i j u w hi hj hu hw hkey

/-- A value is found before the first free slot, and the slots before it hold other keys. -/
theorem Probing.found (h : Probing n key home slots) {v : V} (hv : Holds n slots v)
    (hd : FirstFree n slots (home (key v)) d) :
    ∃ e < d, slots (probe n (home (key v)) e) = some v ∧
      ∀ j < e, ∃ u, slots (probe n (home (key v)) j) = some u ∧ key u ≠ key v := by
  obtain ⟨i, hi, hslot⟩ := hv
  obtain ⟨e, he, rfl, hfull⟩ := h.reach i v hi hslot
  have hed : e < d := by
    rcases Nat.lt_trichotomy e d with hlt | rfl | hgt
    · exact hlt
    · rw [hd.free] at hslot
      cases hslot
    · have hsome := hfull d hgt
      rw [hd.free] at hsome
      cases hsome
  refine ⟨e, hed, hslot, ?_⟩
  intro j hj
  obtain ⟨u, hu⟩ := Option.isSome_iff_exists.mp (hfull j hj)
  refine ⟨u, hu, ?_⟩
  intro hkey
  have hsame := h.distinct _ _ u v (probe_lt (by omega) _ j) hi hu hslot hkey
  exact absurd (probe_inj (by omega) he hsame) (Nat.ne_of_lt hj)

theorem FirstFree.missed (hd : FirstFree n slots b d) (hn : 0 < n) {k : K}
    (hk : ∀ v, Holds n slots v → key v ≠ k) :
    ∀ j < d, ∃ u, slots (probe n b j) = some u ∧ key u ≠ k := by
  intro j hj
  obtain ⟨u, hu⟩ := Option.isSome_iff_exists.mp (hd.full j hj)
  exact ⟨u, hu, hk u ⟨_, probe_lt hn b j, hu⟩⟩

end LinearProbing
