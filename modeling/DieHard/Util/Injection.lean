import DieHard.Util.TrackAlloc

/-!
# Dangling pointers on record

The injector is run on the program whose log it reads. A record is considered once, by the allocation that follows
the one of its object.
-/

namespace DieHard.BrokenMalloc

open Transition
open TrackAlloc (allocations Sensible recordOf byAllocation ofNat_inj)

/-- The loop over the records from `i` on, with any body. -/
def scan (body : Nat → State → OracleRecord → State) (s : State) (i : Nat) : List OracleRecord → State
  | [] => { s with currentOraclePosition := i }
  | r :: rs =>
    if r.allocated.slt s.currentAllocationTime then scan body (body i s r) (i + 1) rs
    else { s with currentOraclePosition := i }

/-- `malloc` with dangling injection on, from the answer of the underlying heap on. -/
def mallocWith (c : Config) (body : Nat → State → OracleRecord → State) (ptr : Nat) (s : State) : State :=
  let s := (s.realMalloc ptr).record ptr
  let s := scan body s s.currentOraclePosition (c.oracle.drop s.currentOraclePosition)
  { s with currentAllocationTime := s.currentAllocationTime + 1 }

variable {c : Config} {s s' : State} {ptr : Nat} {T calls : List TrackAlloc.Call}

theorem considerAll_eq_scan (c : Config) (usableSize : Nat → Nat) (coin : Nat → Bool) (s : State) (i : Nat)
    (rs : List OracleRecord) :
    considerAll c usableSize coin s i rs = scan (fun i s r => consider c usableSize (coin i) s r) s i rs := by
  induction rs generalizing s i with
  | nil => rfl
  | cons r rs ih => rw [considerAll, scan, ih]

theorem malloc_eq_mallocWith (hc : c.dangling = true) (sz : Nat) (underflow : Bool) (answer usableSize : Nat → Nat)
    (coin : Nat → Bool) (s : State) :
    malloc c sz underflow answer usableSize coin s =
      mallocWith c (fun i s r => consider c usableSize (coin i) s r) (answer (actualRequestSize c sz underflow)) s := by
  rw [malloc, hc, if_pos rfl, mallocWith, ← considerAll_eq_scan]

theorem byAllocation_split (T : List TrackAlloc.Call) {m n : Nat} (h : m ≤ n) :
    ∃ rest, byAllocation T n = byAllocation T m ++ rest ∧ ∀ r ∈ rest, ∃ k, m ≤ k ∧ k < n ∧ recordOf T k = some r := by
  induction n, h using Nat.le_induction with
  | base => exact ⟨[], (List.append_nil _).symm, by simp⟩
  | succ n hmn ih =>
    obtain ⟨rest, heq, hrest⟩ := ih
    refine ⟨rest ++ (recordOf T n).toList, ?_, ?_⟩
    · rw [TrackAlloc.byAllocation_succ, heq, List.append_assoc]
    · intro r hr
      rcases List.mem_append.mp hr with hr | hr
      · obtain ⟨k, hmk, hkn, hk⟩ := hrest r hr
        exact ⟨k, hmk, by omega, hk⟩
      · exact ⟨n, hmn, Nat.lt_succ_self n, Option.mem_toList.mp hr⟩

theorem slt_ofNat {i j : Nat} (hi : i < 2 ^ 31) (hj : j < 2 ^ 31) :
    (BitVec.ofNat 32 i).slt (BitVec.ofNat 32 j) = true ↔ i < j := by
  have h := TrackAlloc.sle_ofNat hj hi
  rw [BitVec.sle_eq_decide, decide_eq_true_eq] at h
  rw [BitVec.slt_eq_decide, decide_eq_true_eq]
  omega

theorem scan_stop {body : Nat → State → OracleRecord → State} {t i : Nat} {rest : List OracleRecord}
    (htime : s.currentAllocationTime = BitVec.ofNat 32 t) (ht : t < 2 ^ 31)
    (hrest : ∀ r ∈ rest, ∃ k, t ≤ k ∧ k < 2 ^ 31 ∧ recordOf T k = some r) :
    scan body s i rest = { s with currentOraclePosition := i } := by
  cases rest with
  | nil => rfl
  | cons r rs =>
    obtain ⟨k, htk, hk, hr⟩ := hrest r List.mem_cons_self
    rw [scan, TrackAlloc.allocated_of_recordOf hr, htime, if_neg]
    rw [slt_ofNat hk ht]
    exact Nat.not_lt.mpr htk

/-- The loop considers one record at most, the one of the object before. -/
theorem scan_byAllocation {body : Nat → State → OracleRecord → State} {t n : Nat} (htn : t ≤ n) (hn : n < 2 ^ 31)
    (htime : s.currentAllocationTime = BitVec.ofNat 32 t)
    (hbody : ∀ i r, (body i s r).currentAllocationTime = s.currentAllocationTime) :
    ∃ s', (s' = s ∨ ∃ m r i, t = m + 1 ∧ recordOf T m = some r ∧ s' = body i s r) ∧
      scan body s (byAllocation T (t - 1)).length ((byAllocation T n).drop (byAllocation T (t - 1)).length) =
        { s' with currentOraclePosition := (byAllocation T t).length } := by
  obtain ⟨rest, heq, hrest⟩ := byAllocation_split T htn
  have hbound : ∀ r ∈ rest, ∃ k, t ≤ k ∧ k < 2 ^ 31 ∧ recordOf T k = some r := by
    intro r hr
    obtain ⟨k, htk, hkn, hk⟩ := hrest r hr
    exact ⟨k, htk, by omega, hk⟩
  cases t with
  | zero =>
    refine ⟨s, Or.inl rfl, ?_⟩
    rw [heq]
    exact scan_stop htime (by omega) hbound
  | succ m =>
    rw [Nat.add_sub_cancel, heq, TrackAlloc.byAllocation_succ, List.append_assoc, List.drop_left]
    cases hr : recordOf T m with
    | none =>
      refine ⟨s, Or.inl rfl, ?_⟩
      rw [Option.toList_none, List.nil_append, List.append_nil]
      exact scan_stop htime (by omega) hbound
    | some r =>
      refine ⟨_, Or.inr ⟨m, r, (byAllocation T m).length, rfl, hr, rfl⟩, ?_⟩
      rw [Option.toList_some, List.singleton_append, scan, if_pos, List.length_append, List.length_singleton]
      · exact scan_stop ((hbody _ _).trans htime) (by omega) hbound
      · rw [TrackAlloc.allocated_of_recordOf hr, htime, slt_ofNat (by omega) (by omega)]
        exact Nat.lt_succ_self m

/-- As long as nothing has been released for an object that was freed before, the tables tell which objects are
live, and where. -/
structure Faithful (s : State) : Prop extends Tracked s where
  table : ∀ k < s.allocations, s.allocatedObjects (BitVec.ofNat 32 k) = s.address k
  fresh : ∀ k, s.allocations ≤ k → s.freed k = false ∧ s.injected k = false
  owned : ∀ k < s.allocations, s.address k ≠ 0 → s.freed k = false → s.injected k = false →
    s.owner (s.address k) = some k
  released : ∀ p k, s.owner p = some k → s.freed k = false ∧ s.injected k = false
  latest : ∀ p k, s.owner p = some k → ∀ j < s.allocations, s.address j = p → j ≤ k

theorem Faithful.initial : Faithful State.initial where
  toTracked := Tracked.initial
  table _ hk := absurd hk (Nat.not_lt_zero _)
  fresh _ _ := ⟨rfl, rfl⟩
  owned _ hk := absurd hk (Nat.not_lt_zero _)
  released _ _ h := by cases h
  latest _ _ h := by cases h

theorem Faithful.allocate (h : Faithful s) (htime : s.currentAllocationTime = BitVec.ofNat 32 s.allocations)
    (hlt : s.allocations < 2 ^ 31) (hfree : s.owner ptr = none) :
    Faithful ((s.realMalloc ptr).record ptr) := by
  have haddress : ((s.realMalloc ptr).record ptr).address = Function.update s.address s.allocations ptr := rfl
  have hcount : ((s.realMalloc ptr).record ptr).allocations = s.allocations + 1 := rfl
  refine ⟨h.toTracked.allocate ptr, ?_, ?_, ?_, ?_, ?_⟩
  · intro k hk
    change Function.update s.allocatedObjects s.currentAllocationTime ptr _ = Function.update s.address _ ptr k
    rw [htime]
    rcases Nat.lt_succ_iff_lt_or_eq.mp hk with hk | rfl
    · have hne : BitVec.ofNat 32 k ≠ BitVec.ofNat 32 s.allocations := by
        intro heq
        exact absurd (ofNat_inj (by omega) (by omega) heq) (Nat.ne_of_lt hk)
      rw [Function.update_of_ne hne, Function.update_of_ne (Nat.ne_of_lt hk)]
      exact h.table k hk
    · rw [Function.update_self, Function.update_self]
  · intro k hk
    exact h.fresh k (Nat.le_of_succ_le hk)
  · intro k hk hne hfreed hinjected
    rw [haddress] at hne
    rw [State.owner_record, haddress]
    rcases Nat.lt_succ_iff_lt_or_eq.mp hk with hk | rfl
    · rw [Function.update_of_ne (Nat.ne_of_lt hk)] at hne ⊢
      have hk' := h.owned k hk hne hfreed hinjected
      have hne' : s.address k ≠ ptr := by
        intro heq
        rw [heq, hfree] at hk'
        cases hk'
      split
      · exact hk'
      · rwa [Function.update_of_ne hne']
    · rw [Function.update_self] at hne ⊢
      rw [if_neg hne, Function.update_self]
  · intro p k hp
    obtain ⟨-, rfl⟩ | ⟨-, hp⟩ := owner_of_record hp
    · exact h.fresh _ (Nat.le_refl _)
    · exact h.released p k hp
  · intro p k hp j hj hjp
    rw [haddress] at hjp
    rw [hcount] at hj
    obtain ⟨-, rfl⟩ | ⟨hnull, hp⟩ := owner_of_record hp
    · omega
    · have hne : j ≠ s.allocations := by
        rintro rfl
        rw [Function.update_self] at hjp
        rw [← hjp, hnull hjp.symm, h.null] at hp
        cases hp
      rw [Function.update_of_ne hne] at hjp
      exact h.latest p k hp j (by omega) hjp

theorem owner_of_release {p k : Nat} (hp : Function.update s.owner ptr none p = some k) :
    p ≠ ptr ∧ s.owner p = some k := by
  by_cases heq : p = ptr
  · rw [heq, Function.update_self] at hp
    cases hp
  · rw [Function.update_of_ne heq] at hp
    exact ⟨heq, hp⟩

theorem State.inject_frame (s : State) (ptr : Nat) :
    (s.inject ptr).allocations = s.allocations ∧ (s.inject ptr).address = s.address ∧
      (s.inject ptr).freed = s.freed ∧ (s.inject ptr).currentAllocationTime = s.currentAllocationTime := by
  rw [State.inject, State.realFree]
  split <;> exact ⟨rfl, rfl, rfl, rfl⟩

theorem State.inject_null (hnull : s.owner 0 = none) :
    s.inject 0 = { s with liveObjects := Function.update s.liveObjects 0 false } := by
  rw [State.inject, State.realFree, if_pos rfl, hnull]
  simp [State.eraseLive]

theorem State.inject_eq {j : Nat} (hptr : ptr ≠ 0) (hj : s.owner ptr = some j) :
    s.inject ptr = { s with
      owner := Function.update s.owner ptr none
      log := ⟨ptr, s.owner ptr, false⟩ :: s.log
      liveObjects := Function.update s.liveObjects ptr false
      injected := fun k => s.injected k || j = k } := by
  rw [State.inject, State.realFree, if_neg hptr, hj]
  simp [State.eraseLive]

theorem Faithful.inject (h : Faithful s) (hlive : s.liveObjects ptr = true) : Faithful (s.inject ptr) := by
  have htracked : Tracked (s.inject ptr) := (h.toTracked.release hlive).congr rfl (fun _ _ => rfl) rfl rfl rfl
  by_cases hptr : ptr = 0
  · subst hptr
    have heq := State.inject_null h.null
    rw [heq] at htracked ⊢
    exact ⟨htracked, h.table, h.fresh, h.owned, h.released, h.latest⟩
  obtain ⟨j, hj⟩ := Option.isSome_iff_exists.mp ((h.live_iff ptr hptr).mp hlive)
  have hjlt := h.owner_lt ptr j hj
  have hne : ∀ p k, s.owner p = some k → p ≠ ptr → j ≠ k := by
    rintro p k hp hpne rfl
    exact hpne ((h.owner_lt p j hp).2.symm.trans hjlt.2)
  rw [State.inject_eq hptr hj] at htracked ⊢
  refine ⟨htracked, h.table, ?_, ?_, ?_, ?_⟩
  · intro k hk
    have hjk : j ≠ k := Nat.ne_of_lt (Nat.lt_of_lt_of_le hjlt.1 hk)
    simpa [hjk] using h.fresh k hk
  · intro k hk hnull hfreed hk'
    simp only [Bool.or_eq_false_iff, decide_eq_false_iff_not] at hk'
    have hown := h.owned k hk hnull hfreed hk'.1
    change Function.update s.owner ptr none (s.address k) = some k
    rw [Function.update_of_ne]
    · exact hown
    · intro heq
      rw [heq, hj] at hown
      exact hk'.2 (Option.some.inj hown)
  · intro p k hp
    obtain ⟨hpne, hp⟩ := owner_of_release hp
    simpa [hne p k hp hpne] using h.released p k hp
  · intro p k hp
    exact h.latest p k (owner_of_release hp).2

/-- What a call of `free` leaves as it is. -/
structure Frame (s s' : State) : Prop where
  allocations : s'.allocations = s.allocations
  address : s'.address = s.address
  table : s'.allocatedObjects = s.allocatedObjects
  injected : s'.injected = s.injected
  freed : s'.freed = s.freed
  time : s'.currentAllocationTime = s.currentAllocationTime
  position : s'.currentOraclePosition = s.currentOraclePosition

theorem free_frame (hc : c.dangling = true) {again : Bool} (hs' : s' = BrokenMalloc.free c ptr again s) :
    Frame s s' := by
  rw [BrokenMalloc.free, hc, if_pos rfl, State.realFree] at hs'
  split at hs'
  · split at hs' <;> exact hs' ▸ ⟨rfl, rfl, rfl, rfl, rfl, rfl, rfl⟩
  · exact hs' ▸ ⟨rfl, rfl, rfl, rfl, rfl, rfl, rfl⟩

theorem injected_free (hc : c.dangling = true) (ptr : Nat) (again : Bool) (s : State) :
    (BrokenMalloc.free c ptr again s).injected = s.injected := (free_frame hc rfl).injected

theorem Tracked.owner_free (h : Tracked s) (hc : c.dangling = true) (ptr : Nat) (again : Bool) :
    (BrokenMalloc.free c ptr again s).owner = Function.update s.owner ptr none := by
  rw [BrokenMalloc.free, hc, if_pos rfl, State.realFree]
  by_cases hptr : ptr = 0
  · have hsame : Function.update s.owner ptr none = s.owner := by
      rw [hptr, ← h.null, Function.update_eq_self]
    rw [hsame, if_pos hptr]
    split <;> rfl
  · rw [if_neg hptr]
    split
    case isTrue => rfl
    case isFalse hlive =>
      have hnone : s.owner ptr = none := by
        rw [h.live_iff ptr hptr] at hlive
        simpa using hlive
      rw [← hnone, Function.update_eq_self]

theorem Faithful.freeNull (h : Faithful s) (hc : c.dangling = true) : Faithful (BrokenMalloc.free c 0 false s) := by
  have hf := free_frame hc (rfl : BrokenMalloc.free c 0 false s = _)
  have howner : (BrokenMalloc.free c 0 false s).owner = s.owner := by
    rw [h.toTracked.owner_free hc, ← h.null, Function.update_eq_self]
  refine ⟨h.toTracked.free hc fun _ => rfl, ?_, ?_, ?_, ?_, ?_⟩
  · rw [hf.allocations, hf.table, hf.address]
    exact h.table
  · rw [hf.allocations, hf.freed, hf.injected]
    exact h.fresh
  · rw [hf.allocations, hf.freed, hf.injected, hf.address, howner]
    exact h.owned
  · rw [hf.freed, hf.injected, howner]
    exact h.released
  · rw [hf.allocations, hf.address, howner]
    exact h.latest

/-- The program frees an object, and at the address of one that the injector has freed nothing is live. -/
theorem Faithful.free {object : Nat} (h : Faithful s) (hc : c.dangling = true) (hlt : object < s.allocations)
    (hfreed : s.freed object = false) (hunreused : s.injected object = true → s.liveObjects (s.address object) = false)
    (hs' : s' = BrokenMalloc.free c (s.address object) (s.injected object) s) :
    Faithful { s' with freed := Function.update s'.freed object true } := by
  have hagain : s.liveObjects (s.address object) = true → s.injected object = false := by
    intro hlive
    by_contra hinjected
    rw [hunreused (by simpa using hinjected)] at hlive
    cases hlive
  have hf := free_frame hc hs'
  have howner : s'.owner = Function.update s.owner (s.address object) none :=
    hs' ▸ h.toTracked.owner_free hc _ _
  have hown : ∀ k, s.owner (s.address object) = some k → k = object := by
    intro k hk
    have hnull : s.address object ≠ 0 := by
      intro heq
      rw [heq, h.null] at hk
      cases hk
    have hlive := (h.live_iff _ hnull).mpr (by rw [hk]; rfl)
    rw [h.owned object hlt hnull hfreed (hagain hlive)] at hk
    exact (Option.some.inj hk).symm
  have hother : ∀ p k, s'.owner p = some k → k ≠ object ∧ s.owner p = some k := by
    intro p k hp
    rw [howner] at hp
    obtain ⟨hne, hp⟩ := owner_of_release hp
    refine ⟨?_, hp⟩
    intro heq
    exact hne (heq ▸ (h.owner_lt p k hp).2.symm)
  refine ⟨(hs' ▸ h.toTracked.free hc hagain : Tracked s').congr rfl (fun _ _ => rfl) rfl rfl rfl, ?_, ?_, ?_, ?_, ?_⟩
  · intro k hk
    change s'.allocatedObjects _ = s'.address k
    rw [hf.table, hf.address]
    exact h.table k (hf.allocations ▸ hk)
  · intro k hk
    have hk : s.allocations ≤ k := hf.allocations ▸ hk
    change Function.update s'.freed object true k = false ∧ s'.injected k = false
    rw [hf.freed, hf.injected, Function.update_of_ne (by omega)]
    exact h.fresh k hk
  · intro k hk hnull hfreed hk'
    have hk : k < s.allocations := hf.allocations ▸ hk
    change s'.address k ≠ 0 at hnull
    change Function.update s'.freed object true k = false at hfreed
    change s'.injected k = false at hk'
    change s'.owner (s'.address k) = some k
    have hne : k ≠ object := by
      rintro rfl
      rw [Function.update_self] at hfreed
      cases hfreed
    rw [hf.freed, Function.update_of_ne hne] at hfreed
    rw [hf.injected] at hk'
    rw [hf.address] at hnull
    have hk'' := h.owned k hk hnull hfreed hk'
    rw [howner, hf.address, Function.update_of_ne]
    · exact hk''
    · intro heq
      rw [heq] at hk''
      exact hne (hown k hk'')
  · intro p k hp
    obtain ⟨hne, hp⟩ := hother p k hp
    change Function.update s'.freed object true k = false ∧ s'.injected k = false
    rw [hf.freed, hf.injected, Function.update_of_ne hne]
    exact h.released p k hp
  · intro p k hp j hj hjp
    change s'.address j = p at hjp
    exact h.latest p k (hother p k hp).2 j (hf.allocations ▸ hj) (hf.address ▸ hjp)

def Action.call : Action → TrackAlloc.Call
  | .malloc sz .. => .malloc sz
  | .free object => .free object
  | .freeNull => .freeNull

/-- The injector has been run on the first calls of the program `T`. -/
structure Replayed (T calls : List TrackAlloc.Call) (s : State) : Prop extends Faithful s where
  count : s.allocations = allocations calls
  time : s.currentAllocationTime = BitVec.ofNat 32 s.allocations
  freed_iff : ∀ k, s.freed k = true ↔ .free k ∈ calls
  position : s.currentOraclePosition = (byAllocation T (s.allocations - 1)).length

theorem Replayed.initial (T : List TrackAlloc.Call) : Replayed T [] State.initial where
  toFaithful := Faithful.initial
  count := rfl
  time := rfl
  freed_iff _ := by simp [State.initial]
  position := rfl

/-- What a body of the loop may do: it frees the object that is live at the address of a record, when the free is
near enough by the log. -/
def MayInject (c : Config) (s : State) (r : OracleRecord) (s' : State) : Prop :=
  s' = s ∨ r.freed.sle (s.currentAllocationTime + c.danglingPointerDistance) = true ∧
    s.liveObjects (s.allocatedObjects r.allocated) = true ∧ s' = s.inject (s.allocatedObjects r.allocated)

theorem mayInject_consider (c : Config) (usableSize : Nat → Nat) (coin : Bool) (s : State) (r : OracleRecord) :
    MayInject c s r (consider c usableSize coin s r) := by
  rw [consider]
  split
  case isTrue hnear =>
    dsimp only
    split
    case isTrue hfree => exact Or.inr ⟨hnear, hfree.2.1, rfl⟩
    case isFalse => exact Or.inl rfl
  case isFalse => exact Or.inl rfl

/-- The oracle is the sorted log of the program. -/
structure OnRecord (c : Config) (T : List TrackAlloc.Call) : Prop where
  dangling : c.dangling = true
  sensible : Sensible T
  short : allocations T < 2 ^ 31
  oracle : c.oracle = byAllocation T (allocations T)

theorem Replayed.mallocWith_eq {body : Nat → State → OracleRecord → State} (hT : OnRecord c T)
    (h : Replayed T calls s) (hlt : s.allocations < allocations T)
    (hbody : ∀ i s r, MayInject c s r (body i s r)) (ptr : Nat) :
    ∃ s', (s' = (s.realMalloc ptr).record ptr ∨ ∃ m r i, s.allocations = m + 1 ∧ recordOf T m = some r ∧
        s' = body i ((s.realMalloc ptr).record ptr) r) ∧
      mallocWith c body ptr s =
        { s' with
          currentOraclePosition := (byAllocation T s.allocations).length
          currentAllocationTime := s'.currentAllocationTime + 1 } := by
  have htime : ∀ i r, (body i ((s.realMalloc ptr).record ptr) r).currentAllocationTime =
      ((s.realMalloc ptr).record ptr).currentAllocationTime := by
    intro i r
    rcases hbody i ((s.realMalloc ptr).record ptr) r with heq | ⟨-, -, heq⟩
    · rw [heq]
    · rw [heq, (State.inject_frame _ _).2.2.2]
  obtain ⟨s', hs', hscan⟩ := scan_byAllocation (T := T) (t := s.allocations) (n := allocations T)
    (s := (s.realMalloc ptr).record ptr) (Nat.le_of_lt hlt) hT.short h.time htime
  refine ⟨s', hs', ?_⟩
  have hposition : ((s.realMalloc ptr).record ptr).currentOraclePosition =
      (byAllocation T (s.allocations - 1)).length := h.position
  rw [mallocWith, hposition, hT.oracle, hscan]

/-- The objects of the state after the body are those of the state before, but one that is injected. -/
structure Considered (s s' : State) : Prop where
  allocations : s'.allocations = s.allocations
  address : s'.address = s.address
  freed : s'.freed = s.freed
  time : s'.currentAllocationTime = s.currentAllocationTime
  faithful : Faithful s'

theorem Faithful.considered {r : OracleRecord} (h : Faithful s) (hs' : MayInject c s r s') : Considered s s' := by
  rcases hs' with rfl | ⟨-, hlive, rfl⟩
  · exact ⟨rfl, rfl, rfl, rfl, h⟩
  · obtain ⟨hallocations, haddress, hfreed, htime⟩ := State.inject_frame s (s.allocatedObjects r.allocated)
    exact ⟨hallocations, haddress, hfreed, htime, h.inject hlive⟩

theorem Replayed.address_mallocWith {body : Nat → State → OracleRecord → State} (hT : OnRecord c T)
    (h : Replayed T calls s) (hlt : s.allocations < allocations T)
    (hbody : ∀ i s r, MayInject c s r (body i s r)) (ptr : Nat) :
    (mallocWith c body ptr s).address = Function.update s.address s.allocations ptr := by
  obtain ⟨s', hs', heq⟩ := h.mallocWith_eq hT hlt hbody ptr
  rw [heq]
  change s'.address = _
  rcases hs' with rfl | ⟨m, r, i, -, -, rfl⟩
  · rfl
  · rcases hbody i ((s.realMalloc ptr).record ptr) r with hsame | ⟨-, -, hinject⟩
    · rw [hsame]
      rfl
    · rw [hinject, (State.inject_frame _ _).2.1]
      rfl

theorem Replayed.malloc {body : Nat → State → OracleRecord → State} (hT : OnRecord c T) (h : Replayed T calls s)
    (hlt : s.allocations < allocations T) (hbody : ∀ i s r, MayInject c s r (body i s r))
    (hfree : s.owner ptr = none) (sz : Nat) : Replayed T (calls ++ [.malloc sz]) (mallocWith c body ptr s) := by
  have hrecord := h.toFaithful.allocate h.time (by have := hT.short; omega) hfree
  obtain ⟨s', hs', heq⟩ := h.mallocWith_eq hT hlt hbody ptr
  have hs : Considered ((s.realMalloc ptr).record ptr) s' := by
    rcases hs' with rfl | ⟨m, r, i, -, -, rfl⟩
    · exact ⟨rfl, rfl, rfl, rfl, hrecord⟩
    · exact hrecord.considered (hbody i _ r)
  have hcount : s'.allocations = s.allocations + 1 := hs.allocations
  rw [heq]
  refine ⟨?_, ?_, ?_, ?_, ?_⟩
  · exact ⟨hs.faithful.toTracked.congr rfl (fun _ _ => rfl) rfl rfl rfl, hs.faithful.table, hs.faithful.fresh,
      hs.faithful.owned, hs.faithful.released, hs.faithful.latest⟩
  · change s'.allocations = _
    rw [hcount, h.count]
    simp
  · change s'.currentAllocationTime + 1 = BitVec.ofNat 32 s'.allocations
    rw [hs.time, hcount, BitVec.ofNat_add, ← h.time]
    rfl
  · intro k
    change s'.freed k = true ↔ _
    rw [hs.freed]
    change s.freed k = true ↔ _
    simpa using h.freed_iff k
  · change (byAllocation T s.allocations).length = (byAllocation T (s'.allocations - 1)).length
    rw [hcount, Nat.add_sub_cancel]

theorem Replayed.free {object : Nat} (hc : c.dangling = true) (h : Replayed T calls s) (hlt : object < s.allocations)
    (hfreed : s.freed object = false) (hunreused : s.injected object = true → s.liveObjects (s.address object) = false)
    (hs' : s' = BrokenMalloc.free c (s.address object) (s.injected object) s) :
    Replayed T (calls ++ [.free object]) { s' with freed := Function.update s'.freed object true } := by
  have hf := free_frame hc hs'
  refine ⟨h.toFaithful.free hc hlt hfreed hunreused hs', ?_, ?_, ?_, ?_⟩
  · change s'.allocations = _
    rw [hf.allocations, h.count]
    simp
  · change s'.currentAllocationTime = BitVec.ofNat 32 s'.allocations
    rw [hf.allocations, hf.time, h.time]
  · intro k
    change Function.update s'.freed object true k = true ↔ _
    rw [hf.freed]
    by_cases heq : k = object
    · simp [heq]
    · simpa [Function.update_of_ne heq, heq] using h.freed_iff k
  · change s'.currentOraclePosition = (byAllocation T (s'.allocations - 1)).length
    rw [hf.allocations, hf.position, h.position]

theorem Replayed.freeNull (hc : c.dangling = true) (h : Replayed T calls s) :
    Replayed T (calls ++ [.freeNull]) (BrokenMalloc.free c 0 false s) := by
  have hf := free_frame hc (rfl : BrokenMalloc.free c 0 false s = _)
  refine ⟨h.toFaithful.freeNull hc, ?_, ?_, ?_, ?_⟩
  · rw [hf.allocations, h.count]
    simp
  · rw [hf.allocations, hf.time, h.time]
  · intro k
    rw [hf.freed]
    simpa using h.freed_iff k
  · rw [hf.allocations, hf.position, h.position]

/-- The program frees the object later, after fewer than `distance` more allocations. -/
def FreedWithin (T calls : List TrackAlloc.Call) (distance : Int) (k : Nat) : Prop :=
  ∃ later rest, T = calls ++ later ++ .free k :: rest ∧ (allocations later : Int) < distance

/-- What the log tells of an object that has not been freed. -/
theorem freedWithin_of_record {sz m t : Nat} {r : OracleRecord} {distance : BitVec 32} (hT : Sensible T)
    (hshort : allocations T < 2 ^ 31) (hpre : calls ++ [.malloc sz] <+: T) (hfree : .free m ∉ calls)
    (hcount : t = allocations calls) (hr : recordOf T m = some r)
    (hnear : r.freed.sle (BitVec.ofNat 32 t + distance) = true) :
    FreedWithin T (calls ++ [.malloc sz]) distance.toInt m := by
  obtain ⟨f, hf, rfl⟩ := Option.map_eq_some_iff.mp hr
  obtain ⟨pre, post, hpost, rfl⟩ := (TrackAlloc.freeTime_iff hT).mp hf
  obtain ⟨rest, hrest⟩ := hpre
  have hmem : .free m ∈ rest := by
    have hmem : .free m ∈ calls ++ [.malloc sz] ++ rest := by
      rw [hrest, hpost]
      exact List.mem_append_right _ List.mem_cons_self
    rcases List.mem_append.mp hmem with hmem | hmem
    · simp only [List.mem_append, List.mem_singleton, reduceCtorEq, or_false] at hmem
      exact absurd hmem hfree
    · exact hmem
  obtain ⟨later, rest', rfl⟩ := List.append_of_mem hmem
  have hsplit : T = calls ++ [.malloc sz] ++ later ++ .free m :: rest' := by
    rw [← hrest]
    exact (List.append_assoc ..).symm
  refine ⟨later, rest', hsplit, ?_⟩
  have htime : allocations pre = t + 1 + allocations later := by
    have heq := (TrackAlloc.freeTime_iff hT (k := m)).mpr
      ⟨calls ++ [.malloc sz] ++ later, rest', hsplit, rfl⟩
    rw [hf] at heq
    rw [Option.some.inj heq]
    simp only [TrackAlloc.allocations_append, TrackAlloc.allocations_malloc, TrackAlloc.allocations_nil, hcount]
  have hpre : allocations pre < 2 ^ 31 := by
    rw [hpost, TrackAlloc.allocations_append] at hshort
    omega
  have htoInt : ∀ n < 2 ^ 31, (BitVec.ofNat 32 n).toInt = n := by
    intro n hn
    rw [BitVec.toInt_ofNat', Int.bmod_eq_of_le (by omega) (by omega)]
  rw [BitVec.sle_eq_decide, decide_eq_true_eq, BitVec.toInt_add, htoInt _ hpre, htoInt t (by omega)] at hnear
  have hd := distance.toInt_lt
  have hd' := distance.le_toInt
  have hbmod : ((t : Int) + distance.toInt).bmod (2 ^ 32) ≤ t + distance.toInt := by
    by_cases hlt : (t : Int) + distance.toInt < 2 ^ 31
    · rw [Int.bmod_eq_of_le (by omega) (by omega)]
    · have hle := Int.bmod_lt (x := (t : Int) + distance.toInt) (m := 2 ^ 32) (by decide)
      omega
  omega

/-- The state in which `body` has considered a record, and the object that it injects there. -/
theorem Replayed.injected_malloc {body : Nat → State → OracleRecord → State} (hT : OnRecord c T)
    (h : Replayed T calls s) (hlt : s.allocations < allocations T)
    (hbody : ∀ i s r, MayInject c s r (body i s r)) (hfree : s.owner ptr = none) {k : Nat}
    (hk : (mallocWith c body ptr s).injected k = true) (hk' : s.injected k = false) :
    ∃ m r i, s.allocations = m + 1 ∧ recordOf T m = some r ∧
      r.freed.sle (s.currentAllocationTime + c.danglingPointerDistance) = true ∧
      body i ((s.realMalloc ptr).record ptr) r ≠ (s.realMalloc ptr).record ptr ∧
      (k = m ∧ s.freed m = false ∨
        k = m + 1 ∧ (s.freed m = true ∨ s.injected m = true) ∧ ptr = s.address m) := by
  have hrecord := h.toFaithful.allocate h.time (by have := hT.short; omega) hfree
  obtain ⟨s', hs', heq⟩ := h.mallocWith_eq hT hlt hbody ptr
  rw [heq] at hk
  have hk : s'.injected k = true := hk
  rcases hs' with rfl | ⟨m, r, i, hm, hr, rfl⟩
  · exact absurd (hk.symm.trans hk') (by decide)
  · rcases hbody i ((s.realMalloc ptr).record ptr) r with hsame | ⟨hnear, hlive, hinject⟩
    · rw [hsame] at hk
      exact absurd (hk.symm.trans hk') (by decide)
    · have hmlt : m < s.allocations := by omega
      have htable : ((s.realMalloc ptr).record ptr).allocatedObjects r.allocated = s.address m := by
        rw [TrackAlloc.allocated_of_recordOf hr, hrecord.table m (Nat.lt_succ_of_lt hmlt)]
        exact Function.update_of_ne (Nat.ne_of_lt hmlt) ..
      rw [htable] at hinject hlive
      have howner : ((s.realMalloc ptr).record ptr).owner (s.address m) = some k := by
        rw [hinject] at hk
        change (s.injected k || decide (((s.realMalloc ptr).record ptr).owner (s.address m) = some k)) = true at hk
        rw [hk', Bool.false_or, decide_eq_true_eq] at hk
        exact hk
      have hklt := hrecord.owner_lt _ _ howner
      have haddress : ((s.realMalloc ptr).record ptr).address m = s.address m :=
        Function.update_of_ne (Nat.ne_of_lt hmlt) ..
      refine ⟨m, r, i, hm, hr, hnear, ?_, ?_⟩
      · intro hsame
        rw [hsame] at hk
        exact absurd (hk.symm.trans hk') (by decide)
      · have hnull : s.address m ≠ 0 := by
          intro heq
          rw [heq, hrecord.null] at howner
          cases howner
        by_cases hown : s.freed m = false ∧ s.injected m = false
        · left
          have hm' := hrecord.owned m (Nat.lt_succ_of_lt hmlt) (haddress ▸ hnull) hown.1 hown.2
          rw [haddress, howner] at hm'
          exact ⟨Option.some.inj hm', hown.1⟩
        · right
          have hne : k ≠ m := by
            rintro rfl
            exact hown (hrecord.released _ _ howner)
          have hle := hrecord.latest _ _ howner m (Nat.lt_succ_of_lt hmlt) haddress
          have hlt' : k < s.allocations + 1 := hklt.1
          obtain rfl : k = m + 1 := by omega
          refine ⟨rfl, ?_, ?_⟩
          · by_contra hnot
            simp only [not_or, Bool.not_eq_true] at hnot
            exact hown hnot
          · have haddr := hklt.2
            change Function.update s.address s.allocations ptr (m + 1) = s.address m at haddr
            rwa [hm, Function.update_self] at haddr

/-- The injector with the calls that the program has made. -/
structure Replay where
  state : State
  calls : List TrackAlloc.Call

def Replay.start : Replay := ⟨State.initial, []⟩

def replayNext (c : Config) (r : Replay) (a : Action) : Option Replay :=
  (next c r.state a).map fun s => ⟨s, r.calls ++ [a.call]⟩

/-- The program makes the calls of `T`. -/
def Replays (c : Config) (T : List TrackAlloc.Call) (r : Replay) (a : Action) : Prop :=
  Permits c r.state a ∧ Unreused r.state a ∧ r.calls ++ [a.call] <+: T

theorem allocations_lt {sz : Nat} (hpre : calls ++ [.malloc sz] <+: T) : allocations calls < allocations T := by
  obtain ⟨rest, rfl⟩ := hpre
  simp only [TrackAlloc.allocations_append, TrackAlloc.allocations_malloc, TrackAlloc.allocations_nil]
  omega

theorem replayed_of_reach (hT : OnRecord c T) {r : Replay} (hr : Reach (replayNext c) (Replays c T) .start r) :
    Replayed T r.calls r.state := by
  apply hr.invariant (I := fun r => Replayed T r.calls r.state) (Replayed.initial T)
  intro r a r' h hok hn
  obtain ⟨hpermits, hunreused, hpre⟩ := hok
  obtain ⟨s', hs', rfl⟩ := Option.map_eq_some_iff.mp hn
  cases a with
  | malloc sz underflow answer usableSize coin =>
    cases hs'
    rw [malloc_eq_mallocWith hT.dangling]
    apply h.malloc hT
    · rw [h.count]
      exact allocations_lt hpre
    · intro i s r
      exact mayInject_consider c usableSize (coin i) s r
    · exact hpermits
  | free object =>
    cases hs'
    exact h.free hT.dangling hpermits.1 hpermits.2 hunreused rfl
  | freeNull =>
    cases hs'
    exact h.freeNull hT.dangling

theorem onRecord_of_reach (hc : c.dangling = true) {t : TrackAlloc.State} {old oldSorted : List OracleRecord}
    (ht : Reach TrackAlloc.next TrackAlloc.Permits TrackAlloc.initial t) (hlen : allocations t.calls < 2 ^ 31)
    (hold : old.length ≤ t.logfile.length) (holdSorted : oldSorted.length ≤ t.logfile.length)
    (horacle : c.oracle = TrackAlloc.sortLog oldSorted (TrackAlloc.closeUpShop old t)) : OnRecord c t.calls where
  dangling := hc
  sensible := (TrackAlloc.tracked_of_reach ht).sensible
  short := hlen
  oracle := horacle.trans (TrackAlloc.sortLog_closeUpShop ht hlen hold holdSorted)

theorem freed_replayed (h : Replayed T calls s) {m : Nat} (hm : s.freed m = false) : .free m ∉ calls := by
  intro hmem
  rw [(h.freed_iff m).mpr hmem] at hm
  cases hm

/-- When a program is run on the injector with its own sorted log, an allocation frees the object that was
allocated before it, which the program then frees within the distance, or the very object that it returns, at the
address of the object before. -/
theorem injected_replay (hc : c.dangling = true) {t : TrackAlloc.State} {old oldSorted : List OracleRecord}
    (ht : Reach TrackAlloc.next TrackAlloc.Permits TrackAlloc.initial t) (hlen : allocations t.calls < 2 ^ 31)
    (hold : old.length ≤ t.logfile.length) (holdSorted : oldSorted.length ≤ t.logfile.length)
    (horacle : c.oracle = TrackAlloc.sortLog oldSorted (TrackAlloc.closeUpShop old t))
    {r r' : Replay} {a : Action} (hr : Reach (replayNext c) (Replays c t.calls) .start r)
    (hok : Replays c t.calls r a) (hn : replayNext c r a = some r') {k : Nat}
    (hk : r'.state.injected k = true) (hk' : r.state.injected k = false) :
    k + 1 = allocations r.calls ∧ FreedWithin t.calls r'.calls c.danglingPointerDistance.toInt k ∨
      ∃ m, k = m + 1 ∧ k = allocations r.calls ∧ (r.state.freed m = true ∨ r.state.injected m = true) ∧
        r'.state.address k = r.state.address m := by
  have hT := onRecord_of_reach hc ht hlen hold holdSorted horacle
  have h := replayed_of_reach hT hr
  obtain ⟨hpermits, -, hpre⟩ := hok
  obtain ⟨s', hs', rfl⟩ := Option.map_eq_some_iff.mp hn
  cases a with
  | malloc sz underflow answer usableSize coin =>
    cases hs'
    rw [malloc_eq_mallocWith hc] at hk
    have hbody : ∀ i s r, MayInject c s r (consider c usableSize (coin i) s r) := by
      intro i s r
      exact mayInject_consider c usableSize (coin i) s r
    have hlt : r.state.allocations < allocations t.calls := by
      rw [h.count]
      exact allocations_lt hpre
    obtain ⟨m, q, i, hm, hq, hnear, -, hcase⟩ :=
      h.injected_malloc hT hlt hbody hpermits hk hk'
    rw [← h.count]
    rcases hcase with ⟨rfl, hfreed⟩ | ⟨rfl, hgone, haddress⟩
    · rw [h.time] at hnear
      exact Or.inl ⟨hm.symm, freedWithin_of_record hT.sensible hlen hpre (freed_replayed h hfreed) h.count hq hnear⟩
    · refine Or.inr ⟨m, rfl, hm.symm, hgone, ?_⟩
      change (malloc c sz underflow answer usableSize coin r.state).address (m + 1) = _
      rw [malloc_eq_mallocWith hc, h.address_mallocWith hT hlt hbody, ← hm, Function.update_self, haddress]
  | free object =>
    cases hs'
    change (BrokenMalloc.free c _ _ r.state).injected k = true at hk
    rw [injected_free hc, hk'] at hk
    cases hk
  | freeNull =>
    cases hs'
    rw [injected_free hc, hk'] at hk
    cases hk

def nextRecord : Config := { oneRecord with oracle := [⟨2, 0⟩] }

theorem oracle_nextRecord :
    nextRecord.oracle = TrackAlloc.sortLog [] (TrackAlloc.closeUpShop [] TrackAlloc.trackedState) := by
  have hlog : TrackAlloc.closeUpShop [] TrackAlloc.trackedState = [⟨2, 0⟩] := rfl
  rw [hlog, TrackAlloc.sortLog, List.mergeSort_singleton]
  rfl

def replayedState : Replay := final (replayNext nextRecord) .start [mallocAt 4096]

theorem reach_replayedState :
    Reach (replayNext nextRecord) (Replays nextRecord TrackAlloc.trackedState.calls) .start replayedState :=
  reach_final ⟨⟨rfl, trivial, ⟨[.malloc 8, .freeNull, .free 0], rfl⟩⟩, fun _ _ => trivial⟩ rfl

theorem injected_replay_first :
    0 + 1 = allocations replayedState.calls ∧ FreedWithin TrackAlloc.trackedState.calls [.malloc 8, .malloc 8] 10 0 ∨
      ∃ m, 0 = m + 1 ∧ 0 = allocations replayedState.calls ∧
        (replayedState.state.freed m = true ∨ replayedState.state.injected m = true) ∧
        (malloc nextRecord 8 false (fun _ => 8192) (fun _ => 8) (fun _ => true) replayedState.state).address 0 =
          replayedState.state.address m :=
  injected_replay (c := nextRecord) rfl TrackAlloc.reach_trackedState (by decide) (Nat.zero_le _) (Nat.zero_le _)
    oracle_nextRecord reach_replayedState ⟨rfl, trivial, ⟨[.freeNull, .free 0], rfl⟩⟩
    (a := mallocAt 8192) rfl rfl rfl

end DieHard.BrokenMalloc
