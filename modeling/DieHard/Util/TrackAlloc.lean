import DieHard.Util.BrokenMalloc

/-!
# The allocation log

`libtrackalloc` counts the allocations of a program. Each `free` logs the count and the number of the object, and
nothing goes back to the underlying heap. `sortlog` puts the records in the order of the allocations, which is the
order in which the fault injector reads them.
-/

namespace DieHard.TrackAlloc

open Transition
open BrokenMalloc (OracleRecord)

/-- A call of the program. The objects are numbered by their allocations. -/
inductive Call where
  | malloc (sz : Nat)
  | free (object : Nat)
  | freeNull
  deriving DecidableEq

def Call.isMalloc : Call → Bool
  | .malloc _ => true
  | .free _ | .freeNull => false

def Call.freed : Call → Option Nat
  | .malloc _ | .freeNull => none
  | .free object => some object

def allocations (calls : List Call) : Nat := calls.countP Call.isMalloc

/-- The program frees an object after its allocation, and once. -/
structure Sensible (calls : List Call) : Prop where
  once : (calls.filterMap Call.freed).Nodup
  allocated : ∀ pre k post, calls = pre ++ .free k :: post → k < allocations pre

/-- The count at the moment that an object is freed, where `n` objects have been allocated before. -/
def freeTime (n : Nat) : List Call → Nat → Option Nat
  | [], _ => none
  | .malloc _ :: calls, k => freeTime (n + 1) calls k
  | .free j :: calls, k => if j = k then some n else freeTime n calls k
  | .freeNull :: calls, k => freeTime n calls k

/-- The records of the frees, where `n` objects have been allocated before. -/
def records (n : Nat) : List Call → List OracleRecord
  | [] => []
  | .malloc _ :: calls => records (n + 1) calls
  | .free k :: calls => ⟨BitVec.ofNat 32 n, BitVec.ofNat 32 k⟩ :: records n calls
  | .freeNull :: calls => records n calls

def recordOf (calls : List Call) (k : Nat) : Option OracleRecord :=
  (freeTime 0 calls k).map fun n => ⟨BitVec.ofNat 32 n, BitVec.ofNat 32 k⟩

/-- The records of the first `n` objects in the order of their allocations. -/
def byAllocation (calls : List Call) (n : Nat) : List OracleRecord := (List.range n).filterMap (recordOf calls)

variable {calls : List Call} {n k : Nat}

@[simp] theorem allocations_append (calls calls' : List Call) :
    allocations (calls ++ calls') = allocations calls + allocations calls' := List.countP_append ..

@[simp] theorem allocations_nil : allocations [] = 0 := rfl

@[simp] theorem allocations_malloc (sz : Nat) (calls : List Call) :
    allocations (.malloc sz :: calls) = allocations calls + 1 := List.countP_cons_of_pos rfl

@[simp] theorem allocations_free (k : Nat) (calls : List Call) :
    allocations (.free k :: calls) = allocations calls := List.countP_cons_of_neg (by simp [Call.isMalloc])

@[simp] theorem allocations_freeNull (calls : List Call) :
    allocations (.freeNull :: calls) = allocations calls := List.countP_cons_of_neg (by simp [Call.isMalloc])

theorem records_append (calls calls' : List Call) :
    records n (calls ++ calls') = records n calls ++ records (n + allocations calls) calls' := by
  induction calls generalizing n with
  | nil => rfl
  | cons c calls ih =>
    cases c with
    | malloc sz =>
      rw [List.cons_append, records, records, ih, allocations_malloc]
      congr 2
      omega
    | free k => rw [List.cons_append, records, records, ih, allocations_free, List.cons_append]
    | freeNull => rw [List.cons_append, records, records, ih, allocations_freeNull]

theorem exists_of_freeTime {m : Nat} (h : freeTime n calls k = some m) :
    ∃ pre post, calls = pre ++ .free k :: post ∧ m = n + allocations pre := by
  induction calls generalizing n with
  | nil => cases h
  | cons c calls ih =>
    cases c with
    | malloc sz =>
      obtain ⟨pre, post, rfl, rfl⟩ := ih h
      exact ⟨.malloc sz :: pre, post, rfl, by rw [allocations_malloc]; omega⟩
    | free j =>
      rw [freeTime] at h
      split at h
      · rename_i heq
        cases h
        exact ⟨[], calls, by rw [heq]; rfl, rfl⟩
      · obtain ⟨pre, post, rfl, rfl⟩ := ih h
        exact ⟨.free j :: pre, post, rfl, by rw [allocations_free]⟩
    | freeNull =>
      obtain ⟨pre, post, rfl, rfl⟩ := ih h
      exact ⟨.freeNull :: pre, post, rfl, by rw [allocations_freeNull]⟩

theorem freeTime_of_not_mem {pre : List Call} (hpre : .free k ∉ pre) (post : List Call) :
    freeTime n (pre ++ .free k :: post) k = some (n + allocations pre) := by
  induction pre generalizing n with
  | nil => exact if_pos rfl
  | cons c pre ih =>
    have hmem := List.not_mem_of_not_mem_cons hpre
    cases c with
    | malloc sz =>
      rw [List.cons_append, freeTime, ih hmem, allocations_malloc]
      congr 1
      omega
    | free j =>
      have hne : j ≠ k := by
        rintro rfl
        exact hpre List.mem_cons_self
      rw [List.cons_append, freeTime, if_neg hne, ih hmem, allocations_free]
    | freeNull => rw [List.cons_append, freeTime, ih hmem, allocations_freeNull]

theorem mem_freed : k ∈ calls.filterMap Call.freed ↔ .free k ∈ calls := by
  rw [List.mem_filterMap]
  constructor
  · rintro ⟨c, hc, hk⟩
    cases c with
    | malloc sz | freeNull => cases hk
    | free j =>
      cases hk
      exact hc
  · intro h
    exact ⟨.free k, h, rfl⟩

theorem Sensible.not_mem_pre (h : Sensible calls) {pre post : List Call} (heq : calls = pre ++ .free k :: post) :
    .free k ∉ pre ∧ .free k ∉ post := by
  have hn := h.once
  rw [heq, List.filterMap_append, List.nodup_append] at hn
  obtain ⟨-, hpost, hdisj⟩ := hn
  rw [List.filterMap_cons_some (show Call.freed (.free k) = some k from rfl)] at hpost hdisj
  constructor
  · intro hmem
    exact hdisj k (mem_freed.mpr hmem) k List.mem_cons_self rfl
  · intro hmem
    exact (List.nodup_cons.mp hpost).1 (mem_freed.mpr hmem)

theorem freeTime_iff (h : Sensible calls) {m : Nat} :
    freeTime 0 calls k = some m ↔ ∃ pre post, calls = pre ++ .free k :: post ∧ m = allocations pre := by
  constructor
  · intro hm
    obtain ⟨pre, post, heq, hm⟩ := exists_of_freeTime hm
    exact ⟨pre, post, heq, by omega⟩
  · rintro ⟨pre, post, heq, rfl⟩
    rw [heq, freeTime_of_not_mem (h.not_mem_pre heq).1, Nat.zero_add]

theorem mem_records_iff {r : OracleRecord} :
    r ∈ records n calls ↔ ∃ pre k post, calls = pre ++ .free k :: post ∧
      r = ⟨BitVec.ofNat 32 (n + allocations pre), BitVec.ofNat 32 k⟩ := by
  constructor
  · intro hr
    induction calls generalizing n with
    | nil => cases hr
    | cons c calls ih =>
      cases c with
      | malloc sz =>
        obtain ⟨pre, k, post, rfl, rfl⟩ := ih hr
        refine ⟨.malloc sz :: pre, k, post, rfl, ?_⟩
        rw [allocations_malloc, Nat.add_right_comm, Nat.add_assoc]
      | free j =>
        rcases List.mem_cons.mp hr with rfl | hr
        · exact ⟨[], j, calls, rfl, rfl⟩
        · obtain ⟨pre, k, post, rfl, rfl⟩ := ih hr
          exact ⟨.free j :: pre, k, post, rfl, by rw [allocations_free]⟩
      | freeNull =>
        obtain ⟨pre, k, post, rfl, rfl⟩ := ih hr
        exact ⟨.freeNull :: pre, k, post, rfl, by rw [allocations_freeNull]⟩
  · rintro ⟨pre, k, post, rfl, rfl⟩
    rw [records_append]
    exact List.mem_append_right _ List.mem_cons_self

theorem map_allocated_records (n : Nat) (calls : List Call) :
    (records n calls).map OracleRecord.allocated = (calls.filterMap Call.freed).map (BitVec.ofNat 32) := by
  induction calls generalizing n with
  | nil => rfl
  | cons c calls ih =>
    cases c with
    | malloc sz => exact ih (n + 1)
    | freeNull => exact ih n
    | free k =>
      rw [records, List.map_cons, ih n]
      rfl

theorem Sensible.freed_lt (h : Sensible calls) (hk : k ∈ calls.filterMap Call.freed) : k < allocations calls := by
  obtain ⟨pre, post, heq⟩ := List.append_of_mem (mem_freed.mp hk)
  have hlt := h.allocated pre k post heq
  rw [heq, allocations_append]
  omega

theorem ofNat_inj {i j : Nat} (hi : i < 2 ^ 32) (hj : j < 2 ^ 32) (h : BitVec.ofNat 32 i = BitVec.ofNat 32 j) :
    i = j := by
  have hnat := congrArg BitVec.toNat h
  rwa [BitVec.toNat_ofNat, BitVec.toNat_ofNat, Nat.mod_eq_of_lt hi, Nat.mod_eq_of_lt hj] at hnat

theorem nodup_allocated (h : Sensible calls) (hlen : allocations calls < 2 ^ 31) :
    ((records 0 calls).map OracleRecord.allocated).Nodup := by
  rw [map_allocated_records]
  apply List.Nodup.map_on _ h.once
  intro i hi j hj heq
  have hi' := h.freed_lt hi
  have hj' := h.freed_lt hj
  exact ofNat_inj (by omega) (by omega) heq

/-- The heap of `libtrackalloc`, with the calls of the program and the addresses that it got. -/
structure State where
  currentAllocationTime : BitVec 32
  theMap : Nat → Option (BitVec 32)
  /-- what has been written to the file, the oldest record in front -/
  logfile : List OracleRecord
  calls : List Call
  address : Nat → Nat

def initial : State where
  currentAllocationTime := 0
  theMap _ := none
  logfile := []
  calls := []
  address _ := 0

/-- `malloc`, where the underlying heap answers `ptr` -/
def malloc (sz ptr : Nat) (s : State) : State :=
  { s with
    currentAllocationTime := s.currentAllocationTime + 1
    theMap := Function.update s.theMap ptr (some s.currentAllocationTime)
    calls := s.calls ++ [.malloc sz]
    address := Function.update s.address (allocations s.calls) ptr }

/-- `free`. `theMap[ptr]` makes an entry where there is none, and it is erased again. -/
def free (ptr : Nat) (s : State) : State :=
  if ptr ≠ 0 then
    { s with
      logfile := s.logfile ++ [⟨s.currentAllocationTime, (s.theMap ptr).getD 0⟩]
      theMap := Function.update s.theMap ptr none }
  else s

inductive Action where
  | malloc (sz ptr : Nat)
  | free (object : Nat)
  | freeNull

def next (s : State) : Action → Option State
  | .malloc sz ptr => some (malloc sz ptr s)
  | .free object => some { free (s.address object) s with calls := s.calls ++ [.free object] }
  | .freeNull => some { free 0 s with calls := s.calls ++ [.freeNull] }

/-- The underlying heap frees nothing, so it gives null or an address that it has not given before. The program
frees each object once, and null as often as it likes. -/
def Permits (s : State) : Action → Prop
  | .malloc _ ptr => ptr = 0 ∨ ∀ k < allocations s.calls, s.address k ≠ ptr
  | .free object => object < allocations s.calls ∧ s.address object ≠ 0 ∧ .free object ∉ s.calls
  | .freeNull => True

/-- What the tracker knows of the calls. -/
structure Tracked (s : State) : Prop where
  sensible : Sensible s.calls
  time : s.currentAllocationTime = BitVec.ofNat 32 (allocations s.calls)
  logged : s.logfile = records 0 s.calls
  mapped : ∀ k < allocations s.calls, s.address k ≠ 0 → .free k ∉ s.calls →
    s.theMap (s.address k) = some (BitVec.ofNat 32 k)
  apart : ∀ j k, j < allocations s.calls → k < allocations s.calls → s.address j ≠ 0 →
    s.address j = s.address k → j = k

variable {s s' : State}

theorem Sensible.concat {c : Call} (h : Sensible calls) (hc : c.freed = none) : Sensible (calls ++ [c]) := by
  constructor
  · rw [List.filterMap_append, List.filterMap_cons_none hc, List.filterMap_nil, List.append_nil]
    exact h.once
  · intro pre k post heq
    rcases List.eq_nil_or_concat post with rfl | ⟨post, c', rfl⟩
    · obtain ⟨-, hlast⟩ := List.append_inj' heq rfl
      cases hlast
      cases hc
    · rw [List.concat_eq_append, ← List.cons_append, ← List.append_assoc] at heq
      exact h.allocated pre k post (List.append_inj' heq rfl).1

theorem Sensible.free (h : Sensible calls) (hk : k < allocations calls) (hfree : .free k ∉ calls) :
    Sensible (calls ++ [.free k]) := by
  constructor
  · rw [List.filterMap_append]
    refine List.nodup_append.mpr ⟨h.once, List.nodup_singleton k, ?_⟩
    intro i hi j hj heq
    rw [heq, List.mem_singleton.mp hj] at hi
    exact hfree (mem_freed.mp hi)
  · intro pre j post heq
    rcases List.eq_nil_or_concat post with rfl | ⟨post, c, rfl⟩
    · obtain ⟨rfl, hlast⟩ := List.append_inj' heq rfl
      cases hlast
      exact hk
    · rw [List.concat_eq_append, ← List.cons_append, ← List.append_assoc] at heq
      exact h.allocated pre j post (List.append_inj' heq rfl).1

theorem Tracked.malloc {sz ptr : Nat} (h : Tracked s) (hok : Permits s (.malloc sz ptr)) :
    Tracked (malloc sz ptr s) := by
  have hnew : ∀ k < allocations s.calls, s.address k ≠ 0 → s.address k ≠ ptr := by
    intro k hk hne heq
    rcases hok with rfl | hok
    · exact hne heq
    · exact hok k hk heq
  have hcount : allocations (TrackAlloc.malloc sz ptr s).calls = allocations s.calls + 1 := by
    simp [TrackAlloc.malloc]
  constructor
  · exact h.sensible.concat rfl
  · rw [hcount, BitVec.ofNat_add, ← h.time]
    rfl
  · change s.logfile = records 0 (s.calls ++ [.malloc sz])
    rw [records_append, h.logged]
    exact (List.append_nil _).symm
  · intro k hk hne hfree
    rw [hcount] at hk
    simp only [TrackAlloc.malloc, List.mem_append, List.mem_singleton, reduceCtorEq, or_false] at hne hfree ⊢
    rcases Nat.lt_succ_iff_lt_or_eq.mp hk with hlt | rfl
    · rw [Function.update_of_ne (Nat.ne_of_lt hlt)] at hne ⊢
      rw [Function.update_of_ne (hnew k hlt hne)]
      exact h.mapped k hlt hne hfree
    · rw [Function.update_self, Function.update_self, h.time]
  · intro j k hj hk hne heq
    rw [hcount] at hj hk
    simp only [TrackAlloc.malloc] at hne heq
    rcases Nat.lt_succ_iff_lt_or_eq.mp hj with hj | rfl <;> rcases Nat.lt_succ_iff_lt_or_eq.mp hk with hk | rfl
    · rw [Function.update_of_ne (Nat.ne_of_lt hj)] at hne heq
      rw [Function.update_of_ne (Nat.ne_of_lt hk)] at heq
      exact h.apart j k hj hk hne heq
    · rw [Function.update_of_ne (Nat.ne_of_lt hj)] at hne heq
      rw [Function.update_self] at heq
      exact absurd heq (hnew j hj hne)
    · rw [Function.update_self] at hne heq
      rw [Function.update_of_ne (Nat.ne_of_lt hk)] at heq
      exact absurd heq.symm (hnew k hk (heq ▸ hne))
    · rfl

theorem Tracked.free {object : Nat} (h : Tracked s) (hok : Permits s (.free object)) :
    Tracked { free (s.address object) s with calls := s.calls ++ [.free object] } := by
  obtain ⟨hlt, hne, hfree⟩ := hok
  have hcount : allocations (s.calls ++ [.free object]) = allocations s.calls := by simp
  rw [TrackAlloc.free, if_pos hne]
  constructor
  · exact h.sensible.free hlt hfree
  · change s.currentAllocationTime = _
    rw [hcount, h.time]
  · change s.logfile ++ _ = records 0 (s.calls ++ [.free object])
    rw [records_append, h.logged, h.time, h.mapped object hlt hne hfree, Nat.zero_add]
    rfl
  · intro k hk hne' hfree'
    rw [hcount] at hk
    simp only [List.mem_append, List.mem_singleton, Call.free.injEq, not_or] at hfree'
    have hother : s.address k ≠ s.address object := by
      intro heq
      exact hfree'.2 (h.apart k object hk hlt hne' heq)
    change Function.update s.theMap (s.address object) none (s.address k) = _
    rw [Function.update_of_ne hother]
    exact h.mapped k hk hne' hfree'.1
  · intro j k hj hk
    rw [hcount] at hj hk
    exact h.apart j k hj hk

theorem Tracked.freeNull (h : Tracked s) : Tracked { TrackAlloc.free 0 s with calls := s.calls ++ [.freeNull] } := by
  have hcount : allocations (s.calls ++ [.freeNull]) = allocations s.calls := by simp
  rw [TrackAlloc.free, if_neg (not_not_intro rfl)]
  constructor
  · exact h.sensible.concat rfl
  · change s.currentAllocationTime = _
    rw [hcount, h.time]
  · change s.logfile = records 0 (s.calls ++ [.freeNull])
    rw [records_append, h.logged]
    exact (List.append_nil _).symm
  · intro k hk hne hfree
    rw [hcount] at hk
    exact h.mapped k hk hne fun hmem => hfree (List.mem_append_left _ hmem)
  · intro j k hj hk
    rw [hcount] at hj hk
    exact h.apart j k hj hk

theorem tracked_of_reach (hr : Reach next Permits initial s) : Tracked s := by
  have hinitial : Tracked initial := by
    refine ⟨⟨List.nodup_nil, ?_⟩, rfl, rfl, ?_, ?_⟩
    · intro pre k post heq
      simp [initial] at heq
    · intro k hk
      exact absurd hk (Nat.not_lt_zero k)
    · intro j k hj
      exact absurd hj (Nat.not_lt_zero j)
  apply hr.invariant hinitial
  intro s a s' h hok hn
  cases a with
  | malloc sz ptr =>
    cases hn
    exact h.malloc hok
  | free object =>
    cases hn
    exact h.free hok
  | freeNull =>
    cases hn
    exact h.freeNull

/-- A file after the records have been written from its start on. Both programs open their file without
truncation. -/
def overwrite (old new : List OracleRecord) : List OracleRecord := new ++ old.drop new.length

/-- The file `log` after a run. -/
def closeUpShop (old : List OracleRecord) (s : State) : List OracleRecord := overwrite old s.logfile

/-- `compareFunction` of `sortlog` orders the records by their allocations. -/
def compareFunction (r q : OracleRecord) : Bool := r.allocated.sle q.allocated

/-- The file `log.sorted` that `sortlog` leaves. The order of equal records does not matter: those of a run differ
in what they are compared by. -/
def sortLog (oldSorted log : List OracleRecord) : List OracleRecord :=
  overwrite oldSorted (log.mergeSort compareFunction)

theorem overwrite_of_le {old new : List OracleRecord} (h : old.length ≤ new.length) : overwrite old new = new := by
  rw [overwrite, List.drop_eq_nil_of_le h, List.append_nil]

theorem length_overwrite (old new : List OracleRecord) :
    (overwrite old new).length = new.length + (old.length - new.length) := by
  rw [overwrite, List.length_append, List.length_drop]

theorem byAllocation_succ (calls : List Call) (n : Nat) :
    byAllocation calls (n + 1) = byAllocation calls n ++ (recordOf calls n).toList := by
  rw [byAllocation, List.range_succ, List.filterMap_append]
  congr 1

theorem mem_byAllocation {r : OracleRecord} :
    r ∈ byAllocation calls n ↔ ∃ k < n, recordOf calls k = some r := by
  simp [byAllocation, List.mem_filterMap]

theorem allocated_of_recordOf {r : OracleRecord} (h : recordOf calls k = some r) :
    r.allocated = BitVec.ofNat 32 k := by
  obtain ⟨m, -, rfl⟩ := Option.map_eq_some_iff.mp h
  rfl

theorem sle_ofNat {i j : Nat} (hi : i < 2 ^ 31) (hj : j < 2 ^ 31) :
    (BitVec.ofNat 32 i).sle (BitVec.ofNat 32 j) = true ↔ i ≤ j := by
  rw [BitVec.sle_eq_decide, decide_eq_true_eq]
  have hint : ∀ m < 2 ^ 31, (BitVec.ofNat 32 m).toInt = m := by
    intro m hm
    rw [BitVec.toInt_ofNat', Int.bmod_eq_of_le (by omega) (by omega)]
  rw [hint i hi, hint j hj]
  omega

theorem pairwise_byAllocation (calls : List Call) (hn : n ≤ 2 ^ 31) :
    (byAllocation calls n).Pairwise fun r q => compareFunction r q = true := by
  induction n with
  | zero => exact List.Pairwise.nil
  | succ n ih =>
    rw [byAllocation_succ]
    refine List.pairwise_append.mpr ⟨ih (by omega), ?_, ?_⟩
    · cases recordOf calls n <;> simp
    · intro r hr q hq
      obtain ⟨k, hk, hr⟩ := mem_byAllocation.mp hr
      have hq := allocated_of_recordOf (Option.mem_toList.mp hq)
      rw [compareFunction, allocated_of_recordOf hr, hq, sle_ofNat (by omega) (by omega)]
      exact Nat.le_of_lt hk

theorem mem_records (h : Sensible calls) {r : OracleRecord} :
    r ∈ records 0 calls ↔ r ∈ byAllocation calls (allocations calls) := by
  rw [mem_records_iff, mem_byAllocation]
  constructor
  · rintro ⟨pre, k, post, heq, rfl⟩
    have hlt : k < allocations calls := by
      apply h.freed_lt
      rw [mem_freed, heq]
      exact List.mem_append_right _ List.mem_cons_self
    refine ⟨k, hlt, ?_⟩
    rw [recordOf, (freeTime_iff h).mpr ⟨pre, post, heq, rfl⟩, Nat.zero_add]
    rfl
  · rintro ⟨k, -, hk⟩
    obtain ⟨m, hm, rfl⟩ := Option.map_eq_some_iff.mp hk
    obtain ⟨pre, post, heq, rfl⟩ := (freeTime_iff h).mp hm
    exact ⟨pre, k, post, heq, by rw [Nat.zero_add]⟩

theorem nodup_byAllocation (calls : List Call) (hn : n ≤ 2 ^ 31) : (byAllocation calls n).Nodup := by
  induction n with
  | zero => exact List.nodup_nil
  | succ n ih =>
    rw [byAllocation_succ]
    refine List.nodup_append.mpr ⟨ih (by omega), ?_, ?_⟩
    · cases recordOf calls n <;> simp
    · intro r hr q hq heq
      obtain ⟨k, hk, hr⟩ := mem_byAllocation.mp hr
      have hq := allocated_of_recordOf (Option.mem_toList.mp hq)
      rw [← heq, allocated_of_recordOf hr] at hq
      have hkn := ofNat_inj (by omega) (by omega) hq
      omega

/-- Sorting the log of a sensible program puts the records of its objects in the order of their allocations. -/
theorem mergeSort_records (h : Sensible calls) (hlen : allocations calls < 2 ^ 31) :
    (records 0 calls).mergeSort compareFunction = byAllocation calls (allocations calls) := by
  have hperm : ((records 0 calls).mergeSort compareFunction).Perm (byAllocation calls (allocations calls)) := by
    refine (List.mergeSort_perm _ _).trans ?_
    rw [List.perm_ext_iff_of_nodup ((nodup_allocated h hlen).of_map _) (nodup_byAllocation calls (by omega))]
    intro r
    exact mem_records h
  have hsorted : ((records 0 calls).mergeSort compareFunction).Pairwise fun r q => compareFunction r q = true := by
    apply List.pairwise_mergeSort
    · intro a b c hab hbc
      rw [compareFunction, BitVec.sle_eq_decide, decide_eq_true_eq] at hab hbc ⊢
      omega
    · intro a b
      rw [Bool.or_eq_true, compareFunction, compareFunction, BitVec.sle_eq_decide, BitVec.sle_eq_decide,
        decide_eq_true_eq, decide_eq_true_eq]
      omega
  apply hperm.eq_of_pairwise _ hsorted (pairwise_byAllocation calls (by omega))
  intro r q hr hq hrq hqr
  obtain ⟨i, hi, hr⟩ := mem_byAllocation.mp (hperm.mem_iff.mp hr)
  obtain ⟨j, hj, hq⟩ := mem_byAllocation.mp hq
  rw [compareFunction, allocated_of_recordOf hr, allocated_of_recordOf hq,
    sle_ofNat (by omega) (by omega)] at hrq hqr
  obtain rfl : i = j := by omega
  exact Option.some.inj (hr.symm.trans hq)

theorem sortLog_closeUpShop {old oldSorted : List OracleRecord} (hr : Reach next Permits initial s)
    (hlen : allocations s.calls < 2 ^ 31) (hold : old.length ≤ s.logfile.length)
    (holdSorted : oldSorted.length ≤ s.logfile.length) :
    sortLog oldSorted (closeUpShop old s) = byAllocation s.calls (allocations s.calls) := by
  have h := tracked_of_reach hr
  have hsorted := mergeSort_records h.sensible hlen
  rw [← h.logged] at hsorted
  rw [closeUpShop, overwrite_of_le hold, sortLog, overwrite_of_le (by rwa [List.length_mergeSort]), hsorted]

/-- The sorted file has the records of the run alone, each with the number of its object and of the allocations
before its free, if and only if neither file was longer before the run. -/
theorem sortLog_closeUpShop_iff (old oldSorted : List OracleRecord) (hr : Reach next Permits initial s)
    (hlen : allocations s.calls < 2 ^ 31) :
    sortLog oldSorted (closeUpShop old s) = byAllocation s.calls (allocations s.calls) ↔
      old.length ≤ s.logfile.length ∧ oldSorted.length ≤ s.logfile.length := by
  constructor
  · intro heq
    have h := tracked_of_reach hr
    have hsorted := mergeSort_records h.sensible hlen
    rw [← h.logged] at hsorted
    have hlength := congrArg List.length (heq.trans hsorted.symm)
    simp only [sortLog, closeUpShop, length_overwrite, List.length_mergeSort] at hlength
    omega
  · rintro ⟨hold, holdSorted⟩
    exact sortLog_closeUpShop hr hlen hold holdSorted

def trackedCalls : List Action := [.malloc 8 4096, .malloc 8 8192, .freeNull, .free 0]

def trackedState : State := final next initial trackedCalls

theorem reach_trackedState : Reach next Permits initial trackedState := by
  apply reach_final _ rfl
  refine ⟨Or.inr (fun k hk => absurd hk (Nat.not_lt_zero k)), ?_⟩
  intro s₁ h₁
  cases h₁
  refine ⟨Or.inr (fun k hk => ?_), ?_⟩
  · obtain rfl : k = 0 := Nat.lt_one_iff.mp hk
    decide
  · intro s₂ h₂
    cases h₂
    refine ⟨trivial, ?_⟩
    intro s₃ h₃
    cases h₃
    exact ⟨⟨by decide, by decide, by decide⟩, fun _ _ => trivial⟩

theorem sortLog_closeUpShop_tracked : sortLog [⟨3, 0⟩, ⟨3, 1⟩] (closeUpShop [⟨3, 0⟩] trackedState) =
      byAllocation trackedState.calls (allocations trackedState.calls) ↔ 1 ≤ 1 ∧ 2 ≤ 1 :=
  sortLog_closeUpShop_iff [⟨3, 0⟩] [⟨3, 0⟩, ⟨3, 1⟩] reach_trackedState (by decide)

end DieHard.TrackAlloc
