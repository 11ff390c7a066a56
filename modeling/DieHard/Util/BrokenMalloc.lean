import DieHard.Lib.Transition
import DieHard.Util.Size

/-!
# The fault injector

With dangling injection on, `malloc` frees objects before the program does, and `free` passes over an address
that is not among the live ones. The address may have been given to another object in the meantime.
-/

namespace DieHard.BrokenMalloc

open Transition

/-- An `oracleRecord`: the times are `int`. -/
structure OracleRecord where
  freed : BitVec 32
  allocated : BitVec 32

structure Config where
  underflowAmount : Nat
  underflowThreshold : Nat
  /-- `danglingPointerFrequency > 0.0` -/
  dangling : Bool
  danglingPointerDistance : BitVec 32
  oracle : List OracleRecord

/-- A call of `RealMallocHeap::free` with an address, with the object that is live at the address. `again`
tells that the program frees an object that the injector has freed before. -/
structure Release where
  ptr : Nat
  object : Option Nat
  again : Bool

/-- The injector, and what is known of the objects, which are numbered by their allocations. -/
structure State where
  currentAllocationTime : BitVec 32
  currentOraclePosition : Nat
  /-- null where there is no entry -/
  allocatedObjects : BitVec 32 → Nat
  /-- the keys of `liveObjects` -/
  liveObjects : Nat → Bool
  allocations : Nat
  address : Nat → Nat
  /-- the object that is live at an address in the underlying heap -/
  owner : Nat → Option Nat
  /-- the objects that the injector has freed -/
  injected : Nat → Bool
  /-- the objects that the program has freed -/
  freed : Nat → Bool
  log : List Release

namespace State

def initial : State where
  currentAllocationTime := 0
  currentOraclePosition := 0
  allocatedObjects _ := 0
  liveObjects _ := false
  allocations := 0
  address _ := 0
  owner _ := none
  injected _ := false
  freed _ := false
  log := []

variable (s : State)

/-- `RealMallocHeap::malloc` with its answer -/
def realMalloc (ptr : Nat) : State :=
  { s with
    allocations := s.allocations + 1
    address := Function.update s.address s.allocations ptr
    owner := if ptr = 0 then s.owner else Function.update s.owner ptr (some s.allocations) }

/-- `RealMallocHeap::free`, which does nothing with null -/
def realFree (ptr : Nat) (again : Bool) : State :=
  if ptr = 0 then s
  else { s with
    owner := Function.update s.owner ptr none
    log := ⟨ptr, s.owner ptr, again⟩ :: s.log }

/-- `liveObjects.erase` -/
def eraseLive (ptr : Nat) : State := { s with liveObjects := Function.update s.liveObjects ptr false }

/-- The new object is recorded in both tables. -/
def record (ptr : Nat) : State :=
  { s with
    allocatedObjects := Function.update s.allocatedObjects s.currentAllocationTime ptr
    liveObjects := Function.update s.liveObjects ptr true }

def inject (ptr : Nat) : State :=
  let s' := (s.realFree ptr false).eraseLive ptr
  { s' with injected := fun k => s.injected k || s.owner ptr = some k }

end State

variable (c : Config)

/-- The body of the loop over the oracle, with the size that `malloc_usable_size` tells and a coin. -/
def consider (usableSize : Nat → Nat) (coin : Bool) (s : State) (r : OracleRecord) : State :=
  if r.freed.sle (s.currentAllocationTime + c.danglingPointerDistance) then
    let p := s.allocatedObjects r.allocated
    if usableSize p < 16384 ∧ s.liveObjects p = true ∧ coin = true then s.inject p else s
  else s

/-- The loop over the records from `i` on. -/
def considerAll (usableSize : Nat → Nat) (coin : Nat → Bool) (s : State) (i : Nat) :
    List OracleRecord → State
  | [] => { s with currentOraclePosition := i }
  | r :: rs =>
    if r.allocated.slt s.currentAllocationTime then
      considerAll usableSize coin (consider c usableSize (coin i) s r) (i + 1) rs
    else { s with currentOraclePosition := i }

def actualRequestSize (sz : Nat) (underflow : Bool) : Nat :=
  if c.underflowThreshold < sz ∧ underflow = true then sizeSub sz c.underflowAmount else sz

/-- `malloc(sz)`. `answer` is what `RealMallocHeap::malloc` gives for a request. -/
def malloc (sz : Nat) (underflow : Bool) (answer usableSize : Nat → Nat) (coin : Nat → Bool) (s : State) :
    State :=
  let ptr := answer (actualRequestSize c sz underflow)
  let s := s.realMalloc ptr
  if c.dangling then
    let s := s.record ptr
    let s := considerAll c usableSize coin s s.currentOraclePosition (c.oracle.drop s.currentOraclePosition)
    { s with currentAllocationTime := s.currentAllocationTime + 1 }
  else s

/-- `free(ptr)`. `again` tells that the injector has freed the object before. -/
def free (ptr : Nat) (again : Bool) (s : State) : State :=
  if c.dangling then
    if s.liveObjects ptr then (s.eraseLive ptr).realFree ptr again else s
  else s.realFree ptr again

inductive Action where
  | malloc (sz : Nat) (underflow : Bool) (answer usableSize : Nat → Nat) (coin : Nat → Bool)
  | free (object : Nat)
  | freeNull

def next (s : State) : Action → Option State
  | .malloc sz underflow answer usableSize coin => some (malloc c sz underflow answer usableSize coin s)
  | .free object =>
    let s := free c (s.address object) (s.injected object) s
    some { s with freed := Function.update s.freed object true }
  | .freeNull => some (free c 0 false s)

/-- The underlying heap gives null or an address at which nothing is live, as at null, and the program frees each
object once. -/
def Permits (s : State) : Action → Prop
  | .malloc sz underflow answer _ _ => s.owner (answer (actualRequestSize c sz underflow)) = none
  | .free object => object < s.allocations ∧ s.freed object = false
  | .freeNull => True

def Unreused (s : State) : Action → Prop
  | .free object => s.injected object = true → s.liveObjects (s.address object) = false
  | .malloc .. | .freeNull => True

/-- Each call of `RealMallocHeap::free` with an address releases a live object, and none that takes the
place of an object that has been freed for the program. No object is released twice. -/
structure FreesOnce (s : State) : Prop where
  live : ∀ r ∈ s.log, r.object.isSome
  notAgain : ∀ r ∈ s.log, r.again = false
  once : (s.log.filterMap Release.object).Nodup

/-- `liveObjects` has the addresses at which objects are live. -/
structure Tracked (s : State) : Prop extends FreesOnce s where
  live_iff : ∀ ptr ≠ 0, s.liveObjects ptr = true ↔ (s.owner ptr).isSome
  null : s.owner 0 = none
  owner_lt : ∀ ptr k, s.owner ptr = some k → k < s.allocations ∧ s.address k = ptr
  gone : ∀ k ∈ s.log.filterMap Release.object, k < s.allocations ∧ ∀ ptr, s.owner ptr ≠ some k

variable {c} {s s' : State} {ptr : Nat}

theorem Tracked.initial : Tracked State.initial where
  live _ h := by cases h
  notAgain _ h := by cases h
  once := List.nodup_nil
  live_iff _ _ := by simp [State.initial]
  null := rfl
  owner_lt _ _ h := by cases h
  gone _ h := by cases h

theorem Tracked.congr (h : Tracked s) (hlog : s'.log = s.log)
    (hlive : ∀ ptr ≠ 0, s'.liveObjects ptr = s.liveObjects ptr)
    (howner : s'.owner = s.owner) (hallocations : s'.allocations = s.allocations)
    (haddress : s'.address = s.address) : Tracked s' := by
  constructor
  · constructor
    · rw [hlog]
      exact h.live
    · rw [hlog]
      exact h.notAgain
    · rw [hlog]
      exact h.once
  · intro q hq
    rw [hlive q hq, howner]
    exact h.live_iff q hq
  · rw [howner]
    exact h.null
  · rw [howner, hallocations, haddress]
    exact h.owner_lt
  · rw [hlog, howner, hallocations]
    exact h.gone

/-- An address that is recorded is erased, and the object that is live there released. -/
theorem Tracked.release (h : Tracked s) (hlive : s.liveObjects ptr = true) :
    Tracked ((s.realFree ptr false).eraseLive ptr) := by
  by_cases hptr : ptr = 0
  · refine h.congr ?_ ?_ ?_ ?_ ?_ <;> simp +contextual [State.realFree, State.eraseLive, hptr]
  obtain ⟨k, hk⟩ := Option.isSome_iff_exists.mp ((h.live_iff ptr hptr).mp hlive)
  have hrelease : (s.realFree ptr false).eraseLive ptr = { s with
      owner := Function.update s.owner ptr none
      log := ⟨ptr, s.owner ptr, false⟩ :: s.log
      liveObjects := Function.update s.liveObjects ptr false } := by
    rw [State.realFree, if_neg hptr, State.eraseLive]
  rw [hrelease]
  have hother : ∀ q j, Function.update s.owner ptr none q = some j → q ≠ ptr ∧ s.owner q = some j := by
    intro q j hq
    by_cases heq : q = ptr
    · rw [heq, Function.update_self] at hq
      cases hq
    · rw [Function.update_of_ne heq] at hq
      exact ⟨heq, hq⟩
  have hlog : (⟨ptr, s.owner ptr, false⟩ :: s.log : List Release).filterMap Release.object =
      k :: s.log.filterMap Release.object := by
    simp [hk]
  constructor
  · constructor
    · exact List.forall_mem_cons.mpr ⟨by simp [hk], h.live⟩
    · exact List.forall_mem_cons.mpr ⟨rfl, h.notAgain⟩
    · rw [hlog, List.nodup_cons]
      refine ⟨?_, h.once⟩
      intro hmem
      exact (h.gone k hmem).2 ptr hk
  · intro q hq
    change Function.update s.liveObjects ptr false q = true ↔ (Function.update s.owner ptr none q).isSome
    by_cases heq : q = ptr
    · simp [heq]
    · rw [Function.update_of_ne heq, Function.update_of_ne heq]
      exact h.live_iff q hq
  · exact (Function.update_of_ne (Ne.symm hptr) _ _).trans h.null
  · intro q j hq
    exact h.owner_lt q j (hother q j hq).2
  · intro j hj
    rw [hlog] at hj
    rcases List.mem_cons.mp hj with rfl | hj
    · refine ⟨(h.owner_lt ptr j hk).1, ?_⟩
      intro q hq
      obtain ⟨hne, hq⟩ := hother q j hq
      exact hne ((h.owner_lt q j hq).2.symm.trans (h.owner_lt ptr j hk).2)
    · refine ⟨(h.gone j hj).1, ?_⟩
      intro q hq
      exact (h.gone j hj).2 q (hother q j hq).2

theorem State.owner_record (s : State) (ptr : Nat) : ((s.realMalloc ptr).record ptr).owner =
    if ptr = 0 then s.owner else Function.update s.owner ptr (some s.allocations) := rfl

theorem owner_of_record {q k : Nat} (hq : ((s.realMalloc ptr).record ptr).owner q = some k) :
    q = ptr ∧ k = s.allocations ∨ (q = ptr → ptr = 0) ∧ s.owner q = some k := by
  rw [State.owner_record] at hq
  by_cases hptr : ptr = 0
  · rw [if_pos hptr] at hq
    exact Or.inr ⟨fun _ => hptr, hq⟩
  · rw [if_neg hptr] at hq
    by_cases heq : q = ptr
    · rw [heq, Function.update_self] at hq
      exact Or.inl ⟨heq, (Option.some.inj hq).symm⟩
    · rw [Function.update_of_ne heq] at hq
      exact Or.inr ⟨fun h => absurd h heq, hq⟩

/-- A new object is recorded. -/
theorem Tracked.allocate (h : Tracked s) (ptr : Nat) : Tracked ((s.realMalloc ptr).record ptr) := by
  constructor
  · exact ⟨h.live, h.notAgain, h.once⟩
  · intro q hq
    rw [State.owner_record]
    change Function.update s.liveObjects ptr true q = true ↔ _
    by_cases heq : q = ptr
    · simp [heq, heq ▸ hq]
    · have hq' := h.live_iff q hq
      rw [Function.update_of_ne heq]
      split
      · exact hq'
      · rwa [Function.update_of_ne heq]
  · rw [State.owner_record]
    split
    case isTrue => exact h.null
    case isFalse hptr => exact (Function.update_of_ne (Ne.symm hptr) _ _).trans h.null
  · intro q k hq
    change k < s.allocations + 1 ∧ Function.update s.address s.allocations ptr k = q
    obtain ⟨rfl, rfl⟩ | ⟨-, hq⟩ := owner_of_record hq
    · exact ⟨Nat.lt_succ_self _, Function.update_self ..⟩
    · obtain ⟨hlt, haddress⟩ := h.owner_lt q k hq
      rw [Function.update_of_ne (Nat.ne_of_lt hlt)]
      exact ⟨Nat.lt_succ_of_lt hlt, haddress⟩
  · intro k hk
    change k < s.allocations + 1 ∧ _
    obtain ⟨hlt, hgone⟩ := h.gone k hk
    refine ⟨Nat.lt_succ_of_lt hlt, ?_⟩
    intro q hq
    obtain ⟨-, rfl⟩ | ⟨-, hq⟩ := owner_of_record hq
    · exact Nat.lt_irrefl _ hlt
    · exact hgone q hq

theorem Tracked.consider (h : Tracked s) (usableSize : Nat → Nat) (coin : Bool) (r : OracleRecord) :
    Tracked (consider c usableSize coin s r) := by
  rw [BrokenMalloc.consider]
  split
  · dsimp only
    split
    case isTrue hfree => exact (h.release hfree.2.1).congr rfl (fun _ _ => rfl) rfl rfl rfl
    case isFalse => exact h
  · exact h

theorem Tracked.considerAll (h : Tracked s) (usableSize : Nat → Nat) (coin : Nat → Bool) (i : Nat)
    (rs : List OracleRecord) : Tracked (considerAll c usableSize coin s i rs) := by
  induction rs generalizing s i with
  | nil => exact h.congr rfl (fun _ _ => rfl) rfl rfl rfl
  | cons r rs ih =>
    rw [BrokenMalloc.considerAll]
    split
    · exact ih (h.consider usableSize (coin i) r) (i + 1)
    · exact h.congr rfl (fun _ _ => rfl) rfl rfl rfl

theorem State.realFree_eraseLive (s : State) (ptr : Nat) (again : Bool) :
    (s.eraseLive ptr).realFree ptr again = (s.realFree ptr again).eraseLive ptr := by
  rw [State.realFree, State.realFree]
  split <;> rfl

theorem Tracked.free {again : Bool} (hc : c.dangling = true) (h : Tracked s)
    (hagain : s.liveObjects ptr = true → again = false) : Tracked (free c ptr again s) := by
  rw [BrokenMalloc.free, hc, if_pos rfl]
  split
  case isTrue hlive =>
    rw [hagain hlive, State.realFree_eraseLive]
    exact h.release hlive
  case isFalse => exact h

theorem Tracked.next {a : Action} (hc : c.dangling = true) (h : Tracked s)
    (hunreused : Unreused s a) (hn : next c s a = some s') : Tracked s' := by
  cases a with
  | malloc sz underflow answer usableSize coin =>
    have hrecord := h.allocate (answer (actualRequestSize c sz underflow))
    cases hn
    rw [malloc, hc, if_pos rfl]
    exact (hrecord.considerAll usableSize coin _ _).congr rfl (fun _ _ => rfl) rfl rfl rfl
  | free object =>
    cases hn
    refine (h.free hc ?_).congr rfl (fun _ _ => rfl) rfl rfl rfl
    intro hlive
    by_contra hinjected
    rw [hunreused (by simpa using hinjected)] at hlive
    cases hlive
  | freeNull =>
    cases hn
    exact h.free hc fun _ => rfl

/-- In a run in which no recorded object has the address of one that has been freed for the program when the
program frees it, each object is freed once. -/
theorem freesOnce_of_reach (c : Config) (hc : c.dangling = true) (s : State)
    (hr : Reach (next c) (fun s a => Permits c s a ∧ Unreused s a) State.initial s) : FreesOnce s := by
  have h : Tracked s := hr.invariant Tracked.initial fun _ _ _ h hok hn => h.next hc hok.2 hn
  exact h.toFreesOnce

/-- The object of the first allocation is freed in front of its time. -/
def oneRecord : Config where
  underflowAmount := 0
  underflowThreshold := 32
  dangling := true
  danglingPointerDistance := 10
  oracle := [⟨3, 0⟩]

/-- An allocation at `ptr` where each coin says that an object is freed. -/
def mallocAt (ptr : Nat) : Action := .malloc 8 false (fun _ => ptr) (fun _ => 8) fun _ => true

/-- The program frees the first object after the injector; a request without memory and a free of null are between
them. -/
def freeLate : List Action := [mallocAt 4096, mallocAt 8192, mallocAt 0, .freeNull, .free 0]

theorem reach_freeLate : Reach (next oneRecord) (fun s a => Permits oneRecord s a ∧ Unreused s a)
    State.initial (final (next oneRecord) State.initial freeLate) := by
  apply reach_final _ rfl
  refine ⟨⟨rfl, trivial⟩, ?_⟩
  intro s₁ h₁
  cases h₁
  refine ⟨⟨rfl, trivial⟩, ?_⟩
  intro s₂ h₂
  cases h₂
  refine ⟨⟨rfl, trivial⟩, ?_⟩
  intro s₃ h₃
  cases h₃
  refine ⟨⟨trivial, trivial⟩, ?_⟩
  intro s₄ h₄
  cases h₄
  exact ⟨⟨⟨by decide, rfl⟩, fun _ => rfl⟩, fun _ _ => trivial⟩

theorem freesOnce_freeLate : FreesOnce (final (next oneRecord) State.initial freeLate) :=
  freesOnce_of_reach oneRecord rfl _ reach_freeLate

def freeReused : List Action := [mallocAt 4096, mallocAt 8192, mallocAt 4096, .free 0]

theorem reach_freeReused : Reach (next oneRecord) (Permits oneRecord) State.initial
    (final (next oneRecord) State.initial freeReused) := by
  apply reach_final _ rfl
  refine ⟨rfl, ?_⟩
  intro s₁ h₁
  cases h₁
  refine ⟨rfl, ?_⟩
  intro s₂ h₂
  cases h₂
  refine ⟨rfl, ?_⟩
  intro s₃ h₃
  cases h₃
  exact ⟨⟨by decide, rfl⟩, fun _ _ => trivial⟩

/-- The third object is released for the first one. -/
theorem not_freesOnce : ¬ ∀ (c : Config), c.dangling = true → ∀ s, Reach (next c) (Permits c) State.initial s →
    FreesOnce s := by
  intro h
  have hagain := (h oneRecord rfl _ reach_freeReused).notAgain
  have hmem : (⟨4096, some 2, true⟩ : Release) ∈ (final (next oneRecord) State.initial freeReused).log :=
    List.mem_cons_self
  cases hagain _ hmem

end DieHard.BrokenMalloc
