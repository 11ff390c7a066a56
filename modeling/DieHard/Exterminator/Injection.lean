import DieHard.Util.Injection

/-!
# The fault injector of Exterminator

It undersizes objects until one has gone to a smaller size class, and it passes over a record of an object that has
been freed by the log. So it frees no object but the one that was allocated before, and that one is still in use.
-/

namespace DieHard.Exterminator

open Transition
open BrokenMalloc (Config OracleRecord Faithful Replayed MayInject OnRecord FreedWithin mallocWith)
open TrackAlloc (allocations)

/-- The injector: the tables with the count of undersized objects. `dangled_something` is never set. -/
structure Injector where
  heap : BrokenMalloc.State
  injected : Nat

namespace Injector

def initial : Injector := ⟨BrokenMalloc.State.initial, 0⟩

variable (c : Config)

def actualRequestSize (injected sz : Nat) (underflow : Bool) : Nat :=
  if injected = 0 ∧ c.underflowThreshold < sz ∧ underflow = true then sizeSub sz c.underflowAmount else sz

def countUnderflow (injected sz actual : Nat) : Nat :=
  if sz ≠ actual ∧ Nat.log2 (sizeSub actual 1) ≠ Nat.log2 (sizeSub sz 1) then injected + 1 else injected

/-- The body of the loop over the oracle: the time of the free must be to come. -/
def consider (usableSize : Nat → Nat) (coin : Bool) (s : BrokenMalloc.State) (r : OracleRecord) :
    BrokenMalloc.State :=
  if r.freed.sle (s.currentAllocationTime + c.danglingPointerDistance) then
    let p := s.allocatedObjects r.allocated
    if usableSize p < 16384 ∧ s.liveObjects p = true ∧
        (0 : BitVec 32).slt (r.freed - s.currentAllocationTime) = true ∧ coin = true then s.inject p else s
  else s

/-- The body with the coin for the record at `i`. -/
def body (usableSize : Nat → Nat) (coin : Nat → Bool) (i : Nat) :
    BrokenMalloc.State → OracleRecord → BrokenMalloc.State :=
  consider c usableSize (coin i)

def malloc (sz : Nat) (underflow : Bool) (answer usableSize : Nat → Nat) (coin : Nat → Bool) (s : Injector) :
    Injector :=
  let actual := actualRequestSize c s.injected sz underflow
  let ptr := answer actual
  { injected := countUnderflow s.injected sz actual
    heap :=
      if c.dangling then mallocWith c (body c usableSize coin) ptr s.heap
      else s.heap.realMalloc ptr }

def next (s : Injector) : BrokenMalloc.Action → Option Injector
  | .malloc sz underflow answer usableSize coin => some (malloc c sz underflow answer usableSize coin s)
  | .free object => (BrokenMalloc.next c s.heap (.free object)).map fun heap => { s with heap }
  | .freeNull => (BrokenMalloc.next c s.heap .freeNull).map fun heap => { s with heap }

/-- The underlying heap gives null or an address at which nothing is live, as at null, and the program frees each
object once. -/
def Permits (s : Injector) : BrokenMalloc.Action → Prop
  | .malloc sz underflow answer _ _ => s.heap.owner (answer (actualRequestSize c s.injected sz underflow)) = none
  | .free object => object < s.heap.allocations ∧ s.heap.freed object = false
  | .freeNull => True

variable {c} {s s' : Injector} {T calls : List TrackAlloc.Call}

theorem injected_le_one {ok : Injector → BrokenMalloc.Action → Prop} (hr : Reach (next c) ok initial s) :
    s.injected ≤ 1 := by
  refine hr.invariant (I := fun s => s.injected ≤ 1) (Nat.zero_le _) ?_
  intro s a s' h _ hn
  cases a with
  | malloc sz underflow answer usableSize coin =>
    cases hn
    change countUnderflow s.injected sz (actualRequestSize c s.injected sz underflow) ≤ 1
    by_cases hzero : s.injected = 0
    · rw [countUnderflow]
      split <;> omega
    · rw [actualRequestSize, if_neg fun h => hzero h.1, countUnderflow, if_neg fun h => h.1 rfl]
      exact h
  | free object | freeNull =>
    cases hn
    exact h

theorem mayInject_consider (c : Config) (usableSize : Nat → Nat) (coin : Bool) (s : BrokenMalloc.State)
    (r : OracleRecord) : MayInject c s r (consider c usableSize coin s r) := by
  rw [consider]
  split
  case isTrue hnear =>
    dsimp only
    split
    case isTrue hfree => exact Or.inr ⟨hnear, hfree.2.1, rfl⟩
    case isFalse => exact Or.inl rfl
  case isFalse => exact Or.inl rfl

theorem future_of_consider {usableSize : Nat → Nat} {coin : Bool} {s : BrokenMalloc.State} {r : OracleRecord}
    (h : consider c usableSize coin s r ≠ s) :
    (0 : BitVec 32).slt (r.freed - s.currentAllocationTime) = true := by
  rw [consider] at h
  split at h
  · dsimp only at h
    split at h
    case isTrue hfree => exact hfree.2.2.1
    case isFalse => exact absurd rfl h
  · exact absurd rfl h

/-- The free of an object that the log puts behind the present moment has not been made. -/
theorem not_mem_of_future {m t : Nat} {r : OracleRecord} (hT : TrackAlloc.Sensible T)
    (hshort : allocations T < 2 ^ 31) (hpre : calls <+: T) (ht : t = allocations calls)
    (hr : TrackAlloc.recordOf T m = some r) (hfuture : (0 : BitVec 32).slt (r.freed - BitVec.ofNat 32 t) = true) :
    .free m ∉ calls := by
  intro hmem
  obtain ⟨f, hf, rfl⟩ := Option.map_eq_some_iff.mp hr
  obtain ⟨pre, post, rfl⟩ := List.append_of_mem hmem
  obtain ⟨rest, rfl⟩ := hpre
  have heq := (TrackAlloc.freeTime_iff hT (k := m)).mpr
    ⟨pre, post ++ rest, by rw [List.append_assoc, List.cons_append], rfl⟩
  rw [hf] at heq
  obtain rfl := Option.some.inj heq
  have hle : allocations pre ≤ t := by
    rw [ht, TrackAlloc.allocations_append]
    omega
  have hlt : t < 2 ^ 31 := by
    rw [TrackAlloc.allocations_append] at hshort
    omega
  have htoInt : ∀ n < 2 ^ 31, (BitVec.ofNat 32 n).toInt = n := by
    intro n hn
    rw [BitVec.toInt_ofNat', Int.bmod_eq_of_le (by omega) (by omega)]
  rw [BitVec.slt_eq_decide, decide_eq_true_eq, BitVec.toInt_sub, htoInt _ (by omega), htoInt _ hlt,
    Int.bmod_eq_of_le (by omega) (by omega)] at hfuture
  change (0 : Int) < _ at hfuture
  omega

structure Replay where
  state : Injector
  calls : List TrackAlloc.Call

def Replay.start : Replay := ⟨initial, []⟩

def replayNext (c : Config) (r : Replay) (a : BrokenMalloc.Action) : Option Replay :=
  (next c r.state a).map fun s => ⟨s, r.calls ++ [a.call]⟩

/-- The program makes the calls of `T`. -/
def Replays (c : Config) (T : List TrackAlloc.Call) (r : Replay) (a : BrokenMalloc.Action) : Prop :=
  Permits c r.state a ∧ BrokenMalloc.Unreused r.state.heap a ∧ r.calls ++ [a.call] <+: T

/-- The newest object is never one that the injector has freed. -/
structure Careful (T calls : List TrackAlloc.Call) (s : BrokenMalloc.State) : Prop extends Replayed T calls s where
  notNewest : ∀ k, s.injected k = true → k + 1 < s.allocations

theorem Careful.injected_malloc {c : Config} {s : BrokenMalloc.State} (hT : OnRecord c T) (h : Careful T calls s)
    {sz ptr : Nat} (usableSize : Nat → Nat) (coin : Nat → Bool) (hpre : calls ++ [.malloc sz] <+: T)
    (hfree : s.owner ptr = none) {k : Nat}
    (hk : (mallocWith c (body c usableSize coin) ptr s).injected k = true)
    (hk' : s.injected k = false) :
    k + 1 = s.allocations ∧ FreedWithin T (calls ++ [.malloc sz]) c.danglingPointerDistance.toInt k := by
  have hbody : ∀ i s r, MayInject c s r (body c usableSize coin i s r) := by
    intro i s r
    exact mayInject_consider c usableSize (coin i) s r
  have hlt : s.allocations < allocations T := by
    rw [h.count]
    exact BrokenMalloc.allocations_lt hpre
  obtain ⟨m, q, i, hm, hq, hnear, hacts, hcase⟩ := h.toReplayed.injected_malloc hT hlt hbody hfree hk hk'
  have hfuture := future_of_consider hacts
  change (0 : BitVec 32).slt (q.freed - s.currentAllocationTime) = true at hfuture
  rw [h.time] at hnear hfuture
  rcases hcase with ⟨rfl, hfreed⟩ | ⟨rfl, hgone, -⟩
  · exact ⟨hm.symm, BrokenMalloc.freedWithin_of_record hT.sensible hT.short hpre
      (BrokenMalloc.freed_replayed h.toReplayed hfreed) h.count hq hnear⟩
  · -- the object before is in use by the log, and none of the records so far was its own
    exfalso
    rcases hgone with hgone | hgone
    · have hmem := (h.freed_iff m).mp hgone
      have hpre' : calls <+: T := (List.prefix_append _ _).trans hpre
      exact not_mem_of_future hT.sensible hT.short hpre' h.count hq hfuture hmem
    · have hnot := h.notNewest m hgone
      omega

theorem Careful.malloc {c : Config} {s : BrokenMalloc.State} (hT : OnRecord c T) (h : Careful T calls s)
    {sz ptr : Nat} (usableSize : Nat → Nat) (coin : Nat → Bool) (hpre : calls ++ [.malloc sz] <+: T)
    (hfree : s.owner ptr = none) :
    Careful T (calls ++ [.malloc sz]) (mallocWith c (body c usableSize coin) ptr s) := by
  have hlt : s.allocations < allocations T := by
    rw [h.count]
    exact BrokenMalloc.allocations_lt hpre
  have hbody : ∀ i s r, MayInject c s r (body c usableSize coin i s r) := by
    intro i s r
    exact mayInject_consider c usableSize (coin i) s r
  have hreplayed := h.toReplayed.malloc hT hlt hbody hfree sz
  have hcount := hreplayed.count
  rw [TrackAlloc.allocations_append, ← h.count] at hcount
  refine ⟨hreplayed, ?_⟩
  intro k hk
  have hone : allocations [TrackAlloc.Call.malloc sz] = 1 := rfl
  cases hk' : s.injected k with
  | true =>
    have hlt := h.notNewest k hk'
    omega
  | false =>
    have hlt := (h.injected_malloc hT usableSize coin hpre hfree hk hk').1
    omega

theorem careful_of_reach (hT : OnRecord c T) {r : Replay} (hr : Reach (replayNext c) (Replays c T) .start r) :
    Careful T r.calls r.state.heap := by
  have hstart : Careful T [] BrokenMalloc.State.initial :=
    ⟨Replayed.initial T, fun k hk => by cases hk⟩
  refine hr.invariant (I := fun r => Careful T r.calls r.state.heap) hstart ?_
  intro r a r' h hok hn
  obtain ⟨hpermits, hunreused, hpre⟩ := hok
  obtain ⟨s', hs', rfl⟩ := Option.map_eq_some_iff.mp hn
  have hkeeps (ptr : Nat) (again : Bool) (k : Nat)
      (hk : (BrokenMalloc.free c ptr again r.state.heap).injected k = true) :
      k + 1 < (BrokenMalloc.free c ptr again r.state.heap).allocations := by
    rw [BrokenMalloc.injected_free hT.dangling] at hk
    rw [(BrokenMalloc.free_frame hT.dangling rfl).allocations]
    exact h.notNewest k hk
  cases a with
  | malloc sz underflow answer usableSize coin =>
    cases hs'
    change Careful T (r.calls ++ [.malloc sz]) (if c.dangling = true then _ else _)
    rw [hT.dangling, if_pos rfl]
    exact h.malloc hT usableSize coin hpre hpermits
  | free object =>
    cases hs'
    exact ⟨h.toReplayed.free hT.dangling hpermits.1 hpermits.2 hunreused rfl, hkeeps _ _⟩
  | freeNull =>
    cases hs'
    exact ⟨h.toReplayed.freeNull hT.dangling, hkeeps _ _⟩

/-- When a program is run on the injector with its own sorted log, each object that the injector frees is one that
the program frees later, within the distance. -/
theorem injected_freedWithin (hc : c.dangling = true) {t : TrackAlloc.State} {old oldSorted : List OracleRecord}
    (ht : Reach TrackAlloc.next TrackAlloc.Permits TrackAlloc.initial t) (hlen : allocations t.calls < 2 ^ 31)
    (hold : old.length ≤ t.logfile.length) (holdSorted : oldSorted.length ≤ t.logfile.length)
    (horacle : c.oracle = TrackAlloc.sortLog oldSorted (TrackAlloc.closeUpShop old t))
    {r r' : Replay} {a : BrokenMalloc.Action} (hr : Reach (replayNext c) (Replays c t.calls) .start r)
    (hok : Replays c t.calls r a) (hn : replayNext c r a = some r') {k : Nat}
    (hk : r'.state.heap.injected k = true) (hk' : r.state.heap.injected k = false) :
    k + 1 = allocations r.calls ∧ FreedWithin t.calls r'.calls c.danglingPointerDistance.toInt k := by
  have hT := BrokenMalloc.onRecord_of_reach hc ht hlen hold holdSorted horacle
  have h := careful_of_reach hT hr
  obtain ⟨hpermits, -, hpre⟩ := hok
  obtain ⟨s', hs', rfl⟩ := Option.map_eq_some_iff.mp hn
  cases a with
  | malloc sz underflow answer usableSize coin =>
    cases hs'
    change (if c.dangling = true then _ else _ : BrokenMalloc.State).injected k = true at hk
    rw [hc, if_pos rfl] at hk
    have hinjected := h.injected_malloc hT usableSize coin hpre hpermits hk hk'
    exact ⟨hinjected.1.trans h.count, hinjected.2⟩
  | free object =>
    cases hs'
    change (BrokenMalloc.free c _ _ r.state.heap).injected k = true at hk
    rw [BrokenMalloc.injected_free hc, hk'] at hk
    cases hk
  | freeNull =>
    cases hs'
    change (BrokenMalloc.free c _ _ r.state.heap).injected k = true at hk
    rw [BrokenMalloc.injected_free hc, hk'] at hk
    cases hk

def replayedState : Replay := final (replayNext BrokenMalloc.nextRecord) .start [BrokenMalloc.mallocAt 4096]

theorem reach_replayedState : Reach (replayNext BrokenMalloc.nextRecord)
    (Replays BrokenMalloc.nextRecord TrackAlloc.trackedState.calls) .start replayedState :=
  reach_final ⟨⟨rfl, trivial, ⟨[.malloc 8, .freeNull, .free 0], rfl⟩⟩, fun _ _ => trivial⟩ rfl

theorem injected_freedWithin_first : 0 + 1 = allocations replayedState.calls ∧
    FreedWithin TrackAlloc.trackedState.calls [.malloc 8, .malloc 8] 10 0 :=
  injected_freedWithin (c := BrokenMalloc.nextRecord) rfl TrackAlloc.reach_trackedState (by decide)
    (Nat.zero_le _) (Nat.zero_le _) BrokenMalloc.oracle_nextRecord reach_replayedState
    ⟨rfl, trivial, ⟨[.freeNull, .free 0], rfl⟩⟩ (a := BrokenMalloc.mallocAt 8192) rfl rfl rfl

end Injector

end DieHard.Exterminator
