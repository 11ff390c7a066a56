import DieHard.Heap.Safety

/-!
# Invalid frees

A free of an address that is not the start of a live object is ignored unless the address lies inside
a live object. There the index computation rounds down and the object is released; the DieHarder
variant and DieFast then overwrite a whole object size from the freed address on.
-/

namespace DieHard

variable {cfg : HeapConfig}

namespace Process

/-- `free(p)` of heap `k` changes no bitmap and no counter and writes no byte. -/
def Ignores (cfg : HeapConfig) (s : Process) (k : Nat) (p : Addr) : Prop :=
  (∀ y, (s.free cfg k p).2.bit y = s.bit y) ∧
  (∀ k' cls, ((s.free cfg k p).2.random k' cls).inUse = (s.random k' cls).inUse) ∧
  (s.free cfg k p).2.env.mem = s.env.mem

/-- `p` is the first byte of a live object of heap `k`. -/
def LiveStart (cfg : HeapConfig) (s : Process) (k : Nat) (p : Addr) : Prop :=
  ∃ x : Slot, x.id.owner = k ∧ s.bit x = true ∧ p = (s.layout cfg x.id).addr x.index

/-- `p` lies inside a live object of heap `k`, behind its first byte. -/
def Interior (cfg : HeapConfig) (s : Process) (k : Nat) (p : Addr) : Prop :=
  ∃ x : Slot, x.id.owner = k ∧ s.bit x = true ∧ (s.layout cfg x.id).addr x.index < p ∧
    p < (s.layout cfg x.id).addr x.index + getClassSize x.id.cls

end Process

namespace Session

/-- The calls of a program that may free any address. -/
def okAny (cfg : HeapConfig) (s : Session) : Action → Prop
  | .malloc k sz sources _ => sz ≤ cfg.maxSize ∧
    SourcesFresh cfg k (requestClass sz) sources (s.process.random k (requestClass sz)) s.process.env
  | .free _ _ => True

theorem placed_next {s s' : Session} {a : Action} (h : Placed cfg s.process) (hok : s.okAny cfg a)
    (hn : s.next cfg a = some s') : Placed cfg s'.process := by
  cases a with
  | malloc k sz sources randoms =>
    obtain ⟨⟨p, process⟩, hm, rfl⟩ := Option.map_eq_some_iff.mp hn
    obtain ⟨x, -, -, -, hx⟩ := h.malloc hok.1 hok.2 hm
    exact hx.placed
  | free k p =>
    cases hn
    show Placed cfg (s.process.free cfg k p).2
    rcases h.free_cases k p with ⟨x, process, -, hfree, hf⟩ | ⟨-, env, hfree, hw⟩
    · rw [hfree]
      exact hf.placed h
    · rw [hfree]
      exact h.setEnv hw

theorem reach_placed {localRandom : Nat → BitVec 64} {random : Nat → Nat → Nat → BitVec 64}
    {mem : Addr → BitVec 8} {mapped : List (Addr × Nat)} {s : Session}
    (h : Transition.Reach (next cfg) (okAny cfg) (initial localRandom random mem mapped) s) :
    Placed cfg s.process :=
  h.invariant (I := fun s => Placed cfg s.process) (placed_initial _ _ _ _)
    fun _ _ _ hi hok hn => placed_next hi hok hn

/-- In every reachable state, a free of an address that is not the start of a live object is ignored
exactly when the address does not lie inside a live object. -/
theorem ignores_iff_not_interior {localRandom : Nat → BitVec 64}
    {random : Nat → Nat → Nat → BitVec 64} {mem : Addr → BitVec 8} {mapped : List (Addr × Nat)}
    {s : Session}
    (h : Transition.Reach (next cfg) (okAny cfg) (initial localRandom random mem mapped) s)
    {k : Nat} {p : Addr} (hp : ¬ s.process.LiveStart cfg k p) :
    s.process.Ignores cfg k p ↔ ¬ s.process.Interior cfg k p := by
  have hplaced := reach_placed h
  rcases hplaced.free_cases k p with ⟨x, process, ⟨rfl, hb, hx⟩, hfree, hf⟩ | ⟨hno, env, hfree, hw⟩
  · constructor
    · intro hig
      have hbit := hf.bit_eq x
      have hsame := hig.1 x
      rw [hfree, hbit, hb] at hsame
      simp at hsame
    · intro hint
      obtain ⟨-, hle, hlt⟩ := hx
      refine absurd ⟨x, rfl, hb, ?_, hlt⟩ hint
      exact Nat.lt_of_le_of_ne hle fun he => hp ⟨x, rfl, hb, he.symm⟩
  · constructor
    · rintro - ⟨x, hk, hb, hlo, hhi⟩
      exact hno x ⟨hk, hb, hplaced.bit_slot hb, Nat.le_of_lt hlo, hhi⟩
    · intro _
      rw [Process.Ignores, hfree]
      exact ⟨fun _ => rfl, fun _ _ => rfl, hw.mem_eq⟩

def ones : Session := initial (fun _ => 0) (fun _ _ _ => 0) (fun _ => 1) []

def twoObjects : List Action :=
  [.malloc 0 1048576 [fun _ => 1048576] [(0, 0)], .malloc 0 1048576 [fun _ => 2097152] [(1, 0)]]

def twoObjectsState : Session := Transition.final (next (.libdieharder false true)) ones twoObjects

private theorem reach_twoObjects :
    Transition.Reach (next (.libdieharder false true)) (ok (.libdieharder false true)) ones
      twoObjectsState := by
  refine Transition.reach_final ⟨⟨by decide, fun _ => ⟨by decide, trivial⟩⟩, ?_⟩ (by decide)
  intro t ht
  have hfresh : ((next (.libdieharder false true) ones
      (.malloc 0 1048576 [fun _ => 1048576] [(0, 0)])).map fun t => decide (t.process.env.Fresh
        (.libdieharder false true) ⟨0, 16, (t.process.random 0 16).miniHeapsInUse⟩ fun _ => 2097152)) =
      some true := by decide
  rw [ht] at hfresh
  refine ⟨⟨by decide, fun _ => ⟨of_decide_eq_true (Option.some.inj hfresh), trivial⟩⟩, fun _ _ => trivial⟩

private theorem inv_twoObjects : Inv (.libdieharder false true) twoObjectsState :=
  reach_twoObjects.invariant (inv_initial _ _ _ _) fun _ _ _ hi hok hn => hi.next hok hn

private theorem okAny_of_ok {s : Session} {a : Action} (h : s.ok cfg a) : s.okAny cfg a := by
  cases a with
  | malloc => exact h
  | free => trivial

private theorem not_liveStart {s : Session} (h : Inv cfg s) {k : Nat} {p : Addr}
    (hp : s.live k p = none) : ¬ s.process.LiveStart cfg k p := by
  rintro ⟨x, rfl, hb, rfl⟩
  have hl := h.slot_live x hb
  rw [hp] at hl
  cases hl

theorem ignores_twoObjects : twoObjectsState.process.Ignores (.libdieharder false true) 0 1 := by
  have hreach := reach_twoObjects.mono fun _ _ => okAny_of_ok
  refine (ignores_iff_not_interior hreach (not_liveStart inv_twoObjects (by decide))).mpr ?_
  rintro ⟨x, -, hb, hlo, -⟩
  have hplaced := inv_twoObjects.placed
  have hne := hplaced.addr_ne_zero (hplaced.bit_active hb) (hplaced.bit_slot hb)
  exact hne (Nat.lt_one_iff.mp hlo)

/-- The second byte of the first object is no start of an object; its free releases the object and
zeroes the first byte of the second one. -/
theorem not_ignores_interior :
    Transition.Reach (next (.libdieharder false true)) (okAny (.libdieharder false true)) ones
        twoObjectsState ∧
      twoObjectsState.live 0 1048576 = some 1048576 ∧ twoObjectsState.live 0 2097152 = some 1048576 ∧
      ¬ twoObjectsState.process.LiveStart (.libdieharder false true) 0 1048577 ∧
      ¬ twoObjectsState.process.Ignores (.libdieharder false true) 0 1048577 ∧
      twoObjectsState.process.env.mem 2097152 = 1 ∧
      (twoObjectsState.process.free (.libdieharder false true) 0 1048577).2.env.mem 2097152 = 0 := by
  refine ⟨reach_twoObjects.mono fun _ _ => okAny_of_ok, by decide, by decide,
    not_liveStart inv_twoObjects (by decide), ?_, by decide +kernel, by decide +kernel⟩
  intro h
  exact absurd (h.1 ⟨⟨0, 16, 0⟩, 0⟩) (by decide +kernel)

end Session

end DieHard
