import DieHard.Scalable.Forwarding
import DieHard.Scalable.Pending

/-!
# The cross-thread free protocol

The program makes at most `MAX_THREADS` heaps, asks them for small objects and frees what it holds. Then
the IDs of the heaps are distinct, every heap keeps its entry in the registry, and no thread goes to the
large heap for memory.
-/

namespace DieHard

open Blocks PerThreadFreeQueue HeapRegistry Transition

def Pc.quiet : Pc → Bool
  | .grow _ | .mapLarge _ | .push _ _ (.loadTail _) => false
  | _ => true

namespace ScalableHeap

variable {cfg : HeapConfig} {pool : PoolConfig} {s s' : ScalableHeap}

/-- What the program may do. It frees an object that it holds, by the address that `malloc` returned. -/
def Protocol (cfg : HeapConfig) (pool : PoolConfig) (s : ScalableHeap) : Action → Prop
  | .create => s.nextId < pool.maxThreads
  | .malloc k sz => k ≠ fallbackHeap ∧ sz ≤ cfg.maxSize
  | .free k ptr => k ≠ fallbackHeap ∧ (ptr = 0 ∨ s.live ptr ≠ none)
  | .findOwner k _ _ => k ≠ fallbackHeap
  | .step _ _ => True

instance (cfg : HeapConfig) (pool : PoolConfig) (s : ScalableHeap) :
    (a : Action) → Decidable (Protocol cfg pool s a)
  | .create => Nat.decLt _ _
  | .malloc _ _ => inferInstanceAs (Decidable (_ ∧ _))
  | .free _ _ => inferInstanceAs (Decidable (_ ∧ _))
  | .findOwner _ _ _ => inferInstanceAs (Decidable (¬ _))
  | .step _ _ => isTrue trivial

def Cooperates (cfg : HeapConfig) (pool : PoolConfig) (s : ScalableHeap) (a : Action) : Prop :=
  MemoryOk cfg s a ∧ NotFull pool s a ∧ Protocol cfg pool s a

theorem cooperates_of_quiet {k : Nat} {c : Choice} (h : (s.threads k).pc.quiet = true) :
    Cooperates cfg pool s (.step k c) := by
  refine ⟨?_, ?_, trivial⟩
  · rw [MemoryOk]
    split
    · rename_i hpc
      rw [hpc] at h
      cases h
    · rename_i hpc
      rw [hpc] at h
      cases h
    · trivial
  · rw [NotFull]
    split
    · rename_i hpc
      rw [hpc] at h
      cases h
    · trivial

/-- The heaps of the protocol. -/
structure Orderly (cfg : HeapConfig) (pool : PoolConfig) (s : ScalableHeap) : Prop where
  nextId_le : s.nextId ≤ pool.maxThreads
  beyond : IdleBeyond s
  entries : ∀ i heap, s.registry.entries i = some heap → heap ≤ s.nextId
  fallback : (s.threads fallbackHeap).pc.isIdle = true
  owner : ∀ id, s.process.Active cfg id → id.owner ≠ fallbackHeap
  size : ∀ k sz, (s.threads k).pc.size = some sz → sz ≤ cfg.maxSize
  live : ∀ p object, s.live p = some object → object.heap ≠ none

theorem orderly_initial {process : Process} (hno : ∀ id, ¬ process.Active cfg id) :
    Orderly cfg pool (initial process) := by
  refine ⟨Nat.zero_le _, fun _ _ => rfl, ?_, rfl, fun id ha => absurd ha (hno id), ?_, ?_⟩
  · intro i heap he
    cases he
  · intro k sz hsize
    cases hsize
  · intro p object hl
    cases hl

section Step

variable {a : Action}

theorem Orderly.not_fallback (h : Orderly cfg pool s) (hs : Step cfg pool s a s')
    (hp : Protocol cfg pool s a) : a.isBy fallbackHeap = false := by
  rw [Bool.eq_false_iff]
  intro hby
  obtain ⟨sz, rfl⟩ | ⟨p, rfl⟩ | ⟨p, e, rfl⟩ | ⟨c, rfl⟩ := Action.isBy_cases hby
  · exact hp.1 rfl
  · exact hp.1 rfl
  · exact hp rfl
  · have hidle := h.fallback
    rw [hs.not_idle] at hidle
    cases hidle

theorem Step.entries_of (hs : Step cfg pool s a s') {i heap : Nat}
    (he : s'.registry.entries i = some heap) :
    s.registry.entries i = some heap ∨ heap ≤ s.nextId := by
  cases hs with
  | register _ hk =>
    rcases registerStep_entries _ _ _ _ _ he with he | ⟨-, rfl, -⟩
    · exact Or.inl he
    · exact Or.inr hk
  | _ => exact Or.inl he

theorem Step.active_of (hs : Step cfg pool s a s') {id : MiniId} (ha : s'.process.Active cfg id) :
    s.process.Active cfg id ∨ a.isBy id.owner = true := by
  cases hs with
  | deliver _ _ hf => exact Or.inl ((hf.layout.active_iff _).mp ha)
  | callbackMiss _ _ hc => exact Or.inl ((hc.layout.active_iff _).mp ha)
  | grow _ hg =>
    by_cases hold : s.process.Active cfg id
    · exact Or.inl hold
    · rw [hg.owner id ha hold]
      exact Or.inr (beq_self_eq_true _)
  | take _ _ _ ht => exact Or.inl ((ht.layout.active_iff _).mp ha)
  | freeHit _ _ hf => exact Or.inl ((hf.layout.active_iff _).mp ha)
  | freeMiss _ _ hc => exact Or.inl ((hc.layout.active_iff _).mp ha)
  | findOwner _ _ hc => exact Or.inl ((hc.layout.active_iff _).mp ha)
  | _ => exact Or.inl ha

theorem Step.live_of (hs : Step cfg pool s a s') {p : Addr} {object : Object}
    (hl : s'.live p = some object) :
    s.live p = some object ∨ object.heap ≠ none ∨
      ∃ k c sz, a = .step k c ∧ (s.threads k).pc = .mapLarge sz := by
  cases hs with
  | @free k ptr last _ _ _ =>
    simp only [setPc, setThread] at hl
    by_cases hp : p = ptr
    · rw [hp, Function.update_self] at hl
      cases hl
    · rw [Function.update_of_ne hp] at hl
      exact Or.inl hl
  | @take k c sz x process _ _ _ _ =>
    simp only [setPc, setThread] at hl
    by_cases hp : p = (s.process.layout cfg x.id).addr x.index
    · rw [hp, Function.update_self] at hl
      obtain rfl := Option.some.inj hl
      exact Or.inr (Or.inl (Option.some_ne_none k))
    · rw [Function.update_of_ne hp] at hl
      exact Or.inl hl
  | mapLarge hpc _ _ _ => exact Or.inr (Or.inr ⟨_, _, _, rfl, hpc⟩)
  | _ => exact Or.inl hl

theorem Orderly.step (h : Orderly cfg pool s) (hinv : Inv cfg pool s) (hs : Step cfg pool s a s')
    (hp : Protocol cfg pool s a) : Orderly cfg pool s' := by
  refine ⟨?_, h.beyond.step hs, ?_, ?_, ?_, ?_, ?_⟩
  · cases hs with
    | create => exact hp
    | _ => exact h.nextId_le
  · intro i heap he
    rcases hs.entries_of he with hold | hle
    · exact (h.entries i heap hold).trans hs.nextId_le
    · exact hle.trans hs.nextId_le
  · rw [hs.other (h.not_fallback hs hp)]
    exact h.fallback
  · intro id ha hid
    rcases hs.active_of ha with hold | hby
    · exact h.owner id hold hid
    · rw [hid, h.not_fallback hs hp] at hby
      cases hby
  · intro k sz hsize
    rcases hs.size_of hsize with hold | rfl
    · exact h.size k sz hold
    · exact hp.2
  · intro p object hl
    rcases hs.live_of hl with hold | hheap | ⟨k, c, sz, -, hpc⟩
    · exact h.live p object hold
    · exact hheap
    · have hsmall := h.size k sz (by rw [hpc]; rfl)
      have hlarge := hinv.threads k
      rw [hpc] at hlarge
      exact absurd hsmall (Nat.not_le.mpr hlarge)

theorem Orderly.threadId_inj (h : Orderly cfg pool s) {j k : Nat} (hj : j ≠ fallbackHeap)
    (hk : k ≠ fallbackHeap) (hjle : j ≤ s.nextId) (hkle : k ≤ s.nextId)
    (he : threadId pool j = threadId pool k) : j = k := by
  have hmax := h.nextId_le
  have hjpos := Nat.pos_of_ne_zero hj
  have hkpos := Nat.pos_of_ne_zero hk
  rw [threadId, threadId, Nat.mod_eq_of_lt (by omega), Nat.mod_eq_of_lt (by omega)] at he
  omega

theorem Orderly.keepsEntries (h : Orderly cfg pool s) (hinv : Inv cfg pool s)
    (hs : Step cfg pool s a s') : KeepsEntries pool s a := by
  cases a with
  | step k c =>
    rw [KeepsEntries]
    split
    · rename_i call hpc
      intro heap he
      have hok := hinv.threads k
      rw [hpc] at hok
      obtain ⟨hheap, hid, -⟩ := hinv.entries _ heap he
      have hk : k ≤ s.nextId := h.beyond.le_nextId hs (beq_self_eq_true _)
      exact h.threadId_inj hheap hok.1 (h.entries _ heap he) hk hid
    · trivial
  | _ => trivial

end Step

section Runs

variable {localRandom : Nat → BitVec 64} {random : Nat → Nat → Nat → BitVec 64}
  {mem : Addr → BitVec 8} {mapped : List (Addr × Nat)}
  (e : Execution (next cfg pool) (Cooperates cfg pool) (start localRandom random mem mapped))

private theorem memoryOk_of_cooperates (s : ScalableHeap) (a : Action) (h : Cooperates cfg pool s a) :
    MemoryOk cfg s a :=
  h.1

theorem Execution.orderly {k : Nat} (hk : k ≤ e.length) : Orderly cfg pool (e.state k) := by
  apply e.keeps (I := fun _ s => Orderly cfg pool s) (Nat.zero_le k)
  · rw [e.initial]
    exact orderly_initial start_not_active
  · intro j _ hjk h
    exact h.step (Execution.inv e memoryOk_of_cooperates (k := j) (by omega))
      (Execution.stepAt e memoryOk_of_cooperates (by omega)) (e.guarded j (by omega)).2.2

theorem Execution.keepsEntries {k : Nat} (hk : k < e.length) :
    KeepsEntries pool (e.state k) (e.action k) :=
  (Execution.orderly e hk.le).keepsEntries (Execution.inv e memoryOk_of_cooperates hk.le)
    (Execution.stepAt e memoryOk_of_cooperates hk)

/-- What holds in every state of such a run, as long as no counter of a queue wraps around. -/
structure Sound (cfg : HeapConfig) (pool : PoolConfig) (s : ScalableHeap) : Prop where
  inv : Inv cfg pool s
  registered : Registered cfg pool s
  orderly : Orderly cfg pool s
  queues : ∀ id < pool.maxThreads, QueueState.Inv pool (s.queueState id)

def Unwrapped (pool : PoolConfig) (s : ScalableHeap) : Prop :=
  ∀ id < pool.maxThreads, (s.claimed id).length < sizeRange

instance (pool : PoolConfig) (s : ScalableHeap) : Decidable (Unwrapped pool s) :=
  inferInstanceAs (Decidable (∀ _, _))

theorem Execution.sound (hwrap : Unwrapped pool (e.state e.length)) {k : Nat} (hk : k ≤ e.length) :
    Sound cfg pool (e.state k) := by
  let e' : Execution (next cfg pool) (fun s a => MemoryOk cfg s a ∧ KeepsEntries pool s a)
      (start localRandom random mem mapped) :=
    e.reguard fun j hj => ⟨(e.guarded j hj).1, Execution.keepsEntries e hj⟩
  have hgrows (id : Nat) : (e.state k).claimed id <+: (e.state e.length).claimed id := by
    apply e.keeps (I := fun _ s => (e.state k).claimed id <+: s.claimed id) hk (List.prefix_refl _)
    intro j _ hj h
    exact h.trans ((Execution.stepAt e memoryOk_of_cooperates hj).claimed_grows id)
  refine ⟨Execution.inv e memoryOk_of_cooperates hk,
    Execution.registered e' (fun _ _ h => h) hk, Execution.orderly e hk, ?_⟩
  intro id hid
  exact queueInv_reach (placed_initial _ _ _ _) start_not_active (fun _ _ h => h) (e'.reach hk)
    ((hgrows id).length_le.trans_lt (hwrap id hid))

end Runs

end ScalableHeap

end DieHard
