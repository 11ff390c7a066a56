import DieHard.Scalable.Fallback
import DieHard.Scalable.Pending

/-!
# Double frees

A free by another thread leaves its pointer in the queue of the heap that allocated the object. When the
object is freed again and its slot is allocated before the queue is drained, the drain releases the new
object. Only a new free releases the new object if nothing that leads to its slot is under way.
-/

namespace DieHard

open Blocks PerThreadFreeQueue HeapRegistry Transition

namespace ScalableHeap

variable {cfg : HeapConfig} {pool : PoolConfig} {s s' : ScalableHeap} {x : Slot}

/-- The address lies in slot `x`. -/
def InSlot (cfg : HeapConfig) (s : ScalableHeap) (x : Slot) (ptr : Addr) : Prop :=
  (s.process.layout cfg x.id).Contains x.index ptr

instance (cfg : HeapConfig) (s : ScalableHeap) (x : Slot) (ptr : Addr) : Decidable (InSlot cfg s x ptr) :=
  inferInstanceAs (Decidable (_ ∧ _))

/-- No free of an address in slot `x` is under way, and the queue of its heap holds none. -/
def NonePending (cfg : HeapConfig) (pool : PoolConfig) (s : ScalableHeap) (x : Slot) : Prop :=
  (∀ k ≤ s.nextId, ∀ ptr ∈ (s.threads k).pc.freeing, ¬ InSlot cfg s x ptr) ∧
    ∀ i < pool.freeQueueCapacity, ¬ InSlot cfg s x ((s.queues (threadId pool x.id.owner)).slots i)

instance (cfg : HeapConfig) (pool : PoolConfig) (s : ScalableHeap) (x : Slot) :
    Decidable (NonePending cfg pool s x) :=
  inferInstanceAs (Decidable (_ ∧ _))

/-- A slot is allocated only when nothing that leads to it is pending. -/
def TakesNonePending (cfg : HeapConfig) (pool : PoolConfig) (s : ScalableHeap) : Action → Prop
  | .step k c => match (s.threads k).pc with
    | .getObject sz => s.process.bit (s.process.drawn cfg k (requestClass sz) c.random) = true ∨
      NonePending cfg pool s (s.process.drawn cfg k (requestClass sz) c.random)
    | _ => True
  | _ => True

instance (cfg : HeapConfig) (pool : PoolConfig) (s : ScalableHeap) :
    (a : Action) → Decidable (TakesNonePending cfg pool s a)
  | .create | .malloc _ _ | .free _ _ | .findOwner _ _ _ => isTrue trivial
  | .step k c => by
    change Decidable (match (s.threads k).pc with
      | .getObject sz => s.process.bit (s.process.drawn cfg k (requestClass sz) c.random) = true ∨
        NonePending cfg pool s (s.process.drawn cfg k (requestClass sz) c.random)
      | _ => True)
    exact match (s.threads k).pc with
      | .getObject _ => inferInstance
      | .idle _ | .register _ _ | .drainHead _ | .drainTail _ _ | .drain _ _ | .drainBig _ _ _ _ _
      | .grow _ | .mapLarge _ | .freeSmall _ _ | .freeBig _ _ | .findOwner _ _ _ _ | .push _ _ _ =>
        isTrue trivial

/-- Nothing leads to slot `x`: neither a free nor the queue of its heap nor the drain of its heap. -/
structure Clean (cfg : HeapConfig) (pool : PoolConfig) (s : ScalableHeap) (x : Slot) : Prop where
  freeing : ∀ k ptr, (s.threads k).pc.freeing = some ptr → ¬ InSlot cfg s x ptr
  inHand : ∀ ptr, (s.threads x.id.owner).pc.inHand = some ptr → ¬ InSlot cfg s x ptr
  queued : ∀ i < pool.freeQueueCapacity, (s.queues (threadId pool x.id.owner)).slots i ≠ 0 →
    ¬ InSlot cfg s x ((s.queues (threadId pool x.id.owner)).slots i)

section Step

theorem Clean.step {a : Action} (h : Clean cfg pool s x) (ha : s.process.Active cfg x.id)
    (hs : Step cfg pool s a s') (hno : ∀ k ptr, a = .free k ptr → ¬ InSlot cfg s x ptr) :
    Clean cfg pool s' x := by
  have hslot (ptr : Addr) : InSlot cfg s' x ptr ↔ InSlot cfg s x ptr := by
    rw [InSlot, hs.extends.layout_eq _ ha]
    rfl
  constructor
  · intro k ptr hf
    rw [hslot]
    rcases hs.freeing_of hf with hold | ⟨rfl, -, -⟩
    · exact h.freeing k ptr hold
    · exact hno k ptr rfl
  · intro ptr hp
    rw [hslot]
    rcases hs.inHand_of hp with hold | ⟨hne, j, hj, rfl⟩
    · exact h.inHand ptr hold
    · exact h.queued j hj hne
  · intro i hi hne
    rw [hslot]
    rcases hs.slots_of hne with hold | ⟨t, n, hpc⟩
    · rw [hold] at hne ⊢
      exact h.queued i hi hne
    · exact h.freeing t _ (by rw [hpc]; rfl)

theorem Clean.keeps_bit {a : Action} (h : Clean cfg pool s x) (hs : Step cfg pool s a s')
    (hb : s.process.bit x = true) : s'.process.bit x = true := by
  cases hs with
  | @deliver k c sz t hd n ptr y process hpc hy hf =>
    have hne : x ≠ y := by
      intro hxy
      subst hxy
      obtain ⟨rfl, -, hin⟩ := hy
      exact h.inHand ptr (by rw [hpc]; rfl) hin
    exact (hf.bit_of_ne hne).trans hb
  | @freeHit k c again ptr y process hpc hy hf =>
    have hne : x ≠ y := by
      intro hxy
      subst hxy
      exact h.freeing k ptr (by rw [hpc]; rfl) hy.2.2
    exact (hf.bit_of_ne hne).trans hb
  | callbackMiss _ _ hc => exact (hc.bit_eq x).trans hb
  | grow _ hg => exact (hg.grew.bit_eq x).trans hb
  | take _ _ _ ht => exact ht.bit_of_set hb
  | freeMiss _ _ hc => exact (hc.bit_eq x).trans hb
  | findOwner _ _ hc => exact (hc.bit_eq x).trans hb
  | _ => exact hb

theorem Step.bit_set {a : Action} (hs : Step cfg pool s a s') (hb : s.process.bit x = false)
    (hb' : s'.process.bit x = true) : ∃ k c sz, a = .step k c ∧ (s.threads k).pc = .getObject sz := by
  have hsame (process : Process) (he : process.bit x = s.process.bit x) : process.bit x ≠ true := by
    simp [he, hb]
  cases hs with
  | take hpc _ _ _ => exact ⟨_, _, _, rfl, hpc⟩
  | deliver _ _ hf => exact absurd hb' (by simp [ScalableHeap.consume, setPc, setThread, hf.bit_eq, hb])
  | callbackMiss _ _ hc => exact absurd hb' (hsame _ (hc.bit_eq x))
  | grow _ hg => exact absurd hb' (hsame _ (hg.grew.bit_eq x))
  | freeHit _ _ hf => exact absurd hb' (by simp [setPc, setThread, hf.bit_eq, hb])
  | freeMiss _ _ hc => exact absurd hb' (hsame _ (hc.bit_eq x))
  | findOwner _ _ hc => exact absurd hb' (hsame _ (hc.bit_eq x))
  | _ => exact absurd hb' (hsame _ rfl)

/-- The draw that allocates a slot begins and ends with nothing that leads to it. -/
theorem Inv.clean_of_allocated {a : Action} (h : Inv cfg pool s) (hidle : IdleBeyond s)
    (hm : MemoryOk cfg s a) (htakes : TakesNonePending cfg pool s a)
    (hn : s.next cfg pool a = some s') (hb : s.process.bit x = false)
    (hb' : s'.process.bit x = true) : Clean cfg pool s' x ∧ s'.process.Active cfg x.id := by
  have hs := step_of_next h hm hn
  obtain ⟨k, c, sz, rfl, hpc⟩ := hs.bit_set hb hb'
  have hdraw : mallocStep cfg pool s k c (.getObject sz) = some s' := by
    rw [next] at hn
    split at hn
    · rwa [threadStep, hpc] at hn
    · cases hn
  rcases h.getObject_cases hpc hdraw with rfl | ⟨process, htook, hs'⟩
  · rw [hb] at hb'
    cases hb'
  have hx : x = s.process.drawn cfg k (requestClass sz) c.random := by
    have hbit := htook.bit_eq x
    rw [hs'] at hb'
    rw [show process.bit x = true from hb', hb] at hbit
    simpa using hbit
  have ha : s.process.Active cfg x.id := hx ▸ htook.active
  simp only [TakesNonePending, hpc, ← hx, hb, Bool.false_eq_true, false_or] at htakes
  have hclean : Clean cfg pool s x := by
    constructor
    · intro j ptr hj
      rcases Nat.lt_or_ge s.nextId j with hlt | hle
      · rw [Pc.freeing_of_isIdle (hidle j hlt)] at hj
        cases hj
      · exact htakes.1 j hle ptr hj
    · intro ptr hhand
      rw [show x.id.owner = k by rw [hx]; rfl, hpc] at hhand
      cases hhand
    · intro i hi _
      exact htakes.2 i hi
  exact ⟨hclean.step ha hs (fun _ _ he => by cases he), hs.extends.active _ ha⟩

end Step

section Runs

variable {ok : ScalableHeap → Action → Prop} {init : ScalableHeap}

/-- Before moment `c` the live object at `ptr` has been freed, and a second free of it has returned. -/
def FreedTwice (e : Execution (next cfg pool) ok init) (ptr : Addr) (c : Nat) : Prop :=
  ∃ a b d k k' answer, (e.state a).live ptr ≠ none ∧ e.action a = .free k ptr ∧ a < b ∧
    (∀ m, a < m → m ≤ b → (e.state m).live ptr = none) ∧ e.action b = .free k' ptr ∧
    Returns e k' b d answer ∧ d < c

/-- Action `c` allocates slot `x`. -/
structure Allocates (e : Execution (next cfg pool) ok init) (c : Nat) (x : Slot) : Prop where
  lt_length : c < e.length
  before : (e.state c).process.bit x = false
  after : (e.state (c + 1)).process.bit x = true

/-- The slot of an object that has been freed twice stays allocated, once it is allocated again, until
the program frees the new object. -/
def DoubleFreeHarmless (e : Execution (next cfg pool) ok init) : Prop :=
  ∀ ptr c x m, FreedTwice e ptr c → Allocates e c x → InSlot cfg (e.state c) x ptr → c < m →
    m ≤ e.length →
    (∀ k, c < k → k < m → ∀ j p, e.action k = .free j p → ¬ InSlot cfg (e.state k) x p) →
    (e.state m).process.bit x = true

variable {localRandom : Nat → BitVec 64} {random : Nat → Nat → Nat → BitVec 64}
  {mem : Addr → BitVec 8} {mapped : List (Addr × Nat)}

theorem Execution.keeps_allocated
    (e : Execution (next cfg pool) ok (start localRandom random mem mapped))
    (hok : ∀ s a, ok s a → MemoryOk cfg s a ∧ TakesNonePending cfg pool s a) {c m : Nat} {x : Slot}
    (halloc : Allocates e c x) (hcm : c < m) (hm : m ≤ e.length)
    (hno : ∀ k, c < k → k < m → ∀ j p, e.action k = .free j p → ¬ InSlot cfg (e.state k) x p) :
    (e.state m).process.bit x = true := by
  have hmem (s : ScalableHeap) (a : Action) (ho : ok s a) : MemoryOk cfg s a := (hok s a ho).1
  have hc := halloc.lt_length
  have hgood := hok _ _ (e.guarded c hc)
  have hstart := (Execution.inv e hmem hc.le).clean_of_allocated (Execution.idleBeyond e hmem hc.le)
    hgood.1 hgood.2 (e.step c hc) halloc.before halloc.after
  have hrun : Clean cfg pool (e.state m) x ∧ (e.state m).process.Active cfg x.id ∧
      (e.state m).process.bit x = true := by
    apply e.keeps (I := fun _ s => Clean cfg pool s x ∧ s.process.Active cfg x.id ∧
      s.process.bit x = true) hcm
    · exact ⟨hstart.1, hstart.2, halloc.after⟩
    · intro k hck hkm ⟨hclean, hactive, hbit⟩
      have hs := Execution.stepAt e hmem (k := k) (by omega)
      have hstep := hclean.step hactive hs (hno k hck hkm)
      exact ⟨hstep, hs.extends.active _ hactive, hclean.keeps_bit hs hbit⟩
  exact hrun.2.2

/-- Double frees are harmless in a run in which slots are allocated only when nothing that leads to
them is pending. -/
theorem doubleFreeHarmless
    (e : Execution (next cfg pool) (fun s a => MemoryOk cfg s a ∧ TakesNonePending cfg pool s a)
      (start localRandom random mem mapped)) : DoubleFreeHarmless e :=
  fun _ _ _ _ _ halloc _ hcm hm hno => Execution.keeps_allocated e (fun _ _ h => h) halloc hcm hm hno

end Runs

/-- Every second `malloc` looks for pending frees, and one is enough. -/
def everySecond : PoolConfig :=
  { PoolConfig.default with freeBatchSize := 1, drainCheckInterval := 2 }

/-- Heap 1 allocates two objects. Heap 2 frees the first one, which goes to the queue of heap 1; then
heap 1 frees it too. -/
def bothFrees : List Action :=
  [.create, .create, .malloc 1 16] ++ accesses 1 7 4096 (0, 0) ++ [.malloc 1 16] ++
    accesses 1 4 0 (0, 1) ++ [.free 2 4096] ++ accesses 2 14 0 (0, 0) ++ [.free 1 4096] ++
    accesses 1 1 0 (0, 0)

theorem freedTwice_of_bothFrees {ok : ScalableHeap → Action → Prop} {c : Nat}
    (e : Execution (next (.libdieharder false false) everySecond) ok blank) (hlen : 31 < e.length)
    (hfirst : e.action 15 = .free 2 4096) (hsecond : e.action 30 = .free 1 4096)
    (hlive : (e.state 15).live 4096 ≠ none) (hdead : ∀ m ≤ 30, 15 < m → (e.state m).live 4096 = none)
    (hbusy : ((e.state 31).threads 1).pc.isIdle = false)
    (hanswer : ((e.state 32).threads 1).pc = .idle (some (.free true))) (hc : 31 < c) :
    FreedTwice e 4096 c := by
  have hret : Returns e 1 30 31 (.free true) := by
    apply Returns.of_isIdle (by decide) hlen _ hanswer
    intro m hm hlt
    obtain rfl : m = 31 := by omega
    exact hbusy
  exact ⟨15, 30, 31, 2, 1, _, hlive, hfirst, by decide, fun m hm hmb => hdead m hmb hm, hsecond, hret,
    hc⟩

def drainedFirst : List Action :=
  bothFrees ++ [.malloc 1 16] ++ accesses 1 2 0 (0, 2) ++ [.malloc 1 16] ++ accesses 1 12 0 (0, 0)

private theorem guarded_drainedFirst : Guarded (next (.libdieharder false false) everySecond)
    (fun s a => MemoryOk (.libdieharder false false) s a ∧
      TakesNonePending (.libdieharder false false) everySecond s a) blank drainedFirst :=
  guarded_of_small (guarded_of_bool (by decide +kernel))

def drainedFirstExecution : Execution (next (.libdieharder false false) everySecond)
    (fun s a => MemoryOk (.libdieharder false false) s a ∧
      TakesNonePending (.libdieharder false false) everySecond s a) blank :=
  .ofRun drainedFirst (by decide +kernel) guarded_drainedFirst

theorem doubleFreeHarmless_drainedFirst : FreedTwice drainedFirstExecution 4096 47 ∧
    Allocates drainedFirstExecution 47 ⟨⟨1, 0, 0⟩, 0⟩ ∧ DoubleFreeHarmless drainedFirstExecution := by
  refine ⟨?_, ?_, doubleFreeHarmless drainedFirstExecution⟩
  · exact freedTwice_of_bothFrees _ (by decide) rfl rfl (by decide +kernel) (by decide +kernel)
      (by decide +kernel) (by decide +kernel) (by decide)
  · exact ⟨by decide, by decide +kernel, by decide +kernel⟩

/-- Heap 1 allocates the slot again, and its next `malloc` drains the queue. -/
def drainedLate : List Action :=
  bothFrees ++ [.malloc 1 16] ++ accesses 1 2 0 (0, 0) ++ [.malloc 1 16] ++ accesses 1 7 0 (0, 2)

private theorem guarded_drainedLate : Guarded (next (.libdieharder false false) everySecond)
    (fun s a => MemoryOk (.libdieharder false false) s a ∧ True) blank drainedLate :=
  guarded_of_small (guarded_of_bool (by decide +kernel))

def drainedLateExecution : Execution (next (.libdieharder false false) everySecond)
    (MemoryOk (.libdieharder false false)) blank :=
  .ofRun drainedLate (by decide +kernel) (guarded_drainedLate.mono fun _ _ h => h.1)

/-- The drain applies the first free to the new object. -/
theorem not_doubleFreeHarmless_drainedLate : ¬ DoubleFreeHarmless drainedLateExecution := by
  intro h
  have htwice : FreedTwice drainedLateExecution 4096 34 :=
    freedTwice_of_bothFrees _ (by decide) rfl rfl (by decide +kernel) (by decide +kernel)
      (by decide +kernel) (by decide +kernel) (by decide)
  have halloc : Allocates drainedLateExecution 34 ⟨⟨1, 0, 0⟩, 0⟩ :=
    ⟨by decide, by decide +kernel, by decide +kernel⟩
  have hbit := h 4096 34 _ 43 htwice halloc (by decide +kernel) (by decide) (by decide) (by
    intro k hk hkm j p hfree
    interval_cases k <;> cases hfree)
  exact absurd hbit (by decide +kernel)

end ScalableHeap

end DieHard
