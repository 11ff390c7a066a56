import DieHard.Lib.Transition
import DieHard.Heap.Placement

/-!
# A random heap that threads share

The threads of a process call `malloc` and `free` of one `RandomHeap` over `AtomicBitMap` without a
lock. A step is one access to a field that they share. Where the miniheaps of the heap lie is fixed in
advance, as their source of memory will answer.
-/

namespace DieHard

open Transition

/-- The places of the miniheaps of a size class. -/
structure Arena (cfg : HeapConfig) (cls : Nat) where
  layout : Nat → Blocks.Layout
  nObjects_le : ∀ i, cfg.nObjects ⟨0, cls, i⟩ ≤ (layout i).slots
  separate : Blocks.Separate layout fun _ => True
  addr_ne_zero : ∀ i j, j < cfg.nObjects ⟨0, cls, i⟩ → (layout i).addr j ≠ 0

/-- The fields of a `RandomHeap` that its threads share. `activated` records the calls of `activate`,
`bits i` is the bitmap of miniheap `i`. -/
structure SharedHeap where
  available : Nat
  inUse : Nat
  miniHeapsInUse : Nat
  chunksInUse : Nat
  growLock : Bool
  cachedMiniHeap : Int
  activated : List Nat
  bits : Nat → Nat → Bool

namespace SharedHeap

def initial : SharedHeap := ⟨0, 0, 0, 0, false, -1, [], fun _ _ => false⟩

def chosenMiniHeap (h : SharedHeap) (random : Nat) : Nat :=
  let v := random &&& h.chunksInUse
  log2 (v + 1)

def setBit (h : SharedHeap) (i j : Nat) (value : Bool) : SharedHeap :=
  { h with bits := Function.update h.bits i (Function.update (h.bits i) j value) }

/-- `_inUse.fetch_add(1)`. -/
def addInUse (h : SharedHeap) : SharedHeap := { h with inUse := sizeSucc h.inUse }

/-- `_inUse.fetch_sub(1)`. -/
def subInUse (h : SharedHeap) : SharedHeap := { h with inUse := sizeSub h.inUse 1 }

private theorem inUse_bits (h : SharedHeap) (n : Nat) : { h with inUse := n }.bits = h.bits := rfl

@[simp] theorem addInUse_bits (h : SharedHeap) : h.addInUse.bits = h.bits := inUse_bits h _

@[simp] theorem subInUse_bits (h : SharedHeap) : h.subInUse.bits = h.bits := inUse_bits h _

@[simp] theorem setBit_self (h : SharedHeap) (i j : Nat) (value : Bool) :
    (h.setBit i j value).bits i j = value := by
  simp [setBit]

theorem setBit_of_ne (h : SharedHeap) {i j k l : Nat} (value : Bool) (hne : (k, l) ≠ (i, j)) :
    (h.setBit i j value).bits k l = h.bits k l := by
  by_cases hk : k = i
  · subst hk
    have hl : l ≠ j := fun hl => hne (by rw [hl])
    simp [setBit, hl]
  · simp [setBit, hk]

end SharedHeap

/-- The answer of a call that has returned. -/
inductive HeapAnswer
  | malloc (ptr : Addr)
  | free (freed : Bool)
  deriving DecidableEq

/-- Where a thread stands: the access that it makes next, with its local variables. `again` marks the
calls of `getObject` in the loop of `malloc`. -/
inductive HeapPc
  | idle (last : Option HeapAnswer)
  -- `malloc`
  | loadInUse
  | loadAvailable (inUse : Nat)
  -- `growHeapIfNeeded`
  | growInUse
  | growAvailable (inUse : Nat)
  -- `getAnotherMiniHeap`, without the lock and with it
  | tryLock
  | spin
  | recheckInUse
  | recheckAvailable (inUse : Nat)
  | retryLock
  | loadMiniHeaps
  | lockedInUse (currentHeaps : Nat)
  | lockedAvailable (currentHeaps inUse : Nat)
  | addAvailable (currentHeaps : Nat)
  | activate (currentHeaps newAvailable : Nat)
  | storeAvailable (currentHeaps newAvailable : Nat)
  | storeChunks (currentHeaps : Nat)
  | storeMiniHeaps (currentHeaps : Nat)
  | unlock
  -- `getObject`
  | getObject (again : Bool)
  | tryToSet (again : Bool) (index : Nat)
  | addInUse (ptr : Addr)
  -- `free`
  | loadCached (ptr : Addr)
  | loadNumHeaps (ptr : Addr) (cached : Int)
  | freeCached (ptr : Addr) (cached : Int) (numHeaps : Nat)
  | freeSearch (ptr : Addr) (cached : Int) (left : Nat)
  | storeCached (index : Nat)
  | subInUse
  deriving DecidableEq

namespace HeapPc

def isIdle : HeapPc → Bool
  | idle _ => true
  | _ => false

/-- The thread is in `free(ptr)` and has not reset the bit. -/
def freeing (ptr : Addr) : HeapPc → Bool
  | loadCached p | loadNumHeaps p _ | freeCached p _ _ | freeSearch p _ _ => p == ptr
  | _ => false

/-- The thread is in `free` and has reset the bit. -/
def freed : HeapPc → Bool
  | storeCached _ | subInUse => true
  | _ => false

end HeapPc

/-- A shared heap with its threads. -/
structure ConcurrentHeap where
  heap : SharedHeap
  pc : Nat → HeapPc

namespace ConcurrentHeap

def initial : ConcurrentHeap := ⟨.initial, fun _ => .idle none⟩

/-- `malloc` and `free` begin a call of thread `t`, and `step` is its next access. -/
inductive Action
  | malloc (t : Nat)
  | free (t : Nat) (ptr : Addr)
  | step (t random : Nat)
  deriving DecidableEq

instance : Inhabited Action := ⟨.malloc 0⟩

/-- The thread that acts. -/
def Action.thread : Action → Nat
  | malloc t => t
  | free t _ => t
  | step t _ => t

variable (cfg : HeapConfig) (cls : Nat) (arena : Arena cfg cls)

/-- `Numerator * inUse >= available * Denominator`, computed with `size_t`. -/
def needsGrowth (inUse available : Nat) : Bool :=
  decide (available * cfg.denominator % sizeRange ≤ cfg.numerator * inUse % sizeRange)

/-- `getMiniHeap(index)->free(ptr)` where it succeeds: the heap after the bit is reset. -/
def freeIn (h : SharedHeap) (index : Nat) (ptr : Addr) : Option SharedHeap :=
  match (arena.layout index).slotOf ptr with
  | some j => if h.bits index j then some (h.setBit index j false) else none
  | none => none

/-- One access of a thread: the heap after it and where the thread stands then. The operands of a
comparison are loaded from left to right. The loops of `tryToSet` and `reset` are one step, in
which the compare-exchange succeeds or the bit is found as it should be. -/
def access (random : Nat) (h : SharedHeap) : HeapPc → SharedHeap × HeapPc
  | .idle last => (h, .idle last)
  | .loadInUse => (h, .loadAvailable h.inUse)
  | .loadAvailable inUse =>
    (h, if needsGrowth cfg inUse h.available then .growInUse else .getObject false)
  | .growInUse => (h, .growAvailable h.inUse)
  | .growAvailable inUse =>
    (h, if needsGrowth cfg inUse h.available then .tryLock else .getObject false)
  | .tryLock =>
    if h.growLock then (h, .spin) else ({ h with growLock := true }, .loadMiniHeaps)
  | .spin => (h, if h.growLock then .spin else .recheckInUse)
  | .recheckInUse => (h, .recheckAvailable h.inUse)
  | .recheckAvailable inUse =>
    (h, if !needsGrowth cfg inUse h.available then .growInUse else .retryLock)
  | .retryLock =>
    if h.growLock then (h, .growInUse) else ({ h with growLock := true }, .loadMiniHeaps)
  | .loadMiniHeaps => (h, .lockedInUse h.miniHeapsInUse)
  | .lockedInUse currentHeaps => (h, .lockedAvailable currentHeaps h.inUse)
  | .lockedAvailable currentHeaps inUse =>
    (h, if !needsGrowth cfg inUse h.available then .unlock
      else if currentHeaps < cfg.maxMiniHeaps then .addAvailable currentHeaps
      else .unlock)
  | .addAvailable currentHeaps =>
    (h, .activate currentHeaps
      (if currentHeaps = 0 then h.available + cfg.minObjects cls
        else h.available + (1 <<< (currentHeaps - 1)) * cfg.minObjects cls))
  | .activate currentHeaps newAvailable =>
    ({ h with activated := h.activated ++ [currentHeaps] }, .storeAvailable currentHeaps newAvailable)
  | .storeAvailable currentHeaps newAvailable =>
    ({ h with available := newAvailable }, .storeChunks currentHeaps)
  | .storeChunks currentHeaps =>
    ({ h with chunksInUse := (1 <<< currentHeaps) - 1 }, .storeMiniHeaps currentHeaps)
  | .storeMiniHeaps currentHeaps => ({ h with miniHeapsInUse := currentHeaps + 1 }, .unlock)
  | .unlock => ({ h with growLock := false }, .growInUse)
  | .getObject again => (h, .tryToSet again (h.chosenMiniHeap random))
  | .tryToSet _ index =>
    let j := modulo (cfg.nObjects ⟨0, cls, index⟩) random
    if h.bits index j then (h, .getObject true)
    else
      -- an address of the arena is never `nullptr`
      (h.setBit index j true, .addInUse ((arena.layout index).addr j))
  | .addInUse ptr => (h.addInUse, .idle (some (.malloc ptr)))
  | .loadCached ptr => (h, .loadNumHeaps ptr h.cachedMiniHeap)
  | .loadNumHeaps ptr cached =>
    (h, if 0 ≤ cached ∧ cached < h.miniHeapsInUse then .freeCached ptr cached h.miniHeapsInUse
      else .freeSearch ptr cached h.miniHeapsInUse)
  | .freeCached ptr cached numHeaps =>
    match freeIn cfg cls arena h cached.toNat ptr with
    | some h' => (h', .subInUse)
    | none => (h, .freeSearch ptr cached numHeaps)
  | .freeSearch _ _ 0 => (h, .idle (some (.free false)))
  | .freeSearch ptr cached (i + 1) =>
    if (i : Int) = cached then (h, .freeSearch ptr cached i)
    else
      match freeIn cfg cls arena h i ptr with
      | some h' => (h', .storeCached i)
      | none => (h, .freeSearch ptr cached i)
  | .storeCached index => ({ h with cachedMiniHeap := index }, .subInUse)
  | .subInUse => (h.subInUse, .idle (some (.free true)))

/-- Thread `t` leaves the heap and its own place as given. -/
def move (s : ConcurrentHeap) (t : Nat) (r : SharedHeap × HeapPc) : ConcurrentHeap :=
  ⟨r.1, Function.update s.pc t r.2⟩

def next (s : ConcurrentHeap) : Action → Option ConcurrentHeap
  | .malloc t => if (s.pc t).isIdle then some (s.move t (s.heap, .loadInUse)) else none
  | .free t ptr => if (s.pc t).isIdle then some (s.move t (s.heap, .loadCached ptr)) else none
  | .step t random =>
    if (s.pc t).isIdle then none
    else some (s.move t (access cfg cls arena random s.heap (s.pc t)))

variable {cfg cls arena} {s s' : ConcurrentHeap} {a : Action} {t u : Nat} {r : SharedHeap × HeapPc}

@[simp] theorem move_heap : (s.move t r).heap = r.1 := rfl

@[simp] theorem move_pc : (s.move t r).pc t = r.2 := Function.update_self _ _ _

theorem move_pc_of_ne (hu : u ≠ t) : (s.move t r).pc u = s.pc u := Function.update_of_ne hu _ _

theorem next_cases (h : next cfg cls arena s a = some s') :
    (∃ t, a = .malloc t ∧ (s.pc t).isIdle = true ∧ s' = s.move t (s.heap, .loadInUse)) ∨
    (∃ t ptr, a = .free t ptr ∧ (s.pc t).isIdle = true ∧ s' = s.move t (s.heap, .loadCached ptr)) ∨
    ∃ t random, a = .step t random ∧ (s.pc t).isIdle = false ∧
      s' = s.move t (access cfg cls arena random s.heap (s.pc t)) := by
  cases a with
  | malloc t =>
    obtain ⟨hidle, hs⟩ := Option.ite_none_right_eq_some.mp h
    exact Or.inl ⟨t, rfl, hidle, (Option.some_inj.mp hs).symm⟩
  | free t ptr =>
    obtain ⟨hidle, hs⟩ := Option.ite_none_right_eq_some.mp h
    exact Or.inr (Or.inl ⟨t, ptr, rfl, hidle, (Option.some_inj.mp hs).symm⟩)
  | step t random =>
    obtain ⟨hidle, hs⟩ := Option.ite_none_left_eq_some.mp h
    exact Or.inr (Or.inr ⟨t, random, rfl, by simpa using hidle, (Option.some_inj.mp hs).symm⟩)

theorem freeIn_eq {h h' : SharedHeap} {i ptr : Nat} (hf : freeIn cfg cls arena h i ptr = some h') :
    ∃ j, (arena.layout i).slotOf ptr = some j ∧ h.bits i j = true ∧ h' = h.setBit i j false := by
  rw [freeIn] at hf
  split at hf
  · next j hj =>
    obtain ⟨hbit, heq⟩ := Option.ite_none_right_eq_some.mp hf
    exact ⟨j, hj, hbit, (Option.some_inj.mp heq).symm⟩
  · cases hf

/-- The accesses that write a bitmap: a slot is taken in `malloc`, or given back in `free`. -/
theorem access_bits (random : Nat) (h : SharedHeap) (pc : HeapPc) :
    (access cfg cls arena random h pc).1.bits = h.bits ∨
    (∃ again i j, pc = .tryToSet again i ∧ j = modulo (cfg.nObjects ⟨0, cls, i⟩) random ∧
      h.bits i j = false ∧
      access cfg cls arena random h pc = (h.setBit i j true, .addInUse ((arena.layout i).addr j))) ∨
    ∃ ptr i j, pc.freeing ptr = true ∧ (arena.layout i).slotOf ptr = some j ∧ h.bits i j = true ∧
      (access cfg cls arena random h pc).1 = h.setBit i j false ∧
      (access cfg cls arena random h pc).2.freed = true := by
  cases pc with
  | tryToSet again i =>
    cases hbit : h.bits i (modulo (cfg.nObjects ⟨0, cls, i⟩) random) with
    | true => simp [access, hbit]
    | false => exact Or.inr (Or.inl ⟨again, i, _, rfl, rfl, hbit, by simp [access, hbit]⟩)
  | freeCached ptr cached numHeaps =>
    cases hf : freeIn cfg cls arena h cached.toNat ptr with
    | none => simp [access, hf]
    | some h' =>
      obtain ⟨j, hj, hbit, rfl⟩ := freeIn_eq hf
      exact Or.inr (Or.inr ⟨ptr, _, j, by simp [HeapPc.freeing], hj, hbit, by simp [access, hf],
        by simp [access, hf, HeapPc.freed]⟩)
  | freeSearch ptr cached left =>
    cases left with
    | zero => exact Or.inl rfl
    | succ i =>
      by_cases hi : (i : Int) = cached
      · simp [access, hi]
      cases hf : freeIn cfg cls arena h i ptr with
      | none => simp [access, hi, hf]
      | some h' =>
        obtain ⟨j, hj, hbit, rfl⟩ := freeIn_eq hf
        exact Or.inr (Or.inr ⟨ptr, i, j, by simp [HeapPc.freeing], hj, hbit, by simp [access, hi, hf],
          by simp [access, hi, hf, HeapPc.freed]⟩)
  | tryLock | retryLock =>
    rw [access]
    split <;> exact Or.inl rfl
  | addInUse ptr => exact Or.inl h.addInUse_bits
  | subInUse => exact Or.inl h.subInUse_bits
  | _ => exact Or.inl rfl

theorem pc_other (h : next cfg cls arena s a = some s') (hu : u ≠ a.thread) : s'.pc u = s.pc u := by
  obtain ⟨t, rfl, -, rfl⟩ | ⟨t, ptr, rfl, -, rfl⟩ | ⟨t, random, rfl, -, rfl⟩ := next_cases h <;>
    exact move_pc_of_ne hu

theorem busy_cases (h : next cfg cls arena s a = some s') (hbusy : (s.pc u).isIdle = false) :
    (∃ random, a = .step u random ∧ s' = s.move u (access cfg cls arena random s.heap (s.pc u))) ∨
      u ≠ a.thread ∧ s'.pc u = s.pc u := by
  by_cases hu : u = a.thread
  · obtain ⟨t, rfl, hidle, -⟩ | ⟨t, ptr, rfl, hidle, -⟩ | ⟨t, random, rfl, -, rfl⟩ := next_cases h <;>
      subst hu
    · exact absurd hidle (by simpa using hbusy)
    · exact absurd hidle (by simpa using hbusy)
    · exact Or.inl ⟨random, rfl, rfl⟩
  · exact Or.inr ⟨hu, pc_other h hu⟩

end ConcurrentHeap

end DieHard
