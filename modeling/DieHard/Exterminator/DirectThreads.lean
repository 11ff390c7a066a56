import DieHard.Exterminator.DirectObjects
import DieHard.Lib.Spinlock

/-!
# Threads on the directly mapped objects

`allocateDirect` and `freeDirect` run under `_directLock`, a spin lock; `getSize` reads the table of large objects
without it. The threads take turns after every access to the table and after every system call.
-/

namespace DieHard.Exterminator

open Linearizability Spinlock Transition

/-- The calls of `mmap` and `munmap`, the first with its answer. -/
inductive SystemCall
  | mmap (sz ptr : Word)
  | munmap (ptr sz : Word)
  deriving DecidableEq

/-- What the threads share: the table, whose fields are written one after another, the memory and the system calls
that have been made. -/
structure DirectData where
  values : Nat → Word
  addrs : Nat → Word
  ct : Word
  memory : Word → Byte
  systemCalls : List SystemCall

inductive DirectCall
  | allocateDirect (sz ptr : Word)
  | freeDirect (ptr : Word)
  | getLargeObjectSize (ptr : Word)
  deriving DecidableEq

/-- A heap and the system calls that it has made. -/
structure CallingHeap where
  heap : DieHardHeap
  systemCalls : List SystemCall

namespace CallingHeap

/-- The operations without other threads. -/
def apply (s : CallingHeap) : DirectCall → CallingHeap × Word
  | .allocateDirect sz ptr =>
    (⟨(s.heap.allocateDirect sz ptr).2, if DieHardHeap.roundUp sz = 0 then s.systemCalls
      else s.systemCalls ++ [.mmap (DieHardHeap.roundUp sz) ptr]⟩, (s.heap.allocateDirect sz ptr).1)
  | .freeDirect ptr =>
    (⟨s.heap.freeDirect ptr, if s.heap.largeObjects.get ptr = 0 then s.systemCalls
      else s.systemCalls ++ [.munmap ptr (s.heap.largeObjects.get ptr)]⟩, 0)
  | .getLargeObjectSize ptr => (s, s.heap.largeObjects.get ptr)

def data (s : CallingHeap) : DirectData where
  values := s.heap.largeObjects.values
  addrs := s.heap.largeObjects.addrs
  ct := s.heap.largeObjects.ct
  memory := s.heap.memory
  systemCalls := s.systemCalls

end CallingHeap

namespace DirectThreads

/-- `memset(ptr, 0, sz)`, a byte at a time -/
def memset (ptr sz : Word) : List (DirectData → DirectData) :=
  (List.range sz.toNat).map fun i d => { d with memory := Function.update d.memory (ptr + BitVec.ofNat 32 i) 0 }

/-- The last two writes of `set(ptr, sz)` and of `clear(ptr)`: the entries become `sz` and `addr`. -/
def entry (ptr sz addr result : Word) (rest : List (DirectData → DirectData)) : Code DirectData Word :=
  .effect (fun d => { d with values := Function.update d.values (getIndex ptr) sz }) (fun _ => result)
    ((fun d => { d with addrs := Function.update d.addrs (getIndex ptr) addr }) :: rest)

/-- `ct` is read, changed and written. -/
def count (change : Word → Word) (code : Code DirectData Word) : Code DirectData Word :=
  .access id fun d => .access (fun d' => { d' with ct := change d.ct }) fun _ => code

/-- `return` where nothing is left to do -/
def leave (result : Word) : Code DirectData Word := .effect id (fun _ => result) []

def allocateDirect (sz ptr : Word) : Code DirectData Word :=
  let sz := DieHardHeap.roundUp sz
  if sz = 0 then leave 0
  else .access (fun d => { d with systemCalls := d.systemCalls ++ [.mmap sz ptr] }) fun _ =>
    if ptr = 0 then leave 0
    else .access id fun d =>
      if d.values (getIndex ptr) = 0 then count (· + 1) (entry ptr sz ptr ptr (memset ptr sz))
      else entry ptr sz ptr ptr (memset ptr sz)

def freeDirect (ptr : Word) : Code DirectData Word :=
  .access id fun d =>
    let sz := d.values (getIndex ptr)
    if sz = 0 then leave 0
    else .access (fun d => { d with systemCalls := d.systemCalls ++ [.munmap ptr sz] }) fun _ =>
      .access id fun d =>
        if d.values (getIndex ptr) ≠ 0 then count (· - 1) (entry ptr 0 0 0 []) else entry ptr 0 0 0 []

def ops : DirectCall → Op DirectData Word
  | .allocateDirect sz ptr => .locked (allocateDirect sz ptr)
  | .freeDirect ptr => .locked (freeDirect ptr)
  | .getLargeObjectSize ptr => .single fun d => d.values (getIndex ptr)

variable {sz ptr addr result : Word}

theorem writeAll_memset (ptr : Word) (n : Nat) (hn : n ≤ 2 ^ 32) (d : DirectData) :
    writeAll ((List.range n).map fun i (d : DirectData) =>
      { d with memory := Function.update d.memory (ptr + BitVec.ofNat 32 i) 0 }) d =
      { d with memory := fun a => if (a - ptr).toNat < n then 0 else d.memory a } := by
  induction n with
  | zero => simp [writeAll]
  | succ n ih =>
    have hfold := ih (Nat.le_of_succ_le hn)
    rw [writeAll] at hfold ⊢
    rw [List.range_succ, List.map_append, List.foldl_append, hfold]
    simp only [List.map_cons, List.map_nil, List.foldl_cons, List.foldl_nil, DirectData.mk.injEq, true_and, and_true]
    funext a
    have hlast : a = ptr + BitVec.ofNat 32 n ↔ (a - ptr).toNat = n := by
      constructor
      · intro h
        rw [h, add_sub_cancel_left, BitVec.toNat_ofNat]
        exact Nat.mod_eq_of_lt hn
      · intro h
        rw [← h, BitVec.ofNat_toNat, BitVec.setWidth_eq, add_sub_cancel]
    by_cases ha : (a - ptr).toNat = n
    · rw [hlast.mpr ha, Function.update_self, if_pos (by rw [← hlast.mpr ha]; omega)]
    · rw [Function.update_of_ne (fun h => ha (hlast.mp h))]
      simp only [Nat.lt_succ_iff_lt_or_eq, ha, or_false]

theorem run_entry (rest : List (DirectData → DirectData)) (d : DirectData) :
    (entry ptr sz addr result rest).run d = (writeAll rest { d with
      values := Function.update d.values (getIndex ptr) sz
      addrs := Function.update d.addrs (getIndex ptr) addr }, result) := rfl

theorem run_count (change : Word → Word) (code : Code DirectData Word) (d : DirectData) :
    (count change code).run d = code.run { d with ct := change d.ct } := rfl

theorem run_allocateDirect (s : CallingHeap) (sz ptr : Word) : (allocateDirect sz ptr).run s.data =
    ((s.apply (.allocateDirect sz ptr)).1.data, (s.apply (.allocateDirect sz ptr)).2) := by
  rw [allocateDirect, CallingHeap.apply, DieHardHeap.allocateDirect]
  by_cases hzero : DieHardHeap.roundUp sz = 0
  · simp only [if_pos hzero, dif_pos hzero]
    rfl
  by_cases hnull : ptr = 0
  · simp only [if_neg hzero, dif_neg hzero, Code.run, if_pos hnull]
    rfl
  simp only [if_neg hzero, dif_neg hzero, Code.run, if_neg hnull, id_eq]
  have hmemset (d : DirectData) := writeAll_memset ptr (DieHardHeap.roundUp sz).toNat
    (DieHardHeap.roundUp sz).isLt.le d
  by_cases hused : s.data.values (getIndex ptr) = 0
  · have hentry : s.heap.largeObjects.values (getIndex ptr) = 0 := hused
    rw [if_pos hused, run_count, run_entry, memset, hmemset]
    simp [CallingHeap.data, DieHardHeap.fillZero, LargeObjectManager.set, hentry]
  · have hentry : ¬ s.heap.largeObjects.values (getIndex ptr) = 0 := hused
    rw [if_neg hused, run_entry, memset, hmemset]
    simp only [CallingHeap.data, DieHardHeap.fillZero, LargeObjectManager.set, if_neg hentry]

theorem run_freeDirect (s : CallingHeap) (ptr : Word) : (freeDirect ptr).run s.data =
    ((s.apply (.freeDirect ptr)).1.data, (s.apply (.freeDirect ptr)).2) := by
  rw [freeDirect, CallingHeap.apply, DieHardHeap.freeDirect, Code.run]
  by_cases hused : s.data.values (getIndex ptr) = 0
  · have hget : s.heap.largeObjects.get ptr = 0 := hused
    simp only [if_pos hused, if_pos hget]
    rfl
  · have hget : ¬ s.heap.largeObjects.get ptr = 0 := hused
    have hentry : s.heap.largeObjects.values (getIndex ptr) ≠ 0 := hused
    simp only [if_neg hused, if_neg hget, Code.run, id_eq, if_pos (show s.data.values (getIndex ptr) ≠ 0 from hused),
      run_count, run_entry]
    simp only [CallingHeap.data, LargeObjectManager.clear, if_pos hentry]
    rfl

theorem apply_data (s : CallingHeap) (c : DirectCall) :
    Locked.apply ops s.data c = ((s.apply c).1.data, (s.apply c).2) := by
  cases c with
  | allocateDirect sz ptr => exact run_allocateDirect s sz ptr
  | freeDirect ptr => exact run_freeDirect s ptr
  | getLargeObjectSize ptr => rfl

theorem silent_entry {rest : List (DirectData → DirectData)} (h : ∀ write ∈ rest, ∀ d, (write d).values = d.values) :
    (entry ptr sz addr result rest).Silent DirectData.values := by
  intro write hw
  cases hw with
  | head => exact fun _ => rfl
  | tail _ hw => exact h write hw

theorem silent_count (change : Word → Word) {code : Code DirectData Word} (h : code.Silent DirectData.values) :
    (count change code).Silent DirectData.values := ⟨fun _ => rfl, fun _ => ⟨fun _ => rfl, fun _ => h⟩⟩

theorem silent_leave : (leave result).Silent DirectData.values := fun _ hw => absurd hw List.not_mem_nil

theorem silent_allocateDirect (sz ptr : Word) : (allocateDirect sz ptr).Silent DirectData.values := by
  have hmemset : ∀ write ∈ memset ptr (DieHardHeap.roundUp sz), ∀ d : DirectData, (write d).values = d.values := by
    intro write hw d
    obtain ⟨i, -, rfl⟩ := List.mem_map.mp hw
    rfl
  rw [allocateDirect]
  split
  · exact silent_leave
  · refine ⟨fun _ => rfl, fun _ => ?_⟩
    split
    · exact silent_leave
    · refine ⟨fun _ => rfl, fun _ => ?_⟩
      dsimp only
      split
      · exact silent_count _ (silent_entry hmemset)
      · exact silent_entry hmemset

theorem silent_freeDirect (ptr : Word) : (freeDirect ptr).Silent DirectData.values := by
  refine ⟨fun _ => rfl, fun d => ?_⟩
  dsimp only
  split
  · exact silent_leave
  · refine ⟨fun _ => rfl, fun _ => ⟨fun _ => rfl, fun _ => ?_⟩⟩
    dsimp only
    split
    · exact silent_count _ (silent_entry fun _ hw => absurd hw List.not_mem_nil)
    · exact silent_entry fun _ hw => absurd hw List.not_mem_nil

theorem sees_ops (c : DirectCall) : (ops c).Sees DirectData.values := by
  cases c with
  | allocateDirect sz ptr => exact silent_allocateDirect sz ptr
  | freeDirect ptr => exact silent_freeDirect ptr
  | getLargeObjectSize ptr => exact fun d d' h => congrFun h (getIndex ptr)

/-- An object is mapped at entry `i`. -/
def maps (i : Nat) : SystemCall → Bool
  | .mmap _ ptr => ptr ≠ 0 ∧ getIndex ptr = i
  | .munmap _ _ => false

/-- An object is unmapped at entry `i`. -/
def unmaps (i : Nat) : SystemCall → Bool
  | .mmap _ _ => false
  | .munmap ptr _ => getIndex ptr = i

/-- Of the objects that have been mapped at an entry no more have been unmapped, and one is left when the entry is in
use. -/
def Unmaps (values : Nat → Word) (calls : List SystemCall) : Prop :=
  ∀ i, calls.countP (unmaps i) + (if values i = 0 then 0 else 1) ≤ calls.countP (maps i)

variable {values : Nat → Word} {calls : List SystemCall}

theorem Unmaps.failed (h : Unmaps values calls) (sz : Word) : Unmaps values (calls ++ [.mmap sz 0]) := by
  intro i
  have hi := h i
  simp only [List.countP_append, List.countP_singleton, maps, unmaps]
  simpa using hi

theorem Unmaps.map (h : Unmaps values calls) (hptr : ptr ≠ 0) (sz : Word) :
    Unmaps (Function.update values (getIndex ptr) sz) (calls ++ [.mmap sz ptr]) := by
  intro i
  have hi := h i
  rw [List.countP_append, List.countP_append, List.countP_singleton, List.countP_singleton]
  by_cases hip : getIndex ptr = i
  · have hmaps : maps i (.mmap sz ptr) = true := decide_eq_true ⟨hptr, hip⟩
    rw [hmaps, if_pos rfl, unmaps, if_neg Bool.false_ne_true]
    split <;> omega
  · rw [Function.update_of_ne (Ne.symm hip), unmaps, if_neg Bool.false_ne_true]
    omega

theorem Unmaps.unmap (h : Unmaps values calls) (hused : values (getIndex ptr) ≠ 0) (sz : Word) :
    Unmaps (Function.update values (getIndex ptr) 0) (calls ++ [.munmap ptr sz]) := by
  intro i
  have hi := h i
  rw [List.countP_append, List.countP_append, List.countP_singleton, List.countP_singleton]
  by_cases hip : getIndex ptr = i
  · subst hip
    rw [if_neg hused] at hi
    rw [Function.update_self, if_pos rfl, unmaps, maps, if_pos (decide_eq_true rfl), if_neg Bool.false_ne_true]
    omega
  · have hunmaps : unmaps i (.munmap ptr sz) = false := decide_eq_false hip
    rw [Function.update_of_ne (Ne.symm hip), hunmaps, if_neg Bool.false_ne_true]
    omega

theorem Unmaps.apply {s : CallingHeap} (h : Unmaps s.data.values s.systemCalls) (c : DirectCall) :
    Unmaps (s.apply c).1.data.values (s.apply c).1.systemCalls := by
  cases c with
  | allocateDirect sz ptr =>
    simp only [CallingHeap.apply, DieHardHeap.allocateDirect]
    by_cases hzero : DieHardHeap.roundUp sz = 0
    · rw [dif_pos hzero, if_pos hzero]
      exact h
    rw [dif_neg hzero, if_neg hzero]
    by_cases hnull : ptr = 0
    · rw [if_pos hnull, hnull]
      exact h.failed _
    · rw [if_neg hnull]
      exact h.map hnull _
  | freeDirect ptr =>
    simp only [CallingHeap.apply, DieHardHeap.freeDirect]
    by_cases hzero : s.heap.largeObjects.get ptr = 0
    · rw [if_pos hzero, if_pos hzero]
      exact h
    · rw [if_neg hzero, if_neg hzero]
      exact h.unmap hzero _
  | getLargeObjectSize ptr => exact h

theorem Unmaps.after {s : CallingHeap} (h : Unmaps s.data.values s.systemCalls) (L : List (Entry DirectCall Word)) :
    Unmaps (Linearizability.after CallingHeap.apply s L).data.values
      (Linearizability.after CallingHeap.apply s L).systemCalls := by
  induction L generalizing s with
  | nil => exact h
  | cons e L ih => exact ih (h.apply e.call)

/-- One thread at most is inside of the lock. The operations have an order in which each returns what it does on the
heap without other threads, the sizes are those of the heap after it, and while the lock is free so is everything
else; the count is that of the entries in use then, and no more has been unmapped than was mapped. -/
structure Serial (base : CallingHeap) (s : Locked DirectData DirectCall Word) : Prop where
  exclusive : ∀ t u, s.Inside t → s.Inside u → t = u
  ordered : ∃ L, Linearization CallingHeap.apply base s.threads.history L ∧
    s.data.values = (after CallingHeap.apply base L).heap.largeObjects.values ∧
    (s.mutex = false → s.data = (after CallingHeap.apply base L).data)
  counted : s.mutex = false → s.data.ct.toNat = inUse s.data.values largeEntries
  unmaps : s.mutex = false → Unmaps s.data.values s.data.systemCalls

def start (heap dlBase stackBase heapConfigFlags : Word) : Locked DirectData DirectCall Word :=
  .start (CallingHeap.data ⟨.initial heap dlBase stackBase heapConfigFlags, []⟩)

variable {heap dlBase stackBase heapConfigFlags : Word} {s : Locked DirectData DirectCall Word}

/-- Whatever the threads do, they might do it one after another. -/
theorem reach_serial (hr : Reach (Locked.next ops) (fun _ _ => True) (start heap dlBase stackBase heapConfigFlags) s) :
    Serial ⟨.initial heap dlBase stackBase heapConfigFlags, []⟩ s := by
  have hfst (t : CallingHeap) (c : DirectCall) : (Locked.apply ops t.data c).1 = (t.apply c).1.data := by
    rw [apply_data]
  have hsnd (t : CallingHeap) (c : DirectCall) : (Locked.apply ops t.data c).2 = (t.apply c).2 := by
    rw [apply_data]
  obtain ⟨hexclusive, L, hlin, hvalues, hdata⟩ := Locked.linearized_of_reach sees_ops hr
  rw [after_repr hfst] at hvalues hdata
  have hnew : Unmaps (CallingHeap.data ⟨.initial heap dlBase stackBase heapConfigFlags, []⟩).values [] :=
    fun _ => Nat.le_refl 0
  refine ⟨hexclusive, ⟨L, hlin.of_repr hfst hsnd, hvalues, hdata⟩, ?_, ?_⟩
  · intro hfree
    rw [hdata hfree]
    exact (after CallingHeap.apply _ L).heap.largeObjects.ct_eq
  · intro hfree
    rw [hdata hfree]
    exact hnew.after L

/-- Two threads free an object while a third asks for its size. -/
def freedTwice : List (Step DirectCall) :=
  [.call 0 (.allocateDirect 5 0x10000#32), .exchange 0] ++ List.replicate 14 (.access 0) ++ [.unlock 0, .ret 0,
    .call 0 (.freeDirect 0x10000#32), .call 1 (.freeDirect 0x10000#32), .exchange 0, .exchange 1,
    .call 2 (.getLargeObjectSize 0x10000#32), .access 0, .access 0, .read 2] ++ List.replicate 5 (.access 0) ++
    [.exchange 1, .unlock 0, .exchange 1, .ret 2, .access 1, .access 1, .unlock 1, .ret 1]

private theorem reach_freedTwice : Reach (Locked.next ops) (fun _ _ => True) (start 0x40000000#32 0 0 0)
    (final (Locked.next ops) (start 0x40000000#32 0 0 0) freedTwice) :=
  reach_final (guarded_true _ _ _) (by decide +kernel)

theorem serial_freedTwice :
    Serial ⟨.initial 0x40000000#32 0 0 0, []⟩ (final (Locked.next ops) (start 0x40000000#32 0 0 0) freedTwice) ∧
    (final (Locked.next ops) (start 0x40000000#32 0 0 0) freedTwice).data.systemCalls =
      [.mmap 8 0x10000#32, .munmap 0x10000#32 8] :=
  ⟨reach_serial reach_freedTwice, by decide +kernel⟩

/-- An operation that waits for the lock, or that is at work, can return, whatever has happened. -/
theorem exists_return (hr : Reach (Locked.next ops) (fun _ _ => True) (start heap dlBase stackBase heapConfigFlags) s)
    {t id : Nat} (hp : Locked.pending (s.threads.place t) = some id) :
    ∃ s' r, Reach (Locked.next ops) (fun _ _ => True) s s' ∧ .ret id r ∈ s'.threads.history :=
  Locked.exists_ret sees_ops hr hp

def waiting : List (Step DirectCall) :=
  [.call 0 (.allocateDirect 5 0x10000#32), .call 1 (.freeDirect 0x20000#32), .exchange 0, .exchange 1, .access 0]

theorem exists_return_waiting : ∃ s' r, Reach (Locked.next ops) (fun _ _ => True)
    (final (Locked.next ops) (start 0x40000000#32 0 0 0) waiting) s' ∧ .ret 1 r ∈ s'.threads.history :=
  exists_return (t := 1) (reach_final (guarded_true _ _ _) (by decide +kernel)) (by decide +kernel)

end DirectThreads

end DieHard.Exterminator
