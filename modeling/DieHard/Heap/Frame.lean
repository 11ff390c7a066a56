import DieHard.Heap.Placement

/-!
# What a step of a heap leaves alone

Allocation attempts and frees change bitmaps, the `_inUse` counters, caches and memory, but no layout
and no page table entry. Placement survives them as long as only slots of active miniheaps have bits.
-/

namespace DieHard

open Blocks

variable {cfg : HeapConfig}

/-- A slot of a miniheap. -/
structure Slot where
  id : MiniId
  index : Nat
  deriving DecidableEq

/-- From `env` to `env'` the memory has become `mem` and nothing else has changed but the reports. -/
structure Env.Wrote (env : Env) (mem : Addr → BitVec 8) (env' : Env) : Prop where
  mem_eq : env'.mem = mem
  pageTable_eq : env'.pageTable = env.pageTable
  mapped_eq : env'.mapped = env.mapped

theorem Env.Wrote.refl (env : Env) : env.Wrote env.mem env := ⟨rfl, rfl, rfl⟩

theorem Env.Wrote.trans {env env' env'' : Env} {mem mem' : Addr → BitVec 8}
    (h : env.Wrote mem env') (h' : env'.Wrote mem' env'') : env.Wrote mem' env'' :=
  ⟨h'.mem_eq, h'.pageTable_eq.trans h.pageTable_eq, h'.mapped_eq.trans h.mapped_eq⟩

theorem Env.Wrote.report {env env' : Env} {mem : Addr → BitVec 8} (h : env.Wrote mem env')
    (r : Report) : env.Wrote mem (env'.report r) :=
  ⟨h.mem_eq, h.pageTable_eq, h.mapped_eq⟩

/-- Two random heaps that differ in bitmaps, `_inUse` and the cached miniheap at most. -/
structure RandomHeap.SameLayout (h h' : RandomHeap) : Prop where
  available : h'.available = h.available
  miniHeapsInUse : h'.miniHeapsInUse = h.miniHeapsInUse
  chunksInUse : h'.chunksInUse = h.chunksInUse
  activated : ∀ i, (h'.miniHeaps i).isHeapActivated = (h.miniHeaps i).isHeapActivated
  freedValue : ∀ i, (h'.miniHeaps i).freedValue = (h.miniHeaps i).freedValue
  miniHeap : ∀ i, (h'.miniHeaps i).miniHeap = (h.miniHeaps i).miniHeap
  mapEntryToPage : ∀ i, (h'.miniHeaps i).mapEntryToPage = (h.miniHeaps i).mapEntryToPage

theorem RandomHeap.SameLayout.refl (h : RandomHeap) : h.SameLayout h :=
  ⟨rfl, rfl, rfl, fun _ => rfl, fun _ => rfl, fun _ => rfl, fun _ => rfl⟩

theorem RandomHeap.SameLayout.setBitmap (h : RandomHeap) (i : Nat) (b : BitMap) (n : Nat) (c : Int) :
    h.SameLayout { h with
      inUse := n
      cachedMiniHeap := c
      miniHeaps := Function.update h.miniHeaps i { h.miniHeaps i with miniHeapBitmap := b } } := by
  have hself (j : Nat) : Function.update h.miniHeaps i { h.miniHeaps i with miniHeapBitmap := b } j =
      if j = i then { h.miniHeaps j with miniHeapBitmap := b } else h.miniHeaps j := by
    by_cases hj : j = i
    · subst j
      simp
    · simp [hj]
  refine ⟨rfl, rfl, rfl, ?_, ?_, ?_, ?_⟩ <;> intro j <;> simp only [hself] <;> split <;> rfl

namespace Process

def bit (s : Process) (x : Slot) : Bool := (s.mini x.id).miniHeapBitmap.isSet x.index

/-- The process after random heap `cls` of heap `k` and the shared state have changed. -/
def setRandom (s : Process) (k cls : Nat) (h : RandomHeap) (env : Env) : Process :=
  ⟨Function.update s.heaps k
    { s.heaps k with heaps := Function.update (s.heaps k).heaps cls h }, env⟩

@[simp] theorem setRandom_env (s : Process) (k cls : Nat) (h : RandomHeap) (env : Env) :
    (s.setRandom k cls h env).env = env := rfl

theorem setRandom_heaps (s : Process) (k cls : Nat) (h : RandomHeap) (env : Env) (k' cls' : Nat) :
    ((s.setRandom k cls h env).heaps k').heaps cls' =
      if k' = k ∧ cls' = cls then h else (s.heaps k').heaps cls' := by
  by_cases hk : k' = k
  · subst k'
    by_cases hc : cls' = cls
    · subst cls'
      simp [setRandom]
    · simp [setRandom, hc]
  · simp [setRandom, hk]

@[simp] theorem setRandom_heaps_self (s : Process) (k cls : Nat) (h : RandomHeap) (env : Env) :
    ((s.setRandom k cls h env).heaps k).heaps cls = h := by
  simp [setRandom]

@[simp] theorem setRandom_setRandom (s : Process) (k cls : Nat) (h h' : RandomHeap) (env env' : Env) :
    (s.setRandom k cls h env).setRandom k cls h' env' = s.setRandom k cls h' env' := by
  simp [setRandom]

theorem setRandom_self (s : Process) (k cls : Nat) (env : Env) :
    s.setRandom k cls ((s.heaps k).heaps cls) env = ⟨s.heaps, env⟩ := by
  simp [setRandom]

theorem mini_setRandom (s : Process) (k cls : Nat) (h : RandomHeap) (env : Env) (id : MiniId) :
    (s.setRandom k cls h env).mini id =
      if id.owner = k ∧ id.cls = cls then h.miniHeaps id.index else s.mini id := by
  rw [mini, setRandom_heaps]
  split <;> rfl

/-- Two processes that differ in bitmaps, `_inUse`, caches, memory and reports at most. -/
structure SameLayout (s s' : Process) : Prop where
  heaps : ∀ k cls, ((s.heaps k).heaps cls).SameLayout ((s'.heaps k).heaps cls)
  pageTable : s'.env.pageTable = s.env.pageTable
  mapped : s'.env.mapped = s.env.mapped

theorem SameLayout.refl (s : Process) : s.SameLayout s := ⟨fun _ _ => .refl _, rfl, rfl⟩

theorem SameLayout.setRandom {s : Process} {k cls : Nat} {h : RandomHeap} {env : Env}
    {mem : Addr → BitVec 8} (hl : ((s.heaps k).heaps cls).SameLayout h) (hw : s.env.Wrote mem env) :
    s.SameLayout (s.setRandom k cls h env) := by
  refine ⟨?_, hw.pageTable_eq, hw.mapped_eq⟩
  intro k' cls'
  rw [setRandom_heaps]
  split
  · rename_i he
    obtain ⟨rfl, rfl⟩ := he
    exact hl
  · exact .refl _

theorem SameLayout.env {s : Process} {env : Env} {mem : Addr → BitVec 8} (hw : s.env.Wrote mem env) :
    s.SameLayout ⟨s.heaps, env⟩ := ⟨fun _ _ => .refl _, hw.pageTable_eq, hw.mapped_eq⟩

variable {s s' : Process}

theorem SameLayout.active_iff (h : s.SameLayout s') (id : MiniId) :
    s'.Active cfg id ↔ s.Active cfg id := by
  rw [Active, Active, (h.heaps id.owner id.cls).miniHeapsInUse]

theorem SameLayout.layout_eq (h : s.SameLayout s') (id : MiniId) :
    s'.layout cfg id = s.layout cfg id := by
  have hr := h.heaps id.owner id.cls
  simp only [layout, HeapConfig.layout, mini, hr.miniHeap, hr.mapEntryToPage]

end Process

namespace Placed

variable {s s' : Process}

theorem transfer (h : Placed cfg s) (hs : s.SameLayout s')
    (hbits : ∀ id i, (s'.mini id).miniHeapBitmap.isSet i = true →
      s.Active cfg id ∧ i < cfg.nObjects id) : Placed cfg s' := by
  have hlayout : s'.layout cfg = s.layout cfg := funext hs.layout_eq
  have hactive : s'.Active cfg = s.Active cfg := funext fun id => propext (hs.active_iff id)
  refine ⟨?_, ?_, ?_, ?_, ?_, ?_⟩
  · intro id
    rw [hactive, ← h.activated id]
    exact Eq.congr ((hs.heaps id.owner id.cls).activated id.index) rfl
  · rw [hactive, hlayout, hs.mapped]
    exact h.base
  · rw [hactive, hlayout]
    exact h.separate
  · rw [hactive, hlayout, hs.pageTable]
    exact h.pageTable
  · rw [hactive]
    exact hbits
  · intro k cls
    have hc := h.counters k cls
    have hr := hs.heaps k cls
    exact ⟨by rw [hr.miniHeapsInUse]; exact hc.miniHeaps_le,
      by rw [hr.available, hr.miniHeapsInUse]; exact hc.available_eq,
      by rw [hr.chunksInUse, hr.miniHeapsInUse]; exact hc.chunksInUse_eq⟩

theorem setEnv (h : Placed cfg s) {env : Env} {mem : Addr → BitVec 8} (hw : s.env.Wrote mem env) :
    Placed cfg ⟨s.heaps, env⟩ :=
  h.transfer (.env hw) h.bits

theorem slot_eq (h : Placed cfg s) {x y : Slot} {p : Nat} (hx : s.Active cfg x.id)
    (hy : s.Active cfg y.id) (hxp : (s.layout cfg x.id).Contains x.index p)
    (hyp : (s.layout cfg y.id).Contains y.index p) : x = y := by
  obtain ⟨hid, hindex⟩ := h.separate.slot_unique hx hy hxp hyp
  cases x
  cases y
  simp_all

theorem bit_active (h : Placed cfg s) {x : Slot} (hb : s.bit x = true) : s.Active cfg x.id :=
  (h.bits x.id x.index hb).1

theorem slots_apart (h : Placed cfg s) {x y : Slot} (hx : s.Active cfg x.id) (hy : s.Active cfg y.id)
    (hxlt : x.index < cfg.nObjects x.id) (hylt : y.index < cfg.nObjects y.id) (hne : x ≠ y) :
    Apart ((s.layout cfg x.id).addr x.index) (getClassSize x.id.cls)
      ((s.layout cfg y.id).addr y.index) (getClassSize y.id.cls) := by
  apply h.separate.slots_apart hx hy (hxlt.trans_le (HeapConfig.nObjects_le_slots _ _))
    (hylt.trans_le (HeapConfig.nObjects_le_slots _ _))
  intro he
  obtain ⟨hid, hindex⟩ := Prod.mk.inj he
  apply hne
  cases x
  cases y
  simp_all

theorem bit_slot (h : Placed cfg s) {x : Slot} (hb : s.bit x = true) :
    x.index < (s.layout cfg x.id).slots :=
  (h.bits x.id x.index hb).2.trans_le (HeapConfig.nObjects_le_slots _ _)

end Placed

end DieHard
