import DieHard.Scalable.FreesOnce

/-!
# A counter of a queue that wraps around

`_head` and `_tail` are `size_t` counters. Thread 3 tests the queue of heap 1 and stalls in front of its
compare-exchange. Meanwhile heap 2 frees one object of heap 1 again and again, and heap 1 drains it and
allocates it again. After `2 ^ 64` pushes the head has its old value while the queue is full: the
compare-exchange succeeds, and thread 3 stores over a pointer that no drain has seen.
-/

namespace DieHard

open Blocks PerThreadFreeQueue HeapRegistry Transition

namespace ScalableHeap

/-- The places of threads 1, 2 and 3, the queue of heap 1, and the object at 4112 with its bit and the
number of objects of its size class. -/
structure View where
  first : Pc
  second : Pc
  third : Pc
  head : Nat
  tail : Nat
  slot : Addr
  live : Option Object
  bit : Bool
  inUse : Nat
  deriving DecidableEq

def secondSlot : Slot := ⟨⟨1, 0, 0⟩, 1⟩

def View.pc (v : View) : Nat → Pc
  | 1 => v.first
  | 2 => v.second
  | 3 => v.third
  | _ => .idle none

def View.setPc (v : View) (pc : Pc) : Nat → View
  | 1 => { v with first := pc }
  | 2 => { v with second := pc }
  | 3 => { v with third := pc }
  | _ => v

def view (s : ScalableHeap) : View where
  first := (s.threads 1).pc
  second := (s.threads 2).pc
  third := (s.threads 3).pc
  head := (s.queues 0).head
  tail := (s.queues 0).tail
  slot := (s.queues 0).slots 0
  live := s.live 4112
  bit := s.process.bit secondSlot
  inUse := (s.process.random 1 0).inUse

/-- What stays as it is: heaps 1 and 2 are registered, heap 1 has one miniheap of the class, and the
large heap does not know the object. -/
structure Steady (s : ScalableHeap) : Prop where
  nextId : s.nextId = 3
  first : (s.threads 1).registered = true
  second : (s.threads 2).registered = true
  entry : s.registry.entries 0 = some 1
  maxThreadId : s.registry.maxThreadId = 3
  large : s.large.get 4112 = 0
  available : (s.process.random 1 0).available = 65536
  miniHeapsInUse : (s.process.random 1 0).miniHeapsInUse = 1
  addr : (s.process.layout (.libdieharder false false) secondSlot.id).addr 1 = 4112

/-- A steady state of a run. -/
structure Stands (s : ScalableHeap) : Prop where
  reach : Reach (next (.libdieharder false false) eager) (Cooperates (.libdieharder false false) eager)
    blank s
  steady : Steady s

def Shown (v : View) : Prop := ∃ s, Stands s ∧ view s = v

/-- Thread 3 has read head 0 and found room, and heap 1 has drained `n` pointers since. -/
def lapView (n : Nat) : View where
  first := .idle (some (.malloc 4112))
  second := .idle (some (.free true))
  third := .push 4096 0 (.casHead 0)
  head := n
  tail := n
  slot := 0
  live := some ⟨some 1, 16⟩
  bit := true
  inUse := 2

section Steps

variable {s : ScalableHeap}

theorem Steady.move (h : Steady s) {process : Process} (hl : s.process.SameLayout process)
    (queues : Nat → PerThreadFreeQueue) (live : Addr → Option Object)
    (claimed delivered : Nat → List Addr) (k : Nat) (pc : Pc) :
    Steady ({ s with
      process := process
      queues := queues
      live := live
      claimed := claimed
      delivered := delivered }.setPc k pc) := by
  have hflag (j : Nat) : (Function.update s.threads k { s.threads k with pc := pc } j).registered =
      (s.threads j).registered := by
    by_cases hj : j = k
    · rw [hj, Function.update_self]
    · rw [Function.update_of_ne hj]
  refine ⟨h.nextId, (hflag 1).trans h.first, (hflag 2).trans h.second, h.entry, h.maxThreadId, h.large,
    (hl.heaps 1 0).available.trans h.available,
    (hl.heaps 1 0).miniHeapsInUse.trans h.miniHeapsInUse, ?_⟩
  change (process.layout _ _).addr 1 = 4112
  rw [hl.layout_eq]
  exact h.addr

theorem Steady.active (h : Steady s) : s.process.Active (.libdieharder false false) secondSlot.id := by
  refine ⟨by decide, ?_⟩
  change 0 < (s.process.random 1 0).miniHeapsInUse
  rw [h.miniHeapsInUse]
  exact Nat.one_pos

theorem Steady.allocatedAt (h : Steady s) (hbit : s.view.bit = true) :
    AllocatedAt (.libdieharder false false) s secondSlot 4112 := ⟨hbit, h.addr⟩

theorem view_pc (s : ScalableHeap) {k : Nat} (hk : k = 1 ∨ k = 2 ∨ k = 3) :
    s.view.pc k = (s.threads k).pc := by
  rcases hk with rfl | rfl | rfl <;> rfl

theorem view_setPc (s : ScalableHeap) {k : Nat} (hk : k = 1 ∨ k = 2 ∨ k = 3) (pc : Pc) :
    view (s.setPc k pc) = (view s).setPc pc k := by
  rcases hk with rfl | rfl | rfl <;> simp [view, ScalableHeap.setPc, setThread, View.setPc]

theorem view_setPc_first (s : ScalableHeap) (pc : Pc) :
    view (s.setPc 1 pc) = { view s with first := pc } := view_setPc s (Or.inl rfl) pc

theorem view_setPc_second (s : ScalableHeap) (pc : Pc) :
    view (s.setPc 2 pc) = { view s with second := pc } := view_setPc s (Or.inr (Or.inl rfl)) pc

def lapChoice : Choice := ⟨fun _ => 0, (0, 1), false⟩

theorem Stands.inv (h : Stands s) : Inv (.libdieharder false false) eager s :=
  inv_reach (placed_initial _ _ _ _) start_not_active (fun _ _ hok => hok.1) h.reach

theorem Stands.access (h : Stands s) {k : Nat} (hk : k ≤ 3)
    (hok : Cooperates (.libdieharder false false) eager s (.step k lapChoice)) {t : ScalableHeap}
    (hn : threadStep (.libdieharder false false) eager s k lapChoice = some t) (ht : Steady t) :
    Stands t :=
  ⟨h.reach.step hok ((if_pos (h.steady.nextId ▸ hk)).trans hn), ht⟩

end Steps

section Free

variable {s : ScalableHeap} {v : View}

theorem Shown.free (h : Shown v) {last : Option Answer} (hpc : v.second = .idle last)
    (hlive : v.live ≠ none) : Shown { v with second := .freeSmall false 4112, live := none } := by
  obtain ⟨s, h, rfl⟩ := h
  have hat : (s.threads 2).pc = .idle last := hpc
  have hn : next (.libdieharder false false) eager s (.free 2 4112) =
      some ({ s with live := Function.update s.live 4112 none }.setPc 2 (.freeSmall false 4112)) := by
    simp [next, call, hat, h.steady.nextId]
  have hok : Cooperates (.libdieharder false false) eager s (.free 2 4112) :=
    ⟨trivial, trivial, by decide, Or.inr hlive⟩
  refine ⟨_, ⟨h.reach.step hok hn, h.steady.move (.refl _) _ _ _ _ _ _⟩, ?_⟩
  rw [view_setPc_second]
  simp [view]

theorem Stands.second (h : Stands s) (hquiet : s.view.second.quiet = true) (pc : Pc)
    {process : Process} (hl : s.process.SameLayout process)
    (hn : threadStep (.libdieharder false false) eager s 2 lapChoice =
      some ({ s with process := process }.setPc 2 pc)) :
    Stands ({ s with process := process }.setPc 2 pc) :=
  h.access (by decide) (cooperates_of_quiet hquiet) hn (h.steady.move hl ..)

theorem Shown.freeSmall (h : Shown v) (hpc : v.second = .freeSmall false 4112) (hbit : v.bit = true) :
    Shown { v with second := .freeBig false 4112 } := by
  obtain ⟨s, h, rfl⟩ := h
  have hat : (s.threads 2).pc = .freeSmall false 4112 := hpc
  have hplaced := h.inv.placed
  have hx := h.steady.allocatedAt hbit
  rcases hplaced.free_cases 2 4112 with ⟨y, -, ⟨howner, hy, hcontains⟩, -⟩ | ⟨-, env, hfree, hw⟩
  · obtain rfl := hx.eq_of_contains hplaced (hplaced.bit_active hy) hcontains
    cases howner
  · refine ⟨_, h.second (by rw [hpc]; rfl) (.freeBig false 4112) (.env hw) ?_, ?_⟩
    · simp [threadStep, hat, freeStep, hfree]
    · rw [view_setPc_second]
      rfl

theorem Shown.freeBig (h : Shown v) (hpc : v.second = .freeBig false 4112) :
    Shown { v with second := .findOwner 4112 1 true .loadMax } := by
  obtain ⟨s, h, rfl⟩ := h
  have hat : (s.threads 2).pc = .freeBig false 4112 := hpc
  have hid : threadId eager 2 = 1 := by decide
  refine ⟨_, h.second (by rw [hpc]; rfl) (.findOwner 4112 1 true .loadMax) (.refl _) ?_,
    view_setPc_second _ _⟩
  simp [threadStep, hat, freeStep, LargeHeap.free, h.steady.large, refused, h.steady.second,
    fallbackHeap, hid]

theorem Stands.findOwner (h : Stands s) {pc : FindPc} (hpc : s.view.second = .findOwner 4112 1 true pc)
    {process : Process} {r : FindPc ⊕ Option Nat} (hl : s.process.SameLayout process)
    (hr : findStep (.libdieharder false false) s.registry s.large s.process 4112 1 pc = (process, r)) :
    Stands ({ s with process := process }.setPc 2
      (r.elim (.findOwner 4112 1 true) (found eager true 4112))) := by
  have hat : (s.threads 2).pc = .findOwner 4112 1 true pc := hpc
  refine h.second (by rw [hpc]; rfl) _ hl ?_
  simp [threadStep, hat, freeStep, hr]

theorem Shown.loadMax (h : Shown v) (hpc : v.second = .findOwner 4112 1 true .loadMax) :
    Shown { v with second := .findOwner 4112 1 true (.entry 0 3) } := by
  obtain ⟨s, h, rfl⟩ := h
  have hfind : findStep (.libdieharder false false) s.registry s.large s.process 4112 1 .loadMax =
      (s.process, .inl (.entry 0 3)) := by
    rw [findStep, h.steady.maxThreadId]
  exact ⟨_, h.findOwner hpc (.refl _) hfind, view_setPc_second _ _⟩

theorem Shown.entry (h : Shown v) (hpc : v.second = .findOwner 4112 1 true (.entry 0 3)) :
    Shown { v with second := .findOwner 4112 1 true (.ask 0 3 1) } := by
  obtain ⟨s, h, rfl⟩ := h
  have hfind : findStep (.libdieharder false false) s.registry s.large s.process 4112 1 (.entry 0 3) =
      (s.process, .inl (.ask 0 3 1)) := by
    simp [findStep, h.steady.entry]
  exact ⟨_, h.findOwner hpc (.refl _) hfind, view_setPc_second _ _⟩

theorem Stands.classSizeOf_pos (h : Stands s) (hbit : s.view.bit = true) :
    0 < s.process.classSizeOf (.libdieharder false false) 1 4112 0 := by
  have hplaced := h.inv.placed
  have hcontains := (h.steady.allocatedAt hbit).contains hplaced
  have hsize := hplaced.classSizeOf_slot rfl h.steady.active hcontains
  exact hsize.symm ▸ Placed.spaceLeft_pos hcontains

/-- Heap 1 answers for its object from the cached class, or from the first class that it asks. -/
theorem Shown.ask (h : Shown v) (hpc : v.second = .findOwner 4112 1 true (.ask 0 3 1))
    (hbit : v.bit = true) : Shown { v with second := .push 4112 0 .loadHead } := by
  obtain ⟨s, h, rfl⟩ := h
  have hfound : found eager true 4112 (some 0) = .push 4112 0 .loadHead := rfl
  by_cases hcached : 0 ≤ (s.process.heaps 1).cachedSizeClass ∧
      (s.process.heaps 1).cachedSizeClass < (HeapConfig.libdieharder false false).maxIndex ∧
      0 < s.process.classSizeOf (.libdieharder false false) 1 4112
        (s.process.heaps 1).cachedSizeClass.toNat
  · have hfind : findStep (.libdieharder false false) s.registry s.large s.process 4112 1 (.ask 0 3 1) =
        (s.process, .inr (some 0)) := by
      rw [findStep, askStep, if_neg (by decide)]
      exact congrArg _ (if_pos hcached)
    exact ⟨_, h.findOwner hpc (.refl _) hfind, view_setPc_second _ _⟩
  · have hne : ((0 : Nat) : Int) ≠ (s.process.heaps 1).cachedSizeClass := by
      intro hzero
      rw [← hzero] at hcached
      exact hcached ⟨le_rfl, by decide, h.classSizeOf_pos hbit⟩
    have hfind : findStep (.libdieharder false false) s.registry s.large s.process 4112 1 (.ask 0 3 1) =
        (s.process, .inl (.askClass 0 3 1 (s.process.heaps 1).cachedSizeClass 0)) := by
      rw [findStep, askStep, if_neg (by decide)]
      exact congrArg _ (if_neg hcached)
    have h' := h.findOwner hpc (.refl _) hfind
    have hfind' : findStep (.libdieharder false false) s.registry s.large s.process 4112 1
        (.askClass 0 3 1 (s.process.heaps 1).cachedSizeClass 0) =
        (s.process.cacheClass 1 0, .inr (some 0)) := by
      rw [findStep, if_neg (by decide), if_neg hne, if_pos (h.classSizeOf_pos hbit)]
    have hcalm := (s.process.calm_cacheClass 1 0).layout
    refine ⟨_, h'.findOwner (view_setPc_second _ _ ▸ rfl) hcalm hfind', ?_⟩
    rw [view_setPc_second, Sum.elim_inr, hfound]
    rfl

end Free

section Queue

variable {v : View}

theorem slotOf_eager (n : Nat) : slotOf eager n = 0 := Nat.lt_one_iff.mp (slotOf_lt eager n)

/-- The view has the counters and the slot of the queue. -/
structure ShowsQueue (q : PerThreadFreeQueue) (v : View) : Prop where
  head : q.head = v.head
  tail : q.tail = v.tail
  slot : q.slots 0 = v.slot

theorem Shown.push (h : Shown v) {k : Nat} (hk : k = 2 ∨ k = 3) {ptr : Addr} {pc : PushPc}
    (hpc : v.pc k = .push ptr 0 pc) (hroom : ∀ n, pc = .loadTail n → sizeSub n v.tail < 1)
    {head : Nat} {slot : Addr} {r : PushPc ⊕ Bool}
    (hr : ∀ q, ShowsQueue q v → (pushStep eager q ptr false pc).2 = r ∧
      ShowsQueue (pushStep eager q ptr false pc).1 { v with head := head, slot := slot }) :
    Shown ({ v with head := head, slot := slot }.setPc
      (r.elim (.push ptr 0) fun _ => .idle (some (.free true))) k) := by
  obtain ⟨s, h, rfl⟩ := h
  have hk' : k = 1 ∨ k = 2 ∨ k = 3 := Or.inr hk
  have hat : (s.threads k).pc = .push ptr 0 pc := (view_pc s hk').symm.trans hpc
  obtain ⟨hr, hqueue⟩ := hr (s.queues 0) ⟨rfl, rfl, rfl⟩
  have hn : threadStep (.libdieharder false false) eager s k lapChoice =
      some ({ s with
        queues := Function.update s.queues 0 (pushStep eager (s.queues 0) ptr false pc).1
        claimed := Function.update s.claimed 0
          (s.claimed 0 ++ QueueState.claims (s.queues 0) ptr false pc) }.setPc k
            (r.elim (.push ptr 0) fun _ => .idle (some (.free true)))) := by
    rw [← hr]
    simp [threadStep, hat, freeStep, lapChoice]
  have hok : Cooperates (.libdieharder false false) eager s (.step k lapChoice) := by
    refine ⟨?_, ?_, trivial⟩
    · simp only [MemoryOk, hat]
    · cases pc with
      | loadTail n =>
        simp only [NotFull, hat]
        exact hroom n rfl
      | _ => simp only [NotFull, hat]
  refine ⟨_, h.access (by omega) hok hn (h.steady.move (.refl _) _ _ _ _ _ _), ?_⟩
  rw [view_setPc _ hk']
  simp [view, hqueue.head, hqueue.tail, hqueue.slot]

theorem Shown.loadHead (h : Shown v) (hpc : v.second = .push 4112 0 .loadHead) :
    Shown { v with second := .push 4112 0 (.loadTail v.head) } := by
  apply h.push (Or.inl rfl) hpc (by simp) (r := .inl (.loadTail v.head))
  intro q hq
  exact ⟨by rw [pushStep, hq.head], hq⟩

theorem Shown.loadTail (h : Shown v) {n : Nat} (hpc : v.second = .push 4112 0 (.loadTail n))
    (hroom : sizeSub n v.tail < 1) : Shown { v with second := .push 4112 0 (.casHead n) } := by
  apply h.push (Or.inl rfl) hpc (by rintro m ⟨⟩; exact hroom) (r := .inl (.casHead n))
  intro q hq
  rw [pushStep, hq.tail, if_neg (show ¬ eager.freeQueueCapacity ≤ _ from Nat.not_le.mpr hroom)]
  exact ⟨rfl, hq⟩

theorem Shown.casHead (h : Shown v) {k : Nat} (hk : k = 2 ∨ k = 3) {ptr : Addr}
    (hpc : v.pc k = .push ptr 0 (.casHead v.head)) :
    Shown ({ v with head := sizeSucc v.head }.setPc (.push ptr 0 (.storeSlot v.head)) k) := by
  apply h.push hk hpc (by simp) (r := .inl (.storeSlot v.head))
  intro q hq
  rw [pushStep, if_pos ⟨hq.head, rfl⟩]
  exact ⟨rfl, rfl, hq.tail, hq.slot⟩

theorem Shown.storeSlot (h : Shown v) {k : Nat} (hk : k = 2 ∨ k = 3) {ptr : Addr} {n : Nat}
    (hpc : v.pc k = .push ptr 0 (.storeSlot n)) :
    Shown ({ v with slot := ptr }.setPc (.idle (some (.free true))) k) := by
  apply h.push hk hpc (by simp) (r := .inr true)
  intro q hq
  rw [pushStep, slotOf_eager]
  exact ⟨rfl, hq.head, hq.tail, Function.update_self 0 ptr q.slots⟩

end Queue

section Malloc

variable {v : View}

theorem Shown.drain (h : Shown v) {pc : DrainPc} (hpc : v.first = .drain 16 pc)
    (hno : QueueState.delivers pc = []) {tail : Nat} {slot : Addr} {r : DrainPc ⊕ Nat}
    (hr : ∀ q, ShowsQueue q v → (drainStep eager q pc).2 = r ∧
      ShowsQueue (drainStep eager q pc).1 { v with tail := tail, slot := slot }) :
    Shown { v with
      first := r.elim (.drain 16) fun _ => .grow 16
      tail := tail
      slot := slot } := by
  obtain ⟨s, h, rfl⟩ := h
  have hat : (s.threads 1).pc = .drain 16 pc := hpc
  obtain ⟨hr, hqueue⟩ := hr (s.queues 0) ⟨rfl, rfl, rfl⟩
  have hn : threadStep (.libdieharder false false) eager s 1 lapChoice =
      some (consume (.libdieharder false false) eager s 1 16 pc) := by
    cases pc with
    | callback t hd n ptr => cases hno
    | _ => simp [threadStep, hat, mallocStep]
  have hid : threadId eager 1 = 0 := by decide
  have hgrow : allocate (.libdieharder false false) 16 = .grow 16 := by decide
  refine ⟨_, h.access (by decide) (cooperates_of_quiet (by rw [hat]; rfl)) hn
    (h.steady.move (.refl _) _ _ _ _ _ _), ?_⟩
  rw [consume, view_setPc_first, hid, hr, hgrow]
  simp [view, hqueue.head, hqueue.tail, hqueue.slot]

theorem Shown.drainLoadTail (h : Shown v) (hpc : v.first = .drain 16 .loadTail) :
    Shown { v with first := .drain 16 (.loadHead v.tail) } := by
  apply h.drain hpc rfl (r := .inl (.loadHead v.tail))
  intro q hq
  exact ⟨by rw [drainStep, hq.tail], hq⟩

theorem Shown.drainLoadHead (h : Shown v) {t : Nat} (hpc : v.first = .drain 16 (.loadHead t)) :
    Shown { v with first := .drain 16 (.loadSlot t v.head 0) } := by
  apply h.drain hpc rfl (r := .inl (.loadSlot t v.head 0))
  intro q hq
  exact ⟨by rw [drainStep, hq.head], hq⟩

theorem Shown.loadSlot (h : Shown v) {t hd n : Nat} (hpc : v.first = .drain 16 (.loadSlot t hd n))
    (hlt : t < hd) (hslot : v.slot ≠ 0) :
    Shown { v with first := .drain 16 (.clearSlot t hd n v.slot) } := by
  apply h.drain hpc rfl (r := .inl (.clearSlot t hd n v.slot))
  intro q hq
  simp only [drainStep, if_pos hlt, slotOf_eager, hq.slot, if_neg hslot]
  exact ⟨trivial, hq⟩

theorem Shown.endSlots (h : Shown v) {t hd n : Nat} (hpc : v.first = .drain 16 (.loadSlot t hd n))
    (hle : hd ≤ t) : Shown { v with first := .drain 16 (.storeTail t n) } := by
  apply h.drain hpc rfl (r := .inl (.storeTail t n))
  intro q hq
  rw [drainStep, if_neg (Nat.not_lt.mpr hle)]
  exact ⟨rfl, hq⟩

theorem Shown.clearSlot (h : Shown v) {t hd n : Nat} {ptr : Addr}
    (hpc : v.first = .drain 16 (.clearSlot t hd n ptr)) :
    Shown { v with first := .drain 16 (.callback t hd n ptr), slot := 0 } := by
  apply h.drain hpc rfl (r := .inl (.callback t hd n ptr))
  intro q hq
  rw [drainStep, slotOf_eager]
  exact ⟨rfl, hq.head, hq.tail, Function.update_self 0 0 q.slots⟩

theorem Shown.storeTail (h : Shown v) {t n : Nat} (hpc : v.first = .drain 16 (.storeTail t n)) :
    Shown { v with first := .grow 16, tail := t } := by
  apply h.drain hpc rfl (r := .inr n)
  intro q hq
  exact ⟨rfl, hq.head, rfl, hq.slot⟩

/-- The drain releases the slot of the object. -/
theorem Shown.callback (h : Shown v) {t hd n : Nat} (hpc : v.first = .drain 16 (.callback t hd n 4112))
    (hbit : v.bit = true) :
    Shown { v with
      first := .drain 16 (.loadSlot (sizeSucc t) hd (n + 1))
      bit := false
      inUse := sizeSub v.inUse 1 } := by
  obtain ⟨s, h, rfl⟩ := h
  have hat : (s.threads 1).pc = .drain 16 (.callback t hd n 4112) := hpc
  have hplaced := h.inv.placed
  have hx := h.steady.allocatedAt hbit
  rcases hplaced.free_cases 1 4112 with ⟨y, process, ⟨-, hy, hcontains⟩, hfree, hf⟩ | ⟨hno, -⟩
  · obtain rfl := hx.eq_of_contains hplaced (hplaced.bit_active hy) hcontains
    have hn : threadStep (.libdieharder false false) eager s 1 lapChoice =
        some (consume (.libdieharder false false) eager { s with process := process } 1 16
          (.callback t hd n 4112)) := by
      simp [threadStep, hat, mallocStep, hfree]
    have hid : threadId eager 1 = 0 := by decide
    refine ⟨_, h.access (by decide) (cooperates_of_quiet (by rw [hat]; rfl)) hn
      (h.steady.move hf.layout _ _ _ _ _ _), ?_⟩
    have hclear : process.bit secondSlot = false := by simp [hf.bit_eq]
    have hcount : (process.random 1 0).inUse = sizeSub (s.process.random 1 0).inUse 1 := by
      rw [hf.inUse, if_pos ⟨rfl, rfl⟩]
    rw [consume, view_setPc_first, hid]
    simp [view, hclear, hcount, drainStep]
  · exact absurd ⟨rfl, hbit, hx.contains hplaced⟩ (hno secondSlot)

theorem Shown.malloc (h : Shown v) {last : Option Answer} (hpc : v.first = .idle last) :
    Shown { v with first := .drainHead 16 } := by
  obtain ⟨s, h, rfl⟩ := h
  have hat : (s.threads 1).pc = .idle last := hpc
  have hn : next (.libdieharder false false) eager s (.malloc 1 16) =
      some (s.setThread 1 (callMalloc (.libdieharder false false) eager 1 16 (s.threads 1))) := by
    simp [next, call, hat, h.steady.nextId]
  have hok : Cooperates (.libdieharder false false) eager s (.malloc 1 16) :=
    ⟨trivial, trivial, show 1 ≠ fallbackHeap ∧ 16 ≤ _ by decide⟩
  have hcall : callMalloc (.libdieharder false false) eager 1 16 (s.threads 1) =
      { s.threads 1 with
        allocCount := ((s.threads 1).allocCount + 1) % 2 ^ 32
        pc := .drainHead 16 } := by
    rw [callMalloc, if_neg (by decide), if_pos h.steady.first, countMalloc]
    simp [eager]
  rw [hcall] at hn
  refine ⟨_, ⟨h.reach.step hok hn, ?_⟩, ?_⟩
  · have hs := h.steady
    exact ⟨hs.nextId, hs.first, hs.second, hs.entry, hs.maxThreadId, hs.large, hs.available,
      hs.miniHeapsInUse, hs.addr⟩
  · simp [view, setThread]

theorem Shown.first (h : Shown v) {pc : Pc} (hquiet : v.first.quiet = true)
    (hn : ∀ s, view s = v → threadStep (.libdieharder false false) eager s 1 lapChoice =
      some (s.setPc 1 pc)) : Shown { v with first := pc } := by
  obtain ⟨s, h, rfl⟩ := h
  exact ⟨_, h.access (by decide) (cooperates_of_quiet hquiet) (hn s rfl)
    (h.steady.move (.refl _) _ _ _ _ _ _), view_setPc_first _ _⟩

theorem Shown.drainHead (h : Shown v) (hpc : v.first = .drainHead 16) :
    Shown { v with first := .drainTail 16 v.head } := by
  apply h.first (by rw [hpc]; rfl)
  rintro s rfl
  have hat : (s.threads 1).pc = .drainHead 16 := hpc
  have hid : threadId eager 1 = 0 := by decide
  simp only [threadStep, hat, mallocStep, hid]
  rfl

theorem Shown.drainTail (h : Shown v) {n : Nat} (hpc : v.first = .drainTail 16 n)
    (hdrain : sizeSub n v.tail = 1) : Shown { v with first := .drain 16 .loadTail } := by
  apply h.first (by rw [hpc]; rfl)
  rintro s rfl
  have hat : (s.threads 1).pc = .drainTail 16 n := hpc
  have hdrain' : shouldDrain eager n (s.queues (threadId eager 1)).tail = true :=
    decide_eq_true hdrain.ge
  simp [threadStep, hat, mallocStep, hdrain']

theorem Shown.grow (h : Shown v) (hpc : v.first = .grow 16) (huse : v.inUse = 1) :
    Shown { v with first := .getObject 16 } := by
  obtain ⟨s, h, rfl⟩ := h
  have hat : (s.threads 1).pc = .grow 16 := hpc
  have hclass : requestClass 16 = 0 := by decide
  have hroom : (s.process.random 1 0).needsGrowth (.libdieharder false false) = false := by
    rw [RandomHeap.needsGrowth, h.steady.available, show (s.process.random 1 0).inUse = 1 from huse]
    decide
  have hn : threadStep (.libdieharder false false) eager s 1 lapChoice =
      some (s.setPc 1 (.getObject 16)) := by
    simp [threadStep, hat, mallocStep, hclass, hroom]
  refine ⟨_, h.access (by decide) ⟨?_, ?_, trivial⟩ hn (h.steady.move (.refl _) _ _ _ _ _ _),
    view_setPc_first _ _⟩
  · simp only [MemoryOk, hat, hclass]
    intro hneed
    rw [hroom] at hneed
    cases hneed
  · simp only [NotFull, hat]

/-- The draw takes the second slot. -/
theorem Shown.getObject (h : Shown v) (hpc : v.first = .getObject 16) (hbit : v.bit = false) :
    Shown { v with
      first := .idle (some (.malloc 4112))
      live := some ⟨some 1, 16⟩
      bit := true
      inUse := sizeSucc v.inUse } := by
  obtain ⟨s, h, rfl⟩ := h
  have hat : (s.threads 1).pc = .getObject 16 := hpc
  have hclass : requestClass 16 = 0 := by decide
  have hactive := h.steady.active
  have hdrawn : s.process.drawn (.libdieharder false false) 1 0 (0, 1) = secondSlot := by
    have hchosen : (s.process.random 1 0).chosenMiniHeap 0 = 0 := by
      rw [RandomHeap.chosenMiniHeap, Nat.zero_and]
      decide
    rw [Process.drawn, hchosen]
    decide
  have hclear : s.process.bit (s.process.drawn (.libdieharder false false) 1 0 (0, 1)) = false := by
    rw [hdrawn]
    exact hbit
  have hcls : 0 < (HeapConfig.libdieharder false false).maxIndex := hactive.1
  have hpos : 0 < (s.process.random 1 0).miniHeapsInUse := hactive.2
  obtain ⟨env, hget, hw⟩ := h.inv.placed.getObject_clear hcls hpos hclear
  have haddr : (s.process.layout (.libdieharder false false) secondSlot.id).addr secondSlot.index =
      4112 := h.steady.addr
  rw [hdrawn, haddr] at hget
  have htook : s.process.Took (.libdieharder false false) secondSlot
      (s.process.setRandom 1 0 ((s.process.random 1 0).setBit secondSlot).addInUse env) :=
    Process.took_setBit hactive (by decide) hbit hw
  have hn : threadStep (.libdieharder false false) eager s 1 lapChoice =
      some ({ s with
        process := s.process.setRandom 1 0 ((s.process.random 1 0).setBit secondSlot).addInUse env
        live := Function.update s.live 4112 (some ⟨some 1, 16⟩) }.setPc 1
          (.idle (some (.malloc 4112)))) := by
    simp only [threadStep, hat, mallocStep, hclass, lapChoice, hget]
    rfl
  refine ⟨_, h.access (by decide) (cooperates_of_quiet (by rw [hat]; rfl)) hn
    (h.steady.move htook.layout _ _ _ _ _ _), ?_⟩
  have hset : (s.process.setRandom 1 0 ((s.process.random 1 0).setBit secondSlot).addInUse env).bit
      secondSlot = true := by
    rw [htook.bit_eq]
    simp
  have hcount : ((s.process.setRandom 1 0 ((s.process.random 1 0).setBit secondSlot).addInUse
      env).random 1 0).inUse = sizeSucc (s.process.random 1 0).inUse := by
    rw [htook.inUse, if_pos ⟨rfl, rfl⟩]
  rw [view_setPc_first]
  simp [view, hset, hcount]

end Malloc

def freeing (n : Nat) (second : Pc) (head : Nat) (slot : Addr) : View :=
  { lapView n with second := second, head := head, slot := slot, live := none }

theorem Shown.pushed {n : Nat} (h : Shown (lapView n)) (hn : n < sizeRange) :
    Shown (freeing n (.idle (some (.free true))) (sizeSucc n) 4112) := by
  have hroom : sizeSub n n < 1 := by
    rw [sizeSub_of_le le_rfl hn, Nat.sub_self]
    exact Nat.one_pos
  have hsmall : Shown (freeing n (.freeSmall false 4112) n 0) := h.free rfl (Option.some_ne_none _)
  have hbig : Shown (freeing n (.freeBig false 4112) n 0) := hsmall.freeSmall rfl rfl
  have hmax : Shown (freeing n (.findOwner 4112 1 true .loadMax) n 0) := hbig.freeBig rfl
  have hentry : Shown (freeing n (.findOwner 4112 1 true (.entry 0 3)) n 0) := hmax.loadMax rfl
  have hask : Shown (freeing n (.findOwner 4112 1 true (.ask 0 3 1)) n 0) := hentry.entry rfl
  have hhead : Shown (freeing n (.push 4112 0 .loadHead) n 0) := hask.ask rfl rfl
  have htail : Shown (freeing n (.push 4112 0 (.loadTail n)) n 0) := hhead.loadHead rfl
  have hcas : Shown (freeing n (.push 4112 0 (.casHead n)) n 0) := htail.loadTail rfl hroom
  have hstore : Shown (freeing n (.push 4112 0 (.storeSlot n)) (sizeSucc n) 0) :=
    hcas.casHead (Or.inl rfl) rfl
  exact hstore.storeSlot (Or.inl rfl) rfl

/-- Heap 1 drains it and allocates it again. -/
def draining (n : Nat) (first : Pc) (tail : Nat) (slot : Addr) (bit : Bool) (inUse : Nat) : View where
  first := first
  second := .idle (some (.free true))
  third := .push 4096 0 (.casHead 0)
  head := n + 1
  tail := tail
  slot := slot
  live := none
  bit := bit
  inUse := inUse

theorem Shown.lap {n : Nat} (h : Shown (lapView n)) (hn : n + 1 < sizeRange) :
    Shown (lapView (n + 1)) := by
  have hsucc : sizeSucc n = n + 1 := sizeSucc_of_lt hn
  have hdrain : sizeSub (n + 1) n = 1 := by
    rw [sizeSub_of_le (by omega) hn]
    omega
  have hpushed := h.pushed (by omega)
  rw [hsucc] at hpushed
  -- the owner finds one pointer behind its tail
  have hhead : Shown (draining n (.drainHead 16) n 4112 true 2) := hpushed.malloc rfl
  have htail : Shown (draining n (.drainTail 16 (n + 1)) n 4112 true 2) := hhead.drainHead rfl
  have hload : Shown (draining n (.drain 16 .loadTail) n 4112 true 2) := htail.drainTail rfl hdrain
  have hload' : Shown (draining n (.drain 16 (.loadHead n)) n 4112 true 2) := hload.drainLoadTail rfl
  have hslot : Shown (draining n (.drain 16 (.loadSlot n (n + 1) 0)) n 4112 true 2) :=
    hload'.drainLoadHead rfl
  have hclear : Shown (draining n (.drain 16 (.clearSlot n (n + 1) 0 4112)) n 4112 true 2) :=
    hslot.loadSlot rfl (Nat.lt_succ_self n) (show 4112 ≠ 0 by decide)
  have hcall : Shown (draining n (.drain 16 (.callback n (n + 1) 0 4112)) n 0 true 2) :=
    hclear.clearSlot rfl
  have hfreed : Shown (draining n (.drain 16 (.loadSlot (sizeSucc n) (n + 1) 1)) n 0 false
      (sizeSub 2 1)) := hcall.callback rfl rfl
  rw [hsucc, show sizeSub 2 1 = 1 by decide] at hfreed
  -- the slot of the object is clear, so the same draw takes it again
  have hend : Shown (draining n (.drain 16 (.storeTail (n + 1) 1)) n 0 false 1) :=
    hfreed.endSlots rfl le_rfl
  have hgrow : Shown (draining n (.grow 16) (n + 1) 0 false 1) := hend.storeTail rfl
  have hobject : Shown (draining n (.getObject 16) (n + 1) 0 false 1) := hgrow.grow rfl rfl
  exact hobject.getObject rfl rfl

/-- Heap 1 allocates two objects, thread 3 stalls in its free of the first, and heap 2 frees the second
once. -/
def firstLap : List Action :=
  [.create, .create, .create, .malloc 1 16] ++ accesses 1 9 4096 (0, 0) ++ [.malloc 1 16] ++
    accesses 1 4 0 (0, 1) ++ [.free 3 4096] ++ accesses 3 12 0 (0, 0) ++ [.free 2 4112] ++
    accesses 2 11 0 (0, 0) ++ [.malloc 1 16] ++ accesses 1 11 0 (0, 1)

private theorem guarded_firstLap : Guarded (next (.libdieharder false false) eager)
    (Cooperates (.libdieharder false false) eager) blank firstLap :=
  guarded_of_small (guarded_of_bool (by decide +kernel))

theorem shown_firstLap : Shown (lapView 1) := by
  refine ⟨_, ⟨reach_final guarded_firstLap (by decide +kernel), ?_⟩, by decide +kernel⟩
  constructor <;> decide +kernel

theorem shown_lapView {n : Nat} (hpos : 0 < n) (hn : n < sizeRange) : Shown (lapView n) := by
  induction n, hpos using Nat.le_induction with
  | base => exact shown_firstLap
  | succ n _ ih => exact (ih (by omega)).lap hn

/-- The head has wrapped around, and thread 3 stores over the pointer of heap 2. -/
def overwritten : View where
  first := .idle (some (.malloc 4112))
  second := .idle (some (.free true))
  third := .idle (some (.free true))
  head := sizeSucc 0
  tail := sizeRange - 1
  slot := 4096
  live := none
  bit := true
  inUse := 2

theorem shown_overwritten : Shown overwritten := by
  have hpushed := (shown_lapView (n := sizeRange - 1) (by decide) (by decide)).pushed (by decide)
  rw [show sizeSucc (sizeRange - 1) = 0 by decide] at hpushed
  -- the head is 0 again, as thread 3 has read it, and the test for a full queue lies behind
  have hpc : (freeing (sizeRange - 1) (.idle (some (.free true))) 0 4112).pc 3 =
      .push 4096 0 (.casHead 0) := rfl
  have hclaimed := hpushed.casHead (Or.inr rfl) hpc
  exact hclaimed.storeSlot (Or.inr rfl) rfl

/-- The object of heap 2 keeps its bit, although nobody holds it and no free of it is pending. -/
theorem not_freesOnce_wrapped : ¬ ∀ e : Execution (next (.libdieharder false false) eager)
    (Cooperates (.libdieharder false false) eager) blank, FreesOnce e := by
  intro h
  obtain ⟨s, hs, hv⟩ := shown_overwritten
  obtain ⟨e, rfl⟩ := Execution.exists_of_reach hs.reach
  have horderly := Execution.orderly e le_rfl
  have hset := hs.steady
  have hidle (k : Nat) : ((e.state e.length).threads k).pc.isIdle = true := by
    by_cases hk : k = 1 ∨ k = 2 ∨ k = 3
    · rw [← view_pc _ hk, hv]
      rcases hk with rfl | rfl | rfl <;> rfl
    · rcases Nat.eq_zero_or_pos k with rfl | hpos
      · exact horderly.fallback
      · exact horderly.beyond k (by rw [hset.nextId]; omega)
  have hbit : (e.state e.length).view.bit = true := by
    rw [hv]
    rfl
  have hlive : (e.state e.length).live 4112 = none := congrArg View.live hv
  have hslots : ((e.state e.length).queues (threadId eager 1)).slots 0 = 4096 := congrArg View.slot hv
  have haddr : ((e.state e.length).process.layout (.libdieharder false false) secondSlot.id).addr
      secondSlot.index = 4112 := hset.addr
  have hindex := ((hset.allocatedAt hbit).contains hs.inv.placed).1
  have hlost := (((h e).bitmaps e.length le_rfl).bit_iff secondSlot hset.active hindex).mp hbit
  rw [haddr] at hlost
  rcases hlost with ⟨sz, hl⟩ | ⟨k, hk⟩ | ⟨j, hj, hslot⟩ | hhand
  · rw [hlive] at hl
    cases hl
  · rw [Pc.freeing_of_isIdle (hidle k)] at hk
    cases hk
  · obtain rfl : j = 0 := Nat.lt_one_iff.mp hj
    change ((e.state e.length).queues (threadId eager 1)).slots 0 = 4112 at hslot
    rw [hslots] at hslot
    cases hslot
  · rw [Pc.inHand_of_isIdle (hidle _)] at hhand
    cases hhand

end ScalableHeap

end DieHard
