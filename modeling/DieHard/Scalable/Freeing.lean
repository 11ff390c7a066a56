import DieHard.Scalable.Calls
import DieHard.Scalable.Lookup

/-!
# No free is lost

A call of `free` that returns true has released the object, or it has stored the pointer in the queue
of the heap that allocated it. A push that finds the queue full breaks this: its answer is dropped and
the call returns true all the same.
-/

namespace DieHard

open Blocks PerThreadFreeQueue HeapRegistry Transition

namespace ScalableHeap

variable {cfg : HeapConfig} {pool : PoolConfig} {s s' : ScalableHeap}

/-- The full test of a push does not fire. -/
def NotFull (pool : PoolConfig) (s : ScalableHeap) : Action → Prop
  | .step k _ => match (s.threads k).pc with
    | .push _ ownerId (.loadTail currentHead) =>
      sizeSub currentHead (s.queues ownerId).tail < pool.freeQueueCapacity
    | _ => True
  | _ => True

instance (pool : PoolConfig) (s : ScalableHeap) : (a : Action) → Decidable (NotFull pool s a)
  | .create | .malloc _ _ | .free _ _ | .findOwner _ _ _ => isTrue trivial
  | .step k _ => by
    change Decidable (match (s.threads k).pc with
      | .push _ ownerId (.loadTail currentHead) =>
        sizeSub currentHead (s.queues ownerId).tail < pool.freeQueueCapacity
      | _ => True)
    exact match (s.threads k).pc with
      | .push _ _ (.loadTail _) => Nat.decLt _ _
      | .push _ _ .loadHead | .push _ _ (.casHead _) | .push _ _ (.storeSlot _) => isTrue trivial
      | .idle _ | .register _ _ | .drainHead _ | .drainTail _ _ | .drain _ _ | .drainBig _ _ _ _ _
      | .grow _ | .getObject _ | .mapLarge _ | .freeSmall _ _ | .freeBig _ _ | .findOwner _ _ _ _ =>
        isTrue trivial

def Queued (pool : PoolConfig) (s : ScalableHeap) (heap : Nat) (ptr : Addr) : Prop :=
  heap ≠ fallbackHeap ∧
    ∃ j < pool.freeQueueCapacity, (s.queues (threadId pool heap)).slots j = ptr

instance (pool : PoolConfig) (s : ScalableHeap) (heap : Nat) (ptr : Addr) :
    Decidable (Queued pool s heap ptr) :=
  inferInstanceAs (Decidable (_ ∧ _))

/-- The places of a call `free(ptr)` whose push goes to the queue of heap `owner`. -/
def Freeing (pool : PoolConfig) (ptr : Addr) (owner : Nat) : Pc → Prop
  | .freeSmall _ p => p = ptr
  | .freeBig _ p => p = ptr
  | .register call _ => call = .free ptr
  | .findOwner p _ slow _ => p = ptr ∧ slow = true
  | .push p id _ => p = ptr ∧ HasId pool owner id
  | _ => False

section Access

variable {t : Nat} {c : Choice} {ptr : Addr} {x : Slot}

private theorem refused_freeing (pool : PoolConfig) (owner k : Nat) (again : Bool) (h : OwnershipTrackingHeap) :
    Freeing pool ptr owner (refused pool k again ptr h) ∨
      refused pool k again ptr h = .idle (some (.free false)) := by
  rw [refused]
  split
  · exact Or.inr rfl
  · split
    · exact Or.inl ⟨rfl, rfl⟩
    · exact Or.inl rfl

private theorem registered_freeing (owner k : Nat) (pc : RegisterPc ⊕ Unit)
    (h : OwnershipTrackingHeap) :
    Freeing pool ptr owner (registered cfg pool (.free ptr) pc k h).pc := by
  rcases pc with pc | ⟨⟩
  · rfl
  · exact ⟨rfl, rfl⟩

theorem found_owner {heap id : Nat} (hid : HasId pool heap id) (ptr : Addr) :
    found pool true ptr (some id) = .push ptr id .loadHead := by
  rw [found, if_pos rfl]
  exact if_pos hid.2.2

theorem push_access {id : Nat} {pc : PushPc} (hs : Step cfg pool s (.step t c) s')
    (hfull : NotFull pool s (.step t c)) (hpc : (s.threads t).pc = .push ptr id pc) :
    (∃ pc', (s'.threads t).pc = .push ptr id pc') ∨ (s'.threads t).pc = .idle (some (.free true)) ∧
      (∃ n, pc = .storeSlot n) ∧ ∃ j < pool.freeQueueCapacity, (s'.queues id).slots j = ptr := by
  obtain ⟨hqueue, hpc'⟩ := hs.atPush hpc
  cases pc with
  | loadHead => exact Or.inl ⟨_, hpc'⟩
  | loadTail currentHead =>
    simp only [NotFull, hpc] at hfull
    simp only [pushStep, if_neg (Nat.not_le.mpr hfull)] at hpc'
    exact Or.inl ⟨_, hpc'⟩
  | casHead currentHead =>
    simp only [pushStep] at hpc'
    split at hpc' <;> exact Or.inl ⟨_, hpc'⟩
  | storeSlot currentHead =>
    refine Or.inr ⟨hpc', ⟨_, rfl⟩, slotOf pool currentHead, slotOf_lt _ _, ?_⟩
    rw [hqueue]
    exact Function.update_self _ _ _

/-- An access of a free of an address in slot `x`: the call goes on, or it returns. If it returns
true, the bit of the slot is clear or the queue of the owner holds the pointer. -/
theorem freeing_access (h : Inv cfg pool s) (hs : Step cfg pool s (.step t c) s')
    (hask : AsksOwner cfg s (.step t c)) (hfull : NotFull pool s (.step t c))
    (ha : s.process.Active cfg x.id) (hx : (s.process.layout cfg x.id).Contains x.index ptr)
    (hf : Freeing pool ptr x.id.owner (s.threads t).pc) :
    Freeing pool ptr x.id.owner (s'.threads t).pc ∨
      ∃ freed, (s'.threads t).pc = .idle (some (.free freed)) ∧
        (freed = true → s'.process.bit x = false ∨ Queued pool s' x.id.owner ptr) := by
  cases hpc : (s.threads t).pc with
  | freeSmall again p =>
    rw [hpc] at hf
    obtain rfl : p = ptr := hf
    rcases hs.atFreeSmall hpc with ⟨y, ⟨-, hb, hy⟩, hfreed, hpc'⟩ | ⟨-, hpc'⟩
    · obtain rfl := h.placed.slot_eq ha (h.placed.bit_active hb) hx hy
      refine Or.inr ⟨true, hpc', fun _ => Or.inl ?_⟩
      rw [hfreed.bit_eq]
      simp
    · rw [hpc']
      exact Or.inl rfl
  | freeBig again p =>
    rw [hpc] at hf
    obtain rfl : p = ptr := hf
    rcases hs.atFreeBig hpc with ⟨hne, -, -⟩ | ⟨-, hpc'⟩
    · exact absurd (h.large x.id ha _ p hx.inBlock) hne
    · rw [hpc']
      rcases refused_freeing pool x.id.owner t again (s.threads t) with hgo | hend
      · exact Or.inl hgo
      · exact Or.inr ⟨false, hend, fun he => by cases he⟩
  | register call pc =>
    rw [hpc] at hf
    obtain rfl : call = .free ptr := hf
    rw [hs.atRegister hpc]
    exact Or.inl (registered_freeing _ _ _ _)
  | findOwner p e slow pc =>
    rw [hpc] at hf
    obtain ⟨rfl, rfl⟩ := hf
    have hok := h.threads t
    rw [hpc] at hok
    rw [hs.atFindOwner hpc]
    rcases hr : (findStep cfg s.registry s.large s.process p e pc).2 with pc' | _ | id
    · exact Or.inl ⟨rfl, rfl⟩
    · exact Or.inl rfl
    · have hid := findStep_owner h ha hx (fun i maxId heap he hd =>
        hask p e true i maxId heap (he ▸ hpc) hd x ha hx) hok.2 hr
      rw [Sum.elim_inr, found_owner hid]
      exact Or.inl ⟨rfl, hid⟩
  | push p id pc =>
    rw [hpc] at hf
    obtain ⟨rfl, hid⟩ := hf
    rcases push_access hs hfull hpc with ⟨pc', hpc'⟩ | ⟨hpc', -, hstored⟩
    · rw [hpc']
      exact Or.inl ⟨rfl, hid⟩
    · refine Or.inr ⟨true, hpc', fun _ => Or.inr ⟨hid.1, ?_⟩⟩
      rwa [hid.2.1]
  | _ =>
    rw [hpc] at hf
    exact hf.elim

end Access

section Runs

variable {ok : ScalableHeap → Action → Prop} {init : ScalableHeap}

/-- What has become of the object at `ptr` when a free that began with action `a` returns with action
`b`: the bit of its slot is clear or the queue of its heap holds the pointer. A large object has no
entry in the map of large objects at some moment of the call. -/
def Disposed (e : Execution (next cfg pool) ok init) (a b : Nat) (ptr : Addr) (object : Object) :
    Prop :=
  match object.heap with
  | some heap => (∃ x : Slot, (e.state (b + 1)).process.Active cfg x.id ∧
      ((e.state (b + 1)).process.layout cfg x.id).Contains x.index ptr ∧ x.id.owner = heap ∧
      (e.state (b + 1)).process.bit x = false) ∨ Queued pool (e.state (b + 1)) heap ptr
  | none => ∃ m, a < m ∧ m ≤ b + 1 ∧ (e.state m).large.get ptr = 0

def NoFreeLost (e : Execution (next cfg pool) ok init) : Prop :=
  ∀ a b t ptr object, (e.state a).live ptr = some object → e.action a = .free t ptr →
    Returns e t a b (.free true) → Disposed e a b ptr object

variable {localRandom : Nat → BitVec 64} {random : Nat → Nat → Nat → BitVec 64}
  {mem : Addr → BitVec 8} {mapped : List (Addr × Nat)}

/-- The conditions on the steps of a run: fresh memory, and neither of the two ways to lose a
pointer. -/
def LosesNone (cfg : HeapConfig) (pool : PoolConfig) (s : ScalableHeap) (a : Action) : Prop :=
  MemoryOk cfg s a ∧ AsksOwner cfg s a ∧ NotFull pool s a

section NoFreeLost

variable (e : Execution (next cfg pool) (LosesNone cfg pool) (start localRandom random mem mapped))
  {a b t : Nat} {ptr : Addr}

private theorem smallFreed {heap sz : Nat} (hl : (e.state a).live ptr = some ⟨some heap, sz⟩)
    (hact : e.action a = .free t ptr) (hret : Returns e t a b (.free true)) :
    Disposed e a b ptr ⟨some heap, sz⟩ := by
  have hok : ∀ s a, LosesNone cfg pool s a → MemoryOk cfg s a := fun _ _ h => h.1
  have hab := hret.lt
  have hlen := hret.lt_length
  obtain ⟨x, hactive, hindex, rfl, -, rfl⟩ :=
    (Execution.inv e hok (k := a) (by omega)).live ptr heap sz hl
  have hslot {m : Nat} (ham : a ≤ m) (hm : m ≤ e.length) :
      (e.state m).process.Active cfg x.id ∧ ((e.state m).process.layout cfg x.id).Contains x.index
        (((e.state a).process.layout cfg x.id).addr x.index) := by
    have hext := Execution.extends e hok ham hm
    exact ⟨hext.active _ hactive, hext.contains hactive (Layout.contains_addr hindex)⟩
  have hstep {m : Nat} (ham : a ≤ m) (hm : m < e.length) {c : Choice}
      (hc : e.action m = .step t c) := by
    have hs := Execution.stepAt e hok hm
    have hguard := e.guarded m hm
    rw [hc] at hs hguard
    obtain ⟨ha, hx⟩ := hslot ham hm.le
    exact freeing_access (Execution.inv e hok hm.le) hs hguard.2.1 hguard.2.2 ha hx
  have hplace : Freeing pool (((e.state a).process.layout cfg x.id).addr x.index) x.id.owner
      ((e.state b).threads t).pc := by
    refine hret.keeps (F := fun _ s => Freeing pool _ x.id.owner (s.threads t).pc) ?_ ?_
    · rw [Execution.atFree e hok hact hret]
      rfl
    · intro m ham hmb hf hbusy
      rcases (Execution.stepAt e hok (by omega)).busy (hret.busy m ham (by omega)) with he | ⟨c, hc⟩
      · rw [he]
        exact hf
      · rcases hstep (by omega) (by omega) hc hf with hf' | ⟨freed, hend, -⟩
        · exact hf'
        · exact absurd hend (hbusy _)
  obtain ⟨c, hc⟩ := Execution.atReturn e hok hret
  rcases hstep hab.le hlen hc hplace with hf | ⟨freed, hend, hdone⟩
  · rw [hret.answer] at hf
    exact hf.elim
  · rw [hret.answer] at hend
    cases hend
    rcases hdone rfl with hbit | hqueued
    · obtain ⟨ha, hx⟩ := hslot (m := b + 1) (by omega) (by omega)
      exact Or.inl ⟨x, ha, hx, rfl, hbit⟩
    · exact Or.inr hqueued

private theorem largeFreed {sz : Nat} (hact : e.action a = .free t ptr)
    (hret : Returns e t a b (.free true)) : Disposed e a b ptr ⟨none, sz⟩ := by
  have hok : ∀ s a, LosesNone cfg pool s a → MemoryOk cfg s a := fun _ _ h => h.1
  have hab := hret.lt
  have hlen := hret.lt_length
  -- one access: the call goes on to the large heap, or the map has no entry before or after it
  have hstep {m : Nat} (hm : m < e.length) {c : Choice} (hc : e.action m = .step t c)
      (hp : ((e.state m).threads t).pc = .freeSmall false ptr ∨
        ((e.state m).threads t).pc = .freeBig false ptr) :
      ((e.state (m + 1)).threads t).pc = .freeBig false ptr ∨ (e.state m).large.get ptr = 0 ∨
        (e.state (m + 1)).large.get ptr = 0 := by
    have hinv := Execution.inv e hok hm.le
    have hs := Execution.stepAt e hok hm
    rw [hc] at hs
    rcases hp with hp | hp
    · rcases hs.atFreeSmall hp with ⟨x, ⟨-, hb, hx⟩, -, -⟩ | ⟨-, hpc⟩
      · exact Or.inr (Or.inl (hinv.large _ (hinv.placed.bit_active hb) _ _ hx.inBlock))
      · exact Or.inl hpc
    · rcases hs.atFreeBig hp with ⟨hne, hlarge, -⟩ | ⟨hzero, -⟩
      · refine Or.inr (Or.inr ?_)
        rw [hlarge]
        exact (Execution.hasPages e hok hm.le).get_clear_self hne
      · exact Or.inr (Or.inl hzero)
  have hplace : (((e.state b).threads t).pc = .freeSmall false ptr ∨
      ((e.state b).threads t).pc = .freeBig false ptr) ∨
      ∃ m, a < m ∧ m ≤ b ∧ (e.state m).large.get ptr = 0 := by
    refine hret.keeps (F := fun k s => ((s.threads t).pc = .freeSmall false ptr ∨
      (s.threads t).pc = .freeBig false ptr) ∨
      ∃ m, a < m ∧ m ≤ k ∧ (e.state m).large.get ptr = 0) ?_ ?_
    · exact Or.inl (Or.inl (Execution.atFree e hok hact hret))
    · intro m ham hmb hf _
      rcases hf with hp | ⟨k, hak, hkm, hzero⟩
      · rcases (Execution.stepAt e hok (by omega)).busy (hret.busy m ham (by omega)) with he | ⟨c, hc⟩
        · rw [he]
          exact Or.inl hp
        · rcases hstep (by omega) hc hp with hp' | hzero | hzero
          · exact Or.inl (Or.inr hp')
          · exact Or.inr ⟨m, ham, Nat.le_succ m, hzero⟩
          · exact Or.inr ⟨m + 1, by omega, Nat.le_refl _, hzero⟩
      · exact Or.inr ⟨k, hak, by omega, hzero⟩
  rcases hplace with hp | ⟨m, ham, hmb, hzero⟩
  · obtain ⟨c, hc⟩ := Execution.atReturn e hok hret
    rcases hstep hlen hc hp with hp' | hzero | hzero
    · rw [hret.answer] at hp'
      cases hp'
    · exact ⟨b, hab, Nat.le_succ b, hzero⟩
    · exact ⟨b + 1, by omega, Nat.le_refl _, hzero⟩
  · exact ⟨m, ham, by omega, hzero⟩

/-- In every run in which lookups of the DieHarder variant ask owners only and no push finds its
queue full, no free is lost. -/
theorem noFreeLost : NoFreeLost e := by
  intro a b t ptr object hl hact hret
  rcases object with ⟨_ | heap, sz⟩
  · exact largeFreed e hact hret
  · exact smallFreed e hl hact hret

end NoFreeLost

end Runs

/-- The defaults with a ring of one slot. -/
def oneSlot : PoolConfig :=
  { PoolConfig.default with
    freeQueueCapacity := 1
    capacity_single_bit := ⟨0, by decide, by decide⟩ }

def firstQueued : List Action :=
  [.create, .create, .malloc 1 16] ++ accesses 1 7 4096 (0, 0) ++
    [.malloc 1 16] ++ accesses 1 2 0 (0, 1) ++ [.free 2 4096] ++ accesses 2 14 0 (0, 0)

def secondLost : List Action := firstQueued ++ [.free 2 4112] ++ accesses 2 7 0 (0, 0)

private theorem guarded_firstQueued : Guarded (next (.libdieharder false false) oneSlot)
    (LosesNone (.libdieharder false false) oneSlot) blank firstQueued := by
  have h : Guarded (next (.libdieharder false false) oneSlot)
      (fun s a => SmallMemoryOk (.libdieharder false false) s a ∧ NotFull oneSlot s a) blank
      firstQueued := guarded_of_bool (by decide +kernel)
  exact (guarded_of_small h).mono fun s a hok => ⟨hok.1, asksOwner_of_dieHard rfl s a, hok.2⟩

def firstQueuedExecution : Execution (next (.libdieharder false false) oneSlot)
    (LosesNone (.libdieharder false false) oneSlot) blank :=
  .ofRun firstQueued (by decide +kernel) guarded_firstQueued

theorem noFreeLost_firstQueued : NoFreeLost firstQueuedExecution := noFreeLost firstQueuedExecution

private theorem guarded_secondLost : Guarded (next (.libdieharder false false) oneSlot)
    (fun s a => MemoryOk (.libdieharder false false) s a ∧ True) blank secondLost :=
  guarded_of_small (guarded_of_bool (by decide +kernel))

def secondLostExecution : Execution (next (.libdieharder false false) oneSlot)
    (MemoryOk (.libdieharder false false)) blank :=
  .ofRun secondLost (by decide +kernel) (guarded_secondLost.mono fun _ _ h => h.1)

/-- The second free returns true although the object is neither released nor queued. -/
theorem not_noFreeLost_secondLost : ¬ NoFreeLost secondLostExecution := by
  intro h
  have hret : Returns secondLostExecution 2 28 35 (.free true) :=
    .of_isIdle (by decide) (by decide +kernel) (by decide +kernel) (by decide +kernel)
  have hlost := h 28 35 2 4112 ⟨some 1, 16⟩ (by decide +kernel) rfl hret
  rcases hlost with ⟨x, hactive, hx, -, hclear⟩ | hqueued
  · have hinv := Execution.inv secondLostExecution (fun _ _ h => h) (k := 36) (by decide +kernel)
    have hslot := hinv.placed.slot_eq (y := ⟨⟨1, 0, 0⟩, 1⟩) hactive (by decide +kernel) hx
      (by decide +kernel)
    rw [hslot] at hclear
    exact absurd hclear (by decide +kernel)
  · exact absurd hqueued (by decide +kernel)

end ScalableHeap

end DieHard
