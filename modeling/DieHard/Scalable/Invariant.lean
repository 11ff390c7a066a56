import DieHard.Scalable.Steps

/-!
# The heap invariant of the scalable heap

Whatever the program frees, the heaps stay placed, large objects and miniheaps share no address, every
registered heap stands under its own ID, and every object of a small heap that the program holds is a
slot of the heap that allocated it.
-/

namespace DieHard

open Blocks PerThreadFreeQueue HeapRegistry

namespace ScalableHeap

variable {cfg : HeapConfig} {pool : PoolConfig} {s s' : ScalableHeap}

/-- `heap` is a per-thread heap with the given ID. -/
def HasId (pool : PoolConfig) (heap id : Nat) : Prop :=
  heap ≠ fallbackHeap ∧ threadId pool heap = id ∧ id < pool.maxThreads

/-- The heap that a lookup is asking stands under the ID that the lookup has reached. Only the DieHard
variant asks class by class. -/
def FindOk (cfg : HeapConfig) (pool : PoolConfig) : FindPc → Prop
  | .ask i _ heap => HasId pool heap i
  | .askClass i _ heap _ _ => HasId pool heap i ∧ cfg.dieHarderOn = false
  | _ => True

/-- What the place of a thread says about its heap and its pointer. -/
def PcOk (cfg : HeapConfig) (pool : PoolConfig) (process : Process) (k : Nat) : Pc → Prop
  | .idle _ => True
  | .register call _ => k ≠ fallbackHeap ∧ call ≠ .free 0
  | .drainHead _ => k ≠ fallbackHeap
  | .drainTail _ _ => k ≠ fallbackHeap
  | .drain _ _ => k ≠ fallbackHeap
  | .drainBig _ _ _ _ _ => k ≠ fallbackHeap
  | .grow sz => sz ≤ cfg.maxSize
  | .getObject sz => sz ≤ cfg.maxSize ∧ process.Active cfg ⟨k, requestClass sz, 0⟩
  | .mapLarge sz => cfg.maxSize < sz
  | .freeSmall again ptr => (again = true → k ≠ fallbackHeap) ∧ ptr ≠ 0
  | .freeBig again ptr => (again = true → k ≠ fallbackHeap) ∧ ptr ≠ 0
  | .findOwner ptr _ slow pc => (slow = true → k ≠ fallbackHeap ∧ ptr ≠ 0) ∧ FindOk cfg pool pc
  | .push ptr _ _ => k ≠ fallbackHeap ∧ ptr ≠ 0

/-- Small objects are slots of the heap that allocated them. -/
def LiveOk (cfg : HeapConfig) (process : Process) (live : Addr → Option Object) : Prop :=
  ∀ p heap sz, live p = some ⟨some heap, sz⟩ → ∃ x : Slot, process.Active cfg x.id ∧
    x.index < (process.layout cfg x.id).slots ∧ x.id.owner = heap ∧ x.id.cls = requestClass sz ∧
    (process.layout cfg x.id).addr x.index = p

def LargeOk (cfg : HeapConfig) (process : Process) (large : LargeHeap) : Prop :=
  ∀ id, process.Active cfg id → ∀ j p, (process.layout cfg id).InBlock j p → large.get p = 0

structure Inv (cfg : HeapConfig) (pool : PoolConfig) (s : ScalableHeap) : Prop where
  placed : Placed cfg s.process
  large : LargeOk cfg s.process s.large
  live : LiveOk cfg s.process s.live
  entries : ∀ i heap, s.registry.entries i = some heap → HasId pool heap i
  threads : ∀ k, PcOk cfg pool s.process k (s.threads k).pc

theorem inv_initial {process : Process} (h : Placed cfg process) (hno : ∀ id, ¬ process.Active cfg id) :
    Inv cfg pool (initial process) := by
  refine ⟨h, fun id ha => absurd ha (hno id), ?_, ?_, fun _ => trivial⟩
  · intro p heap sz hl
    cases hl
  · intro i heap he
    cases he

private theorem free_step (h : Placed cfg s.process) (k : Nat) (ptr : Addr) :
    (∃ x process, s.process.InObject cfg k ptr x ∧ s.process.free cfg k ptr = (true, process) ∧
      s.process.Freed cfg x ptr process) ∨
    ((∀ x, ¬ s.process.InObject cfg k ptr x) ∧ ∃ process,
      s.process.free cfg k ptr = (false, process) ∧ s.process.Calm process) := by
  rcases h.free_cases k ptr with ⟨x, process, hx, hfree, hf⟩ | ⟨hno, env, hfree, hw⟩
  · exact Or.inl ⟨x, process, hx, hfree, hf⟩
  · exact Or.inr ⟨hno, _, hfree, Process.calm_env hw⟩

private theorem step_of_grow (h : Inv cfg pool s) {k sz : Nat} {c : Choice}
    (hpc : (s.threads k).pc = .grow sz) (hm : MemoryOk cfg s (.step k c))
    (hn : mallocStep cfg pool s k c (.grow sz) = some s') : Step cfg pool s (.step k c) s' := by
  have hsz : sz ≤ cfg.maxSize := by
    have hk := h.threads k
    rwa [hpc] at hk
  have hcls := requestClass_lt hsz
  simp only [mallocStep] at hn
  by_cases hneed : (s.process.random k (requestClass sz)).needsGrowth cfg = true
  · simp only [hneed, if_true, Option.some.injEq] at hn
    subst hn
    simp only [MemoryOk, hpc] at hm
    obtain ⟨hf, hlarge⟩ := hm hneed
    refine .grow hpc ⟨h.placed.getAnotherMiniHeap hcls hf, ?_, ?_⟩
    · intro id ha hno
      rw [(Placed.getAnotherMiniHeap_added hcls h.placed hf ha hno).1]
    · intro id ha hno j p hj
      obtain ⟨rfl, hblock⟩ := Placed.getAnotherMiniHeap_added hcls h.placed hf ha hno
      obtain ⟨hcount, hle, hlt⟩ := hblock j p hj
      by_contra hne
      have hpos := cfg.pageSize_pos
      rcases hlarge j hcount p hne with hapart | hapart <;> omega
  · simp only [hneed, Bool.false_eq_true, if_false, Option.some.injEq] at hn
    subst hn
    have hroom : (s.process.random k (requestClass sz)).needsGrowth cfg = false := by simpa using hneed
    have hpos := (h.placed.counters k (requestClass sz)).miniHeaps_pos hroom
    exact .room hpc ⟨hcls, hpos⟩

/-- A draw finds its slot taken and is repeated, or it allocates the slot. -/
theorem Inv.getObject_cases (h : Inv cfg pool s) {k sz : Nat} {c : Choice}
    (hpc : (s.threads k).pc = .getObject sz)
    (hn : mallocStep cfg pool s k c (.getObject sz) = some s') :
    s' = s ∨ ∃ process,
      s.process.Took cfg (s.process.drawn cfg k (requestClass sz) c.random) process ∧
      s' = { s with
        process := process
        live := Function.update s.live
          ((s.process.layout cfg (s.process.drawn cfg k (requestClass sz) c.random).id).addr
            (s.process.drawn cfg k (requestClass sz) c.random).index) (some ⟨some k, sz⟩) }.setPc k
          (.idle (some (.malloc
            ((s.process.layout cfg (s.process.drawn cfg k (requestClass sz) c.random).id).addr
              (s.process.drawn cfg k (requestClass sz) c.random).index)))) := by
  obtain ⟨hsz, hactive⟩ : sz ≤ cfg.maxSize ∧ s.process.Active cfg ⟨k, requestClass sz, 0⟩ := by
    have hk := h.threads k
    rwa [hpc] at hk
  have hcls := requestClass_lt hsz
  simp only [mallocStep] at hn
  cases hb : s.process.bit (s.process.drawn cfg k (requestClass sz) c.random) with
  | true =>
    have hself : s.process.setRandom k (requestClass sz) (s.process.random k (requestClass sz))
        s.process.env = s.process := Process.setRandom_self _ _ _ _
    simp only [Placed.getObject_taken hb, if_true, hself, Option.some.injEq] at hn
    exact Or.inl hn.symm
  | false =>
    obtain ⟨env, hget, hw⟩ := h.placed.getObject_clear hcls hactive.2 hb
    have ha := h.placed.drawn_active c.random hcls hactive.2
    have hlt := Placed.drawn_lt cfg s.process k (requestClass sz) c.random
    have hne := h.placed.addr_ne_zero ha (hlt.trans_le (HeapConfig.nObjects_le_slots _ _))
    simp only [hget, if_neg hne, Option.some.injEq] at hn
    subst hn
    refine Or.inr ⟨_, ?_, rfl⟩
    exact Process.took_setBit ha hlt hb ⟨rfl, hw.pageTable_eq, hw.mapped_eq⟩

private theorem step_of_getObject (h : Inv cfg pool s) {k sz : Nat} {c : Choice}
    (hpc : (s.threads k).pc = .getObject sz)
    (hn : mallocStep cfg pool s k c (.getObject sz) = some s') : Step cfg pool s (.step k c) s' := by
  rcases h.getObject_cases hpc hn with rfl | ⟨process, htook, rfl⟩
  · exact .taken hpc
  · exact .take hpc rfl rfl htook

private theorem step_of_drain (h : Inv cfg pool s) {k sz : Nat} {c : Choice} {pc : DrainPc}
    (hpc : (s.threads k).pc = .drain sz pc)
    (hn : mallocStep cfg pool s k c (.drain sz pc) = some s') : Step cfg pool s (.step k c) s' := by
  cases pc with
  | callback t hd n ptr =>
    simp only [mallocStep, Option.some.injEq] at hn
    subst hn
    rcases free_step h.placed k ptr with ⟨x, process, hx, hfree, hf⟩ | ⟨hno, process, hfree, hc⟩
    · rw [hfree]
      exact .deliver hpc hx hf
    · rw [hfree]
      exact .callbackMiss hpc hno hc
  | _ =>
    cases hn
    exact .consume hpc rfl

private theorem step_of_mallocStep (h : Inv cfg pool s) {k : Nat} {c : Choice} {pc : Pc}
    (hpc : (s.threads k).pc = pc) (hm : MemoryOk cfg s (.step k c))
    (hn : mallocStep cfg pool s k c pc = some s') : Step cfg pool s (.step k c) s' := by
  cases pc with
  | drainHead sz =>
    cases hn
    refine .drainHead hpc ?_
    split
    · exact Or.inl rfl
    · exact Or.inr rfl
  | drainTail sz head =>
    cases hn
    refine .drainTail hpc ?_
    split
    · exact Or.inl rfl
    · exact Or.inr rfl
  | drain sz pc => exact step_of_drain h hpc hn
  | drainBig sz t hd n ptr =>
    cases hn
    exact .deliverBig hpc
  | grow sz => exact step_of_grow h hpc hm hn
  | getObject sz => exact step_of_getObject h hpc hn
  | mapLarge sz =>
    cases hn
    simp only [MemoryOk, hpc] at hm
    exact .mapLarge hpc hm.1 hm.2.2.1 hm.2.2.2
  | _ => cases hn

private theorem step_of_freeStep (h : Inv cfg pool s) {k : Nat} {c : Choice} {pc : Pc}
    (hk : k ≤ s.nextId) (hpc : (s.threads k).pc = pc) (hn : freeStep cfg pool s k c pc = some s') :
    Step cfg pool s (.step k c) s' := by
  cases pc with
  | freeSmall again ptr =>
    simp only [freeStep, Option.some.injEq] at hn
    subst hn
    rcases free_step h.placed k ptr with ⟨x, process, hx, hfree, hf⟩ | ⟨hno, process, hfree, hc⟩
    · rw [hfree]
      exact .freeHit hpc hx hf
    · rw [hfree]
      exact .freeMiss hpc hno hc
  | freeBig again ptr =>
    simp only [freeStep, LargeHeap.free, Option.some.injEq] at hn
    subst hn
    by_cases hpos : 0 < s.large.get ptr
    · simp only [if_pos hpos, Option.isSome_some, if_true]
      exact .largeHit hpc (by omega)
    · simp only [if_neg hpos, Option.isSome_none, Bool.false_eq_true, if_false]
      exact .largeMiss hpc hk (by omega)
  | findOwner ptr e slow pc =>
    cases hn
    exact .findOwner hpc rfl (findStep_calm _ _ _ _ _ _)
  | push ptr ownerId pc =>
    cases hn
    exact .push hpc
  | _ => cases hn

private theorem step_of_call {k : Nat} {t : ScalableHeap} (hn : s.call k t = some s') :
    (∃ last, (s.threads k).pc = .idle last) ∧ k ≤ s.nextId ∧ s' = t := by
  rw [ScalableHeap.call] at hn
  split at hn
  · rename_i last hpc
    split at hn
    · rename_i hk
      cases hn
      exact ⟨⟨last, hpc⟩, hk, rfl⟩
    · cases hn
  · cases hn

/-- The inversion of `next`. -/
theorem step_of_next (h : Inv cfg pool s) {a : Action} (hm : MemoryOk cfg s a)
    (hn : s.next cfg pool a = some s') : Step cfg pool s a s' := by
  cases a with
  | create =>
    cases hn
    exact .create
  | malloc k sz =>
    obtain ⟨⟨last, hpc⟩, hk, rfl⟩ := step_of_call hn
    exact .malloc hpc hk
  | free k ptr =>
    obtain ⟨⟨last, hpc⟩, hk, rfl⟩ := step_of_call hn
    by_cases hptr : ptr = 0
    · subst hptr
      exact .freeNull hpc hk
    · rw [if_neg hptr]
      exact .free hpc hk hptr
  | findOwner k ptr e =>
    obtain ⟨⟨last, hpc⟩, hk, rfl⟩ := step_of_call hn
    exact .find hpc hk
  | step k c =>
    rw [next] at hn
    split at hn
    · rename_i hk
      rw [threadStep] at hn
      split at hn
      · rename_i call pc hpc
        cases hn
        exact .register hpc hk
      · exact step_of_freeStep h hk ‹_› hn
      · exact step_of_freeStep h hk ‹_› hn
      · exact step_of_freeStep h hk ‹_› hn
      · exact step_of_freeStep h hk ‹_› hn
      · exact step_of_mallocStep h rfl hm hn
    · cases hn

section Frame

variable {process : Process}

theorem PcOk.mono {k : Nat} {pc : Pc} (h : PcOk cfg pool s.process k pc)
    (he : s.process.Extends cfg process) : PcOk cfg pool process k pc := by
  cases pc with
  | getObject sz => exact ⟨h.1, he.active _ h.2⟩
  | _ => exact h

theorem Inv.threads_set (h : Inv cfg pool s) (he : s.process.Extends cfg process) {k : Nat}
    {t : OwnershipTrackingHeap} (ht : PcOk cfg pool process k t.pc) :
    ∀ j, PcOk cfg pool process j (Function.update s.threads k t j).pc := by
  intro j
  by_cases hj : j = k
  · subst hj
    rwa [Function.update_self]
  · rw [Function.update_of_ne hj]
    exact (h.threads j).mono he

theorem LiveOk.extend {live : Addr → Option Object} (h : LiveOk cfg s.process live)
    (he : s.process.Extends cfg process) : LiveOk cfg process live := by
  intro p heap sz hl
  obtain ⟨x, ha, hx, hrest⟩ := h p heap sz hl
  refine ⟨x, he.active _ ha, ?_⟩
  rw [he.layout_eq _ ha]
  exact ⟨hx, hrest⟩

theorem LiveOk.remove {live : Addr → Option Object} (h : LiveOk cfg process live) (ptr : Addr) :
    LiveOk cfg process (Function.update live ptr none) := by
  intro p heap sz hl
  by_cases hp : p = ptr
  · rw [hp, Function.update_self] at hl
    cases hl
  · rw [Function.update_of_ne hp] at hl
    exact h p heap sz hl

theorem LiveOk.insert {live : Addr → Option Object} (h : LiveOk cfg process live) {ptr : Addr}
    (object : Object) (ho : ∀ heap, object.heap = some heap → ∃ x : Slot, process.Active cfg x.id ∧
      x.index < (process.layout cfg x.id).slots ∧ x.id.owner = heap ∧
      x.id.cls = requestClass object.size ∧ (process.layout cfg x.id).addr x.index = ptr) :
    LiveOk cfg process (Function.update live ptr (some object)) := by
  intro p heap sz hl
  by_cases hp : p = ptr
  · subst hp
    rw [Function.update_self] at hl
    cases hl
    exact ho heap rfl
  · rw [Function.update_of_ne hp] at hl
    exact h p heap sz hl

theorem LargeOk.same {large : LargeHeap} (h : LargeOk cfg s.process large)
    (hs : s.process.SameLayout process) : LargeOk cfg process large := by
  intro id ha j p hj
  rw [hs.layout_eq] at hj
  exact h id ((hs.active_iff id).mp ha) j p hj

theorem LargeOk.less {large large' : LargeHeap} (h : LargeOk cfg process large)
    (hle : ∀ a, large'.get a ≠ 0 → large.get a ≠ 0) : LargeOk cfg process large' := by
  intro id ha j p hj
  by_contra hne
  exact hle p hne (h id ha j p hj)

end Frame

theorem large_free_le (h : LargeHeap) (ptr a : Addr) (ha : (h.free cfg ptr).2.get a ≠ 0) :
    h.get a ≠ 0 := by
  rw [LargeHeap.free] at ha
  split at ha
  · exact LargeHeap.get_ne_zero_of_clear ha
  · exact ha

private theorem pcOk_allocate (process : Process) (k sz : Nat) :
    PcOk cfg pool process k (allocate cfg sz) := by
  rw [allocate]
  split
  · assumption
  · rename_i hsz
    exact Nat.lt_of_not_le hsz

private theorem pcOk_countMalloc {process : Process} {k sz : Nat} (h : OwnershipTrackingHeap)
    (hk : k ≠ fallbackHeap) : PcOk cfg pool process k (countMalloc cfg pool sz h).pc := by
  simp only [countMalloc]
  split
  · exact hk
  · exact pcOk_allocate process k sz

private theorem pcOk_callMalloc (process : Process) (k sz : Nat) (h : OwnershipTrackingHeap) :
    PcOk cfg pool process k (callMalloc cfg pool k sz h).pc := by
  rw [callMalloc]
  split
  · exact pcOk_allocate process k sz
  · rename_i hk
    split
    · exact pcOk_countMalloc h hk
    · exact ⟨hk, by simp⟩

private theorem pcOk_registered {process : Process} {k : Nat} (call : Call)
    (pc : RegisterPc ⊕ Unit) (h : OwnershipTrackingHeap) (hk : k ≠ fallbackHeap)
    (hcall : call ≠ .free 0) : PcOk cfg pool process k (registered cfg pool call pc k h).pc := by
  rcases pc with pc | ⟨⟩
  · exact ⟨hk, hcall⟩
  · cases call with
    | malloc sz => exact pcOk_countMalloc _ hk
    | free ptr => exact ⟨fun _ => ⟨hk, fun he => hcall (by rw [he])⟩, trivial⟩

private theorem pcOk_refused (process : Process) (k : Nat) (again : Bool) {ptr : Addr}
    (h : OwnershipTrackingHeap) (hptr : ptr ≠ 0) :
    PcOk cfg pool process k (refused pool k again ptr h) := by
  rw [refused]
  split
  · trivial
  · rename_i hk
    have hk' : k ≠ fallbackHeap := by
      intro he
      simp [he] at hk
    split
    · exact ⟨fun _ => ⟨hk', hptr⟩, trivial⟩
    · exact ⟨hk', by simpa using hptr⟩

private theorem pcOk_found {process : Process} {k : Nat} {slow : Bool} (ptr : Addr)
    (owner : Option Nat) (hk : slow = true → k ≠ fallbackHeap ∧ ptr ≠ 0) :
    PcOk cfg pool process k (found pool slow ptr owner) := by
  cases slow with
  | false => trivial
  | true =>
    cases owner with
    | none => exact ⟨fun _ => (hk rfl).1, (hk rfl).2⟩
    | some ownerId =>
      simp only [found, if_true]
      split
      · exact hk rfl
      · trivial

private theorem findOk_findStep (h : Inv cfg pool s) {ptr e : Nat} {pc pc' : FindPc}
    (hpc : FindOk cfg pool pc)
    (hr : (findStep cfg s.registry s.large s.process ptr e pc).2 = .inl pc') : FindOk cfg pool pc' := by
  cases pc with
  | loadMax =>
    cases hr
    trivial
  | entry i maxId =>
    simp only [findStep] at hr
    split at hr
    · cases hr
    · split at hr
      · cases hr
        trivial
      · split at hr
        · cases hr
          trivial
        · rename_i heap he
          cases hr
          exact h.entries i heap he
  | ask i maxId heap =>
    simp only [findStep, askStep] at hr
    split at hr
    · split at hr
      · cases hr
      · cases hr
        trivial
    · rename_i hd
      split at hr
      · cases hr
      · cases hr
        exact ⟨hpc, by simpa using hd⟩
  | askClass i maxId heap cached c =>
    simp only [findStep] at hr
    split at hr
    · cases hr
      trivial
    · split at hr
      · cases hr
        exact hpc
      · split at hr
        · cases hr
        · cases hr
          exact hpc
  | askBig i maxId =>
    simp only [findStep] at hr
    split at hr
    · cases hr
    · cases hr
      trivial

theorem registerStep_entries (r : HeapRegistry) (heap id : Nat) (sp : Bool) (pc : RegisterPc)
    {i h : Nat} (he : (registerStep pool r heap id sp pc).1.entries i = some h) :
    r.entries i = some h ∨ i = id ∧ h = heap ∧ id < pool.maxThreads := by
  cases pc with
  | publish =>
    simp only [registerStep] at he
    split at he
    · exact Or.inl he
    · rename_i hid
      by_cases hi : i = id
      · subst hi
        simp only [Function.update_self, Option.some.injEq] at he
        exact Or.inr ⟨rfl, he.symm, Nat.lt_of_not_le hid⟩
      · simp only [Function.update_of_ne hi] at he
        exact Or.inl he
  | loadMax => exact Or.inl he
  | casMax oldMax =>
    simp only [registerStep] at he
    split at he <;> exact Or.inl he

private theorem Inv.consume (h : Inv cfg pool s) {k : Nat} (hk : k ≠ fallbackHeap) (sz : Nat)
    (pc : DrainPc) : Inv cfg pool (consume cfg pool s k sz pc) := by
  refine ⟨h.placed, h.large, h.live, h.entries, h.threads_set (.refl _) ?_⟩
  rcases (drainStep pool (s.queues (threadId pool k)) pc).2 with pc' | n
  · exact hk
  · exact pcOk_allocate _ _ _

private theorem Inv.freed (h : Inv cfg pool s) {x : Slot} {ptr : Addr} {process : Process}
    (hf : s.process.Freed cfg x ptr process) : Inv cfg pool { s with process := process } :=
  ⟨hf.placed h.placed, h.large.same hf.layout, h.live.extend hf.layout.extends, h.entries,
    fun k => (h.threads k).mono hf.layout.extends⟩

theorem Inv.calm (h : Inv cfg pool s) {process : Process} (hc : s.process.Calm process) :
    Inv cfg pool { s with process := process } :=
  ⟨hc.placed h.placed, h.large.same hc.layout, h.live.extend hc.layout.extends, h.entries,
    fun k => (h.threads k).mono hc.layout.extends⟩

private theorem Inv.largeFree (h : Inv cfg pool s) (ptr : Addr) :
    Inv cfg pool { s with large := (s.large.free cfg ptr).2 } :=
  ⟨h.placed, h.large.less (large_free_le _ _), h.live, h.entries, h.threads⟩

theorem Inv.setThread (h : Inv cfg pool s) {k : Nat} {t : OwnershipTrackingHeap}
    (ht : PcOk cfg pool s.process k t.pc) : Inv cfg pool (s.setThread k t) :=
  ⟨h.placed, h.large, h.live, h.entries, h.threads_set (.refl _) ht⟩

theorem Inv.setPc (h : Inv cfg pool s) {k : Nat} {pc : Pc} (ht : PcOk cfg pool s.process k pc) :
    Inv cfg pool (s.setPc k pc) :=
  h.setThread ht

private theorem Inv.grows (h : Inv cfg pool s) {k : Nat} {process : Process}
    (hg : Grows cfg s k process) : Inv cfg pool { s with process := process } := by
  refine ⟨hg.grew.placed, ?_, h.live.extend hg.grew.extends', h.entries,
    fun j => (h.threads j).mono hg.grew.extends'⟩
  intro id ha j p hj
  by_cases hold : s.process.Active cfg id
  · have hj' : (process.layout cfg id).InBlock j p := hj
    rw [hg.grew.extends'.layout_eq _ hold] at hj'
    exact h.large id hold j p hj'
  · exact hg.unused id ha hold j p hj

private theorem Inv.take (h : Inv cfg pool s) {k sz : Nat} {x : Slot} {process : Process}
    (hk : x.id.owner = k) (hc : x.id.cls = requestClass sz) (ht : s.process.Took cfg x process) :
    Inv cfg pool { s with
      process := process
      live := Function.update s.live ((s.process.layout cfg x.id).addr x.index)
        (some ⟨some k, sz⟩) } := by
  refine ⟨ht.placed h.placed, h.large.same ht.layout, (h.live.extend ht.layout.extends).insert _ ?_,
    h.entries, fun j => (h.threads j).mono ht.layout.extends⟩
  intro heap he
  cases he
  refine ⟨x, (ht.layout.active_iff _).mpr ht.active, ?_, hk, hc, ?_⟩
  · exact ht.index_lt.trans_le (HeapConfig.nObjects_le_slots _ _)
  · rw [ht.layout.layout_eq]

private theorem Inv.mapLarge (h : Inv cfg pool s) {sz : Nat} {ptr : Addr}
    (hm : ∀ r ∈ s.process.env.mapped, Apart ptr (LargeHeap.extent cfg sz) r.1 r.2) :
    Inv cfg pool { s with
      large := LargeHeap.set cfg ptr sz s.large
      live := Function.update s.live ptr (some ⟨none, sz⟩) } := by
  refine ⟨h.placed, ?_, h.live.insert _ (fun heap he => by cases he), h.entries, h.threads⟩
  intro id ha j p hj
  have hno : ¬ LargeHeap.Entered cfg ptr sz p := by
    intro hentered
    obtain ⟨hle', hlt'⟩ := hentered.isPage.lt
    have hext := LargeHeap.le_extent cfg sz
    obtain ⟨hcount, hle, hlt⟩ := hj
    rcases hm _ (h.placed.base id j ha hcount).2.2 with hapart | hapart
    · exact absurd (hlt'.trans_le ((Nat.add_le_add_left hext ptr).trans hapart)) (Nat.not_lt.mpr hle)
    · exact absurd (hlt.trans_le hapart) (Nat.not_lt.mpr hle')
  exact (LargeHeap.get_set_other hno).trans (h.large id ha j p hj)

theorem Step.hasPages (hs : Step cfg pool s a s') (h : s.large.HasPages cfg) :
    s'.large.HasPages cfg := by
  cases hs with
  | mapLarge => exact h.set
  | largeHit => exact h.clear
  | deliverBig => exact h.free
  | _ => exact h

/-- Every step keeps the invariant. -/
theorem Inv.step (h : Inv cfg pool s) {a : Action} (hs : Step cfg pool s a s') : Inv cfg pool s' := by
  cases hs with
  | create => exact ⟨h.placed, h.large, h.live, h.entries, h.threads⟩
  | malloc _ _ => exact h.setThread (pcOk_callMalloc _ _ _ _)
  | freeNull _ _ => exact h.setPc trivial
  | @free k ptr last _ _ _ =>
    have hlive : Inv cfg pool { s with live := Function.update s.live ptr none } :=
      ⟨h.placed, h.large, h.live.remove ptr, h.entries, h.threads⟩
    exact hlive.setPc ⟨fun he => absurd he (by decide), ‹_›⟩
  | find _ _ => exact h.setPc ⟨fun he => absurd he (by decide), trivial⟩
  | @register k c call pc hpc _ =>
    have hk := h.threads k
    rw [hpc] at hk
    have hentries : Inv cfg pool { s with
        registry := (registerStep pool s.registry k (threadId pool k) c.spurious pc).1 } := by
      refine ⟨h.placed, h.large, h.live, ?_, h.threads⟩
      intro i heap he
      rcases registerStep_entries _ _ _ _ _ he with he | ⟨rfl, rfl, hid⟩
      · exact h.entries i heap he
      · exact ⟨hk.1, rfl, hid⟩
    exact hentries.setThread (pcOk_registered _ _ _ hk.1 hk.2)
  | @drainHead k c sz pc hpc hto =>
    have hk := h.threads k
    rw [hpc] at hk
    rcases hto with rfl | rfl
    · exact h.setPc hk
    · exact h.setPc (pcOk_allocate _ _ _)
  | @drainTail k c sz head pc hpc hto =>
    have hk := h.threads k
    rw [hpc] at hk
    rcases hto with rfl | rfl
    · exact h.setPc hk
    · exact h.setPc (pcOk_allocate _ _ _)
  | @consume k c sz pc hpc _ =>
    have hk := h.threads k
    rw [hpc] at hk
    exact h.consume hk sz pc
  | @deliver k c sz t hd n ptr x process hpc _ hf =>
    have hk := h.threads k
    rw [hpc] at hk
    exact (h.freed hf).consume hk sz _
  | @callbackMiss k c sz t hd n ptr process hpc _ hc =>
    have hk := h.threads k
    rw [hpc] at hk
    exact (h.calm hc).setPc hk
  | @deliverBig k c sz t hd n ptr hpc =>
    have hk := h.threads k
    rw [hpc] at hk
    exact (h.largeFree ptr).consume hk sz _
  | grow _ hg => exact h.grows hg
  | @room k c sz hpc ha =>
    have hk := h.threads k
    rw [hpc] at hk
    exact h.setPc ⟨hk, ha⟩
  | taken _ => exact h
  | take _ hk hc ht => exact (h.take hk hc ht).setPc trivial
  | mapLarge _ _ hm _ => exact (h.mapLarge hm).setPc trivial
  | freeHit _ _ hf => exact (h.freed hf).setPc trivial
  | @freeMiss k c again ptr process hpc _ hc =>
    have hk := h.threads k
    rw [hpc] at hk
    exact (h.calm hc).setPc hk
  | @largeHit k c again ptr _ _ =>
    have hlarge : Inv cfg pool { s with large := LargeHeap.clear cfg ptr s.large } :=
      ⟨h.placed, h.large.less fun _ => LargeHeap.get_ne_zero_of_clear, h.live, h.entries, h.threads⟩
    exact hlarge.setPc trivial
  | @largeMiss k c again ptr hpc _ _ =>
    have hk := h.threads k
    rw [hpc] at hk
    exact h.setPc (pcOk_refused _ _ _ _ hk.2)
  | @findOwner k c ptr e slow pc process r hpc hr hc =>
    have hk := h.threads k
    rw [hpc] at hk
    refine (h.calm hc).setPc ?_
    rcases r with pc' | owner
    · exact ⟨hk.1, findOk_findStep h hk.2 (congrArg Prod.snd hr)⟩
    · exact pcOk_found _ _ hk.1
  | @push k c ptr ownerId pc hpc =>
    have hk := h.threads k
    rw [hpc] at hk
    refine ⟨h.placed, h.large, h.live, h.entries, h.threads_set (.refl _) ?_⟩
    rcases (pushStep pool (s.queues ownerId) ptr c.spurious pc).2 with pc' | b
    · exact hk
    · trivial

theorem inv_reach {process : Process} {ok : ScalableHeap → Action → Prop}
    (hp : Placed cfg process) (hno : ∀ id, ¬ process.Active cfg id)
    (hok : ∀ s a, ok s a → MemoryOk cfg s a)
    (hr : Transition.Reach (next cfg pool) ok (initial process) s) : Inv cfg pool s :=
  hr.invariant (inv_initial hp hno) fun _ _ _ hi ho hn => hi.step (step_of_next hi (hok _ _ ho) hn)

end ScalableHeap

end DieHard
