import DieHard.Scalable.Invariant

/-!
# Registration and ownership lookup

As long as no heap enters itself where another heap stands, every registered heap keeps its own entry.
A lookup of an address in a slot then reaches the entry of the heap that the slot belongs to and stops
there. In the DieHarder variant this takes that no other heap is asked before, since there every heap
answers for every object.
-/

namespace DieHard

open Blocks PerThreadFreeQueue HeapRegistry

/-- The places of `malloc` behind the registration test. -/
def Pc.allocating : Pc → Bool
  | .drainHead _ | .drainTail _ _ | .drain _ _ | .drainBig _ _ _ _ _ | .grow _ | .getObject _ => true
  | _ => false

namespace ScalableHeap

variable {cfg : HeapConfig} {pool : PoolConfig} {s s' : ScalableHeap}

theorem threadId_lt (pool : PoolConfig) (k : Nat) : threadId pool k < pool.maxThreads :=
  Nat.mod_lt _ pool.maxThreads_pos

/-- What heap `k` has done at a place of `registerHeap`. -/
def RegisterOk (pool : PoolConfig) (r : HeapRegistry) (k : Nat) : RegisterPc → Prop
  | .publish => True
  | .loadMax => r.entries (threadId pool k) = some k
  | .casMax oldMax => r.entries (threadId pool k) = some k ∧ oldMax < threadId pool k + 1

/-- What one access of `registerHeap` does. -/
structure Registers (pool : PoolConfig) (r : HeapRegistry) (k : Nat)
    (r' : HeapRegistry) (pc : RegisterPc ⊕ Unit) : Prop where
  entry : r'.entries (threadId pool k) = some k
  other : ∀ i, i ≠ threadId pool k → r'.entries i = r.entries i
  maxThreadId_le : r.maxThreadId ≤ r'.maxThreadId
  bound : r.maxThreadId ≤ pool.maxThreads → r'.maxThreadId ≤ pool.maxThreads
  next : ∀ pc', pc = .inl pc' → RegisterOk pool r' k pc'
  done : pc = .inr () → threadId pool k < r'.maxThreadId

private theorem registers_raise {r : HeapRegistry} {k : Nat}
    (he : r.entries (threadId pool k) = some k) :
    Registers pool r k r (raise (threadId pool k) r.maxThreadId) := by
  rw [raise]
  split
  · rename_i hlt
    refine ⟨he, fun _ _ => rfl, Nat.le_refl _, id, ?_, fun h => by cases h⟩
    intro pc' hpc
    cases hpc
    exact ⟨he, hlt⟩
  · rename_i hle
    refine ⟨he, fun _ _ => rfl, Nat.le_refl _, id, fun pc' hpc => (by cases hpc), ?_⟩
    intro _
    omega

theorem registers_registerStep {r : HeapRegistry} {k : Nat} {pc : RegisterPc}
    (h : RegisterOk pool r k pc) (sp : Bool) :
    Registers pool r k (registerStep pool r k (threadId pool k) sp pc).1
      (registerStep pool r k (threadId pool k) sp pc).2 := by
  cases pc with
  | publish =>
    simp only [registerStep, if_neg (Nat.not_le.mpr (threadId_lt pool k))]
    refine ⟨Function.update_self _ _ _, fun i hi => Function.update_of_ne hi _ _, Nat.le_refl _, id,
      ?_, fun h => by cases h⟩
    intro pc' hpc
    cases hpc
    exact Function.update_self _ _ _
  | loadMax => exact registers_raise h
  | casMax oldMax =>
    simp only [registerStep]
    split
    · rename_i hcas
      have hle : r.maxThreadId ≤ threadId pool k + 1 := by
        have hlt := h.2
        omega
      refine ⟨h.1, fun _ _ => rfl, hle, fun _ => threadId_lt pool k, ?_, fun h => by cases h⟩
      intro pc' hpc
      cases hpc
      exact h
    · exact registers_raise h.1

structure Registered (cfg : HeapConfig) (pool : PoolConfig) (s : ScalableHeap) : Prop where
  bound : s.registry.maxThreadId ≤ pool.maxThreads
  known : ∀ k, (s.threads k).registered = true → s.registry.entries (threadId pool k) = some k ∧
    threadId pool k < s.registry.maxThreadId
  publishing : ∀ k call pc, (s.threads k).pc = .register call pc → RegisterOk pool s.registry k pc
  past : ∀ k, k ≠ fallbackHeap → (s.threads k).pc.allocating = true →
    (s.threads k).registered = true
  owner : ∀ id, s.process.Active cfg id → id.owner ≠ fallbackHeap →
    (s.threads id.owner).registered = true

theorem registered_initial {process : Process} (hno : ∀ id, ¬ process.Active cfg id) :
    Registered cfg pool (initial process) := by
  refine ⟨Nat.zero_le _, ?_, ?_, ?_, fun id ha => absurd ha (hno id)⟩
  · intro k hk
    cases hk
  · intro k call pc hpc
    cases hpc
  · intro k _ hk
    cases hk

/-- A step of one thread that leaves the registry alone. -/
theorem Registered.move (h : Registered cfg pool s) {k : Nat} {t : OwnershipTrackingHeap}
    (hr : s'.registry = s.registry)
    (ht : s'.threads = Function.update s.threads k t)
    (hreg : t.registered = (s.threads k).registered)
    (hpub : ∀ call pc, t.pc = .register call pc → pc = .publish)
    (hpast : k ≠ fallbackHeap → t.pc.allocating = true → t.registered = true)
    (hact : ∀ id, s'.process.Active cfg id → id.owner ≠ fallbackHeap →
      s.process.Active cfg id ∨ id.owner = k ∧ t.registered = true) :
    Registered cfg pool s' := by
  have hflag (j : Nat) : (s'.threads j).registered = (s.threads j).registered := by
    rw [ht]
    by_cases hj : j = k
    · subst hj
      rw [Function.update_self, hreg]
    · rw [Function.update_of_ne hj]
  refine ⟨hr ▸ h.bound, ?_, ?_, ?_, ?_⟩
  · intro j hj
    rw [hr]
    exact h.known j (hflag j ▸ hj)
  · intro j call pc hpc
    rw [hr]
    rw [ht] at hpc
    by_cases hj : j = k
    · subst hj
      rw [Function.update_self] at hpc
      obtain rfl := hpub call pc hpc
      trivial
    · rw [Function.update_of_ne hj] at hpc
      exact h.publishing j call pc hpc
  · intro j hj hpc
    rw [hflag]
    rw [ht] at hpc
    by_cases hjk : j = k
    · subst hjk
      rw [Function.update_self] at hpc
      exact hreg ▸ hpast hj hpc
    · rw [Function.update_of_ne hjk] at hpc
      exact h.past j hj hpc
  · intro id ha ho
    rw [hflag]
    rcases hact id ha ho with ha | ⟨rfl, hk⟩
    · exact h.owner id ha ho
    · exact hreg ▸ hk

theorem Registered.movePc (h : Registered cfg pool s) {k : Nat} {pc : Pc}
    (hr : s'.registry = s.registry)
    (ht : s'.threads = Function.update s.threads k { s.threads k with pc := pc })
    (hpub : ∀ call pc', pc ≠ .register call pc')
    (hpast : pc.allocating = true → (s.threads k).pc.allocating = true)
    (hact : ∀ id, s'.process.Active cfg id → s.process.Active cfg id) :
    Registered cfg pool s' :=
  h.move hr ht rfl (fun call pc' he => absurd he (hpub call pc'))
    (fun hk hpc => h.past k hk (hpast hpc)) fun id ha _ => Or.inl (hact id ha)

private theorem allocate_cases (cfg : HeapConfig) (sz : Nat) :
    allocate cfg sz = .grow sz ∨ allocate cfg sz = .mapLarge sz := by
  rw [allocate]
  split
  · exact Or.inl rfl
  · exact Or.inr rfl

private theorem countMalloc_pc (cfg : HeapConfig) (pool : PoolConfig) (sz : Nat) (h : OwnershipTrackingHeap) :
    (countMalloc cfg pool sz h).pc = .drainHead sz ∨ (countMalloc cfg pool sz h).pc = .grow sz ∨
      (countMalloc cfg pool sz h).pc = .mapLarge sz := by
  simp only [countMalloc]
  split
  · exact Or.inl rfl
  · exact Or.inr (allocate_cases cfg sz)

private theorem Registered.callMalloc (h : Registered cfg pool s) (k sz : Nat) :
    Registered cfg pool (s.setThread k (callMalloc cfg pool k sz (s.threads k))) := by
  rw [ScalableHeap.callMalloc]
  split
  · rename_i hk0
    refine h.move rfl rfl rfl ?_ (fun hne => absurd hk0 hne) fun id ha _ => Or.inl ha
    intro call pc hpc
    rcases allocate_cases cfg sz with he | he <;> simp [he] at hpc
  · rename_i hk0
    split
    · rename_i hreg
      refine h.move rfl rfl rfl ?_ (fun _ _ => hreg) fun id ha _ => Or.inl ha
      intro call pc hpc
      rcases countMalloc_pc cfg pool sz (s.threads k) with he | he | he <;>
        simp [he] at hpc
    · refine h.move rfl rfl rfl ?_ (fun _ hpc => by cases hpc) fun id ha _ => Or.inl ha
      intro call pc hpc
      cases hpc
      rfl

/-- A heap enters the registry only where no other heap stands. -/
def KeepsEntries (pool : PoolConfig) (s : ScalableHeap) : Action → Prop
  | .step k _ => match (s.threads k).pc with
    | .register _ .publish => ∀ heap ∈ s.registry.entries (threadId pool k), heap = k
    | _ => True
  | _ => True

instance (pool : PoolConfig) (s : ScalableHeap) : (a : Action) → Decidable (KeepsEntries pool s a)
  | .create | .malloc _ _ | .free _ _ | .findOwner _ _ _ => isTrue trivial
  | .step k _ => by
    change Decidable (match (s.threads k).pc with
      | .register _ .publish => ∀ heap ∈ s.registry.entries (threadId pool k), heap = k
      | _ => True)
    exact match (s.threads k).pc with
      | .register _ .publish => inferInstance
      | .register _ .loadMax | .register _ (.casMax _) => isTrue trivial
      | .idle _ | .drainHead _ | .drainTail _ _ | .drain _ _ | .drainBig _ _ _ _ _ | .grow _
      | .getObject _ | .mapLarge _ | .freeSmall _ _ | .freeBig _ _ | .findOwner _ _ _ _ | .push _ _ _ =>
        isTrue trivial

theorem Registered.entry_self (h : Registered cfg pool s) {k : Nat} {call : Call} {pc : RegisterPc}
    {c : Choice} (hpc : (s.threads k).pc = .register call pc)
    (hkeeps : KeepsEntries pool s (.step k c)) {heap : Nat}
    (he : s.registry.entries (threadId pool k) = some heap) : heap = k := by
  have hok := h.publishing k call pc hpc
  cases pc with
  | publish =>
    simp only [KeepsEntries, hpc] at hkeeps
    exact hkeeps heap he
  | loadMax => exact Option.some.inj (he.symm.trans hok)
  | casMax oldMax => exact Option.some.inj (he.symm.trans hok.1)

private theorem Registered.register (h : Registered cfg pool s) {k : Nat} {call : Call}
    {pc : RegisterPc} (hpc : (s.threads k).pc = .register call pc) (c : Choice)
    (hkeeps : KeepsEntries pool s (.step k c)) :
    Registered cfg pool
      ({ s with registry := (registerStep pool s.registry k (threadId pool k) c.spurious pc).1 }.setThread k
        (registered cfg pool call (registerStep pool s.registry k (threadId pool k) c.spurious pc).2 k
          (s.threads k))) := by
  have hok := h.publishing k call pc hpc
  have hreg := registers_registerStep hok c.spurious
  generalize hr : registerStep pool s.registry k (threadId pool k) c.spurious pc = r at hreg
  have hentry : ∀ j, s.registry.entries (threadId pool j) = some j →
      r.1.entries (threadId pool j) = some j := by
    intro j he
    by_cases hjk : threadId pool j = threadId pool k
    · obtain rfl := h.entry_self hpc hkeeps (hjk ▸ he)
      exact hreg.entry
    · rw [hreg.other _ hjk]
      exact he
  -- the flag of heap `k` is set when registration is over and kept otherwise
  have hflag : ∀ j, ((s.setThread k (registered cfg pool call r.2 k (s.threads k))).threads j).registered
      = true → (s.threads j).registered = true ∨ j = k ∧ r.2 = .inr () := by
    intro j hj
    by_cases hjk : j = k
    · subst hjk
      simp only [setThread, Function.update_self] at hj
      rcases hr2 : r.2 with pc' | ⟨⟩
      · rw [hr2] at hj
        exact Or.inl hj
      · exact Or.inr ⟨rfl, rfl⟩
    · simp only [setThread, Function.update_of_ne hjk] at hj
      exact Or.inl hj
  have hkeep : ∀ j, (s.threads j).registered = true →
      ((s.setThread k (registered cfg pool call r.2 k (s.threads k))).threads j).registered = true := by
    intro j hj
    by_cases hjk : j = k
    · subst hjk
      simp only [setThread, Function.update_self]
      rcases r.2 with pc' | ⟨⟩
      · exact hj
      · cases call <;> rfl
    · simpa only [setThread, Function.update_of_ne hjk] using hj
  refine ⟨hreg.bound h.bound, ?_, ?_, ?_, ?_⟩
  · intro j hj
    rcases hflag j hj with hj | ⟨rfl, hdone⟩
    · obtain ⟨he, hmax⟩ := h.known j hj
      exact ⟨hentry j he, hmax.trans_le hreg.maxThreadId_le⟩
    · exact ⟨hreg.entry, hreg.done hdone⟩
  · intro j call' pc' hpc'
    by_cases hjk : j = k
    · subst hjk
      simp only [setThread, Function.update_self] at hpc'
      rcases hr2 : r.2 with pc'' | ⟨⟩
      · rw [hr2] at hpc'
        cases hpc'
        exact hreg.next _ hr2
      · rw [hr2] at hpc'
        cases call with
        | malloc sz =>
          rcases countMalloc_pc cfg pool sz
            { s.threads j with registered := true } with he | he | he <;>
            simp [registered, he] at hpc'
        | free ptr => cases hpc'
    · simp only [setThread, Function.update_of_ne hjk] at hpc'
      have hok := h.publishing j call' pc' hpc'
      cases pc' with
      | publish => trivial
      | loadMax => exact hentry j hok
      | casMax oldMax => exact ⟨hentry j hok.1, hok.2⟩
  · intro j hj0 hpc'
    by_cases hjk : j = k
    · subst hjk
      simp only [setThread, Function.update_self] at hpc' ⊢
      rcases hr2 : r.2 with pc'' | ⟨⟩
      · rw [hr2] at hpc'
        simp [registered, Pc.allocating] at hpc'
      · cases call <;> rfl
    · simp only [setThread, Function.update_of_ne hjk] at hpc'
      exact hkeep j (h.past j hj0 hpc')
  · intro id ha ho
    exact hkeep _ (h.owner id ha ho)

private theorem Registered.consume (h : Registered cfg pool s) {k : Nat} (sz : Nat) (pc : DrainPc)
    {large : LargeHeap} {process : Process} (hpc : (s.threads k).pc.allocating = true)
    (hact : ∀ id, process.Active cfg id → s.process.Active cfg id) :
    Registered cfg pool
      (consume cfg pool { s with process := process, large := large } k sz pc) := by
  refine h.movePc rfl rfl ?_ (fun _ => hpc) hact
  intro call pc' he
  rcases hr : (drainStep pool (s.queues (threadId pool k)) pc).2 with pc'' | n
  · simp [hr] at he
  · simp only [hr, Sum.elim_inr] at he
    rcases allocate_cases cfg sz with ha | ha <;> simp [ha] at he

/-- Every step keeps the registry in order. -/
theorem Registered.step (h : Registered cfg pool s) {a : Action}
    (hkeeps : KeepsEntries pool s a) (hs : Step cfg pool s a s') : Registered cfg pool s' := by
  have hcalm {process : Process} (hc : s.process.Calm process) (id : MiniId)
      (ha : process.Active cfg id) : s.process.Active cfg id := (hc.layout.active_iff id).mp ha
  have hallocate (pc : Pc) (sz : Nat) (hpc : pc = allocate cfg sz) (call : Call) (pc' : RegisterPc) :
      pc ≠ .register call pc' := by
    rintro rfl
    rcases allocate_cases cfg sz with ha | ha <;> simp [ha] at hpc
  cases hs with
  | create =>
    exact ⟨h.bound, h.known, h.publishing, h.past, h.owner⟩
  | malloc _ _ => exact h.callMalloc _ _
  | freeNull _ _ => exact h.movePc rfl rfl (by simp) (by simp [Pc.allocating]) fun _ ha => ha
  | free _ _ _ => exact h.movePc rfl rfl (by simp) (by simp [Pc.allocating]) fun _ ha => ha
  | find _ _ => exact h.movePc rfl rfl (by simp) (by simp [Pc.allocating]) fun _ ha => ha
  | register hpc _ => exact h.register hpc _ hkeeps
  | @drainHead k c sz pc hpc hto =>
    refine h.movePc rfl rfl ?_ (fun _ => by rw [hpc]; rfl) fun _ ha => ha
    rcases hto with rfl | hto
    · simp
    · exact hallocate pc sz hto
  | @drainTail k c sz head pc hpc hto =>
    refine h.movePc rfl rfl ?_ (fun _ => by rw [hpc]; rfl) fun _ ha => ha
    rcases hto with rfl | hto
    · simp
    · exact hallocate pc sz hto
  | consume hpc _ => exact h.consume _ _ (by rw [hpc]; rfl) fun _ ha => ha
  | deliver hpc _ hf =>
    exact h.consume _ _ (by rw [hpc]; rfl) fun id ha => (hf.layout.active_iff id).mp ha
  | callbackMiss hpc _ hc =>
    exact h.movePc rfl rfl (by simp) (fun _ => by rw [hpc]; rfl) (hcalm hc)
  | deliverBig hpc => exact h.consume _ _ (by rw [hpc]; rfl) fun _ ha => ha
  | @grow k c sz process hpc hg =>
    have hself : s.threads = Function.update s.threads k (s.threads k) :=
      (Function.update_eq_self _ _).symm
    refine h.move rfl hself rfl (by simp [hpc]) (fun hk _ => h.past k hk (by rw [hpc]; rfl)) ?_
    intro id ha ho
    by_cases hold : s.process.Active cfg id
    · exact Or.inl hold
    · have hk := hg.owner id ha hold
      exact Or.inr ⟨hk, h.past k (hk ▸ ho) (by rw [hpc]; rfl)⟩
  | room hpc _ => exact h.movePc rfl rfl (by simp) (fun _ => by rw [hpc]; rfl) fun _ ha => ha
  | taken _ => exact h
  | take _ _ _ ht =>
    exact h.movePc rfl rfl (by simp) (by simp [Pc.allocating])
      fun id ha => (ht.layout.active_iff id).mp ha
  | mapLarge _ _ _ _ => exact h.movePc rfl rfl (by simp) (by simp [Pc.allocating]) fun _ ha => ha
  | freeHit _ _ hf =>
    exact h.movePc rfl rfl (by simp) (by simp [Pc.allocating])
      fun id ha => (hf.layout.active_iff id).mp ha
  | freeMiss _ _ hc => exact h.movePc rfl rfl (by simp) (by simp [Pc.allocating]) (hcalm hc)
  | largeHit _ _ => exact h.movePc rfl rfl (by simp) (by simp [Pc.allocating]) fun _ ha => ha
  | @largeMiss k c again ptr hpc hk _ =>
    refine h.move rfl rfl rfl ?_ ?_ fun id ha _ => Or.inl ha
    · intro call pc he
      simp only [refused] at he
      split at he
      · cases he
      · rename_i hk0
        split at he
        · cases he
        · cases he
          rfl
    · intro _ he
      simp only [refused] at he
      split at he
      · cases he
      · split at he <;> cases he
  | @findOwner k c ptr e slow pc process r hpc hr hc =>
    have hto : ∀ call pc', r.elim (Pc.findOwner ptr e slow) (found pool slow ptr) ≠
        .register call pc' := by
      intro call pc'
      rcases r with pc'' | owner
      · simp
      · cases slow with
        | false => simp [found]
        | true =>
          cases owner with
          | none => simp [found]
          | some ownerId =>
            simp only [Sum.elim_inr, found, if_true]
            split <;> simp
    refine h.movePc rfl rfl hto ?_ (hcalm hc)
    intro he
    exfalso
    rcases r with pc'' | owner
    · cases he
    · cases slow with
      | false => cases he
      | true =>
        cases owner with
        | none => cases he
        | some ownerId =>
          simp only [Sum.elim_inr, found, if_true] at he
          split at he <;> cases he
  | @push k c ptr ownerId pc hpc =>
    refine h.movePc rfl rfl ?_ ?_ fun _ ha => ha
    · intro call pc'
      rcases (pushStep pool (s.queues ownerId) ptr c.spurious pc).2 with pc'' | b <;> simp
    · intro he
      rcases hr : (pushStep pool (s.queues ownerId) ptr c.spurious pc).2 with pc'' | b <;>
        simp [hr, Pc.allocating] at he

theorem registered_reach {process : Process} {ok : ScalableHeap → Action → Prop}
    (hp : Placed cfg process) (hno : ∀ id, ¬ process.Active cfg id)
    (hok : ∀ s a, ok s a → MemoryOk cfg s a ∧ KeepsEntries pool s a)
    (hr : Transition.Reach (next cfg pool) ok (initial process) s) : Registered cfg pool s := by
  refine hr.invariant_of_reach (registered_initial hno) ?_
  intro r a r' hr h ho hn
  have hinv := inv_reach hp hno (fun s a ho => (hok s a ho).1) hr
  exact h.step (hok r a ho).2 (step_of_next hinv (hok r a ho).1 hn)

/-- A lookup of an address in a slot of heap `heap` and class `cls` has not passed the entry of that
heap, and while it asks that heap it has not passed the class. -/
def Reaches (pool : PoolConfig) (heap cls : Nat) : FindPc → Prop
  | .loadMax => True
  | .entry i maxId => threadId pool heap < maxId ∧ i ≤ threadId pool heap
  | .ask i maxId asked => threadId pool heap < maxId ∧ i ≤ threadId pool heap ∧
      (i = threadId pool heap → asked = heap)
  | .askClass i maxId asked cached c => threadId pool heap < maxId ∧ i ≤ threadId pool heap ∧
      (i = threadId pool heap → asked = heap ∧ c ≤ cls ∧ (cls : Int) ≠ cached)
  | .askBig i maxId => threadId pool heap < maxId ∧ i < threadId pool heap

def ReachesOr (pool : PoolConfig) (heap cls : Nat) : FindPc ⊕ Option Nat → Prop
  | .inl pc => Reaches pool heap cls pc
  | .inr owner => owner = some (threadId pool heap)

/-- In the DieHarder variant a lookup asks only the heap that the object belongs to. -/
def AsksOwner (cfg : HeapConfig) (s : ScalableHeap) : Action → Prop
  | .step k _ => ∀ ptr e slow i maxId heap,
    (s.threads k).pc = .findOwner ptr e slow (.ask i maxId heap) → cfg.dieHarderOn = true →
    ∀ x : Slot, s.process.Active cfg x.id → (s.process.layout cfg x.id).Contains x.index ptr →
      x.id.owner = heap
  | _ => True

theorem asksOwner_of_dieHard (hd : cfg.dieHarderOn = false) (s : ScalableHeap) (a : Action) :
    AsksOwner cfg s a := by
  cases a with
  | step k c =>
    intro ptr e slow i maxId heap _ hd'
    rw [hd] at hd'
    cases hd'
  | _ => trivial

section Walk

variable {x : Slot} {ptr e : Nat}

private theorem classSizeOf_pos_iff (h : Inv cfg pool s) (hd : cfg.dieHarderOn = false)
    (ha : s.process.Active cfg x.id) (hx : (s.process.layout cfg x.id).Contains x.index ptr)
    {heap c : Nat} (hc : c < cfg.maxIndex) :
    0 < s.process.classSizeOf cfg heap ptr c ↔ heap = x.id.owner ∧ c = x.id.cls := by
  constructor
  · intro hpos
    by_contra hne
    have hzero := h.placed.classSizeOf_zero (k := heap) hd hc (p := ptr) (by
      intro i hi
      refine h.placed.not_inBlock_of_ne ha hx ⟨hc, hi⟩ ?_
      intro he
      exact hne ⟨congrArg MiniId.owner he, congrArg MiniId.cls he⟩)
    omega
  · rintro ⟨rfl, rfl⟩
    rw [h.placed.classSizeOf_slot hd ha hx]
    exact Placed.spaceLeft_pos hx

private theorem reachesOr_ask (h : Inv cfg pool s) (ha : s.process.Active cfg x.id)
    (hx : (s.process.layout cfg x.id).Contains x.index ptr) {i maxId heap : Nat}
    (hask : cfg.dieHarderOn = true → x.id.owner = heap)
    (hr : Reaches pool x.id.owner x.id.cls (.ask i maxId heap)) (hok : HasId pool heap i) :
    ReachesOr pool x.id.owner x.id.cls (askStep cfg s.process ptr i maxId heap) := by
  obtain ⟨hmax, hle, hheap⟩ := hr
  by_cases hd : cfg.dieHarderOn = true
  · have hpos : 0 < (s.process.getSize cfg heap ptr).1 := by
      rw [h.placed.getSize_slot ha hx (Or.inl hd)]
      exact Placed.spaceLeft_pos hx
    simp only [askStep, if_pos hd, if_pos hpos, ReachesOr, Option.some.injEq]
    rw [hask hd]
    exact hok.2.1.symm
  · have hd' : cfg.dieHarderOn = false := by simpa using hd
    simp only [askStep, hd', Bool.false_eq_true, if_false]
    split
    · rename_i hcached
      obtain ⟨h0, hlt, hpos⟩ := hcached
      have howner := ((classSizeOf_pos_iff h hd' ha hx (by omega)).mp hpos).1
      rw [ReachesOr, ← howner, hok.2.1]
    · rename_i hcached
      refine ⟨hmax, hle, fun hi => ⟨hheap hi, Nat.zero_le _, ?_⟩⟩
      intro he
      have hlt := ha.1
      refine hcached ⟨by omega, by omega, ?_⟩
      refine (classSizeOf_pos_iff h hd' ha hx (by omega)).mpr ⟨hheap hi, by omega⟩

private theorem reachesOr_askClass (h : Inv cfg pool s) (hd : cfg.dieHarderOn = false)
    (ha : s.process.Active cfg x.id) (hx : (s.process.layout cfg x.id).Contains x.index ptr)
    {i maxId heap c : Nat} {cached : Int}
    (hr : Reaches pool x.id.owner x.id.cls (.askClass i maxId heap cached c))
    (hok : HasId pool heap i) :
    ReachesOr pool x.id.owner x.id.cls
      (findStep cfg s.registry s.large s.process ptr e (.askClass i maxId heap cached c)).2 := by
  obtain ⟨hmax, hle, hheap⟩ := hr
  simp only [findStep]
  split
  · refine ⟨hmax, Nat.lt_of_le_of_ne hle ?_⟩
    intro hi
    have hc := (hheap hi).2.1
    have hlt := ha.1
    omega
  · rename_i hc
    split
    · rename_i hcached
      refine ⟨hmax, hle, ?_⟩
      intro hi
      obtain ⟨hh, hcls, hne⟩ := hheap hi
      exact ⟨hh, by omega, hne⟩
    · split
      · rename_i hpos
        have howner := ((classSizeOf_pos_iff h hd ha hx (by omega)).mp hpos).1
        rw [ReachesOr, ← howner, hok.2.1]
      · rename_i hzero
        refine ⟨hmax, hle, ?_⟩
        intro hi
        obtain ⟨hh, hcls, hne⟩ := hheap hi
        have hcne : c ≠ x.id.cls := fun he =>
          hzero ((classSizeOf_pos_iff h hd ha hx (by omega)).mpr ⟨hh, he⟩)
        exact ⟨hh, by omega, hne⟩

/-- One access of a lookup that excludes another ID keeps it on its way to the owner of the address,
and its answer is the owner's ID. -/
theorem reachesOr_findStep (h : Inv cfg pool s) (hreg : Registered cfg pool s)
    (ha : s.process.Active cfg x.id) (hx : (s.process.layout cfg x.id).Contains x.index ptr)
    (ho : x.id.owner ≠ fallbackHeap) (he : threadId pool x.id.owner ≠ e) {pc : FindPc}
    (hask : ∀ i maxId heap, pc = .ask i maxId heap → cfg.dieHarderOn = true → x.id.owner = heap)
    (hr : Reaches pool x.id.owner x.id.cls pc) (hok : FindOk cfg pool pc) :
    ReachesOr pool x.id.owner x.id.cls
      (findStep cfg s.registry s.large s.process ptr e pc).2 := by
  obtain ⟨hentry, hmax⟩ := hreg.known _ (hreg.owner _ ha ho)
  cases pc with
  | loadMax => exact ⟨hmax, Nat.zero_le _⟩
  | entry i maxId =>
    obtain ⟨hlt, hle⟩ := hr
    simp only [findStep]
    rw [if_neg (by omega)]
    split
    · rename_i hi
      exact ⟨hlt, by omega⟩
    · split
      · rename_i hnone
        refine ⟨hlt, Nat.lt_of_le_of_ne hle ?_⟩
        rintro rfl
        rw [hentry] at hnone
        cases hnone
      · rename_i heap hsome
        refine ⟨hlt, hle, ?_⟩
        rintro rfl
        rw [hentry] at hsome
        exact (Option.some.inj hsome).symm
  | ask i maxId heap => exact reachesOr_ask h ha hx (hask i maxId heap rfl) hr hok
  | askClass i maxId heap cached c =>
    exact reachesOr_askClass h hok.2 ha hx hr hok.1
  | askBig i maxId =>
    obtain ⟨hlt, hi⟩ := hr
    have hzero : s.large.getSize ptr = 0 := h.large x.id ha _ ptr hx.inBlock
    simp only [findStep, hzero, Nat.lt_irrefl, if_false]
    exact ⟨hlt, hi⟩

/-- The answer of a lookup, when it names a heap, names the owner of the address. -/
theorem findStep_owner (h : Inv cfg pool s) (ha : s.process.Active cfg x.id)
    (hx : (s.process.layout cfg x.id).Contains x.index ptr) {pc : FindPc}
    (hask : ∀ i maxId heap, pc = .ask i maxId heap → cfg.dieHarderOn = true → x.id.owner = heap)
    (hok : FindOk cfg pool pc) {id : Nat}
    (hr : (findStep cfg s.registry s.large s.process ptr e pc).2 = .inr (some id)) :
    HasId pool x.id.owner id := by
  cases pc with
  | loadMax => cases hr
  | entry i maxId =>
    simp only [findStep] at hr
    split at hr
    · cases hr
    · split at hr
      · cases hr
      · split at hr <;> cases hr
  | ask i maxId heap =>
    simp only [findStep, askStep] at hr
    split at hr
    · rename_i hd
      split at hr
      · obtain rfl := Option.some.inj (Sum.inr.inj hr)
        rw [hask _ maxId heap rfl hd]
        exact hok
      · cases hr
    · rename_i hd
      split at hr
      · rename_i hcached
        obtain ⟨h0, hlt, hpos⟩ := hcached
        obtain rfl := Option.some.inj (Sum.inr.inj hr)
        rw [← ((classSizeOf_pos_iff h (by simpa using hd) ha hx (by omega)).mp hpos).1]
        exact hok
      · cases hr
  | askClass i maxId heap cached c =>
    simp only [findStep] at hr
    split at hr
    · cases hr
    · rename_i hc
      split at hr
      · cases hr
      · split at hr
        · rename_i hpos
          obtain rfl := Option.some.inj (Sum.inr.inj hr)
          rw [← ((classSizeOf_pos_iff h hok.2 ha hx (by omega)).mp hpos).1]
          exact hok.1
        · cases hr
  | askBig i maxId =>
    have hzero : s.large.getSize ptr = 0 := h.large x.id ha _ ptr hx.inBlock
    simp [findStep, hzero] at hr

end Walk

end ScalableHeap

end DieHard
