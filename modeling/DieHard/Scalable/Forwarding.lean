import DieHard.Scalable.Freeing

/-!
# Ownership lookup is exact

A lookup of a live small object answers with the ID of the heap that allocated it after a bounded
number of accesses, and a free by another thread brings the pointer to the queue of that heap. Three
things break this: a heap that enters itself over another one, a full queue, and in the DieHarder
variant any other heap with a smaller ID, since each answers for the objects of all.
-/

namespace DieHard

open Blocks PerThreadFreeQueue HeapRegistry Transition

namespace ScalableHeap

variable {cfg : HeapConfig} {pool : PoolConfig} {s s' : ScalableHeap}

/-- A bound on the accesses that a lookup still makes. -/
def accessesLeft (cfg : HeapConfig) (pool : PoolConfig) : FindPc → Nat
  | .loadMax => pool.maxThreads * (cfg.maxIndex + 4) + 2
  | .entry i maxId => (maxId - i) * (cfg.maxIndex + 4) + 1
  | .ask i maxId _ => (maxId - (i + 1)) * (cfg.maxIndex + 4) + cfg.maxIndex + 4
  | .askClass i maxId _ _ c => (maxId - (i + 1)) * (cfg.maxIndex + 4) + (cfg.maxIndex - c) + 3
  | .askBig i maxId => (maxId - (i + 1)) * (cfg.maxIndex + 4) + 2

/-- Every access of a lookup brings it closer to its answer. -/
theorem accessesLeft_findStep {r : HeapRegistry} (large : LargeHeap) (process : Process)
    (hbound : r.maxThreadId ≤ pool.maxThreads) (ptr e : Nat) {pc pc' : FindPc}
    (hr : (findStep cfg r large process ptr e pc).2 = .inl pc') :
    accessesLeft cfg pool pc' + 1 ≤ accessesLeft cfg pool pc := by
  cases pc with
  | loadMax =>
    cases hr
    have := Nat.mul_le_mul_right (cfg.maxIndex + 4) hbound
    simp only [accessesLeft, Nat.sub_zero]
    omega
  | entry i maxId =>
    simp only [findStep] at hr
    split at hr
    · cases hr
    · rename_i hi
      have hturn : (maxId - i) * (cfg.maxIndex + 4) =
          (maxId - (i + 1)) * (cfg.maxIndex + 4) + (cfg.maxIndex + 4) := by
        rw [← Nat.succ_mul]
        congr 1
        omega
      split at hr
      · cases hr
        simp only [accessesLeft]
        omega
      · split at hr <;> cases hr <;> simp only [accessesLeft] <;> omega
  | ask i maxId heap =>
    simp only [findStep, askStep] at hr
    split at hr
    · split at hr
      · cases hr
      · cases hr
        simp only [accessesLeft]
        omega
    · split at hr
      · cases hr
      · cases hr
        simp only [accessesLeft]
        omega
  | askClass i maxId heap cached c =>
    simp only [findStep] at hr
    split at hr
    · cases hr
      simp only [accessesLeft]
      omega
    · rename_i hc
      split at hr
      · cases hr
        simp only [accessesLeft]
        omega
      · split at hr
        · cases hr
        · cases hr
          simp only [accessesLeft]
          omega
  | askBig i maxId =>
    simp only [findStep] at hr
    split at hr
    · cases hr
    · cases hr
      simp only [accessesLeft]
      omega

/-- The places of a lookup of `ptr` that has not passed the heap `owner`. -/
def Looking (pool : PoolConfig) (ptr owner cls e : Nat) : Pc → Prop
  | .findOwner p e' slow pc => p = ptr ∧ e' = e ∧ slow = false ∧ Reaches pool owner cls pc
  | _ => False

/-- The places of a call `free(ptr)` on heap `t` on its way to the queue of the heap `owner`. -/
def Forwarding (pool : PoolConfig) (ptr owner cls t : Nat) : Pc → Prop
  | .freeSmall again p => p = ptr ∧ again = false
  | .freeBig again p => p = ptr ∧ again = false
  | .register call _ => call = .free ptr
  | .findOwner p e slow pc => p = ptr ∧ e = threadId pool t ∧ slow = true ∧
      threadId pool owner ≠ threadId pool t ∧ Reaches pool owner cls pc
  | .push p id _ => p = ptr ∧ id = threadId pool owner
  | _ => False

theorem Registered.threadId_ne (h : Registered cfg pool s) {j k : Nat}
    (hj : (s.threads j).registered = true) (hk : (s.threads k).registered = true) (hjk : j ≠ k) :
    threadId pool j ≠ threadId pool k := by
  intro he
  have hentry := (h.known j hj).1
  rw [he, (h.known k hk).1] at hentry
  exact hjk (Option.some.inj hentry).symm

section Access

variable {t : Nat} {c : Choice} {ptr : Addr} {x : Slot}

theorem looking_access (h : Inv cfg pool s) (hreg : Registered cfg pool s)
    (hs : Step cfg pool s (.step t c) s') (hask : AsksOwner cfg s (.step t c))
    (ha : s.process.Active cfg x.id) (hx : (s.process.layout cfg x.id).Contains x.index ptr)
    (ho : x.id.owner ≠ fallbackHeap) {e : Nat} (he : threadId pool x.id.owner ≠ e)
    (hl : Looking pool ptr x.id.owner x.id.cls e (s.threads t).pc) :
    Looking pool ptr x.id.owner x.id.cls e (s'.threads t).pc ∨
      (s'.threads t).pc = .idle (some (.owner (some (threadId pool x.id.owner)))) := by
  cases hpc : (s.threads t).pc with
  | findOwner p e' slow pc =>
    rw [hpc] at hl
    obtain ⟨rfl, rfl, rfl, hreaches⟩ := hl
    have hok := h.threads t
    rw [hpc] at hok
    have hwalk := reachesOr_findStep h hreg ha hx ho he (fun i maxId heap hp hd =>
      hask p e' false i maxId heap (hp ▸ hpc) hd x ha hx) hreaches hok.2
    rw [hs.atFindOwner hpc]
    rcases hr : (findStep cfg s.registry s.large s.process p e' pc).2 with pc' | owner
    · rw [hr] at hwalk
      exact Or.inl ⟨rfl, rfl, rfl, hwalk⟩
    · rw [hr] at hwalk
      obtain rfl : owner = some (threadId pool x.id.owner) := hwalk
      exact Or.inr rfl
  | _ =>
    rw [hpc] at hl
    exact hl.elim

theorem forwarding_access (h : Inv cfg pool s) (hreg : Registered cfg pool s)
    (hreg' : Registered cfg pool s') (hs : Step cfg pool s (.step t c) s')
    (hask : AsksOwner cfg s (.step t c)) (hfull : NotFull pool s (.step t c))
    (ha : s.process.Active cfg x.id) (hx : (s.process.layout cfg x.id).Contains x.index ptr)
    (ho : x.id.owner ≠ fallbackHeap) (ht : t ≠ fallbackHeap) (hto : t ≠ x.id.owner)
    (hf : Forwarding pool ptr x.id.owner x.id.cls t (s.threads t).pc) :
    Forwarding pool ptr x.id.owner x.id.cls t (s'.threads t).pc ∨
      (s'.threads t).pc = .idle (some (.free true)) ∧ Queued pool s' x.id.owner ptr ∧
        ∃ id n, (s.threads t).pc = .push ptr id (.storeSlot n) := by
  cases hpc : (s.threads t).pc with
  | freeSmall again p =>
    rw [hpc] at hf
    obtain ⟨rfl, rfl⟩ := hf
    rcases hs.atFreeSmall hpc with ⟨y, ⟨hy, hb, hyp⟩, -, -⟩ | ⟨-, hpc'⟩
    · obtain rfl := h.placed.slot_eq ha (h.placed.bit_active hb) hx hyp
      exact absurd hy.symm hto
    · rw [hpc']
      exact Or.inl ⟨rfl, rfl⟩
  | freeBig again p =>
    rw [hpc] at hf
    obtain ⟨rfl, rfl⟩ := hf
    rcases hs.atFreeBig hpc with ⟨hne, -, -⟩ | ⟨-, hpc'⟩
    · exact absurd (h.large x.id ha _ p hx.inBlock) hne
    · rw [hpc']
      simp only [refused, Bool.false_or, decide_eq_true_eq, if_neg ht]
      split
      · rename_i hflag
        exact Or.inl ⟨rfl, rfl, rfl, hreg.threadId_ne (hreg.owner _ ha ho) hflag hto.symm, trivial⟩
      · exact Or.inl rfl
  | register call pc =>
    rw [hpc] at hf
    obtain rfl : call = .free ptr := hf
    have hthread := hs.atRegister hpc
    rcases hr : (registerStep pool s.registry t (threadId pool t) c.spurious pc).2 with pc' | ⟨⟩
    · rw [hthread, hr]
      exact Or.inl rfl
    · rw [hr] at hthread
      have hflag : (s'.threads t).registered = true := by rw [hthread]; rfl
      rw [hthread]
      have howner := hreg'.owner _ (hs.extends.active _ ha) ho
      exact Or.inl ⟨rfl, rfl, rfl, hreg'.threadId_ne howner hflag hto.symm, trivial⟩
  | findOwner p e slow pc =>
    rw [hpc] at hf
    obtain ⟨rfl, rfl, rfl, hne, hreaches⟩ := hf
    have hok := h.threads t
    rw [hpc] at hok
    have hwalk := reachesOr_findStep h hreg ha hx ho hne (fun i maxId heap hp hd =>
      hask p _ true i maxId heap (hp ▸ hpc) hd x ha hx) hreaches hok.2
    rw [hs.atFindOwner hpc]
    rcases hr : (findStep cfg s.registry s.large s.process p (threadId pool t) pc).2 with pc' | owner
    · rw [hr] at hwalk
      exact Or.inl ⟨rfl, rfl, rfl, hne, hwalk⟩
    · rw [hr] at hwalk
      obtain rfl : owner = some (threadId pool x.id.owner) := hwalk
      rw [Sum.elim_inr, found_owner ⟨ho, rfl, threadId_lt _ _⟩]
      exact Or.inl ⟨rfl, rfl⟩
  | push p id pc =>
    rw [hpc] at hf
    obtain ⟨rfl, rfl⟩ := hf
    rcases push_access hs hfull hpc with ⟨pc', hpc'⟩ | ⟨hpc', ⟨n, rfl⟩, hstored⟩
    · rw [hpc']
      exact Or.inl ⟨rfl, rfl⟩
    · exact Or.inr ⟨hpc', ⟨ho, hstored⟩, _, n, rfl⟩
  | _ =>
    rw [hpc] at hf
    exact hf.elim

end Access

section Runs

variable {ok : ScalableHeap → Action → Prop} {init : ScalableHeap}

/-- Lookups and frees of small objects of per-thread heaps do what they are for. -/
structure LookupExact (e : Execution (next cfg pool) ok init) : Prop where
  /-- A lookup that excludes another ID answers with the ID of the heap that allocated the object. -/
  answer : ∀ a b t ptr exclude heap sz answer, heap ≠ fallbackHeap →
    (e.state a).live ptr = some ⟨some heap, sz⟩ → e.action a = .findOwner t ptr exclude →
    exclude ≠ threadId pool heap → Returns e t a b answer →
    answer = .owner (some (threadId pool heap))
  /-- A lookup returns when its thread has made enough accesses. -/
  returns : ∀ a m t ptr exclude, m ≤ e.length → a < m → e.action a = .findOwner t ptr exclude →
    pool.maxThreads * (cfg.maxIndex + 4) + 2 <
      Nat.count (fun k => a < k ∧ (e.action k).isStep t) m →
    ∃ b owner, b < m ∧ Returns e t a b (.owner owner)
  /-- A free by the thread of another heap puts the pointer into the queue of the heap that allocated
  the object. -/
  forward : ∀ a b t ptr heap sz answer, heap ≠ fallbackHeap → t ≠ fallbackHeap → t ≠ heap →
    (e.state a).live ptr = some ⟨some heap, sz⟩ → e.action a = .free t ptr →
    Returns e t a b answer → answer = .free true ∧ Queued pool (e.state (b + 1)) heap ptr

def Forwards (cfg : HeapConfig) (pool : PoolConfig) (s : ScalableHeap) (a : Action) : Prop :=
  MemoryOk cfg s a ∧ KeepsEntries pool s a ∧ AsksOwner cfg s a ∧ NotFull pool s a

variable {localRandom : Nat → BitVec 64} {random : Nat → Nat → Nat → BitVec 64}
  {mem : Addr → BitVec 8} {mapped : List (Addr × Nat)}

theorem Execution.registered (e : Execution (next cfg pool) ok (start localRandom random mem mapped))
    (hok : ∀ s a, ok s a → MemoryOk cfg s a ∧ KeepsEntries pool s a) {k : Nat} (hk : k ≤ e.length) :
    Registered cfg pool (e.state k) :=
  registered_reach (placed_initial _ _ _ _) start_not_active hok (e.reach hk)

section LookupExact

variable (e : Execution (next cfg pool) (Forwards cfg pool) (start localRandom random mem mapped))
  {a b t : Nat} {ptr : Addr}

private theorem memoryOk_of_forwards (s : ScalableHeap) (a : Action) (h : Forwards cfg pool s a) :
    MemoryOk cfg s a :=
  h.1

private theorem slot_of_live {heap sz : Nat} (ha : a ≤ e.length)
    (hl : (e.state a).live ptr = some ⟨some heap, sz⟩) :
    ∃ x : Slot, x.id.owner = heap ∧ ∀ m, a ≤ m → m ≤ e.length →
      (e.state m).process.Active cfg x.id ∧
        ((e.state m).process.layout cfg x.id).Contains x.index ptr := by
  obtain ⟨x, hactive, hindex, hheap, -, rfl⟩ :=
    (Execution.inv e memoryOk_of_forwards ha).live ptr heap sz hl
  refine ⟨x, hheap, ?_⟩
  intro m ham hm
  have hext := Execution.extends e memoryOk_of_forwards ham hm
  exact ⟨hext.active _ hactive, hext.contains hactive (Layout.contains_addr hindex)⟩

theorem lookup_answer {heap sz exclude : Nat} {answer : Answer} (ho : heap ≠ fallbackHeap)
    (hl : (e.state a).live ptr = some ⟨some heap, sz⟩) (hact : e.action a = .findOwner t ptr exclude)
    (hne : exclude ≠ threadId pool heap) (hret : Returns e t a b answer) :
    answer = .owner (some (threadId pool heap)) := by
  have hab := hret.lt
  have hlen := hret.lt_length
  obtain ⟨x, rfl, hslot⟩ := slot_of_live e (by omega) hl
  have hstep {m : Nat} (ham : a ≤ m) (hm : m < e.length) {c : Choice}
      (hc : e.action m = .step t c) := by
    have hs := Execution.stepAt e memoryOk_of_forwards hm
    have hguard := e.guarded m hm
    rw [hc] at hs hguard
    obtain ⟨ha, hx⟩ := hslot m ham hm.le
    exact looking_access (Execution.inv e memoryOk_of_forwards hm.le)
      (Execution.registered e (fun _ _ h => ⟨h.1, h.2.1⟩) hm.le) hs hguard.2.2.1 ha hx ho hne.symm
  have hplace : Looking pool ptr x.id.owner x.id.cls exclude ((e.state b).threads t).pc := by
    refine hret.keeps
      (F := fun _ s => Looking pool ptr x.id.owner x.id.cls exclude (s.threads t).pc) ?_ ?_
    · have hs := Execution.stepAt e memoryOk_of_forwards (k := a) (by omega)
      rw [hact] at hs
      rw [hs.atFind]
      exact ⟨rfl, rfl, rfl, trivial⟩
    · intro m ham hmb hf hbusy
      have hs := Execution.stepAt e memoryOk_of_forwards (k := m) (by omega)
      rcases hs.busy (hret.busy m ham (by omega)) with he | ⟨c, hc⟩
      · rw [he]
        exact hf
      · exact (hstep (by omega) (by omega) hc hf).resolve_right (hbusy _)
  obtain ⟨c, hc⟩ := Execution.atReturn e memoryOk_of_forwards hret
  rcases hstep hab.le hlen hc hplace with hf | hend
  · rw [hret.answer] at hf
    exact hf.elim
  · rw [hret.answer] at hend
    exact Option.some.inj (Pc.idle.inj hend)

theorem free_forward {heap sz : Nat} {answer : Answer} (ho : heap ≠ fallbackHeap)
    (ht : t ≠ fallbackHeap) (hto : t ≠ heap) (hl : (e.state a).live ptr = some ⟨some heap, sz⟩)
    (hact : e.action a = .free t ptr) (hret : Returns e t a b answer) :
    answer = .free true ∧ Queued pool (e.state (b + 1)) heap ptr := by
  have hab := hret.lt
  have hlen := hret.lt_length
  obtain ⟨x, rfl, hslot⟩ := slot_of_live e (by omega) hl
  have hreg {m : Nat} (hm : m ≤ e.length) : Registered cfg pool (e.state m) :=
    Execution.registered e (fun _ _ h => ⟨h.1, h.2.1⟩) hm
  have hstep {m : Nat} (ham : a ≤ m) (hm : m < e.length) {c : Choice}
      (hc : e.action m = .step t c) := by
    have hs := Execution.stepAt e memoryOk_of_forwards hm
    have hguard := e.guarded m hm
    rw [hc] at hs hguard
    obtain ⟨ha, hx⟩ := hslot m ham hm.le
    exact forwarding_access (Execution.inv e memoryOk_of_forwards hm.le) (hreg hm.le) (hreg hm) hs
      hguard.2.2.1 hguard.2.2.2 ha hx ho ht hto
  have hplace : Forwarding pool ptr x.id.owner x.id.cls t ((e.state b).threads t).pc := by
    refine hret.keeps
      (F := fun _ s => Forwarding pool ptr x.id.owner x.id.cls t (s.threads t).pc) ?_ ?_
    · rw [Execution.atFree e memoryOk_of_forwards hact hret]
      exact ⟨rfl, rfl⟩
    · intro m ham hmb hf hbusy
      have hs := Execution.stepAt e memoryOk_of_forwards (k := m) (by omega)
      rcases hs.busy (hret.busy m ham (by omega)) with he | ⟨c, hc⟩
      · rw [he]
        exact hf
      · exact (hstep (by omega) (by omega) hc hf).resolve_right fun hend => hbusy _ hend.1
  obtain ⟨c, hc⟩ := Execution.atReturn e memoryOk_of_forwards hret
  rcases hstep hab.le hlen hc hplace with hf | ⟨hend, hqueued, -⟩
  · rw [hret.answer] at hf
    exact hf.elim
  · rw [hret.answer] at hend
    exact ⟨Option.some.inj (Pc.idle.inj hend), hqueued⟩

private theorem lookup_returns {m exclude : Nat} (hm : m ≤ e.length) (ham : a < m)
    (hact : e.action a = .findOwner t ptr exclude)
    (hcount : pool.maxThreads * (cfg.maxIndex + 4) + 2 <
      Nat.count (fun k => a < k ∧ (e.action k).isStep t) m) :
    ∃ b owner, b < m ∧ Returns e t a b (.owner owner) := by
  let rank (s : ScalableHeap) : Nat := match (s.threads t).pc with
    | .findOwner _ _ _ pc => accessesLeft cfg pool pc
    | _ => 0
  have hfirst : ((e.state (a + 1)).threads t).pc = .findOwner ptr exclude false .loadMax := by
    have hs := Execution.stepAt e memoryOk_of_forwards (k := a) (by omega)
    rw [hact] at hs
    exact hs.atFind
  have hstep (k : Nat) (hk : k < m)
      (hP : ∃ pc, ((e.state k).threads t).pc = .findOwner ptr exclude false pc) :
      (∃ owner, ((e.state (k + 1)).threads t).pc = .idle (some (.owner owner))) ∨
      (∃ pc, ((e.state (k + 1)).threads t).pc = .findOwner ptr exclude false pc) ∧
        rank (e.state (k + 1)) + ((e.action k).isStep t).toNat ≤ rank (e.state k) := by
    obtain ⟨pc, hpc⟩ := hP
    have hs := Execution.stepAt e memoryOk_of_forwards (k := k) (by omega)
    by_cases hown : ∃ c, e.action k = .step t c
    · obtain ⟨c, hc⟩ := hown
      have hbound := (Execution.registered e (fun _ _ h => ⟨h.1, h.2.1⟩) (k := k) (by omega)).bound
      rw [hc] at hs
      have hpc' := hs.atFindOwner hpc
      rcases hr : (findStep cfg (e.state k).registry (e.state k).large (e.state k).process ptr exclude
        pc).2 with pc' | owner
      · rw [hr] at hpc'
        refine Or.inr ⟨⟨pc', hpc'⟩, ?_⟩
        have hle := accessesLeft_findStep _ _ hbound ptr exclude hr
        simpa only [rank, hpc, hpc', hc, Action.isStep, beq_self_eq_true, Bool.toNat_true,
          Sum.elim_inl] using hle
      · rw [hr] at hpc'
        exact Or.inl ⟨owner, hpc'⟩
    · have hsame := (hs.busy (t := t) (by simp [hpc])).resolve_right hown
      have hother : (e.action k).isStep t = false := by
        cases hk' : e.action k with
        | step j c =>
          simp only [Action.isStep, beq_eq_false_iff_ne, ne_eq]
          rintro rfl
          exact hown ⟨c, hk'⟩
        | _ => rfl
      refine Or.inr ⟨⟨pc, hsame ▸ hpc⟩, ?_⟩
      simp only [rank, hsame, hother, Bool.toNat_false, Nat.add_zero, Nat.le_refl]
  obtain ⟨b, hab, hbm, ⟨owner, howner⟩, hbusy⟩ := e.goal_of_rank
    (fun s => ∃ pc, (s.threads t).pc = .findOwner ptr exclude false pc) rank
    (fun k => ∃ owner, ((e.state (k + 1)).threads t).pc = .idle (some (.owner owner)))
    (Action.isStep t) ham ⟨_, hfirst⟩ (fun k _ hk => hstep k hk) (by
      simp only [rank, hfirst]
      exact hcount)
  refine ⟨b, owner, hbm, hab, by omega, ?_, howner⟩
  intro k hak hkb last hlast
  obtain ⟨pc, hpc⟩ := hbusy k hak hkb
  rw [hpc] at hlast
  cases hlast

/-- Ownership lookup is exact in every run in which heaps keep their entries, lookups of the
DieHarder variant ask owners only and no push finds its queue full. -/
theorem lookupExact : LookupExact e where
  answer _ _ _ _ _ _ _ _ ho hl hact hne hret := lookup_answer e ho hl hact hne hret
  returns _ _ _ _ _ hm ham hact hcount := lookup_returns e hm ham hact hcount
  forward _ _ _ _ _ _ _ ho ht hto hl hact hret := free_forward e ho ht hto hl hact hret

end LookupExact

end Runs

private theorem guarded_firstQueued_default : Guarded (next (.libdieharder false false) .default)
    (Forwards (.libdieharder false false) .default) blank firstQueued := by
  have h : Guarded (next (.libdieharder false false) .default)
      (fun s a => SmallMemoryOk (.libdieharder false false) s a ∧ KeepsEntries .default s a ∧
        NotFull .default s a) blank firstQueued := guarded_of_bool (by decide +kernel)
  exact (guarded_of_small h).mono fun s a hok =>
    ⟨hok.1, hok.2.1, asksOwner_of_dieHard rfl s a, hok.2.2⟩

def forwardedExecution : Execution (next (.libdieharder false false) .default)
    (Forwards (.libdieharder false false) .default) blank :=
  .ofRun firstQueued (by decide +kernel) guarded_firstQueued_default

theorem lookupExact_forwarded : LookupExact forwardedExecution := lookupExact forwardedExecution

/-- Heap 1 enters the registry, heap 2 allocates an object, and heap 3 looks it up. -/
def askedFirst : List Action :=
  [.create, .create, .create, .malloc 1 16] ++ accesses 1 4 0 (0, 0) ++
    [.malloc 2 1048576] ++ accesses 2 7 1048576 (0, 0) ++
    [.findOwner 3 1048576 2] ++ accesses 3 3 0 (0, 0)

private theorem guarded_askedFirst : Guarded (next (.libdieharder false true) .default)
    (fun s a => MemoryOk (.libdieharder false true) s a ∧ True) blank askedFirst :=
  guarded_of_small (guarded_of_bool (by decide +kernel))

def askedFirstExecution : Execution (next (.libdieharder false true) .default)
    (MemoryOk (.libdieharder false true)) blank :=
  .ofRun askedFirst (by decide +kernel) (guarded_askedFirst.mono fun _ _ h => h.1)

/-- The lookup answers 0, the ID of heap 1, for an object of heap 2. -/
theorem not_lookupExact_askedFirst : ¬ LookupExact askedFirstExecution := by
  intro h
  have hret : Returns askedFirstExecution 3 16 19 (.owner (some 0)) :=
    .of_isIdle (by decide) (by decide +kernel) (by decide +kernel) (by decide +kernel)
  exact absurd (h.answer 16 19 3 1048576 2 2 1048576 _ (by decide) (by decide +kernel) rfl (by decide)
    hret) (by decide)

end ScalableHeap

end DieHard
