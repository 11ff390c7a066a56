import DieHard.Scalable.Carried
import Mathlib.Algebra.BigOperators.Group.Finset.Basic

/-!
# Pending frees

A free that is under way is with one thread, or its pointer is kept by one queue. No step of a run in
which heaps keep their entries makes a second copy of it.
-/

namespace DieHard

open Counting PerThreadFreeQueue HeapRegistry Transition

namespace ScalableHeap

variable {cfg : HeapConfig} {pool : PoolConfig} {s s' : ScalableHeap}

theorem Step.nextId_le {a : Action} (hs : Step cfg pool s a s') : s.nextId ≤ s'.nextId := by
  cases hs with
  | create => exact Nat.le_succ _
  | _ => exact Nat.le_refl _

theorem Step.not_idle {k : Nat} {c : Choice} (hs : Step cfg pool s (.step k c) s') :
    (s.threads k).pc.isIdle = false := by
  cases hs <;> simp_all [Pc.isIdle]

def IdleBeyond (s : ScalableHeap) : Prop := ∀ k, s.nextId < k → (s.threads k).pc.isIdle = true

theorem IdleBeyond.le_nextId {a : Action} (h : IdleBeyond s) (hs : Step cfg pool s a s') {t : Nat}
    (hby : a.isBy t = true) : t ≤ s.nextId := by
  by_contra hlt
  have hidle := h t (Nat.lt_of_not_le hlt)
  obtain ⟨sz, rfl⟩ | ⟨p, rfl⟩ | ⟨p, e, rfl⟩ | ⟨c, rfl⟩ := Action.isBy_cases hby
  · cases hs with
    | malloc _ hk => exact hlt hk
  · cases hs with
    | freeNull _ hk => exact hlt hk
    | free _ hk _ => exact hlt hk
  · cases hs with
    | find _ hk => exact hlt hk
  · rw [hs.not_idle] at hidle
    cases hidle

theorem IdleBeyond.step {a : Action} (h : IdleBeyond s) (hs : Step cfg pool s a s') :
    IdleBeyond s' := by
  intro j hj
  have hlt := hs.nextId_le.trans_lt hj
  have hby : a.isBy j = false := by
    rw [Bool.eq_false_iff]
    intro hby
    exact Nat.not_lt.mpr (h.le_nextId hs hby) hlt
  rw [hs.other hby]
  exact h j hlt

/-- The number of frees of `ptr` that are under way. -/
def inFlight (s : ScalableHeap) (ptr : Addr) : Nat :=
  Nat.count (fun k => (s.threads k).pc.freeing = some ptr) (s.nextId + 1)

section InFlight

variable {k : Nat} {t : OwnershipTrackingHeap} {ptr : Addr}

theorem inFlight_set (ht : s'.threads = Function.update s.threads k t) (hn : s'.nextId = s.nextId)
    (hk : k ≤ s.nextId) :
    s'.inFlight ptr + (if (s.threads k).pc.freeing = some ptr then 1 else 0) =
      s.inFlight ptr + if t.pc.freeing = some ptr then 1 else 0 := by
  have h := count_update (p := fun j => (s.threads j).pc.freeing = some ptr)
    (q := fun j => (s'.threads j).pc.freeing = some ptr) (Nat.lt_succ_of_le hk) fun j hj => by
      rw [ht, Function.update_of_ne hj]
  rw [ht] at h
  simp only [Function.update_self] at h
  simp only [inFlight, hn, ht]
  exact h

theorem inFlight_create (h : IdleBeyond s) :
    ({ s with nextId := s.nextId + 1 } : ScalableHeap).inFlight ptr = s.inFlight ptr := by
  have hidle := h (s.nextId + 1) (Nat.lt_succ_self _)
  have hnone : (s.threads (s.nextId + 1)).pc.freeing ≠ some ptr := by
    rw [Pc.freeing_of_isIdle hidle]
    exact Option.some_ne_none ptr ∘ Eq.symm
  simp only [inFlight]
  rw [Nat.count_succ, if_neg hnone, Nat.add_zero]

end InFlight

theorem Step.inFlight {a : Action} (hs : Step cfg pool s a s') (h : IdleBeyond s) {k : Nat}
    (hby : a.isBy k = true) (ptr : Addr) :
    s'.inFlight ptr + (if (s.threads k).pc.freeing = some ptr then 1 else 0) =
      s.inFlight ptr + if (s'.threads k).pc.freeing = some ptr then 1 else 0 := by
  have hthreads : s'.threads = Function.update s.threads k (s'.threads k) := by
    funext j
    by_cases hj : j = k
    · rw [hj, Function.update_self]
    · rw [Function.update_of_ne hj]
      apply hs.other
      rw [Bool.eq_false_iff]
      intro hbyj
      exact hj (Action.isBy_unique hbyj hby)
  have hnext : s'.nextId = s.nextId := by
    cases hs with
    | create => cases hby
    | _ => rfl
  exact inFlight_set hthreads hnext (h.le_nextId hs hby)

theorem inFlight_step {a : Action} (h : IdleBeyond s) (hs : Step cfg pool s a s') (ptr : Addr) :
    s'.inFlight ptr ≤ s.inFlight ptr + (a.isFree ptr).toNat := by
  by_cases hact : ∃ k, a.isBy k = true
  · obtain ⟨k, hby⟩ := hact
    have hcount := hs.inFlight h hby ptr
    by_cases hfreeing : (s'.threads k).pc.freeing = some ptr
    · rcases hs.freeing_of hfreeing with hold | ⟨rfl, -, -⟩
      · rw [if_pos hold, if_pos hfreeing] at hcount
        omega
      · simp only [Action.isFree, beq_self_eq_true, Bool.toNat_true]
        rw [if_pos hfreeing] at hcount
        omega
    · rw [if_neg hfreeing] at hcount
      omega
  · cases hs with
    | create =>
      rw [inFlight_create h]
      exact Nat.le_add_right _ _
    | _ => exact absurd ⟨_, beq_self_eq_true _⟩ hact

private theorem storing_iff {pc : Pc} {id n : Nat} {p : Addr} :
    pc.pushing id = some (p, .storeSlot n) ↔ pc = .push p id (.storeSlot n) := by
  cases pc with
  | push q ownerId pc =>
    by_cases hid : ownerId = id
    · simp [Pc.pushing, hid]
    · simp [Pc.pushing, hid]
  | _ => simp [Pc.pushing]

/-- Thread `k` stores `p` in the queue `id`, at the place of head index `n`. -/
structure Stores (pool : PoolConfig) (s s' : ScalableHeap) (k : Nat) (p : Addr) (id n : Nat) : Prop where
  pc : (s.threads k).pc = .push p id (.storeSlot n)
  pc' : (s'.threads k).pc = .idle (some (.free true))
  threads : s'.threads = Function.update s.threads k (s'.threads k)
  nextId : s'.nextId = s.nextId
  other : ∀ ptr ≠ 0, ∀ j ≠ id, (s'.queueState j).kept pool ptr = (s.queueState j).kept pool ptr
  kept : ∀ ptr ≠ 0, (s'.queueState id).kept pool ptr +
      (if QueueState.Waits pool (s.queueState id) ptr (slotOf pool n) then 1 else 0) =
    (s.queueState id).kept pool ptr +
      if p = ptr ∧ (s.queueState id).consumer.any (DrainPc.clears pool (slotOf pool n)) = false then 1
      else 0

/-- Every step leaves the copies of every pointer in every queue and every store that is due alone, or
it is a store. -/
theorem kept_step (h : Inv cfg pool s) (hreg : Registered cfg pool s) {a : Action}
    (hkeeps : KeepsEntries pool s a) (hs : Step cfg pool s a s') :
    ((∀ ptr ≠ 0, ∀ id, (s'.queueState id).kept pool ptr = (s.queueState id).kept pool ptr) ∧
        ∀ k p id n, (s.threads k).pc = .push p id (.storeSlot n) →
          (s'.threads k).pc = .push p id (.storeSlot n)) ∨
      ∃ k p id n, Stores pool s s' k p id n := by
  -- what the simulation says about one queue
  have hqueue (id ptr : Nat) (hptr : ptr ≠ 0) :
      ((s'.queueState id).kept pool ptr = (s.queueState id).kept pool ptr ∧
        ∀ i p n, (s.threads i).pc = .push p id (.storeSlot n) →
          (s'.threads i).pc = .push p id (.storeSlot n)) ∨
      ∃ i p n, (s.threads i).pc = .push p id (.storeSlot n) ∧
        (s'.threads i).pc ≠ .push p id (.storeSlot n) ∧
        (s'.queueState id).kept pool ptr +
          (if QueueState.Waits pool (s.queueState id) ptr (slotOf pool n) then 1 else 0) =
        (s.queueState id).kept pool ptr +
          if p = ptr ∧ (s.queueState id).consumer.any (DrainPc.clears pool (slotOf pool n)) = false
          then 1 else 0 := by
    rcases queueState_step h hreg hkeeps hs id with he | ⟨b, hb⟩
    · refine Or.inl ⟨by rw [he], ?_⟩
      intro i p n hi
      have hsame := congrFun (congrArg QueueState.producer he) i
      exact storing_iff.mp (hsame.trans (storing_iff.mpr hi))
    · rcases (QueueState.step_of_next hb).kept hptr with ⟨hk, hproducer⟩ | ⟨i, p, n, hi, hi', hk⟩
      · refine Or.inl ⟨hk, ?_⟩
        intro i p n hi
        exact storing_iff.mp (hproducer i p n (storing_iff.mpr hi))
      · refine Or.inr ⟨i, p, n, storing_iff.mp hi, ?_, hk⟩
        intro hpc
        have hsome := storing_iff.mpr hpc
        rw [show (s'.threads i).pc.pushing id = none from hi'] at hsome
        cases hsome
  by_cases hstore : ∃ k p id n, (s.threads k).pc = .push p id (.storeSlot n) ∧
      (s'.threads k).pc ≠ .push p id (.storeSlot n)
  · obtain ⟨k, p, id, n, hpc, hpc'⟩ := hstore
    have hown : ∃ c, a = .step k c := by
      refine (hs.busy (by simp [hpc])).resolve_left ?_
      intro he
      exact hpc' (he ▸ hpc)
    obtain ⟨c, rfl⟩ := hown
    have hmoved : (s'.threads k).pc = .idle (some (.free true)) ∧
        s'.threads = Function.update s.threads k (s'.threads k) ∧ s'.nextId = s.nextId := by
      cases hs with
      | push hpc₀ =>
        cases hpc.symm.trans hpc₀
        exact ⟨by simp [setPc, setThread, pushStep], by simp [setPc, setThread], rfl⟩
      | _ => simp_all
    have hother (i : Nat) (hi : i ≠ k) : s'.threads i = s.threads i := by
      rw [hmoved.2.1, Function.update_of_ne hi]
    refine Or.inr ⟨k, p, id, n, hpc, hmoved.1, hmoved.2.1, hmoved.2.2, ?_, ?_⟩
    · intro ptr hptr j hj
      rcases hqueue j ptr hptr with ⟨hk, -⟩ | ⟨i, q, m, hi, hi', -⟩
      · exact hk
      · by_cases hik : i = k
        · subst hik
          cases hpc.symm.trans hi
          exact absurd rfl hj
        · exact absurd (hother i hik ▸ hi) hi'
    · intro ptr hptr
      rcases hqueue id ptr hptr with ⟨-, hkeep⟩ | ⟨i, q, m, hi, hi', hk⟩
      · exact absurd (hkeep k p n hpc) hpc'
      · by_cases hik : i = k
        · subst hik
          cases hpc.symm.trans hi
          exact hk
        · exact absurd (hother i hik ▸ hi) hi'
  · refine Or.inl ⟨?_, ?_⟩
    · intro ptr hptr id
      rcases hqueue id ptr hptr with ⟨hk, -⟩ | ⟨i, p, n, hi, hi', -⟩
      · exact hk
      · exact absurd ⟨i, p, id, n, hi, hi'⟩ hstore
    · intro k p id n hpc
      by_contra hpc'
      exact hstore ⟨k, p, id, n, hpc, hpc'⟩

theorem Stores.inFlight {k p id n : Nat} (h : Stores pool s s' k p id n) (hidle : IdleBeyond s)
    (ptr : Addr) :
    s'.inFlight ptr + (if p = ptr then 1 else 0) = s.inFlight ptr := by
  have hk : k ≤ s.nextId := by
    by_contra hlt
    have hpc := hidle k (Nat.lt_of_not_le hlt)
    rw [h.pc] at hpc
    cases hpc
  have hset : s'.inFlight ptr + _ = s.inFlight ptr + _ := inFlight_set h.threads h.nextId hk
  simp only [h.pc, h.pc', Pc.freeing, Option.some.injEq, reduceCtorEq, if_false] at hset
  exact hset

/-- The frees of `ptr` under way and its copies in the queues, the delivered ones included. -/
def tokens (pool : PoolConfig) (s : ScalableHeap) (ptr : Addr) : Nat :=
  ∑ id ∈ Finset.range pool.maxThreads, (s.queueState id).kept pool ptr + s.inFlight ptr

theorem tokens_initial (process : Process) {ptr : Addr} (hptr : ptr ≠ 0) :
    (initial process).tokens pool ptr = 0 := by
  have hkept (id : Nat) : ((initial process).queueState id).kept pool ptr = 0 := by
    have hwaits : ∀ j, ¬ QueueState.Waits pool ((initial process).queueState id) ptr j :=
      fun j hj => hptr hj.1.symm
    simp only [QueueState.kept, Nat.count_of_forall_not fun j _ => hwaits j]
    rfl
  have hflight : (initial process).inFlight ptr = 0 :=
    Nat.count_of_forall_not fun k _ hk => by cases hk
  simp only [tokens, hkept, hflight, Finset.sum_const_zero]

/-- A call of `free` makes one token at most, and no other step makes any. -/
theorem tokens_step (h : Inv cfg pool s) (hreg : Registered cfg pool s) (hidle : IdleBeyond s)
    {a : Action} (hkeeps : KeepsEntries pool s a) (hs : Step cfg pool s a s') {ptr : Addr}
    (hptr : ptr ≠ 0) : s'.tokens pool ptr ≤ s.tokens pool ptr + (a.isFree ptr).toNat := by
  rcases kept_step h hreg hkeeps hs with ⟨hsame, -⟩ | ⟨k, p, id, n, hstore⟩
  · have hsum : ∑ id ∈ Finset.range pool.maxThreads, (s'.queueState id).kept pool ptr =
        ∑ id ∈ Finset.range pool.maxThreads, (s.queueState id).kept pool ptr :=
      Finset.sum_congr rfl fun id _ => hsame ptr hptr id
    have hle := inFlight_step hidle hs ptr
    rw [tokens, tokens, hsum]
    omega
  · have hflight := hstore.inFlight hidle ptr
    have hqueue (j : Nat) : (s'.queueState j).kept pool ptr ≤
        (s.queueState j).kept pool ptr + if j = id then (if p = ptr then 1 else 0) else 0 := by
      by_cases hj : j = id
      · subst hj
        have hkept := hstore.kept ptr hptr
        rw [if_pos rfl]
        by_cases hp : p = ptr
        · simp only [hp, true_and, if_true] at hkept ⊢
          split_ifs at hkept <;> omega
        · simp only [hp, false_and, if_false] at hkept ⊢
          omega
      · rw [hstore.other ptr hptr j hj]
        exact Nat.le_add_right _ _
    have hsum : ∑ j ∈ Finset.range pool.maxThreads, (s'.queueState j).kept pool ptr ≤
        ∑ j ∈ Finset.range pool.maxThreads, (s.queueState j).kept pool ptr +
          if p = ptr then 1 else 0 := by
      refine (Finset.sum_le_sum fun j _ => hqueue j).trans ?_
      rw [Finset.sum_add_distrib, Finset.sum_ite_eq']
      split
      · exact Nat.le_refl _
      · exact Nat.add_le_add_left (Nat.zero_le _) _
    rw [tokens, tokens]
    omega

section Runs

variable {ok : ScalableHeap → Action → Prop} {localRandom : Nat → BitVec 64}
  {random : Nat → Nat → Nat → BitVec 64} {mem : Addr → BitVec 8} {mapped : List (Addr × Nat)}

theorem Execution.idleBeyond (e : Execution (next cfg pool) ok (start localRandom random mem mapped))
    (hok : ∀ s a, ok s a → MemoryOk cfg s a) {m : Nat} (hm : m ≤ e.length) :
    IdleBeyond (e.state m) := by
  apply e.keeps (I := fun _ s => IdleBeyond s) (Nat.zero_le m)
  · rw [e.initial]
    exact fun _ _ => rfl
  · intro k _ hkm hidle
    exact hidle.step (Execution.stepAt e hok (by omega))

end Runs

end ScalableHeap

end DieHard
