import DieHard.Lib.Transition
import DieHard.Scalable.Invariant

/-!
# Calls

A call begins with an action of its thread and returns with a later access of that thread. Between the
two, other threads leave its place alone, and no step takes a slot away from the miniheap it is in.
-/

namespace DieHard

open Blocks PerThreadFreeQueue HeapRegistry Transition

def Pc.isIdle : Pc → Bool
  | .idle _ => true
  | _ => false

namespace ScalableHeap

/-- The action is an access of heap `t`'s thread. -/
def Action.isStep (t : Nat) : Action → Bool
  | .step k _ => k == t
  | _ => false

variable {cfg : HeapConfig} {pool : PoolConfig} {s s' : ScalableHeap}

theorem Step.extends {a : Action} (hs : Step cfg pool s a s') :
    s.process.Extends cfg s'.process := by
  cases hs with
  | deliver _ _ hf => exact hf.layout.extends
  | callbackMiss _ _ hc => exact hc.layout.extends
  | grow _ hg => exact hg.grew.extends'
  | take _ _ _ ht => exact ht.layout.extends
  | freeHit _ _ hf => exact hf.layout.extends
  | freeMiss _ _ hc => exact hc.layout.extends
  | findOwner _ _ hc => exact hc.layout.extends
  | _ => exact .refl _

theorem Step.busy {a : Action} (hs : Step cfg pool s a s') {t : Nat}
    (hb : ∀ last, (s.threads t).pc ≠ .idle last) :
    s'.threads t = s.threads t ∨ ∃ c, a = .step t c := by
  have hcall {k : Nat} {last : Option Answer} (hk : (s.threads k).pc = .idle last)
      (h : OwnershipTrackingHeap) : Function.update s.threads k h t = s.threads t := by
    refine Function.update_of_ne ?_ _ _
    rintro rfl
    exact hb last hk
  have hown (k : Nat) (c : Choice) (h : OwnershipTrackingHeap) :
      Function.update s.threads k h t = s.threads t ∨ ∃ c', Action.step k c = .step t c' := by
    by_cases hk : t = k
    · exact Or.inr ⟨c, by rw [hk]⟩
    · exact Or.inl (Function.update_of_ne hk _ _)
  cases hs with
  | create => exact Or.inl rfl
  | malloc hk _ => exact Or.inl (hcall hk _)
  | freeNull hk _ => exact Or.inl (hcall hk _)
  | free hk _ _ => exact Or.inl (hcall hk _)
  | find hk _ => exact Or.inl (hcall hk _)
  | grow _ _ => exact Or.inl rfl
  | taken _ => exact Or.inl rfl
  | _ => exact hown _ _ _

section Access

variable {t : Nat} {c : Choice} {ptr : Addr}

theorem Step.atFree (hs : Step cfg pool s (.free t ptr) s')
    (hb : ∀ last, (s'.threads t).pc ≠ .idle last) : (s'.threads t).pc = .freeSmall false ptr := by
  cases hs with
  | freeNull _ _ => exact absurd (by simp [setPc, setThread]) (hb (some (.free false)))
  | free _ _ _ => simp [setPc, setThread]

theorem Step.atFind {e : Nat} (hs : Step cfg pool s (.findOwner t ptr e) s') :
    (s'.threads t).pc = .findOwner ptr e false .loadMax := by
  cases hs with
  | find _ _ => simp [setPc, setThread]

theorem Step.atFreeSmall {again : Bool} (hs : Step cfg pool s (.step t c) s')
    (hpc : (s.threads t).pc = .freeSmall again ptr) :
    (∃ x, s.process.InObject cfg t ptr x ∧ s.process.Freed cfg x ptr s'.process ∧
      (s'.threads t).pc = .idle (some (.free true))) ∨
    ((∀ x, ¬ s.process.InObject cfg t ptr x) ∧ (s'.threads t).pc = .freeBig again ptr) := by
  cases hs with
  | freeHit hpc' hx hf =>
    cases hpc.symm.trans hpc'
    exact Or.inl ⟨_, hx, hf, by simp [setPc, setThread]⟩
  | freeMiss hpc' hno _ =>
    cases hpc.symm.trans hpc'
    exact Or.inr ⟨hno, by simp [setPc, setThread]⟩
  | _ => simp_all

theorem Step.atFreeBig {again : Bool} (hs : Step cfg pool s (.step t c) s')
    (hpc : (s.threads t).pc = .freeBig again ptr) :
    (s.large.get ptr ≠ 0 ∧ s'.large = LargeHeap.clear cfg ptr s.large ∧
      (s'.threads t).pc = .idle (some (.free true))) ∨
    (s.large.get ptr = 0 ∧ (s'.threads t).pc = refused pool t again ptr (s.threads t)) := by
  cases hs with
  | largeHit hpc' hne =>
    cases hpc.symm.trans hpc'
    exact Or.inl ⟨hne, rfl, by simp [setPc, setThread]⟩
  | largeMiss hpc' _ hz =>
    cases hpc.symm.trans hpc'
    exact Or.inr ⟨hz, by simp [setPc, setThread]⟩
  | _ => simp_all

theorem Step.atRegister {call : Call} {pc : RegisterPc} (hs : Step cfg pool s (.step t c) s')
    (hpc : (s.threads t).pc = .register call pc) :
    s'.threads t = registered cfg pool call
      (registerStep pool s.registry t (threadId pool t) c.spurious pc).2 t (s.threads t) := by
  cases hs with
  | register hpc' _ =>
    cases hpc.symm.trans hpc'
    simp [setThread]
  | _ => simp_all

theorem Step.atFindOwner {e : Nat} {slow : Bool} {pc : FindPc} (hs : Step cfg pool s (.step t c) s')
    (hpc : (s.threads t).pc = .findOwner ptr e slow pc) :
    (s'.threads t).pc = (findStep cfg s.registry s.large s.process ptr e pc).2.elim
      (.findOwner ptr e slow) (found pool slow ptr) := by
  cases hs with
  | findOwner hpc' hr _ =>
    cases hpc.symm.trans hpc'
    simp [setPc, setThread, hr]
  | _ => simp_all

theorem Step.atPush {id : Nat} {pc : PushPc} (hs : Step cfg pool s (.step t c) s')
    (hpc : (s.threads t).pc = .push ptr id pc) :
    s'.queues id = (pushStep pool (s.queues id) ptr c.spurious pc).1 ∧
    (s'.threads t).pc = (pushStep pool (s.queues id) ptr c.spurious pc).2.elim (.push ptr id)
      fun _ => .idle (some (.free true)) := by
  cases hs with
  | push hpc' =>
    cases hpc.symm.trans hpc'
    exact ⟨by simp [setPc, setThread], by simp [setPc, setThread]⟩
  | _ => simp_all

end Access

section Runs

variable {ok : ScalableHeap → Action → Prop} {init : ScalableHeap}

/-- The call that action `a` begins on heap `t` returns `answer` with action `b`. -/
structure Returns (e : Execution (next cfg pool) ok init) (t a b : Nat) (answer : Answer) : Prop where
  lt : a < b
  lt_length : b < e.length
  busy : ∀ m, a < m → m ≤ b → ∀ last, ((e.state m).threads t).pc ≠ .idle last
  answer : ((e.state (b + 1)).threads t).pc = .idle (some answer)

theorem Returns.keeps {e : Execution (next cfg pool) ok init} {t a b : Nat} {answer : Answer}
    (h : Returns e t a b answer) {F : Nat → ScalableHeap → Prop} (h0 : F (a + 1) (e.state (a + 1)))
    (hs : ∀ m, a < m → m < b → F m (e.state m) →
      (∀ last, ((e.state (m + 1)).threads t).pc ≠ .idle last) → F (m + 1) (e.state (m + 1))) :
    F b (e.state b) := by
  refine e.keeps h.lt h0 ?_
  intro m ham hmb hF
  exact hs m ham hmb hF (h.busy (m + 1) (by omega) (by omega))

end Runs

def start (localRandom : Nat → BitVec 64) (random : Nat → Nat → Nat → BitVec 64)
    (mem : Addr → BitVec 8) (mapped : List (Addr × Nat)) : ScalableHeap :=
  initial (.initial localRandom random mem mapped)

section Start

variable {localRandom : Nat → BitVec 64} {random : Nat → Nat → Nat → BitVec 64}
  {mem : Addr → BitVec 8} {mapped : List (Addr × Nat)}

theorem start_not_active (id : MiniId) :
    ¬ (Process.initial localRandom random mem mapped).Active cfg id :=
  fun h => Nat.not_lt_zero _ h.2

variable {ok : ScalableHeap → Action → Prop}

theorem Execution.inv (e : Execution (next cfg pool) ok (start localRandom random mem mapped))
    (hok : ∀ s a, ok s a → MemoryOk cfg s a) {k : Nat} (hk : k ≤ e.length) :
    Inv cfg pool (e.state k) :=
  inv_reach (placed_initial _ _ _ _) start_not_active hok (e.reach hk)

theorem Execution.stepAt (e : Execution (next cfg pool) ok (start localRandom random mem mapped))
    (hok : ∀ s a, ok s a → MemoryOk cfg s a) {k : Nat} (hk : k < e.length) :
    Step cfg pool (e.state k) (e.action k) (e.state (k + 1)) :=
  step_of_next (Execution.inv e hok hk.le) (hok _ _ (e.guarded k hk)) (e.step k hk)

theorem Execution.hasPages (e : Execution (next cfg pool) ok (start localRandom random mem mapped))
    (hok : ∀ s a, ok s a → MemoryOk cfg s a) {m : Nat} (hm : m ≤ e.length) :
    (e.state m).large.HasPages cfg := by
  apply e.keeps (I := fun _ s => s.large.HasPages cfg) (Nat.zero_le m)
  · rw [e.initial]
    exact fun _ ha => absurd rfl ha
  · intro k _ hkm hpages
    exact (Execution.stepAt e hok (by omega)).hasPages hpages

theorem Execution.extends (e : Execution (next cfg pool) ok (start localRandom random mem mapped))
    (hok : ∀ s a, ok s a → MemoryOk cfg s a) {j k : Nat} (hjk : j ≤ k) (hk : k ≤ e.length) :
    (e.state j).process.Extends cfg (e.state k).process := by
  refine e.keeps (I := fun _ s => (e.state j).process.Extends cfg s.process) hjk (.refl _) ?_
  intro m _ hmk hext
  exact hext.trans (Execution.stepAt e hok (by omega)).extends

theorem Execution.atFree (e : Execution (next cfg pool) ok (start localRandom random mem mapped))
    (hok : ∀ s a, ok s a → MemoryOk cfg s a) {a b t : Nat} {ptr : Addr} {answer : Answer}
    (hact : e.action a = .free t ptr) (hret : Returns e t a b answer) :
    ((e.state (a + 1)).threads t).pc = .freeSmall false ptr := by
  have hb := hret.lt
  have hlen := hret.lt_length
  have hs := Execution.stepAt e hok (k := a) (by omega)
  rw [hact] at hs
  exact hs.atFree (hret.busy (a + 1) (by omega) (by omega))

theorem Execution.atReturn (e : Execution (next cfg pool) ok (start localRandom random mem mapped))
    (hok : ∀ s a, ok s a → MemoryOk cfg s a) {a b t : Nat} {answer : Answer}
    (hret : Returns e t a b answer) : ∃ c, e.action b = .step t c := by
  have hs := Execution.stepAt e hok hret.lt_length
  refine (hs.busy (hret.busy b hret.lt (Nat.le_refl b))).resolve_left ?_
  intro he
  refine hret.busy b hret.lt (Nat.le_refl b) (some answer) ?_
  rw [← he]
  exact hret.answer

end Start

/-- The source of memory answers with fresh blocks, and no large object is asked for. -/
def SmallMemoryOk (cfg : HeapConfig) (s : ScalableHeap) : Action → Prop
  | .step k choice => match (s.threads k).pc with
    | .grow sz => (s.process.random k (requestClass sz)).needsGrowth cfg = true →
      s.process.env.Fresh cfg
        ⟨k, requestClass sz, (s.process.random k (requestClass sz)).miniHeapsInUse⟩ choice.source
    | .mapLarge _ => False
    | _ => True
  | _ => True

instance (cfg : HeapConfig) (s : ScalableHeap) : (a : Action) → Decidable (SmallMemoryOk cfg s a)
  | .create | .malloc _ _ | .free _ _ | .findOwner _ _ _ => isTrue trivial
  | .step k _ => by
    rw [SmallMemoryOk]
    split <;> infer_instance

private theorem memoryOk_of_small {a : Action} (hz : ∀ p, s.large.get p = 0)
    (h : SmallMemoryOk cfg s a) : MemoryOk cfg s a := by
  cases a with
  | step k c =>
    rw [MemoryOk]
    split
    · rename_i sz hpc
      simp only [SmallMemoryOk, hpc] at h
      exact fun hneed => ⟨h hneed, fun j _ p hne => absurd (hz p) hne⟩
    · rename_i sz hpc
      simp only [SmallMemoryOk, hpc] at h
    · trivial
  | _ => trivial

private theorem noLarge_step {a : Action} (h : SmallMemoryOk cfg s a) (hs : Step cfg pool s a s')
    (hz : ∀ p, s.large.get p = 0) (p : Addr) : s'.large.get p = 0 := by
  cases hs with
  | deliverBig _ =>
    by_contra hne
    exact large_free_le _ _ _ hne (hz p)
  | mapLarge hpc _ _ _ => simp only [SmallMemoryOk, hpc] at h
  | largeHit _ hne => exact absurd (hz _) hne
  | _ => exact hz p

theorem guarded_of_small {localRandom : Nat → BitVec 64} {random : Nat → Nat → Nat → BitVec 64}
    {mem : Addr → BitVec 8} {mapped : List (Addr × Nat)} {ok : ScalableHeap → Action → Prop}
    {as : List Action}
    (h : Guarded (next cfg pool) (fun s a => SmallMemoryOk cfg s a ∧ ok s a)
      (start localRandom random mem mapped) as) :
    Guarded (next cfg pool) (fun s a => MemoryOk cfg s a ∧ ok s a)
      (start localRandom random mem mapped) as := by
  refine h.strengthen (I := fun s => Inv cfg pool s ∧ ∀ p, s.large.get p = 0) ?_ ?_ ?_
  · exact ⟨inv_initial (placed_initial _ _ _ _) start_not_active, fun _ => rfl⟩
  · intro r a r' hi ho hn
    have hs := step_of_next hi.1 (memoryOk_of_small hi.2 ho.1) hn
    exact ⟨hi.1.step hs, noLarge_step ho.1 hs hi.2⟩
  · intro r a hi ho
    exact ⟨memoryOk_of_small hi.2 ho.1, ho.2⟩

theorem Returns.of_isIdle {ok : ScalableHeap → Action → Prop} {init : ScalableHeap}
    {e : Execution (next cfg pool) ok init} {t a b : Nat} {answer : Answer} (hlt : a < b)
    (hlen : b < e.length) (hbusy : ∀ m ≤ b, a < m → ((e.state m).threads t).pc.isIdle = false)
    (hanswer : ((e.state (b + 1)).threads t).pc = .idle (some answer)) : Returns e t a b answer := by
  refine ⟨hlt, hlen, ?_, hanswer⟩
  intro m ham hmb last hpc
  have hidle := hbusy m hmb ham
  rw [hpc] at hidle
  cases hidle

def blank : ScalableHeap := start (fun _ => 0) (fun _ _ _ => 0) (fun _ => 0) []

/-- The next `n` accesses of heap `k`'s thread; growth maps its block at `base`, a draw takes the
random numbers `random`. -/
def accesses (k n : Nat) (base : Addr) (random : Nat × Nat) : List Action :=
  List.replicate n (.step k ⟨fun _ => base, random, false⟩)

end ScalableHeap

end DieHard
