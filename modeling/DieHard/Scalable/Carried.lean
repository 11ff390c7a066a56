import DieHard.FreePool.Once
import DieHard.Scalable.Traffic

/-!
# What threads carry

A thread carries the pointer of its free, the pointer that its drain has in hand and the size of its
`malloc`. It has them from its call or from a slot of its own queue, and a queue has its pointers from
the frees.
-/

namespace DieHard

open PerThreadFreeQueue HeapRegistry

/-- The pointer of a free that is under way. -/
def Pc.freeing : Pc → Option Addr
  | .freeSmall _ ptr => some ptr
  | .freeBig _ ptr => some ptr
  | .register (.free ptr) _ => some ptr
  | .findOwner ptr _ slow _ => if slow then some ptr else none
  | .push ptr _ _ => some ptr
  | _ => none

def Pc.inHand (pc : Pc) : Option Addr := pc.draining.bind DrainPc.hand

/-- The size of a `malloc` that is under way. -/
def Pc.size : Pc → Option Nat
  | .register (.malloc sz) _ => some sz
  | .drainHead sz => some sz
  | .drainTail sz _ => some sz
  | .drain sz _ => some sz
  | .drainBig sz _ _ _ _ => some sz
  | .grow sz => some sz
  | .getObject sz => some sz
  | .mapLarge sz => some sz
  | _ => none

/-- The action is a free of `ptr`. -/
def ScalableHeap.Action.isFree (ptr : Addr) : ScalableHeap.Action → Bool
  | .free _ p => p == ptr
  | _ => false

/-- The action is one of heap `t`'s thread. -/
def ScalableHeap.Action.isBy (t : Nat) : ScalableHeap.Action → Bool
  | .create => false
  | .malloc k _ => k == t
  | .free k _ => k == t
  | .findOwner k _ _ => k == t
  | .step k _ => k == t

theorem Pc.freeing_of_isIdle {pc : Pc} (h : pc.isIdle = true) : pc.freeing = none := by
  cases pc with
  | idle _ => rfl
  | _ => cases h

theorem Pc.draining_of_freeing {pc : Pc} {ptr : Addr} (h : pc.freeing = some ptr) :
    pc.draining = none := by
  cases pc with
  | drain _ _ | drainBig _ _ _ _ _ => cases h
  | _ => rfl

theorem Pc.inHand_of_isIdle {pc : Pc} (h : pc.isIdle = true) : pc.inHand = none := by
  cases pc with
  | idle _ => rfl
  | _ => cases h

theorem Pc.inHand_of_offQueue {pc : Pc} (h : pc.offQueue) : pc.inHand = none := by
  rw [inHand, draining_of_offQueue h]
  rfl

namespace ScalableHeap

variable {cfg : HeapConfig} {pool : PoolConfig} {s s' : ScalableHeap}

@[simp] theorem setThread_self (s : ScalableHeap) (k : Nat) (h : OwnershipTrackingHeap) :
    (s.setThread k h).threads k = h :=
  Function.update_self _ _ _

@[simp] theorem setPc_pc (s : ScalableHeap) (k : Nat) (pc : Pc) : ((s.setPc k pc).threads k).pc = pc := by
  rw [setPc, setThread_self]

theorem freeing_allocate (cfg : HeapConfig) (sz : Nat) : (allocate cfg sz).freeing = none := by
  rw [allocate]
  split <;> rfl

theorem size_allocate (cfg : HeapConfig) (sz : Nat) : (allocate cfg sz).size = some sz := by
  rw [allocate]
  split <;> rfl

theorem freeing_countMalloc (sz : Nat) (h : OwnershipTrackingHeap) :
    (countMalloc cfg pool sz h).pc.freeing = none := by
  simp only [countMalloc]
  split
  · rfl
  · exact freeing_allocate cfg sz

theorem size_countMalloc (sz : Nat) (h : OwnershipTrackingHeap) :
    (countMalloc cfg pool sz h).pc.size = some sz := by
  simp only [countMalloc]
  split
  · rfl
  · exact size_allocate cfg sz

theorem freeing_callMalloc (k sz : Nat) (h : OwnershipTrackingHeap) :
    (callMalloc cfg pool k sz h).pc.freeing = none := by
  rw [callMalloc]
  split
  · exact freeing_allocate cfg sz
  · split
    · exact freeing_countMalloc sz h
    · rfl

theorem size_callMalloc (k sz : Nat) (h : OwnershipTrackingHeap) :
    (callMalloc cfg pool k sz h).pc.size = some sz := by
  rw [callMalloc]
  split
  · exact size_allocate cfg sz
  · split
    · exact size_countMalloc sz h
    · rfl

theorem freeing_drained (cfg : HeapConfig) (sz : Nat) (r : DrainPc ⊕ Nat) :
    (r.elim (Pc.drain sz) fun _ => allocate cfg sz).freeing = none := by
  rcases r with pc' | n
  · rfl
  · exact freeing_allocate cfg sz

theorem size_drained (cfg : HeapConfig) (sz : Nat) (r : DrainPc ⊕ Nat) :
    (r.elim (Pc.drain sz) fun _ => allocate cfg sz).size = some sz := by
  rcases r with pc' | n
  · rfl
  · exact size_allocate cfg sz

theorem freeing_registered (call : Call) (pc : RegisterPc ⊕ Unit) (pc' : RegisterPc) (k : Nat)
    (h : OwnershipTrackingHeap) :
    (registered cfg pool call pc k h).pc.freeing = (Pc.register call pc').freeing := by
  cases call with
  | malloc sz =>
    rcases pc with pc | ⟨⟩
    · rfl
    · exact freeing_countMalloc sz _
  | free ptr => rcases pc with pc | ⟨⟩ <;> rfl

theorem size_registered (call : Call) (pc : RegisterPc ⊕ Unit) (pc' : RegisterPc) (k : Nat)
    (h : OwnershipTrackingHeap) :
    (registered cfg pool call pc k h).pc.size = (Pc.register call pc').size := by
  cases call with
  | malloc sz =>
    rcases pc with pc | ⟨⟩
    · rfl
    · exact size_countMalloc sz _
  | free ptr => rcases pc with pc | ⟨⟩ <;> rfl

theorem freeing_refused {k : Nat} {again : Bool} {ptr : Addr} {h : OwnershipTrackingHeap} {p : Addr}
    (hf : (refused pool k again ptr h).freeing = some p) : p = ptr := by
  rw [refused] at hf
  split at hf
  · cases hf
  · split at hf <;> exact (Option.some.inj hf).symm

theorem size_refused (k : Nat) (again : Bool) (ptr : Addr) (h : OwnershipTrackingHeap) :
    (refused pool k again ptr h).size = none := by
  rw [refused]
  split
  · rfl
  · split <;> rfl

theorem freeing_found {slow : Bool} {ptr : Addr} {owner : Option Nat} {p : Addr}
    (hf : (found pool slow ptr owner).freeing = some p) : slow = true ∧ p = ptr := by
  cases slow with
  | false => cases hf
  | true =>
    refine ⟨rfl, ?_⟩
    cases owner with
    | none => exact (Option.some.inj hf).symm
    | some ownerId =>
      simp only [found, if_true] at hf
      split at hf
      · exact (Option.some.inj hf).symm
      · cases hf

theorem size_found (pool : PoolConfig) (slow : Bool) (ptr : Addr) (owner : Option Nat) :
    (found pool slow ptr owner).size = none := by
  cases slow with
  | false => rfl
  | true =>
    cases owner with
    | none => rfl
    | some ownerId =>
      simp only [found, if_true]
      split <;> rfl

/-- What a thread carries behind an access it has carried before or has read from its queue `q`. -/
structure Carries (pool : PoolConfig) (q : PerThreadFreeQueue) (pc pc' : Pc) : Prop where
  freeing : ∀ p, pc'.freeing = some p → pc.freeing = some p
  inHand : ∀ p, pc'.inHand = some p →
    pc.inHand = some p ∨ p ≠ 0 ∧ ∃ j < pool.freeQueueCapacity, q.slots j = p
  size : ∀ sz, pc'.size = some sz → pc.size = some sz

section Carries

variable {q : PerThreadFreeQueue} {pc pc' : Pc}

theorem Carries.refl (pool : PoolConfig) (q : PerThreadFreeQueue) (pc : Pc) : Carries pool q pc pc :=
  ⟨fun _ => id, fun _ => Or.inl, fun _ => id⟩

theorem Carries.offQueue (hoff : pc'.offQueue) (hf : ∀ p, pc'.freeing = some p → pc.freeing = some p)
    (hsize : ∀ sz, pc'.size = some sz → pc.size = some sz) : Carries pool q pc pc' := by
  refine ⟨hf, ?_, hsize⟩
  intro p hp
  rw [Pc.inHand_of_offQueue hoff] at hp
  cases hp

theorem Carries.idle (last : Option Answer) : Carries pool q pc (.idle last) :=
  .offQueue rfl (fun _ hf => by cases hf) fun _ hs => by cases hs

theorem Carries.allocate {sz : Nat} (hsize : pc.size = some sz) : Carries pool q pc (allocate cfg sz) := by
  apply Carries.offQueue (offQueue_allocate cfg sz)
  · intro p hf
    rw [freeing_allocate] at hf
    cases hf
  · intro n hn
    rw [← hn, size_allocate, hsize]

/-- A drain reads pointers from its own queue only. -/
theorem Carries.drain {sz : Nat} {d : DrainPc} (hpc : pc.draining = some d) (hsize : pc.size = some sz) :
    Carries pool q pc ((drainStep pool q d).2.elim (.drain sz) fun _ => ScalableHeap.allocate cfg sz) := by
  constructor
  · intro p hf
    rw [freeing_drained] at hf
    cases hf
  · intro p hp
    cases d with
    | loadSlot t hd n =>
      simp only [drainStep] at hp
      split at hp
      · split at hp
        · cases hp
        · rename_i hne
          cases hp
          exact Or.inr ⟨hne, _, slotOf_lt _ _, rfl⟩
      · cases hp
    | clearSlot t hd n ptr =>
      cases hp
      exact Or.inl (by rw [Pc.inHand, hpc]; rfl)
    | storeTail t n =>
      simp only [drainStep, Sum.elim_inr, Pc.inHand_of_offQueue (offQueue_allocate cfg sz)] at hp
      cases hp
    | _ => cases hp
  · intro n hn
    rw [← hn, size_drained, hsize]

theorem Carries.findOwner {ptr e : Nat} {slow : Bool} {pc : FindPc} (r : FindPc ⊕ Option Nat) :
    Carries pool q (.findOwner ptr e slow pc) (r.elim (.findOwner ptr e slow) (found pool slow ptr)) := by
  rcases r with pc' | owner
  · exact .offQueue rfl (fun _ => id) fun _ => id
  · constructor
    · intro p hf
      obtain ⟨rfl, rfl⟩ := freeing_found hf
      rfl
    · intro p hp
      rcases found_cases pool slow ptr owner with ⟨id, -, -, hpush⟩ | hoff
      · rw [Sum.elim_inr, hpush] at hp
        cases hp
      · rw [Sum.elim_inr, Pc.inHand_of_offQueue hoff] at hp
        cases hp
    · intro n hn
      rw [Sum.elim_inr, size_found] at hn
      cases hn

theorem Carries.push {ptr ownerId : Nat} {pc : PushPc} (r : PushPc ⊕ Bool) :
    Carries pool q (.push ptr ownerId pc)
      (r.elim (.push ptr ownerId) fun _ => .idle (some (.free true))) := by
  rcases r with pc' | b
  · exact ⟨fun _ => id, fun _ hp => (by cases hp), fun _ => id⟩
  · exact .idle _

end Carries

theorem Step.carries {k : Nat} {c : Choice} (hs : Step cfg pool s (.step k c) s') :
    Carries pool (s.queues (threadId pool k)) (s.threads k).pc (s'.threads k).pc := by
  cases hs with
  | @register k c call pc hpc _ =>
    rw [setThread_self, hpc]
    apply Carries.offQueue (offQueue_registered _ _ _ _)
    · intro p hf
      rwa [freeing_registered call _ pc] at hf
    · intro n hn
      rwa [size_registered call _ pc] at hn
  | drainHead hpc hto =>
    rw [setPc_pc, hpc]
    rcases hto with rfl | rfl
    · exact .offQueue rfl (fun _ hf => by cases hf) fun _ => id
    · exact .allocate rfl
  | drainTail hpc hto =>
    rw [setPc_pc, hpc]
    rcases hto with rfl | rfl
    · exact ⟨fun _ hf => (by cases hf), fun _ hp => (by cases hp), fun _ => id⟩
    · exact .allocate rfl
  | consume hpc _ =>
    rw [ScalableHeap.consume, setPc_pc, hpc]
    exact .drain rfl rfl
  | deliver hpc _ _ =>
    rw [ScalableHeap.consume, setPc_pc, hpc]
    exact .drain rfl rfl
  | callbackMiss hpc _ _ =>
    rw [setPc_pc, hpc]
    exact ⟨fun _ hf => (by cases hf), fun _ => Or.inl, fun _ => id⟩
  | deliverBig hpc =>
    rw [ScalableHeap.consume, setPc_pc, hpc]
    exact .drain rfl rfl
  | grow _ _ => exact .refl _ _ _
  | room hpc _ =>
    rw [setPc_pc, hpc]
    exact .offQueue rfl (fun _ hf => by cases hf) fun _ => id
  | taken _ => exact .refl _ _ _
  | take _ _ _ _ =>
    rw [setPc_pc]
    exact .idle _
  | mapLarge _ _ _ _ =>
    rw [setPc_pc]
    exact .idle _
  | freeHit _ _ _ =>
    rw [setPc_pc]
    exact .idle _
  | freeMiss hpc _ _ =>
    rw [setPc_pc, hpc]
    exact .offQueue rfl (fun _ => id) fun _ => id
  | largeHit _ _ =>
    rw [setPc_pc]
    exact .idle _
  | largeMiss hpc _ _ =>
    rw [setPc_pc, hpc]
    apply Carries.offQueue (offQueue_refused _ _ _ _)
    · intro p hf
      rw [freeing_refused hf]
      rfl
    · intro n hn
      rw [size_refused] at hn
      cases hn
  | findOwner hpc _ _ =>
    rw [setPc_pc, hpc]
    exact .findOwner _
  | push hpc =>
    rw [setPc_pc, hpc]
    exact .push _

theorem Step.other {a : Action} (hs : Step cfg pool s a s') {t : Nat} (ht : a.isBy t = false) :
    s'.threads t = s.threads t := by
  have hne {k : Nat} (hk : (k == t) = false) (h : OwnershipTrackingHeap) :
      Function.update s.threads k h t = s.threads t :=
    Function.update_of_ne (Ne.symm (beq_eq_false_iff_ne.mp hk)) _ _
  cases hs with
  | create => rfl
  | grow _ _ => rfl
  | taken _ => rfl
  | _ => exact hne ht _

theorem Action.isBy_cases {a : Action} {t : Nat} (h : a.isBy t = true) :
    (∃ sz, a = .malloc t sz) ∨ (∃ p, a = .free t p) ∨ (∃ p e, a = .findOwner t p e) ∨ ∃ c, a = .step t c := by
  cases a with
  | create => cases h
  | malloc k sz => exact Or.inl ⟨sz, by rw [beq_iff_eq.mp h]⟩
  | free k p => exact Or.inr (Or.inl ⟨p, by rw [beq_iff_eq.mp h]⟩)
  | findOwner k p e => exact Or.inr (Or.inr (Or.inl ⟨p, e, by rw [beq_iff_eq.mp h]⟩))
  | step k c => exact Or.inr (Or.inr (Or.inr ⟨c, by rw [beq_iff_eq.mp h]⟩))

theorem Action.isBy_unique {a : Action} {j k : Nat} (hj : a.isBy j = true) (hk : a.isBy k = true) :
    j = k := by
  cases a with
  | create => cases hj
  | _ => exact (beq_iff_eq.mp hj).symm.trans (beq_iff_eq.mp hk)

/-- A thread frees what it freed before, or its call has just begun. -/
theorem Step.freeing_of {a : Action} (hs : Step cfg pool s a s') {t : Nat} {p : Addr}
    (hf : (s'.threads t).pc.freeing = some p) :
    (s.threads t).pc.freeing = some p ∨
      a = .free t p ∧ p ≠ 0 ∧ (s'.threads t).pc = .freeSmall false p := by
  cases hby : a.isBy t with
  | false =>
    rw [hs.other hby] at hf
    exact Or.inl hf
  | true =>
    obtain ⟨sz, rfl⟩ | ⟨q, rfl⟩ | ⟨q, e, rfl⟩ | ⟨c, rfl⟩ := Action.isBy_cases hby
    · cases hs with
      | malloc _ _ =>
        rw [setThread_self, freeing_callMalloc] at hf
        cases hf
    · cases hs with
      | freeNull _ _ =>
        rw [setPc_pc] at hf
        cases hf
      | free _ _ hne =>
        rw [setPc_pc] at hf
        cases hf
        exact Or.inr ⟨rfl, hne, setPc_pc _ _ _⟩
    · rw [hs.atFind] at hf
      cases hf
    · exact Or.inl (hs.carries.freeing p hf)

theorem Step.inHand_of {a : Action} (hs : Step cfg pool s a s') {t : Nat} {p : Addr}
    (hp : (s'.threads t).pc.inHand = some p) :
    (s.threads t).pc.inHand = some p ∨
      p ≠ 0 ∧ ∃ j < pool.freeQueueCapacity, (s.queues (threadId pool t)).slots j = p := by
  cases hby : a.isBy t with
  | false =>
    rw [hs.other hby] at hp
    exact Or.inl hp
  | true =>
    obtain ⟨sz, rfl⟩ | ⟨q, rfl⟩ | ⟨q, e, rfl⟩ | ⟨c, rfl⟩ := Action.isBy_cases hby
    · cases hs with
      | malloc _ _ =>
        rw [setThread_self, Pc.inHand_of_offQueue (offQueue_callMalloc _ _ _)] at hp
        cases hp
    · cases hs with
      | freeNull _ _ =>
        rw [setPc_pc] at hp
        cases hp
      | free _ _ _ =>
        rw [setPc_pc] at hp
        cases hp
    · rw [hs.atFind] at hp
      cases hp
    · exact hs.carries.inHand p hp

theorem Step.size_of {a : Action} (hs : Step cfg pool s a s') {t sz : Nat}
    (hsize : (s'.threads t).pc.size = some sz) :
    (s.threads t).pc.size = some sz ∨ a = .malloc t sz := by
  cases hby : a.isBy t with
  | false =>
    rw [hs.other hby] at hsize
    exact Or.inl hsize
  | true =>
    obtain ⟨n, rfl⟩ | ⟨q, rfl⟩ | ⟨q, e, rfl⟩ | ⟨c, rfl⟩ := Action.isBy_cases hby
    · cases hs with
      | malloc _ _ =>
        rw [setThread_self, size_callMalloc] at hsize
        cases hsize
        exact Or.inr rfl
    · cases hs with
      | freeNull _ _ =>
        rw [setPc_pc] at hsize
        cases hsize
      | free _ _ _ =>
        rw [setPc_pc] at hsize
        cases hsize
    · rw [hs.atFind] at hsize
      cases hsize
    · exact Or.inl (hs.carries.size sz hsize)

/-- A queue holds what it held before, or a push has just stored its pointer. -/
theorem Step.slots_of {a : Action} (hs : Step cfg pool s a s') {id j : Nat}
    (hne : (s'.queues id).slots j ≠ 0) :
    (s'.queues id).slots j = (s.queues id).slots j ∨
      ∃ t n, (s.threads t).pc = .push ((s'.queues id).slots j) id (.storeSlot n) := by
  have hconsume {k sz : Nat} {d : DrainPc} {process : Process} {large : LargeHeap}
      (hne : ((ScalableHeap.consume cfg pool { s with process := process, large := large } k sz
        d).queues id).slots j ≠ 0) :
      ((ScalableHeap.consume cfg pool { s with process := process, large := large } k sz d).queues
        id).slots j = (s.queues id).slots j := by
    simp only [ScalableHeap.consume, setPc, setThread] at hne ⊢
    by_cases hid : id = threadId pool k
    · subst hid
      rw [Function.update_self] at hne ⊢
      cases d with
      | loadSlot t hd n =>
        simp only [drainStep]
        split
        · split <;> rfl
        · rfl
      | clearSlot t hd n p =>
        simp only [drainStep] at hne ⊢
        by_cases hslot : j = slotOf pool t
        · rw [hslot, Function.update_self] at hne
          exact absurd rfl hne
        · rw [Function.update_of_ne hslot]
      | _ => rfl
    · rw [Function.update_of_ne hid]
  cases hs with
  | consume _ _ => exact Or.inl (hconsume hne)
  | deliver _ _ _ => exact Or.inl (hconsume hne)
  | deliverBig _ => exact Or.inl (hconsume hne)
  | @push k c ptr ownerId pc hpc =>
    simp only [setPc, setThread] at hne ⊢
    by_cases hid : id = ownerId
    · subst hid
      rw [Function.update_self]
      cases pc with
      | storeSlot n =>
        simp only [pushStep]
        by_cases hslot : j = slotOf pool n
        · rw [hslot, Function.update_self]
          exact Or.inr ⟨k, n, hpc⟩
        · rw [Function.update_of_ne hslot]
          exact Or.inl rfl
      | loadTail n =>
        simp only [pushStep]
        split <;> exact Or.inl rfl
      | casHead n =>
        simp only [pushStep]
        split <;> exact Or.inl rfl
      | loadHead => exact Or.inl rfl
    · rw [Function.update_of_ne hid]
      exact Or.inl rfl
  | _ => exact Or.inl rfl

end ScalableHeap

end DieHard
