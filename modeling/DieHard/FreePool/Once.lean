import DieHard.FreePool.Steps
import DieHard.Lib.Counting

/-!
# Pointers are kept

The copies of a pointer that wait in a slot, are in the hand of a drain or have been delivered change
in number by a store only. So a drain hands a stored pointer to one callback, whatever the counters do.
-/

namespace DieHard

open Counting PerThreadFreeQueue

namespace PerThreadFreeQueue

/-- The drain is about to clear slot `j`, whose pointer it has read. -/
def DrainPc.clears (cfg : PoolConfig) (j : Nat) : DrainPc → Bool
  | .clearSlot currentTail _ _ _ => slotOf cfg currentTail == j
  | _ => false

/-- The pointer that a drain has read and not handed to its callback. -/
def DrainPc.hand : DrainPc → Option Addr
  | .clearSlot _ _ _ ptr => some ptr
  | .callback _ _ _ ptr => some ptr
  | _ => none

end PerThreadFreeQueue

namespace QueueState

variable {ι : Type} {cfg : PoolConfig} {s s' : QueueState ι} {ptr : Addr}

/-- Slot `j` holds `ptr` for a drain that has not read it. -/
def Waits (cfg : PoolConfig) (s : QueueState ι) (ptr : Addr) (j : Nat) : Prop :=
  s.queue.slots j = ptr ∧ s.consumer.any (DrainPc.clears cfg j) = false

instance (cfg : PoolConfig) (s : QueueState ι) (ptr : Addr) (j : Nat) : Decidable (Waits cfg s ptr j) :=
  inferInstanceAs (Decidable (_ ∧ _))

/-- The copies of `ptr` in the slots, in the hand of the drain and among the delivered pointers. -/
def kept (cfg : PoolConfig) (s : QueueState ι) (ptr : Addr) : Nat :=
  s.delivered.count ptr + Nat.count (Waits cfg s ptr) cfg.freeQueueCapacity +
    if s.consumer.bind DrainPc.hand = some ptr then 1 else 0

/-- The copies of `ptr` that no callback has received. -/
def undelivered (cfg : PoolConfig) (s : QueueState ι) (ptr : Addr) : Nat :=
  Nat.count (Waits cfg s ptr) cfg.freeQueueCapacity +
    if s.consumer.bind DrainPc.hand = some ptr then 1 else 0

theorem kept_eq (cfg : PoolConfig) (s : QueueState ι) (ptr : Addr) :
    s.kept cfg ptr = s.delivered.count ptr + s.undelivered cfg ptr :=
  Nat.add_assoc _ _ _

theorem Inv.undelivered_pos_iff (h : Inv cfg s) : 0 < s.undelivered cfg ptr ↔
    (∃ j < cfg.freeQueueCapacity, s.queue.slots j = ptr) ∨
      s.consumer.bind DrainPc.hand = some ptr := by
  by_cases hhand : s.consumer.bind DrainPc.hand = some ptr
  · simp [undelivered, hhand]
  · have hwaits (j : Nat) : Waits cfg s ptr j ↔ s.queue.slots j = ptr := by
      simp only [Waits, and_iff_left_iff_imp]
      intro hslot
      have hc := h.consumers
      cases hconsumer : s.consumer with
      | none => rfl
      | some pc =>
        cases pc with
        | clearSlot t hd n p =>
          rw [hconsumer] at hc hhand
          simp only [Option.any_some, DrainPc.clears, beq_eq_false_iff_ne]
          intro hj
          apply hhand
          rw [← hslot, ← hj, hc.2.2.2.1]
          rfl
        | _ => rfl
    simp only [undelivered, hhand, if_false, Nat.add_zero, or_false, Nat.pos_iff_ne_zero,
      Nat.count_ne_iff_exists, hwaits]

private theorem waits_count_eq (h : ∀ j, Waits cfg s ptr j ↔ Waits cfg s' ptr j) :
    Nat.count (Waits cfg s' ptr) cfg.freeQueueCapacity =
      Nat.count (Waits cfg s ptr) cfg.freeQueueCapacity :=
  Nat.le_antisymm (Nat.count_mono_left fun j _ => (h j).mpr) (Nat.count_mono_left fun j _ => (h j).mp)

private def EmptyHand (v : Option DrainPc) : Prop :=
  v.bind DrainPc.hand = none

private theorem not_clears {v : Option DrainPc} (h : EmptyHand v) (cfg : PoolConfig) (j : Nat) :
    v.any (DrainPc.clears cfg j) = false := by
  rcases v with _ | pc
  · rfl
  · cases pc with
    | clearSlot _ _ _ _ => cases h
    | _ => rfl

private theorem kept_emptyHand (hold : EmptyHand s.consumer) (hnew : EmptyHand s'.consumer)
    (hq : s'.queue.slots = s.queue.slots) (hd : s'.delivered = s.delivered) :
    s'.kept cfg ptr = s.kept cfg ptr := by
  have hwaits : ∀ j, Waits cfg s ptr j ↔ Waits cfg s' ptr j := by
    intro j
    simp only [Waits, hq, not_clears hold, not_clears hnew]
  simp only [EmptyHand] at hold hnew
  simp only [kept, waits_count_eq hwaits, hd, hold, hnew]

private theorem kept_store {p : Addr} {n : Nat}
    (hq : s'.queue.slots = Function.update s.queue.slots (slotOf cfg n) p)
    (hc : s'.consumer = s.consumer) (hd : s'.delivered = s.delivered) :
    s'.kept cfg ptr + (if Waits cfg s ptr (slotOf cfg n) then 1 else 0) =
      s.kept cfg ptr + if p = ptr ∧ s.consumer.any (DrainPc.clears cfg (slotOf cfg n)) = false then 1
        else 0 := by
  have hcount := count_update (p := Waits cfg s ptr) (q := Waits cfg s' ptr) (slotOf_lt cfg n) (by
    intro j hj
    simp only [Waits, hq, hc, Function.update_of_ne hj])
  have hnew : Waits cfg s' ptr (slotOf cfg n) ↔
      p = ptr ∧ s.consumer.any (DrainPc.clears cfg (slotOf cfg n)) = false := by
    simp only [Waits, hq, hc, Function.update_self]
  rw [if_congr hnew rfl rfl] at hcount
  rw [kept, kept, hc, hd]
  omega

private theorem kept_take {t h n : Nat} (hc : s.consumer = some (.loadSlot t h n))
    (hc' : s'.consumer = some (.clearSlot t h n (s.queue.slots (slotOf cfg t))))
    (hq : s'.queue.slots = s.queue.slots) (hd : s'.delivered = s.delivered) :
    s'.kept cfg ptr = s.kept cfg ptr := by
  have hcount := count_update (p := Waits cfg s ptr) (q := Waits cfg s' ptr) (slotOf_lt cfg t) (by
    intro j hj
    simp only [Waits, hq, hc, hc', Option.any_some, DrainPc.clears,
      beq_eq_false_iff_ne.mpr (Ne.symm hj)])
  have hnew : ¬ Waits cfg s' ptr (slotOf cfg t) := by simp [Waits, hc', DrainPc.clears]
  have hold : Waits cfg s ptr (slotOf cfg t) ↔ s.queue.slots (slotOf cfg t) = ptr := by
    simp [Waits, hc, DrainPc.clears]
  simp only [if_neg hnew, hold] at hcount
  simp only [kept, hc, hc', hd, Option.bind_some, DrainPc.hand, Option.some.injEq, reduceCtorEq,
    if_false]
  omega

private theorem kept_clear {t h n : Nat} {p : Addr} (hptr : ptr ≠ 0)
    (hc : s.consumer = some (.clearSlot t h n p)) (hc' : s'.consumer = some (.callback t h n p))
    (hq : s'.queue.slots = Function.update s.queue.slots (slotOf cfg t) 0)
    (hd : s'.delivered = s.delivered) : s'.kept cfg ptr = s.kept cfg ptr := by
  have hwaits : ∀ j, Waits cfg s ptr j ↔ Waits cfg s' ptr j := by
    intro j
    by_cases hj : j = slotOf cfg t
    · subst hj
      simp [Waits, hc, hc', hq, DrainPc.clears, hptr.symm]
    · simp [Waits, hc, hc', hq, DrainPc.clears, hj, Ne.symm hj]
  rw [kept, kept, waits_count_eq hwaits, hc, hc', hd]
  rfl

private theorem kept_deliver {t t' h n n' : Nat} {p : Addr} (hc : s.consumer = some (.callback t h n p))
    (hc' : s'.consumer = some (.loadSlot t' h n')) (hq : s'.queue.slots = s.queue.slots)
    (hd : s'.delivered = s.delivered ++ [p]) : s'.kept cfg ptr = s.kept cfg ptr := by
  have hwaits : ∀ j, Waits cfg s ptr j ↔ Waits cfg s' ptr j := by
    intro j
    simp [Waits, hc, hc', hq, DrainPc.clears]
  simp only [kept, waits_count_eq hwaits, hc, hc', hd, Option.bind_some, DrainPc.hand,
    List.count_append, List.count_singleton, Option.some.injEq, beq_iff_eq, reduceCtorEq, if_false]
  omega

theorem Inv.storing_slot (h : Inv cfg s) {i : ι} {p : Addr} {n : Nat}
    (hi : s.producer i = some (p, .storeSlot n)) (hptr : ptr ≠ 0) :
    ¬ Waits cfg s ptr (slotOf cfg n) ∧ s.consumer.any (DrainPc.clears cfg (slotOf cfg n)) = false := by
  have hf := h.producers i
  rw [hi] at hf
  have hzero := hf.2.2.2
  constructor
  · intro hwaits
    exact hptr (hwaits.1.symm.trans hzero)
  · have hc := h.consumers
    cases hconsumer : s.consumer with
    | none => rfl
    | some pc =>
      cases pc with
      | clearSlot t hd k q =>
        rw [hconsumer] at hc
        simp only [Option.any_some, DrainPc.clears, beq_eq_false_iff_ne]
        intro hslot
        exact hc.2.2.2.2 (hc.2.2.2.1.symm.trans (hslot ▸ hzero))
      | _ => rfl

variable [DecidableEq ι]

private theorem storing_update {i j : ι} {v : Option (Addr × PushPc)} {p : Addr} {n : Nat}
    (hi : ∀ p n, s.producer i ≠ some (p, .storeSlot n)) (hj : s.producer j = some (p, .storeSlot n)) :
    Function.update s.producer i v j = some (p, .storeSlot n) := by
  have hne : j ≠ i := by
    rintro rfl
    exact hi p n hj
  rwa [Function.update_of_ne hne]

theorem Step.kept {a : Action ι} (hs : Step cfg s a s') (hptr : ptr ≠ 0) :
    (s'.kept cfg ptr = s.kept cfg ptr ∧
      ∀ i p n, s.producer i = some (p, .storeSlot n) → s'.producer i = some (p, .storeSlot n)) ∨
    ∃ i p n, s.producer i = some (p, .storeSlot n) ∧ s'.producer i = none ∧
      s'.kept cfg ptr + (if Waits cfg s ptr (slotOf cfg n) then 1 else 0) =
        s.kept cfg ptr + if p = ptr ∧ s.consumer.any (DrainPc.clears cfg (slotOf cfg n)) = false then 1
          else 0 := by
  cases hs with
  | call hi _ | loadHead hi | full hi _ | room hi _ | claim hi | retry hi =>
    exact Or.inl ⟨rfl, fun j p n hj => storing_update (by simp [hi]) hj⟩
  | store hi => exact Or.inr ⟨_, _, _, hi, Function.update_self _ _ _, kept_store rfl rfl rfl⟩
  | drain hc => exact Or.inl ⟨kept_emptyHand (by rw [hc]; rfl) rfl rfl rfl, fun _ _ _ hi => hi⟩
  | drainTail hc => exact Or.inl ⟨kept_emptyHand (by rw [hc]; rfl) rfl rfl rfl, fun _ _ _ hi => hi⟩
  | drainHead hc => exact Or.inl ⟨kept_emptyHand (by rw [hc]; rfl) rfl rfl rfl, fun _ _ _ hi => hi⟩
  | finish hc _ => exact Or.inl ⟨kept_emptyHand (by rw [hc]; rfl) rfl rfl rfl, fun _ _ _ hi => hi⟩
  | take hc _ _ => exact Or.inl ⟨kept_take hc rfl rfl rfl, fun _ _ _ hi => hi⟩
  | clear hc => exact Or.inl ⟨kept_clear hptr hc rfl rfl rfl, fun _ _ _ hi => hi⟩
  | deliver hc => exact Or.inl ⟨kept_deliver hc rfl rfl rfl, fun _ _ _ hi => hi⟩
  | publish hc => exact Or.inl ⟨kept_emptyHand (by rw [hc]; rfl) rfl rfl rfl, fun _ _ _ hi => hi⟩

end QueueState

end DieHard
