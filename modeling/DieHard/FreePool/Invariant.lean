import DieHard.FreePool.Queue

/-!
# The queue invariant

With `C` indices claimed and `D` pointers delivered, the counters are `C` and at most `D`, at most
a capacity apart. Each pending index `D ≤ n < C` is still to be written by the one producer that
claimed it, or sits in its slot, or is in the consumer's hand; every other slot is `nullptr`.
-/

namespace DieHard

open PerThreadFreeQueue

namespace QueueState

variable {ι : Type} {cfg : PoolConfig} {s s' : QueueState ι}

private theorem getElem?_of_prefix {xs ys : List Addr} (h : xs <+: ys) {n : Nat} {p : Addr}
    (hp : xs[n]? = some p) : ys[n]? = some p := by
  obtain ⟨hn, rfl⟩ := List.getElem?_eq_some_iff.mp hp
  exact List.prefix_iff_getElem?.mp h n hn

/-- Some producer has claimed index `n` and has not written its slot. -/
def Storing (s : QueueState ι) (n : Nat) : Prop :=
  ∃ i ptr, s.producer i = some (ptr, .storeSlot n)

/-- The consumer has cleared the slot of index `n` and is about to run its callback. -/
def InHand (s : QueueState ι) (n : Nat) : Prop :=
  ∃ h k ptr, s.consumer = some (.callback n h k ptr)

def ProducerFacts (cfg : PoolConfig) (s : QueueState ι) : Option (Addr × PushPc) → Prop
  | none => True
  | some (ptr, .loadHead) => ptr ≠ 0
  | some (ptr, .loadTail h) => ptr ≠ 0 ∧ h ≤ s.claimed.length
  | some (ptr, .casHead h) =>
    ptr ≠ 0 ∧ h ≤ s.claimed.length ∧ h < s.queue.tail + cfg.freeQueueCapacity
  | some (ptr, .storeSlot n) =>
    ptr ≠ 0 ∧ s.delivered.length ≤ n ∧ s.claimed[n]? = some ptr ∧ s.queue.slots (slotOf cfg n) = 0

def ConsumerFacts (cfg : PoolConfig) (s : QueueState ι) : Option DrainPc → Prop
  | none => s.queue.tail = s.delivered.length
  | some .loadTail => s.queue.tail = s.delivered.length
  | some (.loadHead t) => t = s.delivered.length ∧ s.queue.tail = s.delivered.length
  | some (.loadSlot t h _) => t = s.delivered.length ∧ t ≤ h ∧ h ≤ s.claimed.length
  | some (.clearSlot t h _ ptr) => t = s.delivered.length ∧ t < h ∧ h ≤ s.claimed.length ∧
      s.queue.slots (slotOf cfg t) = ptr ∧ ptr ≠ 0
  | some (.callback t h _ ptr) => t = s.delivered.length ∧ t < h ∧ h ≤ s.claimed.length ∧
      s.claimed[t]? = some ptr ∧ s.queue.slots (slotOf cfg t) = 0 ∧ ¬ s.Storing t
  | some (.storeTail t _) => t = s.delivered.length

structure Inv (cfg : PoolConfig) (s : QueueState ι) : Prop where
  head_eq : s.queue.head = s.claimed.length
  tail_le : s.queue.tail ≤ s.delivered.length
  pending_le : s.claimed.length ≤ s.queue.tail + cfg.freeQueueCapacity
  delivered_grows : s.delivered <+: s.claimed
  producers : ∀ i, ProducerFacts cfg s (s.producer i)
  consumers : ConsumerFacts cfg s s.consumer
  store_unique : ∀ i j p q n, s.producer i = some (p, .storeSlot n) →
    s.producer j = some (q, .storeSlot n) → i = j
  pending : ∀ n ptr, s.delivered.length ≤ n → s.claimed[n]? = some ptr →
    s.Storing n ∨ s.InHand n ∨ s.queue.slots (slotOf cfg n) = ptr
  slots_pending : ∀ k, s.queue.slots k ≠ 0 → ∃ n, s.delivered.length ≤ n ∧
    slotOf cfg n = k ∧ s.claimed[n]? = some (s.queue.slots k)
  nonnull : ∀ ptr ∈ s.claimed, ptr ≠ 0

theorem inv_initial : Inv cfg (initial : QueueState ι) where
  head_eq := rfl
  tail_le := Nat.le_refl _
  pending_le := Nat.zero_le _
  delivered_grows := List.prefix_refl _
  producers := fun _ => trivial
  consumers := rfl
  store_unique := by simp [initial]
  pending := by simp [initial]
  slots_pending := by simp [initial, empty]
  nonnull := by simp [initial]

theorem Inv.delivered_le (h : Inv cfg s) : s.delivered.length ≤ s.claimed.length :=
  h.delivered_grows.length_le

theorem Inv.storing_lt (h : Inv cfg s) {n : Nat} (hs : s.Storing n) : n < s.claimed.length := by
  obtain ⟨i, ptr, hi⟩ := hs
  have hf := h.producers i
  rw [hi] at hf
  exact (List.getElem?_eq_some_iff.mp hf.2.2.1).1

theorem Inv.slot_inj (h : Inv cfg s) {m n : Nat} (hm : s.delivered.length ≤ m)
    (hm' : m < s.claimed.length) (hn : s.delivered.length ≤ n) (hn' : n < s.claimed.length)
    (he : slotOf cfg m = slotOf cfg n) : m = n := by
  have hp := h.pending_le
  have ht := h.tail_le
  rcases Nat.le_total m n with hle | hle
  · exact slotOf_inj hle (by omega) he
  · exact (slotOf_inj hle (by omega) he.symm).symm

theorem Inv.next_slot (h : Inv cfg s)
    (hroom : s.claimed.length < s.queue.tail + cfg.freeQueueCapacity) :
    s.queue.slots (slotOf cfg s.claimed.length) = 0 := by
  by_contra hne
  obtain ⟨n, hn, hk, hp⟩ := h.slots_pending _ hne
  have hlt := (List.getElem?_eq_some_iff.mp hp).1
  have ht := h.tail_le
  have hroom' : s.claimed.length < n + cfg.freeQueueCapacity := by omega
  have := slotOf_inj hlt.le hroom' hk
  omega

theorem ProducerFacts.frame {v : Option (Addr × PushPc)} (h : ProducerFacts cfg s v)
    (hc : s.claimed <+: s'.claimed) (ht : s.queue.tail ≤ s'.queue.tail)
    (hs : ∀ p n, v = some (p, .storeSlot n) →
      s'.delivered.length ≤ n ∧ s'.queue.slots (slotOf cfg n) = s.queue.slots (slotOf cfg n)) :
    ProducerFacts cfg s' v := by
  have hle := hc.length_le
  rcases v with _ | ⟨p, pc⟩
  · trivial
  · cases pc with
    | loadHead => exact h
    | loadTail _ => exact ⟨h.1, h.2.trans hle⟩
    | casHead _ => exact ⟨h.1, h.2.1.trans hle, h.2.2.trans_le (by omega)⟩
    | storeSlot n =>
      obtain ⟨hD, hslot⟩ := hs p n rfl
      exact ⟨h.1, hD, getElem?_of_prefix hc h.2.2.1, hslot.trans h.2.2.2⟩

/-- What the consumer knows survives claims and stores of producers at other indices. -/
theorem ConsumerFacts.frame {v : Option DrainPc} (h : ConsumerFacts cfg s v)
    (hc : s.claimed <+: s'.claimed) (hd : s'.delivered = s.delivered)
    (ht : s'.queue.tail = s.queue.tail)
    (hs : s.delivered.length < s.claimed.length → ¬ s.Storing s.delivered.length →
      s'.queue.slots (slotOf cfg s.delivered.length) = s.queue.slots (slotOf cfg s.delivered.length) ∧
        ¬ s'.Storing s.delivered.length)
    (hclear : ∀ t, s.queue.slots (slotOf cfg t) ≠ 0 → ¬ s.Storing t) :
    ConsumerFacts cfg s' v := by
  have hle := hc.length_le
  rcases v with _ | pc
  · simpa only [ConsumerFacts, hd, ht] using h
  · cases pc with
    | loadTail => simpa only [ConsumerFacts, hd, ht] using h
    | loadHead _ => simpa only [ConsumerFacts, hd, ht] using h
    | loadSlot _ _ _ => exact ⟨h.1.trans (by rw [hd]), h.2.1, h.2.2.trans hle⟩
    | clearSlot t _ _ p =>
      obtain ⟨h1, h2, h3, h4, h5⟩ := h
      subst h1
      have hne : s.queue.slots (slotOf cfg s.delivered.length) ≠ 0 := by rwa [h4]
      refine ⟨by rw [hd], h2, h3.trans hle, ?_, h5⟩
      exact (hs (by omega) (hclear _ hne)).1.trans h4
    | callback t _ _ p =>
      obtain ⟨h1, h2, h3, h4, h5, h6⟩ := h
      subst h1
      obtain ⟨hslot, hst⟩ := hs (by omega) h6
      exact ⟨by rw [hd], h2, h3.trans hle, getElem?_of_prefix hc h4, hslot.trans h5, hst⟩
    | storeTail _ _ => exact h.trans (by rw [hd])

theorem Inv.not_storing_of_slot (h : Inv cfg s) {t : Nat}
    (ht : s.queue.slots (slotOf cfg t) ≠ 0) : ¬ s.Storing t := by
  rintro ⟨i, p, hi⟩
  have hfi := h.producers i
  rw [hi] at hfi
  exact ht hfi.2.2.2

section Producer

variable [DecidableEq ι]

/-- A producer that neither stores nor begins to store changes nothing that the others see. -/
theorem Inv.setProducer (h : Inv cfg s) {i : ι} {v : Option (Addr × PushPc)}
    (hf : ProducerFacts cfg s v) (hnew : ∀ p n, v ≠ some (p, .storeSlot n))
    (hold : ∀ p n, s.producer i ≠ some (p, .storeSlot n)) :
    Inv cfg { s with producer := Function.update s.producer i v } := by
  have hstore (j : ι) (p : Addr) (n : Nat) :
      Function.update s.producer i v j = some (p, .storeSlot n) ↔
        s.producer j = some (p, .storeSlot n) := by
    by_cases hj : j = i
    · subst j
      simp [hnew, hold]
    · simp [hj]
  have hstoring (n : Nat) : ({ s with producer := Function.update s.producer i v } :
      QueueState ι).Storing n ↔ s.Storing n := by
    simp only [Storing, hstore]
  refine ⟨h.head_eq, h.tail_le, h.pending_le, h.delivered_grows, ?_, ?_, ?_, ?_,
    h.slots_pending, h.nonnull⟩
  · intro j
    have hfj : ProducerFacts cfg s (Function.update s.producer i v j) := by
      by_cases hj : j = i
      · subst j
        rwa [Function.update_self]
      · rw [Function.update_of_ne hj]
        exact h.producers j
    refine hfj.frame (List.prefix_refl _) (Nat.le_refl _) ?_
    intro p n hp
    have hk := h.producers j
    rw [(hstore j p n).mp hp] at hk
    exact ⟨hk.2.1, rfl⟩
  · refine h.consumers.frame (List.prefix_refl _) rfl rfl ?_ fun t => h.not_storing_of_slot
    intro _ hn
    exact ⟨rfl, fun hs => hn ((hstoring _).mp hs)⟩
  · intro j k p q n hj hk
    exact h.store_unique j k p q n ((hstore j p n).mp hj) ((hstore k q n).mp hk)
  · intro n ptr hn hp
    rw [hstoring]
    exact h.pending n ptr hn hp

/-- A successful compare-exchange appends one index and hands its slot to the producer. -/
theorem Inv.claim (h : Inv cfg s) {i : ι} {ptr : Addr}
    (hi : s.producer i = some (ptr, .casHead s.claimed.length))
    (hwrap : s.claimed.length + 1 < sizeRange) :
    Inv cfg { s with
      queue := { s.queue with head := sizeSucc s.claimed.length }
      producer := Function.update s.producer i (some (ptr, .storeSlot s.claimed.length))
      claimed := s.claimed ++ [ptr] } := by
  have hf := h.producers i
  rw [hi] at hf
  obtain ⟨hptr, -, hroom⟩ := hf
  have hD := h.delivered_le
  have hpre : s.claimed <+: s.claimed ++ [ptr] := List.prefix_append _ _
  have hstore {j : ι} {p : Addr} {n : Nat}
      (hj : Function.update s.producer i (some (ptr, .storeSlot s.claimed.length)) j =
        some (p, .storeSlot n)) :
      (j = i ∧ n = s.claimed.length) ∨ (s.producer j = some (p, .storeSlot n) ∧
        n < s.claimed.length) := by
    by_cases hji : j = i
    · subst j
      simp only [Function.update_self, Option.some.injEq, Prod.mk.injEq,
        PushPc.storeSlot.injEq] at hj
      exact Or.inl ⟨rfl, hj.2.symm⟩
    · rw [Function.update_of_ne hji] at hj
      exact Or.inr ⟨hj, h.storing_lt ⟨j, p, hj⟩⟩
  refine ⟨?_, h.tail_le, ?_, h.delivered_grows.trans hpre, ?_, ?_, ?_, ?_, ?_, ?_⟩
  · simp [sizeSucc_of_lt hwrap]
  · simp only [List.length_append, List.length_singleton]
    omega
  · intro j
    by_cases hj : j = i
    · subst j
      simp only [Function.update_self, ProducerFacts]
      exact ⟨hptr, hD, by simp, h.next_slot hroom⟩
    · simp only [Function.update_of_ne hj]
      refine (h.producers j).frame hpre (Nat.le_refl _) ?_
      intro p n hp
      have hk := h.producers j
      rw [hp] at hk
      exact ⟨hk.2.1, rfl⟩
  · refine h.consumers.frame hpre rfl rfl ?_ fun t => h.not_storing_of_slot
    intro hlt hn
    refine ⟨rfl, ?_⟩
    rintro ⟨j, p, hj⟩
    rcases hstore hj with ⟨-, he⟩ | ⟨hj, -⟩
    · omega
    · exact hn ⟨j, p, hj⟩
  · intro j k p q n hj hk
    rcases hstore hj with ⟨hji, hn⟩ | ⟨hj, hn⟩ <;> rcases hstore hk with ⟨hki, hn'⟩ | ⟨hk, hn'⟩
    · rw [hji, hki]
    · omega
    · omega
    · exact h.store_unique j k p q n hj hk
  · intro n p hn hp
    rcases Nat.lt_or_ge n s.claimed.length with hlt | hge
    · rw [List.getElem?_append_left hlt] at hp
      rcases h.pending n p hn hp with ⟨j, q, hj⟩ | hs | hs
      · refine Or.inl ⟨j, q, ?_⟩
        have hji : j ≠ i := by
          intro he
          rw [he, hi] at hj
          cases hj
        simpa only [Function.update_of_ne hji] using hj
      · exact Or.inr (Or.inl hs)
      · exact Or.inr (Or.inr hs)
    · have hlt := (List.getElem?_eq_some_iff.mp hp).1
      simp only [List.length_append, List.length_singleton] at hlt
      have he : n = s.claimed.length := by omega
      exact Or.inl ⟨i, ptr, by simp [he]⟩
  · intro k hk
    obtain ⟨n, hn, hs, hp⟩ := h.slots_pending k hk
    exact ⟨n, hn, hs, getElem?_of_prefix hpre hp⟩
  · intro p hp
    rcases List.mem_append.mp hp with hp | hp
    · exact h.nonnull p hp
    · rw [List.mem_singleton.mp hp]
      exact hptr

/-- The store fills the slot of the producer's index, which was `nullptr`. -/
theorem Inv.store (h : Inv cfg s) {i : ι} {ptr : Addr} {n : Nat}
    (hi : s.producer i = some (ptr, .storeSlot n)) :
    Inv cfg { s with
      queue := { s.queue with slots := Function.update s.queue.slots (slotOf cfg n) ptr }
      producer := Function.update s.producer i none } := by
  have hf := h.producers i
  rw [hi] at hf
  obtain ⟨hptr, hnD, hnp, hslot⟩ := hf
  have hnC := h.storing_lt ⟨i, ptr, hi⟩
  have hother {m : Nat} (hm : s.delivered.length ≤ m) (hm' : m < s.claimed.length) (hne : m ≠ n) :
      slotOf cfg m ≠ slotOf cfg n := fun he => hne (h.slot_inj hm hm' hnD hnC he)
  have hstore {j : ι} {q : Addr} {m : Nat}
      (hj : Function.update s.producer i none j = some (q, .storeSlot m)) :
      s.producer j = some (q, .storeSlot m) ∧ m ≠ n := by
    by_cases hji : j = i
    · subst j
      simp at hj
    · rw [Function.update_of_ne hji] at hj
      refine ⟨hj, ?_⟩
      intro he
      rw [he] at hj
      exact hji (h.store_unique j i q ptr n hj hi)
  refine ⟨h.head_eq, h.tail_le, h.pending_le, h.delivered_grows, ?_, ?_, ?_, ?_, ?_, h.nonnull⟩
  · intro j
    have hfj : ProducerFacts cfg s (Function.update s.producer i none j) := by
      by_cases hj : j = i
      · subst j
        simp [ProducerFacts]
      · rw [Function.update_of_ne hj]
        exact h.producers j
    refine hfj.frame (List.prefix_refl _) (Nat.le_refl _) ?_
    intro p m hp
    obtain ⟨hp, hmn⟩ := hstore hp
    have hk := h.producers j
    rw [hp] at hk
    exact ⟨hk.2.1, Function.update_of_ne (hother hk.2.1 (h.storing_lt ⟨j, p, hp⟩) hmn) _ _⟩
  · refine h.consumers.frame (List.prefix_refl _) rfl rfl ?_ fun t => h.not_storing_of_slot
    intro hlt hn
    have hne : s.delivered.length ≠ n := by
      intro he
      exact hn ⟨i, ptr, by rw [hi, he]⟩
    refine ⟨Function.update_of_ne (hother (Nat.le_refl _) hlt hne) _ _, ?_⟩
    rintro ⟨j, q, hj⟩
    exact hn ⟨j, q, (hstore hj).1⟩
  · intro j k p q m hj hk
    exact h.store_unique j k p q m (hstore hj).1 (hstore hk).1
  · intro m p hm hp
    by_cases hmn : m = n
    · subst m
      rw [hnp] at hp
      cases hp
      exact Or.inr (Or.inr (by simp))
    · have hlt := (List.getElem?_eq_some_iff.mp hp).1
      rcases h.pending m p hm hp with ⟨j, q, hj⟩ | hs | hs
      · have hji : j ≠ i := by
          intro he
          rw [he, hi] at hj
          cases hj
          exact hmn rfl
        exact Or.inl ⟨j, q, by simpa only [Function.update_of_ne hji] using hj⟩
      · exact Or.inr (Or.inl hs)
      · exact Or.inr (Or.inr (by simpa only [Function.update_of_ne (hother hm hlt hmn)] using hs))
  · intro k hk
    by_cases hkn : k = slotOf cfg n
    · subst k
      exact ⟨n, hnD, rfl, by simpa using hnp⟩
    · simp only [Function.update_of_ne hkn] at hk ⊢
      exact h.slots_pending k hk

end Producer

theorem Inv.setConsumer (h : Inv cfg s) {v : Option DrainPc} (hf : ConsumerFacts cfg s v)
    (hold : ∀ n, ¬ s.InHand n) : Inv cfg { s with consumer := v } := by
  refine ⟨h.head_eq, h.tail_le, h.pending_le, h.delivered_grows, ?_, ?_, h.store_unique, ?_,
    h.slots_pending, h.nonnull⟩
  · intro i
    refine (h.producers i).frame (List.prefix_refl _) (Nat.le_refl _) ?_
    intro p n hp
    have hk := h.producers i
    rw [hp] at hk
    exact ⟨hk.2.1, rfl⟩
  · exact hf.frame (List.prefix_refl _) rfl rfl (fun _ hn => ⟨rfl, hn⟩) fun t =>
      h.not_storing_of_slot
  · intro n ptr hn hp
    rcases h.pending n ptr hn hp with hs | hs | hs
    · exact Or.inl hs
    · exact absurd hs (hold n)
    · exact Or.inr (Or.inr hs)

/-- Clearing takes the oldest pending pointer out of its slot into the consumer's hand. -/
theorem Inv.clear (h : Inv cfg s) {t hd k : Nat} {ptr : Addr}
    (hc : s.consumer = some (.clearSlot t hd k ptr)) :
    Inv cfg { s with
      queue := { s.queue with slots := Function.update s.queue.slots (slotOf cfg t) 0 }
      consumer := some (.callback t hd k ptr) } := by
  have hf := h.consumers
  rw [hc] at hf
  obtain ⟨ht, hth, hhC, hslot, hptr⟩ := hf
  have hother {m : Nat} (hm : s.delivered.length ≤ m) (hm' : m < s.claimed.length) (hne : m ≠ t) :
      slotOf cfg m ≠ slotOf cfg t := fun he => hne (h.slot_inj hm hm' ht.ge (by omega) he)
  have hclaimed : s.claimed[t]? = some ptr := by
    obtain ⟨n, hn, hk, hp⟩ := h.slots_pending (slotOf cfg t) (by rw [hslot]; exact hptr)
    have hlt := (List.getElem?_eq_some_iff.mp hp).1
    have he := h.slot_inj hn hlt ht.ge (by omega) hk
    rw [he, hslot] at hp
    exact hp
  have hnot : ¬ s.Storing t := h.not_storing_of_slot (by rw [hslot]; exact hptr)
  refine ⟨h.head_eq, h.tail_le, h.pending_le, h.delivered_grows, ?_, ?_, h.store_unique, ?_, ?_,
    h.nonnull⟩
  · intro i
    refine (h.producers i).frame (List.prefix_refl _) (Nat.le_refl _) ?_
    intro p n hp
    have hk := h.producers i
    rw [hp] at hk
    have hnt : n ≠ t := fun he => hnot ⟨i, p, by rw [hp, he]⟩
    exact ⟨hk.2.1, Function.update_of_ne (hother hk.2.1 (h.storing_lt ⟨i, p, hp⟩) hnt) _ _⟩
  · exact ⟨ht, hth, hhC, hclaimed, by simp, hnot⟩
  · intro m p hm hp
    by_cases hmt : m = t
    · subst m
      exact Or.inr (Or.inl ⟨hd, k, ptr, rfl⟩)
    · have hlt := (List.getElem?_eq_some_iff.mp hp).1
      rcases h.pending m p hm hp with hs | ⟨a, b, q, hs⟩ | hs
      · exact Or.inl hs
      · rw [hc] at hs
        cases hs
      · exact Or.inr (Or.inr (by simpa only [Function.update_of_ne (hother hm hlt hmt)] using hs))
  · intro j hj
    by_cases hjt : j = slotOf cfg t
    · subst j
      simp at hj
    · simp only [Function.update_of_ne hjt] at hj ⊢
      exact h.slots_pending j hj

/-- The callback delivers the oldest pending pointer. -/
theorem Inv.deliver (h : Inv cfg s) {t hd k : Nat} {ptr : Addr}
    (hc : s.consumer = some (.callback t hd k ptr)) (hwrap : s.claimed.length < sizeRange) :
    Inv cfg { s with
      consumer := some (.loadSlot (sizeSucc t) hd (k + 1))
      delivered := s.delivered ++ [ptr] } := by
  have hf := h.consumers
  rw [hc] at hf
  obtain ⟨ht, hth, hhC, hclaimed, hslot, hnot⟩ := hf
  have hsucc : sizeSucc t = t + 1 := sizeSucc_of_lt (by omega)
  refine ⟨h.head_eq, h.tail_le.trans (by simp), h.pending_le, ?_, ?_, ?_, h.store_unique, ?_, ?_,
    h.nonnull⟩
  · obtain ⟨rest, hrest⟩ := h.delivered_grows
    have hr : rest[0]? = some ptr := by
      rw [← hrest, ht, List.getElem?_append_right (Nat.le_refl _), Nat.sub_self] at hclaimed
      exact hclaimed
    cases rest with
    | nil => simp at hr
    | cons p rest =>
      simp only [List.getElem?_cons_zero, Option.some.injEq] at hr
      exact ⟨rest, by rw [← hrest, hr, List.append_assoc, List.singleton_append]⟩
  · intro i
    refine (h.producers i).frame (List.prefix_refl _) (Nat.le_refl _) ?_
    intro p n hp
    have hk := h.producers i
    rw [hp] at hk
    have hnt : n ≠ t := fun he => hnot ⟨i, p, by rw [hp, he]⟩
    have := hk.2.1
    refine ⟨?_, rfl⟩
    simp only [List.length_append, List.length_singleton]
    omega
  · simp only [ConsumerFacts, List.length_append, List.length_singleton, hsucc]
    omega
  · intro m p hm hp
    simp only [List.length_append, List.length_singleton] at hm
    rcases h.pending m p (by omega) hp with hs | ⟨a, b, q, hs⟩ | hs
    · exact Or.inl hs
    · rw [hc] at hs
      simp only [Option.some.injEq, DrainPc.callback.injEq] at hs
      omega
    · exact Or.inr (Or.inr hs)
  · intro j hj
    obtain ⟨n, hn, hk, hp⟩ := h.slots_pending j hj
    refine ⟨n, ?_, hk, hp⟩
    have hnt : n ≠ t := by
      intro he
      rw [← hk, he] at hj
      exact hj hslot
    simp only [List.length_append, List.length_singleton]
    omega

/-- Publishing the tail makes room for producers. -/
theorem Inv.publish (h : Inv cfg s) {t k : Nat} (hc : s.consumer = some (.storeTail t k)) :
    Inv cfg { s with queue := { s.queue with tail := t }, consumer := none } := by
  have ht : t = s.delivered.length := by
    have hf := h.consumers
    rwa [hc] at hf
  have hle := h.tail_le
  have hp := h.pending_le
  refine ⟨h.head_eq, ht.le, ?_, h.delivered_grows, ?_, ?_, h.store_unique, ?_, h.slots_pending,
    h.nonnull⟩
  · simp only
    omega
  · intro i
    refine (h.producers i).frame (List.prefix_refl _) (by simp only; omega) ?_
    intro p n hp
    have hk := h.producers i
    rw [hp] at hk
    exact ⟨hk.2.1, rfl⟩
  · exact ht
  · intro m p hm hp
    rcases h.pending m p hm hp with hs | ⟨a, b, q, hs⟩ | hs
    · exact Or.inl hs
    · rw [hc] at hs
      cases hs
    · exact Or.inr (Or.inr hs)

end QueueState

end DieHard
