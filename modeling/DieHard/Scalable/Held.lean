import DieHard.Heap.LargeObjects
import DieHard.Scalable.Calls

/-!
# Large objects of the scalable heap

A program that frees only what it holds never takes a page of a large object away from another call: a
free of a large object ends at the large heap, so every pointer that reaches the registry or a queue
lies in a miniheap. The entries of the large heap are then those of the objects it has not unmapped.
-/

namespace DieHard

open Blocks PerThreadFreeQueue HeapRegistry Transition

/-- The pointer of a free that has not asked the large heap yet. -/
def Pc.asking : Pc → Option Addr
  | .freeSmall false ptr => some ptr
  | .freeBig false ptr => some ptr
  | _ => none

/-- The pointer of a free that the large heap has refused, or of a drain. -/
def Pc.carried : Pc → Option Addr
  | .register (.free ptr) _ => some ptr
  | .findOwner ptr _ true _ => some ptr
  | .freeSmall true ptr => some ptr
  | .freeBig true ptr => some ptr
  | .push ptr _ _ => some ptr
  | .drain _ (.clearSlot _ _ _ ptr) => some ptr
  | .drain _ (.callback _ _ _ ptr) => some ptr
  | .drainBig _ _ _ _ ptr => some ptr
  | _ => none

/-- `ptr` lies in a block of an active miniheap. -/
def Process.InMiniHeap (cfg : HeapConfig) (s : Process) (ptr : Addr) : Prop :=
  ∃ id, s.Active cfg id ∧ ∃ j, (s.layout cfg id).InBlock j ptr

theorem Process.InMiniHeap.extend {cfg : HeapConfig} {s s' : Process} {ptr : Addr}
    (h : s.InMiniHeap cfg ptr) (he : s.Extends cfg s') : s'.InMiniHeap cfg ptr := by
  obtain ⟨id, ha, j, hj⟩ := h
  refine ⟨id, he.active id ha, j, ?_⟩
  rwa [he.layout_eq id ha]

namespace ScalableHeap

variable {cfg : HeapConfig} {pool : PoolConfig} {s s' : ScalableHeap}

def FreesHeld (s : ScalableHeap) : Action → Prop
  | .free _ ptr => ptr = 0 ∨ s.live ptr ≠ none
  | _ => True

/-- The pages of the objects that the large heap maps fit its `int`. -/
def FitsLarge (cfg : HeapConfig) (s : ScalableHeap) : Action → Prop
  | .step k _ => ∀ sz, (s.threads k).pc = .mapLarge sz → LargeHeap.Fits cfg sz
  | _ => True

/-- The large heap has the objects `mapped`, among them those that the program holds. A large object
that is being freed is being freed once. -/
structure LargeInv (cfg : HeapConfig) (s : ScalableHeap) (mapped : Addr → Nat) : Prop where
  objects : LargeSession.Inv cfg ⟨s.large, mapped⟩
  live : ∀ p sz, s.live p = some ⟨none, sz⟩ → mapped p = sz ∧ sz ≠ 0
  asking : ∀ k ptr, (s.threads k).pc.asking = some ptr → s.process.InMiniHeap cfg ptr ∨
    mapped ptr ≠ 0 ∧ s.live ptr = none ∧ ∀ j, (s.threads j).pc.asking = some ptr → j = k
  carried : ∀ k ptr, (s.threads k).pc.carried = some ptr → s.process.InMiniHeap cfg ptr
  queued : ∀ id i, (s.queues id).slots i ≠ 0 → s.process.InMiniHeap cfg ((s.queues id).slots i)

theorem largeInv_initial (process : Process) : LargeInv cfg (initial process) fun _ => 0 := by
  refine ⟨LargeSession.inv_initial, ?_, ?_, ?_, fun _ _ h => absurd rfl h⟩
  · intro p sz h
    cases h
  · intro k ptr h
    cases h
  · intro k ptr h
    cases h

theorem Inv.large_of_inMiniHeap (h : Inv cfg pool s) {ptr : Addr} (hp : s.process.InMiniHeap cfg ptr) :
    s.large.get ptr = 0 := by
  obtain ⟨id, ha, j, hj⟩ := hp
  exact h.large id ha j ptr hj

theorem LiveOk.inMiniHeap {process : Process} {live : Addr → Option Object} (h : LiveOk cfg process live)
    {p heap sz : Nat} (hl : live p = some ⟨some heap, sz⟩) : process.InMiniHeap cfg p := by
  obtain ⟨x, ha, hi, -, -, rfl⟩ := h p heap sz hl
  exact ⟨x.id, ha, _, (Layout.contains_addr hi).inBlock⟩

private theorem holds_update {f : Pc → Option Addr} {threads : Nat → OwnershipTrackingHeap} {j k : Nat}
    {t : OwnershipTrackingHeap} {p : Addr} (h : f (Function.update threads k t j).pc = some p) :
    j = k ∧ f t.pc = some p ∨ j ≠ k ∧ f (threads j).pc = some p := by
  by_cases hj : j = k
  · subst hj
    rw [Function.update_self] at h
    exact Or.inl ⟨rfl, h⟩
  · rw [Function.update_of_ne hj] at h
    exact Or.inr ⟨hj, h⟩

section Steps

variable {mapped : Addr → Nat} {k : Nat} {t : OwnershipTrackingHeap}

theorem LargeInv.get_base (h : LargeInv cfg s mapped) {p : Addr} (hp : mapped p ≠ 0) :
    s.large.get p = mapped p := by
  have hpage := h.objects.page p p (h.objects.page_base hp)
  rwa [Nat.sub_self, Nat.sub_zero] at hpage

theorem LargeInv.not_laterPage (h : LargeInv cfg s mapped) {p : Addr} (hp : mapped p ≠ 0) :
    ¬ LargeSession.LaterPage cfg ⟨s.large, mapped⟩ p := by
  rintro ⟨b, hne, hb⟩
  exact hne (h.objects.page_unique (h.objects.page_base hp) hb)

/-- One thread moves on and the large heap stays as it is. The new objects of the program are small. -/
theorem LargeInv.move (h : LargeInv cfg s mapped) (he : s.process.Extends cfg s'.process)
    (hlarge : s'.large = s.large) (ht : s'.threads = Function.update s.threads k t)
    (hlive : ∀ p o, s'.live p = some o →
      s.live p = some o ∨ o.heap ≠ none ∧ s'.process.InMiniHeap cfg p)
    (hask : ∀ ptr, t.pc.asking = some ptr → (s.threads k).pc.asking = some ptr)
    (hcarried : ∀ ptr, t.pc.carried = some ptr → s'.process.InMiniHeap cfg ptr)
    (hqueued : ∀ id i, (s'.queues id).slots i ≠ 0 →
      s'.process.InMiniHeap cfg ((s'.queues id).slots i)) : LargeInv cfg s' mapped := by
  have hasking (j : Nat) (ptr : Addr) (hj : (s'.threads j).pc.asking = some ptr) :
      (s.threads j).pc.asking = some ptr := by
    rw [ht] at hj
    rcases holds_update hj with ⟨rfl, hj'⟩ | ⟨-, hj'⟩
    · exact hask ptr hj'
    · exact hj'
  refine ⟨hlarge ▸ h.objects, ?_, ?_, ?_, hqueued⟩
  · intro p sz hl
    rcases hlive p _ hl with hl | ⟨hne, -⟩
    · exact h.live p sz hl
    · exact absurd rfl hne
  · intro j ptr hj
    rcases h.asking j ptr (hasking j ptr hj) with hin | ⟨hm, hnone, huniq⟩
    · exact Or.inl (hin.extend he)
    · cases hl : s'.live ptr with
      | none => exact Or.inr ⟨hm, rfl, fun i hi => huniq i (hasking i ptr hi)⟩
      | some o =>
        rcases hlive ptr o hl with hl | ⟨-, hin⟩
        · rw [hnone] at hl
          cases hl
        · exact Or.inl hin
  · intro j ptr hj
    rw [ht] at hj
    rcases holds_update hj with ⟨rfl, hj'⟩ | ⟨-, hj'⟩
    · exact hcarried ptr hj'
    · exact (h.carried j ptr hj').extend he

theorem LargeInv.movePc (h : LargeInv cfg s mapped) (he : s.process.Extends cfg s'.process)
    (hlarge : s'.large = s.large) (ht : s'.threads = Function.update s.threads k t)
    (hlive : s'.live = s.live) (hqueues : s'.queues = s.queues)
    (hask : ∀ ptr, t.pc.asking = some ptr → (s.threads k).pc.asking = some ptr)
    (hcarried : ∀ ptr, t.pc.carried = some ptr → (s.threads k).pc.carried = some ptr) :
    LargeInv cfg s' mapped := by
  refine h.move he hlarge ht (fun p o hl => Or.inl (hlive ▸ hl)) hask ?_ ?_
  · intro ptr hc
    exact (h.carried k ptr (hcarried ptr hc)).extend he
  · intro id i hi
    rw [hqueues] at hi ⊢
    exact (h.queued id i hi).extend he

theorem LargeInv.movePc_of_not_asking (h : LargeInv cfg s mapped) (he : s.process.Extends cfg s'.process)
    (hlarge : s'.large = s.large) (ht : s'.threads = Function.update s.threads k t)
    (hlive : s'.live = s.live) (hqueues : s'.queues = s.queues) (hask : t.pc.asking = none)
    (hcarried : ∀ ptr, t.pc.carried = some ptr → (s.threads k).pc.carried = some ptr) :
    LargeInv cfg s' mapped := by
  refine h.movePc he hlarge ht hlive hqueues ?_ hcarried
  intro ptr hp
  rw [hask] at hp
  cases hp

end Steps

private theorem quiet_allocate (cfg : HeapConfig) (sz : Nat) :
    (allocate cfg sz).asking = none ∧ (allocate cfg sz).carried = none := by
  rw [allocate]
  split <;> exact ⟨rfl, rfl⟩

private theorem quiet_countMalloc (cfg : HeapConfig) (pool : PoolConfig) (sz : Nat)
    (h : OwnershipTrackingHeap) :
    (countMalloc cfg pool sz h).pc.asking = none ∧ (countMalloc cfg pool sz h).pc.carried = none := by
  simp only [countMalloc]
  split
  · exact ⟨rfl, rfl⟩
  · exact quiet_allocate cfg sz

private theorem quiet_callMalloc (cfg : HeapConfig) (pool : PoolConfig) (k sz : Nat)
    (h : OwnershipTrackingHeap) :
    (callMalloc cfg pool k sz h).pc.asking = none ∧
      (callMalloc cfg pool k sz h).pc.carried = none := by
  rw [callMalloc]
  split
  · exact quiet_allocate cfg sz
  · split
    · exact quiet_countMalloc cfg pool sz h
    · exact ⟨rfl, rfl⟩

private theorem carried_registered (cfg : HeapConfig) (pool : PoolConfig) (call : Call)
    (pc : RegisterPc ⊕ Unit) (pc' : RegisterPc) (k : Nat) (h : OwnershipTrackingHeap) :
    (registered cfg pool call pc k h).pc.asking = none ∧
      (registered cfg pool call pc k h).pc.carried = (Pc.register call pc').carried := by
  rcases pc with pc | ⟨⟩
  · cases call <;> exact ⟨rfl, rfl⟩
  · cases call with
    | malloc sz => exact quiet_countMalloc cfg pool sz _
    | free ptr => exact ⟨rfl, rfl⟩

private theorem carried_refused (pool : PoolConfig) (k : Nat) (again : Bool) (ptr : Addr)
    (h : OwnershipTrackingHeap) :
    (refused pool k again ptr h).asking = none ∧
      ∀ p, (refused pool k again ptr h).carried = some p → p = ptr := by
  rw [refused]
  split
  · exact ⟨rfl, fun p hp => by cases hp⟩
  · split <;> exact ⟨rfl, fun p hp => (Option.some.inj hp).symm⟩

private theorem carried_found (pool : PoolConfig) (slow : Bool) (ptr : Addr) (owner : Option Nat) :
    (found pool slow ptr owner).asking = none ∧
      ∀ p, (found pool slow ptr owner).carried = some p → slow = true ∧ p = ptr := by
  cases slow with
  | false => exact ⟨rfl, fun p hp => by cases hp⟩
  | true =>
    cases owner with
    | none => exact ⟨rfl, fun p hp => ⟨rfl, (Option.some.inj hp).symm⟩⟩
    | some ownerId =>
      simp only [found, if_true]
      split
      · exact ⟨rfl, fun p hp => ⟨trivial, (Option.some.inj hp).symm⟩⟩
      · exact ⟨rfl, fun p hp => by cases hp⟩

section Step

variable {mapped : Addr → Nat} {k : Nat}

private theorem apart_extent (h : LargeInv cfg s mapped) {base len b : Nat} (hlen : 0 < len)
    (hb : mapped b ≠ 0) (havoids : AvoidsLarge cfg s.large base len) :
    Apart base len b (LargeHeap.extent cfg (mapped b)) := by
  have hpos := cfg.pageSize_pos
  have hext : LargeHeap.extent cfg (mapped b) = LargeHeap.pages cfg (mapped b) * cfg.pageSize := rfl
  have hle := LargeHeap.le_extent cfg (mapped b)
  by_contra hno
  simp only [Apart, not_or, Nat.not_le] at hno
  -- the page that contains the larger of the two bases
  have hi : (base - b) / cfg.pageSize < LargeHeap.pages cfg (mapped b) := by
    rw [Nat.div_lt_iff_lt_mul hpos]
    omega
  have hdm := Nat.div_add_mod (base - b) cfg.pageSize
  have hml := Nat.mod_lt (base - b) hpos
  rw [Nat.mul_comm] at hdm
  generalize (base - b) / cfg.pageSize = i at hi hdm
  have hpage : LargeHeap.IsPage cfg b (mapped b) (b + i * cfg.pageSize) := ⟨i, hi, rfl⟩
  have hget : s.large.get (b + i * cfg.pageSize) = mapped b - (b + i * cfg.pageSize - b) :=
    h.objects.page b _ hpage
  have hin := hpage.lt
  rcases havoids (b + i * cfg.pageSize) (by omega) with hap | hap <;> omega

/-- The program gives up an object that it holds. -/
private theorem LargeInv.free (h : LargeInv cfg s mapped) (hinv : Inv cfg pool s) {ptr : Addr}
    (hheld : s.live ptr ≠ none) :
    LargeInv cfg ({ s with live := Function.update s.live ptr none }.setPc k (.freeSmall false ptr))
      mapped := by
  have hlive {p : Addr} {o : Object} (hl : Function.update s.live ptr none p = some o) :
      p ≠ ptr ∧ s.live p = some o := by
    by_cases hp : p = ptr
    · rw [hp, Function.update_self] at hl
      cases hl
    · rw [Function.update_of_ne hp] at hl
      exact ⟨hp, hl⟩
  have hnone {p : Addr} (hp : s.live p = none) : Function.update s.live ptr none p = none := by
    by_cases he : p = ptr
    · rw [he, Function.update_self]
    · rw [Function.update_of_ne he, hp]
  -- nobody else is freeing a large object that the program holds
  have hother {j : Nat} (hj : (s.threads j).pc.asking = some ptr) : s.process.InMiniHeap cfg ptr :=
    (h.asking j ptr hj).resolve_right fun hm => hheld hm.2.1
  refine ⟨h.objects, fun p sz hl => h.live p sz (hlive hl).2, ?_, ?_, h.queued⟩
  · intro j p hj
    rcases holds_update hj with ⟨rfl, hj'⟩ | ⟨-, hj'⟩
    · obtain rfl := Option.some.inj hj'
      cases hl : s.live ptr with
      | none => exact absurd hl hheld
      | some object =>
        rcases object with ⟨_ | heap, sz⟩
        · obtain ⟨hm, hsz⟩ := h.live ptr sz hl
          refine Or.inr ⟨by omega, Function.update_self _ _ _, ?_⟩
          intro i hi
          rcases holds_update hi with ⟨hij, -⟩ | ⟨-, hi'⟩
          · exact hij
          · have hzero := hinv.large_of_inMiniHeap (hother hi')
            rw [h.get_base (by omega)] at hzero
            omega
        · exact Or.inl (hinv.live.inMiniHeap hl)
    · rcases h.asking j p hj' with hin | ⟨hm, hl, huniq⟩
      · exact Or.inl hin
      · refine Or.inr ⟨hm, hnone hl, ?_⟩
        intro i hi
        rcases holds_update hi with ⟨-, hi'⟩ | ⟨-, hi'⟩
        · obtain rfl := Option.some.inj hi'
          exact absurd hl hheld
        · exact huniq i hi'
  · intro j p hj
    rcases holds_update hj with ⟨-, hj'⟩ | ⟨-, hj'⟩
    · cases hj'
    · exact h.carried j p hj'

/-- The large heap maps a new object. -/
private theorem LargeInv.mapLarge (h : LargeInv cfg s mapped) {sz : Nat} {base : Addr}
    (hsz : sz ≠ 0) (hfits : LargeHeap.Fits cfg sz) (hbase : base ≠ 0) (hdvd : cfg.pageSize ∣ base)
    (havoids : AvoidsLarge cfg s.large base (LargeHeap.extent cfg sz)) :
    LargeInv cfg ({ s with
        large := LargeHeap.set cfg base sz s.large
        live := Function.update s.live base (some ⟨none, sz⟩) }.setPc k
          (.idle (some (.malloc base)))) (Function.update mapped base sz) := by
  have hlen : 0 < LargeHeap.extent cfg sz :=
    (Nat.pos_of_ne_zero hsz).trans_le (LargeHeap.le_extent cfg sz)
  have hnew {p : Addr} (hp : mapped p ≠ 0) : p ≠ base := by
    rintro rfl
    have hentry : s.large.get p ≠ 0 := by rwa [h.get_base hp]
    have hpos := cfg.pageSize_pos
    rcases havoids p hentry with hap | hap <;> omega
  have hfresh : LargeSession.ok cfg ⟨s.large, mapped⟩ (.malloc sz base) :=
    Or.inr ⟨hfits, ⟨hdvd, fun b hb => apart_extent h hlen hb havoids⟩, hbase⟩
  have hobjects : LargeSession.Inv cfg
      ⟨LargeHeap.set cfg base sz s.large, Function.update mapped base sz⟩ := by
    refine h.objects.next hfresh ?_
    simp only [LargeSession.next, LargeHeap.malloc, hsz, hbase, or_self, if_false]
  have hthread {j : Nat} {p : Addr} (hj : ((Function.update s.threads k
      { s.threads k with pc := .idle (some (.malloc base)) }) j).pc.asking = some p) :
      (s.threads j).pc.asking = some p := by
    rcases holds_update hj with ⟨-, hj'⟩ | ⟨-, hj'⟩
    · cases hj'
    · exact hj'
  refine ⟨hobjects, ?_, ?_, ?_, h.queued⟩
  · intro p sz' hl
    by_cases hp : p = base
    · subst hp
      simp only [setPc, setThread, Function.update_self, Option.some.injEq, Object.mk.injEq,
        true_and] at hl ⊢
      exact ⟨hl, by omega⟩
    · simp only [setPc, setThread, Function.update_of_ne hp] at hl ⊢
      exact h.live p sz' hl
  · intro j p hj
    rcases h.asking j p (hthread hj) with hin | ⟨hm, hl, huniq⟩
    · exact Or.inl hin
    · have hp := hnew hm
      refine Or.inr ⟨by rwa [Function.update_of_ne hp], ?_, fun i hi => huniq i (hthread hi)⟩
      simp only [setPc, setThread, Function.update_of_ne hp, hl]
  · intro j p hj
    rcases holds_update hj with ⟨-, hj'⟩ | ⟨-, hj'⟩
    · cases hj'
    · exact h.carried j p hj'

/-- The large heap unmaps an object that is being freed. -/
private theorem LargeInv.unmap (h : LargeInv cfg s mapped) (hinv : Inv cfg pool s) {again : Bool}
    {ptr : Addr} (hpc : (s.threads k).pc = .freeBig again ptr) (hentry : s.large.get ptr ≠ 0) :
    LargeInv cfg ({ s with large := LargeHeap.clear cfg ptr s.large }.setPc k
      (.idle (some (.free true)))) (Function.update mapped ptr 0) := by
  have hout : ¬ s.process.InMiniHeap cfg ptr := fun hin => hentry (hinv.large_of_inMiniHeap hin)
  have hfirst : (s.threads k).pc.asking = some ptr := by
    cases again with
    | false => rw [hpc]; rfl
    | true => exact absurd (h.carried k ptr (by rw [hpc]; rfl)) hout
  obtain ⟨hm, hnone, huniq⟩ := (h.asking k ptr hfirst).resolve_left hout
  have hobjects : LargeSession.Inv cfg
      ⟨LargeHeap.clear cfg ptr s.large, Function.update mapped ptr 0⟩ := by
    refine h.objects.next (a := .free ptr) (h.not_laterPage hm) ?_
    simp only [LargeSession.next, LargeHeap.free, if_pos (Nat.pos_of_ne_zero hentry)]
  have hthread {j : Nat} {p : Addr} (hj : ((Function.update s.threads k
      { s.threads k with pc := .idle (some (.free true)) }) j).pc.asking = some p) :
      j ≠ k ∧ (s.threads j).pc.asking = some p := by
    rcases holds_update hj with ⟨-, hj'⟩ | hj'
    · cases hj'
    · exact hj'
  refine ⟨hobjects, ?_, ?_, ?_, h.queued⟩
  · intro p sz hl
    have hp : p ≠ ptr := by
      rintro rfl
      rw [show s.live p = some ⟨none, sz⟩ from hl] at hnone
      cases hnone
    rw [Function.update_of_ne hp]
    exact h.live p sz hl
  · intro j p hj
    obtain ⟨hjk, hj'⟩ := hthread hj
    rcases h.asking j p hj' with hin | ⟨hmp, hl, huniq'⟩
    · exact Or.inl hin
    · have hp : p ≠ ptr := by
        rintro rfl
        exact hjk (huniq j hj')
      refine Or.inr ⟨by rwa [Function.update_of_ne hp], hl, ?_⟩
      intro i hi
      exact huniq' i (hthread hi).2
  · intro j p hj
    rcases holds_update hj with ⟨-, hj'⟩ | ⟨-, hj'⟩
    · cases hj'
    · exact h.carried j p hj'

/-- What a drain carries it has read from its queue, and it writes no pointer. -/
private theorem carried_drainStep (cfg : HeapConfig) (pool : PoolConfig) (q : PerThreadFreeQueue)
    (pc : DrainPc) (sz : Nat) :
    (∀ i, (drainStep pool q pc).1.slots i ≠ 0 → (drainStep pool q pc).1.slots i = q.slots i) ∧
    ((drainStep pool q pc).2.elim (Pc.drain sz) fun _ => allocate cfg sz).asking = none ∧
    ∀ p, ((drainStep pool q pc).2.elim (Pc.drain sz) fun _ => allocate cfg sz).carried = some p →
      (Pc.drain sz pc).carried = some p ∨ p ≠ 0 ∧ ∃ i, q.slots i = p := by
  cases pc with
  | loadSlot currentTail currentHead processed =>
    simp only [drainStep]
    split
    · split
      · exact ⟨fun _ _ => rfl, rfl, fun p hp => by cases hp⟩
      · rename_i hne
        refine ⟨fun _ _ => rfl, rfl, ?_⟩
        intro p hp
        obtain rfl := Option.some.inj hp
        exact Or.inr ⟨hne, _, rfl⟩
    · exact ⟨fun _ _ => rfl, rfl, fun p hp => by cases hp⟩
  | clearSlot currentTail currentHead processed ptr =>
    refine ⟨?_, rfl, fun p hp => Or.inl hp⟩
    intro i hi
    simp only [drainStep] at hi ⊢
    by_cases hslot : i = slotOf pool currentTail
    · rw [hslot, Function.update_self] at hi
      exact absurd rfl hi
    · rw [Function.update_of_ne hslot]
  | storeTail currentTail processed =>
    refine ⟨fun _ _ => rfl, (quiet_allocate cfg sz).1, ?_⟩
    intro p hp
    have hnone := (quiet_allocate cfg sz).2
    simp only [drainStep, Sum.elim_inr, hnone] at hp
    cases hp
  | _ => exact ⟨fun _ _ => rfl, rfl, fun p hp => by cases hp⟩

private theorem LargeInv.consume (h : LargeInv cfg s mapped) {sz : Nat} {pc : DrainPc}
    {process : Process} (he : s.process.Extends cfg process)
    (hpc : ∀ p, (Pc.drain sz pc).carried = some p → (s.threads k).pc.carried = some p) :
    LargeInv cfg (consume cfg pool { s with process := process } k sz pc) mapped := by
  obtain ⟨hslots, hask, hcarried⟩ := carried_drainStep cfg pool (s.queues (threadId pool k)) pc sz
  refine h.move (k := k) (t := { s.threads k with
    pc := (drainStep pool (s.queues (threadId pool k)) pc).2.elim (.drain sz) fun _ => allocate cfg sz })
    he rfl rfl (fun p o hl => Or.inl hl) ?_ ?_ ?_
  · intro ptr hp
    rw [show Pc.asking _ = none from hask] at hp
    cases hp
  · intro ptr hp
    rcases hcarried ptr hp with hp | ⟨hne, i, rfl⟩
    · exact (h.carried k ptr (hpc ptr hp)).extend he
    · exact (h.queued _ i hne).extend he
  · intro id i hi
    simp only [ScalableHeap.consume, setPc, setThread] at hi ⊢
    by_cases hid : id = threadId pool k
    · subst hid
      simp only [Function.update_self] at hi ⊢
      rw [hslots i hi]
      exact (h.queued _ i (hslots i hi ▸ hi)).extend he
    · simp only [Function.update_of_ne hid] at hi ⊢
      exact (h.queued id i hi).extend he

/-- A push carries one pointer and writes no other. -/
private theorem carried_pushStep (pool : PoolConfig) (q : PerThreadFreeQueue) (ptr ownerId : Nat)
    (pc : PushPc) (sp : Bool) :
    (∀ i, (pushStep pool q ptr sp pc).1.slots i = q.slots i ∨
      (pushStep pool q ptr sp pc).1.slots i = ptr) ∧
    ((pushStep pool q ptr sp pc).2.elim (Pc.push ptr ownerId)
      fun _ => .idle (some (.free true))).asking = none ∧
    ∀ p, ((pushStep pool q ptr sp pc).2.elim (Pc.push ptr ownerId)
      fun _ => .idle (some (.free true))).carried = some p → p = ptr := by
  refine ⟨?_, ?_, ?_⟩
  · intro i
    cases pc with
    | loadHead => exact Or.inl rfl
    | loadTail currentHead =>
      simp only [pushStep]
      split <;> exact Or.inl rfl
    | casHead currentHead =>
      simp only [pushStep]
      split <;> exact Or.inl rfl
    | storeSlot currentHead =>
      simp only [pushStep, Function.update_apply]
      split
      · exact Or.inr rfl
      · exact Or.inl rfl
  · rcases (pushStep pool q ptr sp pc).2 with pc' | b <;> rfl
  · intro p hp
    rcases hr : (pushStep pool q ptr sp pc).2 with pc' | b
    · rw [hr] at hp
      exact (Option.some.inj hp).symm
    · rw [hr] at hp
      cases hp

private theorem LargeInv.push (h : LargeInv cfg s mapped) {ptr : Addr} {ownerId : Nat} {pc : PushPc}
    (sp : Bool) (hpc : (s.threads k).pc = .push ptr ownerId pc) (hs : s'.process = s.process)
    (hlarge : s'.large = s.large) (hlive : s'.live = s.live)
    (hqueues : s'.queues = Function.update s.queues ownerId
      (pushStep pool (s.queues ownerId) ptr sp pc).1)
    (ht : s'.threads = Function.update s.threads k { s.threads k with
      pc := (pushStep pool (s.queues ownerId) ptr sp pc).2.elim (.push ptr ownerId)
        fun _ => .idle (some (.free true)) }) : LargeInv cfg s' mapped := by
  have hin : s.process.InMiniHeap cfg ptr := h.carried k ptr (by rw [hpc]; rfl)
  obtain ⟨hslots, hask, hcarried⟩ := carried_pushStep pool (s.queues ownerId) ptr ownerId pc sp
  refine h.move (by rw [hs]; exact .refl _) hlarge ht (fun p o hl => Or.inl (hlive ▸ hl)) ?_ ?_ ?_
  · intro p hp
    rw [show Pc.asking _ = none from hask] at hp
    cases hp
  · intro p hp
    rw [hs, hcarried p hp]
    exact hin
  · intro id i hi
    rw [hqueues] at hi ⊢
    rw [hs]
    by_cases hid : id = ownerId
    · subst hid
      rw [Function.update_self] at hi ⊢
      rcases hslots i with he | he
      · rw [he]
        exact h.queued id i (he ▸ hi)
      · rwa [he]
    · rw [Function.update_of_ne hid] at hi ⊢
      exact h.queued id i hi

/-- `malloc` takes an object of a miniheap. -/
private theorem LargeInv.take (h : LargeInv cfg s mapped) {x : Slot} {sz : Nat} {process : Process}
    (ht : s.process.Took cfg x process) :
    LargeInv cfg ({ s with
        process := process
        live := Function.update s.live ((s.process.layout cfg x.id).addr x.index)
          (some ⟨some k, sz⟩) }.setPc k
        (.idle (some (.malloc ((s.process.layout cfg x.id).addr x.index))))) mapped := by
  have hslots := ht.index_lt.trans_le (HeapConfig.nObjects_le_slots x.id (s.process.mini x.id))
  have hin : s.process.InMiniHeap cfg ((s.process.layout cfg x.id).addr x.index) :=
    ⟨x.id, ht.active, _, (Layout.contains_addr hslots).inBlock⟩
  refine h.move (k := k) ht.layout.extends rfl rfl ?_ (fun p hp => by cases hp)
    (fun p hp => by cases hp) fun id i hi => (h.queued id i hi).extend ht.layout.extends
  intro p o hl
  simp only [setPc, setThread, Function.update_apply] at hl
  split at hl
  · rename_i hp
    cases hl
    exact Or.inr ⟨by simp, hp ▸ hin.extend ht.layout.extends⟩
  · exact Or.inl hl

/-- The large heap does not know what it is asked to free, so a miniheap does. -/
private theorem LargeInv.refused (h : LargeInv cfg s mapped) {again : Bool} {ptr : Addr}
    (hpc : (s.threads k).pc = .freeBig again ptr) (hz : s.large.get ptr = 0) :
    LargeInv cfg (s.setPc k (refused pool k again ptr (s.threads k))) mapped := by
  have hin : s.process.InMiniHeap cfg ptr := by
    cases again with
    | true => exact h.carried k ptr (by rw [hpc]; rfl)
    | false =>
      refine (h.asking k ptr (by rw [hpc]; rfl)).resolve_right ?_
      rintro ⟨hmapped, -, -⟩
      exact hmapped ((h.get_base hmapped).symm.trans hz)
  obtain ⟨hask, hcarried⟩ := carried_refused pool k again ptr (s.threads k)
  refine h.move (k := k) (.refl _) rfl rfl (fun p o hl => Or.inl hl) ?_ ?_ h.queued
  · intro p hp
    rw [hask] at hp
    cases hp
  · intro p hp
    rwa [hcarried p hp]

/-- A search for the owner goes on with the pointer that it began with. -/
private theorem LargeInv.found (h : LargeInv cfg s mapped) {ptr : Addr} {e : Nat} {slow : Bool}
    {pc : FindPc} {process : Process} (hpc : (s.threads k).pc = .findOwner ptr e slow pc)
    (he : s.process.Extends cfg process) (r : FindPc ⊕ Option Nat) :
    LargeInv cfg ({ s with process := process }.setPc k
      (r.elim (.findOwner ptr e slow) (found pool slow ptr))) mapped := by
  cases r with
  | inl pc' =>
    refine h.movePc_of_not_asking (k := k) he rfl rfl rfl rfl rfl ?_
    intro p hp
    rw [hpc]
    cases slow <;> exact hp
  | inr owner =>
    obtain ⟨hask, hcarried⟩ := carried_found pool slow ptr owner
    refine h.movePc_of_not_asking (k := k) he rfl rfl rfl rfl hask ?_
    intro p hp
    obtain ⟨rfl, rfl⟩ := hcarried p hp
    rw [hpc]
    rfl

/-- A step of a program that frees only what it holds, with large objects that fit. -/
theorem LargeInv.step (h : LargeInv cfg s mapped) (hinv : Inv cfg pool s) {a : Action}
    (hm : MemoryOk cfg s a) (hheld : FreesHeld s a) (hfits : FitsLarge cfg s a)
    (hs : Step cfg pool s a s') : ∃ mapped', LargeInv cfg s' mapped' := by
  have hsame {k : Nat} {pc : Pc} {process : Process} (he : s.process.Extends cfg process)
      (hask : ∀ p, pc.asking = some p → (s.threads k).pc.asking = some p)
      (hcarried : ∀ p, pc.carried = some p → (s.threads k).pc.carried = some p) :
      LargeInv cfg ({ s with process := process }.setPc k pc) mapped :=
    h.movePc (k := k) (t := { s.threads k with pc := pc }) he rfl rfl rfl rfl hask hcarried
  have hquiet {k : Nat} {pc : Pc} {process : Process} (he : s.process.Extends cfg process)
      (hask : pc.asking = none) (hcarried : pc.carried = none) :
      LargeInv cfg ({ s with process := process }.setPc k pc) mapped :=
    h.movePc_of_not_asking (k := k) (t := { s.threads k with pc := pc }) he rfl rfl rfl rfl hask
      fun p hp => by rw [hcarried] at hp; cases hp
  have hinside {k : Nat} {ptr : Addr} (hc : (s.threads k).pc.carried = some ptr) :
      s.large.free cfg ptr = (none, s.large) := by
    have hzero := hinv.large_of_inMiniHeap (h.carried k ptr hc)
    rw [LargeHeap.free, if_neg (by omega)]
  cases hs with
  | create => exact ⟨mapped, h.objects, h.live, h.asking, h.carried, h.queued⟩
  | @malloc k sz last hpc _ =>
    obtain ⟨hask, hcarried⟩ := quiet_callMalloc cfg pool k sz (s.threads k)
    refine ⟨mapped, h.movePc_of_not_asking (k := k) (.refl _) rfl rfl rfl rfl hask ?_⟩
    intro p hp
    rw [hcarried] at hp
    cases hp
  | freeNull _ _ => exact ⟨mapped, hquiet (.refl _) rfl rfl⟩
  | free _ _ hptr => exact ⟨mapped, h.free hinv (hheld.resolve_left hptr)⟩
  | find _ _ => exact ⟨mapped, hquiet (.refl _) rfl rfl⟩
  | @register k c call pc hpc _ =>
    obtain ⟨hask, hcarried⟩ := carried_registered cfg pool call
      (registerStep pool s.registry k (threadId pool k) c.spurious pc).2 pc k (s.threads k)
    refine ⟨mapped, h.movePc_of_not_asking (k := k) (.refl _) rfl rfl rfl rfl hask ?_⟩
    intro p hp
    rwa [hpc, ← hcarried]
  | drainHead _ hto =>
    refine ⟨mapped, ?_⟩
    rcases hto with rfl | rfl
    · exact hquiet (.refl _) rfl rfl
    · exact hquiet (.refl _) (quiet_allocate cfg _).1 (quiet_allocate cfg _).2
  | drainTail _ hto =>
    refine ⟨mapped, ?_⟩
    rcases hto with rfl | rfl
    · exact hquiet (.refl _) rfl rfl
    · exact hquiet (.refl _) (quiet_allocate cfg _).1 (quiet_allocate cfg _).2
  | consume hpc _ => exact ⟨mapped, h.consume (.refl _) fun p hp => by rw [hpc]; exact hp⟩
  | deliver hpc _ hf =>
    exact ⟨mapped, h.consume hf.layout.extends fun p hp => by rw [hpc]; exact hp⟩
  | callbackMiss hpc _ hc =>
    exact ⟨mapped, hsame hc.layout.extends (fun p hp => by cases hp) fun p hp => by rw [hpc]; exact hp⟩
  | @deliverBig k c sz t hd n ptr hpc =>
    have hcarried : (s.threads k).pc.carried = some ptr := by rw [hpc]; rfl
    rw [hinside hcarried]
    exact ⟨mapped, h.consume (.refl _) fun p hp => by rw [hpc]; exact hp⟩
  | @grow k c sz process hpc hg =>
    have hself : s.threads = Function.update s.threads k (s.threads k) :=
      (Function.update_eq_self _ _).symm
    exact ⟨mapped, h.movePc hg.grew.extends' rfl hself rfl rfl (fun _ hp => hp) fun _ hp => hp⟩
  | room _ _ => exact ⟨mapped, hquiet (.refl _) rfl rfl⟩
  | taken _ => exact ⟨mapped, h⟩
  | take _ _ _ ht => exact ⟨mapped, h.take ht⟩
  | @mapLarge k c sz hpc hne hmapped havoids =>
    simp only [MemoryOk, hpc] at hm
    have hk := hinv.threads k
    rw [hpc] at hk
    have hsz : cfg.maxSize < sz := hk
    exact ⟨_, h.mapLarge (by omega) (hfits sz hpc) hne hm.2.1 havoids⟩
  | freeHit _ _ hf => exact ⟨mapped, hquiet hf.layout.extends rfl rfl⟩
  | @freeMiss k c again ptr process hpc _ hc =>
    refine ⟨mapped, hsame hc.layout.extends ?_ ?_⟩ <;> rw [hpc] <;> cases again <;> exact fun p hp => hp
  | largeHit hpc hne => exact ⟨_, h.unmap hinv hpc hne⟩
  | largeMiss hpc _ hz => exact ⟨mapped, h.refused hpc hz⟩
  | findOwner hpc _ hc => exact ⟨mapped, h.found hpc hc.layout.extends _⟩
  | push hpc => exact ⟨mapped, h.push _ hpc rfl rfl rfl rfl rfl⟩

end Step

section Run

variable {ok : ScalableHeap → Action → Prop} {localRandom : Nat → BitVec 64}
  {random : Nat → Nat → Nat → BitVec 64} {mem : Addr → BitVec 8} {mapped : List (Addr × Nat)}

theorem Execution.exists_largeInv
    (e : Execution (next cfg pool) ok (start localRandom random mem mapped))
    (hok : ∀ s a, ok s a → MemoryOk cfg s a) {m : Nat} (hm : m ≤ e.length)
    (hheld : ∀ k < m, FreesHeld (e.state k) (e.action k) ∧ FitsLarge cfg (e.state k) (e.action k)) :
    ∃ mapped, LargeInv cfg (e.state m) mapped := by
  apply e.keeps (I := fun _ s => ∃ mapped, LargeInv cfg s mapped) (Nat.zero_le m)
  · rw [e.initial]
    exact ⟨_, largeInv_initial _⟩
  · intro k _ hkm hlarge
    obtain ⟨mapped, h⟩ := hlarge
    have hinv := Execution.inv e hok (k := k) (by omega)
    exact h.step hinv (hok _ _ (e.guarded k (by omega))) (hheld k hkm).1 (hheld k hkm).2
      (Execution.stepAt e hok (by omega))

end Run

end ScalableHeap

end DieHard
