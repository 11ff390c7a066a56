import DieHard.Heap.Allocation
import DieHard.Lib.Transition

/-!
# Heap safety

A session is a process with the ledger of its program: which addresses of which heap are live, and
the sizes that were asked for. Every run in which the program frees live objects, slots that are free
already, or addresses outside the heap keeps bitmaps and ledger in agreement.
-/

namespace DieHard

open Blocks

variable {cfg : HeapConfig}

def objectSize (sz : Nat) : Nat := getClassSize (requestClass sz)

theorem objectSize_isLeast (sz : Nat) :
    IsLeast {n | n.isPowerOfTwo ∧ max sz alignment ≤ n} (objectSize sz) := by
  have hmax : (if sz < alignment then alignment else sz) = max sz alignment := by
    split <;> omega
  refine ⟨⟨getClassSize_powerOfTwo _, ?_⟩, ?_⟩
  · rw [objectSize, requestClass, hmax]
    exact getIndex_le_iff.mp (Nat.le_refl _)
  · rintro _ ⟨⟨k, rfl⟩, hle⟩
    rw [objectSize, requestClass, hmax]
    have h4 : 4 ≤ k := by
      have hal : (2 : Nat) ^ 4 ≤ 2 ^ k := (le_max_right sz alignment).trans hle
      exact (Nat.pow_le_pow_iff_right (by decide)).mp hal
    have hk : (2 : Nat) ^ k = getClassSize (k - 4) := by
      rw [getClassSize_eq, Nat.sub_add_cancel h4]
    rw [hk] at hle ⊢
    rw [getClassSize_eq, getClassSize_eq]
    exact Nat.pow_le_pow_right (by decide) (Nat.add_le_add_right (getIndex_le_iff.mpr hle) 4)

/-- A process and the live objects of its heaps, with the requested sizes. -/
structure Session where
  process : Process
  live : Nat → Addr → Option Nat

namespace Session

inductive Action
  | malloc (k sz : Nat) (sources : List (Nat → Addr)) (randoms : List (Nat × Nat))
  | free (k : Nat) (p : Addr)

instance : Inhabited Action := ⟨.free 0 0⟩

def record (s : Session) (process : Process) (k : Nat) (p : Addr) (sz : Option Nat) : Session :=
  ⟨process, Function.update s.live k (Function.update (s.live k) p sz)⟩

/-- A call; a `malloc` that does not return is not a step. -/
def next (cfg : HeapConfig) (s : Session) : Action → Option Session
  | .malloc k sz sources randoms =>
    (s.process.malloc cfg k sz sources randoms).map fun r => s.record r.2 k r.1 (some sz)
  | .free k p => some (s.record (s.process.free cfg k p).2 k p none)

/-- `p` lies in a slot of heap `k` that is free at present. -/
def InFreeSlot (cfg : HeapConfig) (s : Session) (k : Nat) (p : Addr) : Prop :=
  ∃ x : Slot, x.id.owner = k ∧ s.process.Active cfg x.id ∧
    (s.process.layout cfg x.id).Contains x.index p ∧
    s.live k ((s.process.layout cfg x.id).addr x.index) = none

/-- `p` lies outside every miniheap of heap `k`. -/
def Outside (cfg : HeapConfig) (s : Session) (k : Nat) (p : Addr) : Prop :=
  ∀ id : MiniId, id.owner = k → s.process.Active cfg id →
    ∀ j, ¬ (s.process.layout cfg id).InBlock j p

/-- The calls of the program: requests up to the largest size on fresh memory, and frees of live
objects, of free slots and of foreign addresses. -/
def ok (cfg : HeapConfig) (s : Session) : Action → Prop
  | .malloc k sz sources _ => sz ≤ cfg.maxSize ∧
    SourcesFresh cfg k (requestClass sz) sources (s.process.random k (requestClass sz)) s.process.env
  | .free k p => (s.live k p).isSome ∨ s.InFreeSlot cfg k p ∨ s.Outside cfg k p

/-- Bitmaps and ledger agree. -/
structure Inv (cfg : HeapConfig) (s : Session) : Prop where
  placed : Placed cfg s.process
  live_slot : ∀ k p sz, s.live k p = some sz → ∃ x : Slot, x.id.owner = k ∧
    x.id.cls = requestClass sz ∧ s.process.bit x = true ∧ p = (s.process.layout cfg x.id).addr x.index
  slot_live : ∀ x : Slot, s.process.bit x = true →
    (s.live x.id.owner ((s.process.layout cfg x.id).addr x.index)).isSome

theorem Inv.slot_inj {s : Session} (h : Inv cfg s) {x y : Slot} (hx : s.process.bit x = true)
    (hy : s.process.bit y = true)
    (he : (s.process.layout cfg x.id).addr x.index = (s.process.layout cfg y.id).addr y.index) :
    x = y := by
  have hxc := Layout.contains_addr (h.placed.bit_slot hx)
  have hyc := Layout.contains_addr (h.placed.bit_slot hy)
  rw [← he] at hyc
  exact h.placed.slot_eq (h.placed.bit_active hx) (h.placed.bit_active hy) hxc hyc

private theorem record_live (s : Session) (process : Process) (k k' : Nat) (p p' : Addr)
    (v : Option Nat) : (s.record process k p v).live k' p' =
      if k' = k ∧ p' = p then v else s.live k' p' := by
  by_cases hk : k' = k
  · subst k'
    by_cases hp : p' = p
    · subst p'
      simp [record]
    · simp [record, hp]
  · simp [record, hk]

private theorem inv_malloc {s : Session} (h : Inv cfg s) {k sz : Nat} {p : Addr} {x : Slot}
    {process : Process} (hk : x.id.owner = k) (hc : x.id.cls = requestClass sz)
    (hp : p = (process.layout cfg x.id).addr x.index) (hm : s.process.Malloced cfg x process) :
    Inv cfg (s.record process k p (some sz)) := by
  have hx : process.bit x = true := by
    rw [hm.bit_eq]
    simp
  refine ⟨hm.placed, ?_, ?_⟩
  · intro k' p' sz' hl
    rw [record_live] at hl
    split at hl
    · rename_i he
      cases hl
      obtain ⟨rfl, rfl⟩ := he
      exact ⟨x, hk, hc, hx, hp⟩
    · obtain ⟨y, hyk, hyc, hyb, hyp⟩ := h.live_slot k' p' sz' hl
      have hya := h.placed.bit_active hyb
      refine ⟨y, hyk, hyc, ?_, ?_⟩
      · show process.bit y = true
        rw [hm.bit_eq, hyb, Bool.true_or]
      · show p' = (process.layout cfg y.id).addr y.index
        rw [hm.extends'.layout_eq _ hya]
        exact hyp
  · intro y hy
    have hy' : process.bit y = true := hy
    rw [record_live]
    split
    · rfl
    · rename_i hne
      rw [hm.bit_eq, Bool.or_eq_true, decide_eq_true_eq] at hy'
      rcases hy' with hyb | rfl
      · have hya := h.placed.bit_active hyb
        have hl := h.slot_live y hyb
        rwa [← hm.extends'.layout_eq _ hya] at hl
      · exact absurd ⟨hk, hp.symm⟩ hne

private theorem inv_free_hit {s : Session} (h : Inv cfg s) {x : Slot} {process : Process}
    (hx : s.process.bit x = true)
    (hf : s.process.Freed cfg x ((s.process.layout cfg x.id).addr x.index) process) :
    Inv cfg (s.record process x.id.owner ((s.process.layout cfg x.id).addr x.index) none) := by
  refine ⟨hf.placed h.placed, ?_, ?_⟩
  · intro k' p' sz' hl
    rw [record_live] at hl
    split at hl
    · cases hl
    · rename_i hne
      obtain ⟨y, hyk, hyc, hyb, hyp⟩ := h.live_slot k' p' sz' hl
      have hyx : y ≠ x := by
        rintro rfl
        exact hne ⟨hyk.symm, hyp⟩
      refine ⟨y, hyk, hyc, ?_, ?_⟩
      · show process.bit y = true
        rw [hf.bit_eq, hyb, decide_eq_true hyx, Bool.and_true]
      · show p' = (process.layout cfg y.id).addr y.index
        rw [hf.layout.layout_eq]
        exact hyp
  · intro y hy
    have hy' : process.bit y = true := hy
    rw [hf.bit_eq, Bool.and_eq_true, decide_eq_true_eq] at hy'
    have hl := h.slot_live y hy'.1
    show (Session.live _ _ ((process.layout cfg y.id).addr y.index)).isSome = true
    rw [hf.layout.layout_eq, record_live]
    split
    · rename_i he
      exact absurd (h.slot_inj hy'.1 hx he.2) hy'.2
    · exact hl

private theorem misses_of_refused {s : Session} (h : Inv cfg s) {k : Nat} {p : Addr}
    (hp : s.InFreeSlot cfg k p ∨ s.Outside cfg k p) :
    ∀ id, id.owner = k → s.process.Active cfg id → s.process.Misses cfg p id := by
  intro id hk ha i hi
  rcases hp with ⟨x, hxk, hxa, hxp, hfree⟩ | hout
  · obtain rfl := h.placed.slot_eq (x := ⟨id, i⟩) (y := x) ha hxa hi hxp
    rw [Bool.eq_false_iff]
    intro hb
    have hl := h.slot_live ⟨id, i⟩ hb
    rw [hk] at hl
    rw [hfree] at hl
    cases hl
  · exact absurd hi.inBlock (hout id hk ha _)

private theorem inv_free_miss {s : Session} (h : Inv cfg s) {k : Nat} {p : Addr} {env : Env}
    (hp : s.live k p = none) (hw : s.process.env.Wrote s.process.env.mem env) :
    Inv cfg (s.record ⟨s.process.heaps, env⟩ k p none) := by
  refine ⟨h.placed.setEnv hw, ?_, ?_⟩
  · intro k' p' sz' hl
    rw [record_live] at hl
    split at hl
    · cases hl
    · exact h.live_slot k' p' sz' hl
  · intro y hy
    have hl := h.slot_live y hy
    rw [record_live]
    split
    · rename_i he
      have he' : (s.process.layout cfg y.id).addr y.index = p := he.2
      rw [he.1, he', hp] at hl
      cases hl
    · exact hl

theorem Inv.free_live {s : Session} (h : Inv cfg s) {k sz : Nat} {p : Addr}
    (hl : s.live k p = some sz) : ∃ x : Slot, x.id.owner = k ∧ x.id.cls = requestClass sz ∧
      p = (s.process.layout cfg x.id).addr x.index ∧ s.process.bit x = true ∧
      ∃ process, s.process.free cfg k p = (true, process) ∧ s.process.Freed cfg x p process := by
  obtain ⟨x, rfl, hc, hb, rfl⟩ := h.live_slot k p sz hl
  exact ⟨x, rfl, hc, rfl, hb, h.placed.free_hit (h.placed.bit_active hb)
    (Layout.contains_addr (h.placed.bit_slot hb)) hb⟩

theorem Inv.free_refused {s : Session} (h : Inv cfg s) {k : Nat} {p : Addr}
    (hp : s.InFreeSlot cfg k p ∨ s.Outside cfg k p) :
    ∃ env, s.process.free cfg k p = (false, ⟨s.process.heaps, env⟩) ∧
      s.process.env.Wrote s.process.env.mem env :=
  h.placed.free_miss (misses_of_refused h hp)

private theorem not_live_of_refused {s : Session} (h : Inv cfg s) {k : Nat} {p : Addr}
    (hp : s.InFreeSlot cfg k p ∨ s.Outside cfg k p) : s.live k p = none := by
  rw [Option.eq_none_iff_forall_ne_some]
  intro sz hl
  obtain ⟨x, hk, -, rfl, hb, -⟩ := h.free_live hl
  have hmiss := misses_of_refused h hp x.id hk (h.placed.bit_active hb) x.index
    (Layout.contains_addr (h.placed.bit_slot hb))
  rw [show (⟨x.id, x.index⟩ : Slot) = x from rfl, hb] at hmiss
  cases hmiss

theorem Inv.next {s s' : Session} {a : Action} (h : Inv cfg s) (hok : s.ok cfg a)
    (hn : s.next cfg a = some s') : Inv cfg s' := by
  cases a with
  | malloc k sz sources randoms =>
    obtain ⟨⟨p, process⟩, hm, rfl⟩ := Option.map_eq_some_iff.mp hn
    obtain ⟨x, hk, hc, hp, hx⟩ := h.placed.malloc hok.1 hok.2 hm
    exact inv_malloc h hk hc hp hx
  | free k p =>
    cases hn
    rcases hok with hl | hp
    · obtain ⟨sz, hl⟩ := Option.isSome_iff_exists.mp hl
      obtain ⟨x, rfl, -, rfl, hb, process, hfree, hf⟩ := h.free_live hl
      rw [hfree]
      exact inv_free_hit h hb hf
    · obtain ⟨env, hfree, hw⟩ := h.free_refused hp
      rw [hfree]
      exact inv_free_miss h (not_live_of_refused h hp) hw

/-- Heap safety of one state. -/
structure Safe (cfg : HeapConfig) (s : Session) : Prop where
  /-- Live objects share no byte. -/
  apart : ∀ k p sz k' p' sz', s.live k p = some sz → s.live k' p' = some sz' → (k, p) ≠ (k', p') →
    Apart p (objectSize sz) p' (objectSize sz')
  /-- A live object lies inside one activated miniheap of its heap. -/
  inside : ∀ k p sz, s.live k p = some sz → ∃ (id : MiniId) (j : Nat), id.owner = k ∧
    s.process.Active cfg id ∧ j < (s.process.layout cfg id).count ∧
    (s.process.layout cfg id).base j ≤ p ∧
    p + objectSize sz ≤ (s.process.layout cfg id).base j + (s.process.layout cfg id).bytes
  aligned : ∀ k p sz, s.live k p = some sz → min (objectSize sz) cfg.pageSize ∣ p
  /-- `getSize` answers the smallest class size that holds the request. -/
  size : ∀ k p sz, s.live k p = some sz →
    IsLeast {n | n.isPowerOfTwo ∧ max sz alignment ≤ n} (s.process.getSize cfg k p).1
  /-- `free` of a live object returns true and releases that object only. -/
  frees : ∀ k p sz, s.live k p = some sz → ∃ x : Slot, x.id.owner = k ∧
    p = (s.process.layout cfg x.id).addr x.index ∧ s.process.bit x = true ∧
    (s.process.free cfg k p).1 = true ∧
    ∀ y, (s.process.free cfg k p).2.bit y = (s.process.bit y && decide (y ≠ x))
  /-- Any other `free` returns false and changes no bitmap and no counter. -/
  refuses : ∀ k p, s.InFreeSlot cfg k p ∨ s.Outside cfg k p →
    (s.process.free cfg k p).1 = false ∧ (s.process.free cfg k p).2.heaps = s.process.heaps

private theorem Inv.aligned {s : Session} (h : Inv cfg s) {x : Slot} (hb : s.process.bit x = true) :
    min (getClassSize x.id.cls) cfg.pageSize ∣ (s.process.layout cfg x.id).addr x.index := by
  have hbase := (h.placed.base x.id _ (h.placed.bit_active hb)
    (Layout.block_lt (h.placed.bit_slot hb))).2.1
  obtain ⟨n, hn⟩ := cfg.pageSize_powerOfTwo
  rw [Layout.addr]
  refine Nat.dvd_add (Dvd.dvd.trans ?_ hbase) (Dvd.dvd.mul_left ?_ _)
  · rcases Nat.le_total (getClassSize x.id.cls) cfg.pageSize with hle | hle
    · rw [Nat.min_eq_left hle]
      rw [getClassSize_eq, hn] at hle ⊢
      exact Nat.pow_dvd_pow 2 ((Nat.pow_le_pow_iff_right (by decide)).mp hle)
    · rw [Nat.min_eq_right hle]
  · show min (getClassSize x.id.cls) cfg.pageSize ∣ getClassSize x.id.cls
    rcases Nat.le_total (getClassSize x.id.cls) cfg.pageSize with hle | hle
    · rw [Nat.min_eq_left hle]
    · rw [Nat.min_eq_right hle]
      rw [getClassSize_eq, hn] at hle ⊢
      exact Nat.pow_dvd_pow 2 ((Nat.pow_le_pow_iff_right (by decide)).mp hle)

theorem Inv.safe {s : Session} (h : Inv cfg s) : Safe cfg s := by
  refine ⟨?_, ?_, ?_, ?_, ?_, ?_⟩
  · intro k p sz k' p' sz' hl hl' hne
    obtain ⟨x, rfl, hc, hb, rfl⟩ := h.live_slot k p sz hl
    obtain ⟨y, rfl, hc', hb', rfl⟩ := h.live_slot k' p' sz' hl'
    have hxy : (x.id, x.index) ≠ (y.id, y.index) := by
      intro he
      obtain ⟨hid, hindex⟩ := Prod.mk.inj he
      exact hne (by rw [hid, hindex])
    have hapart := h.placed.separate.slots_apart (h.placed.bit_active hb) (h.placed.bit_active hb')
      (h.placed.bit_slot hb) (h.placed.bit_slot hb') hxy
    have hsx : (s.process.layout cfg x.id).size = objectSize sz := congrArg getClassSize hc
    have hsy : (s.process.layout cfg y.id).size = objectSize sz' := congrArg getClassSize hc'
    rwa [hsx, hsy] at hapart
  · intro k p sz hl
    obtain ⟨x, rfl, hc, hb, rfl⟩ := h.live_slot k p sz hl
    have hend := (s.process.layout cfg x.id).slot_end_le x.index
    have hsx : (s.process.layout cfg x.id).size = objectSize sz := congrArg getClassSize hc
    refine ⟨x.id, _, rfl, h.placed.bit_active hb, Layout.block_lt (h.placed.bit_slot hb), ?_, ?_⟩
    · exact Nat.le_add_right _ _
    · rw [Layout.addr, Nat.add_assoc, ← hsx]
      exact Nat.add_le_add_left hend _
  · intro k p sz hl
    obtain ⟨x, rfl, hc, hb, rfl⟩ := h.live_slot k p sz hl
    rw [objectSize, ← hc]
    exact h.aligned hb
  · intro k p sz hl
    obtain ⟨x, rfl, hc, hb, rfl⟩ := h.live_slot k p sz hl
    have hsz := h.placed.getSize_slot (h.placed.bit_active hb)
      (Layout.contains_addr (h.placed.bit_slot hb)) (Or.inr rfl)
    rw [Process.spaceLeft, Nat.sub_self, Nat.sub_zero, hc] at hsz
    rw [hsz]
    exact objectSize_isLeast sz
  · intro k p sz hl
    obtain ⟨x, hk, -, hp, hb, process, hfree, hf⟩ := h.free_live hl
    exact ⟨x, hk, hp, hb, by rw [hfree], by rw [hfree]; exact hf.bit_eq⟩
  · intro k p hp
    obtain ⟨env, hfree, -⟩ := h.free_refused hp
    exact ⟨by rw [hfree], by rw [hfree]⟩

def initial (localRandom : Nat → BitVec 64) (random : Nat → Nat → Nat → BitVec 64)
    (mem : Addr → BitVec 8) (mapped : List (Addr × Nat)) : Session :=
  ⟨.initial localRandom random mem mapped, fun _ _ => none⟩

theorem inv_initial (localRandom : Nat → BitVec 64) (random : Nat → Nat → Nat → BitVec 64)
    (mem : Addr → BitVec 8) (mapped : List (Addr × Nat)) :
    Inv cfg (initial localRandom random mem mapped) := by
  refine ⟨placed_initial _ _ _ _, ?_, ?_⟩
  · intro k p sz hl
    cases hl
  · intro x hb
    have hplaced : Placed cfg (.initial localRandom random mem mapped) := placed_initial _ _ _ _
    exact absurd (hplaced.bit_active hb).2
      (Nat.not_lt_zero _)

/-- Every state that the program reaches is safe. -/
theorem reach_safe {localRandom : Nat → BitVec 64} {random : Nat → Nat → Nat → BitVec 64}
    {mem : Addr → BitVec 8} {mapped : List (Addr × Nat)} {s : Session}
    (h : Transition.Reach (next cfg) (ok cfg) (initial localRandom random mem mapped) s) :
    Safe cfg s :=
  (h.invariant (inv_initial _ _ _ _) fun _ _ _ hi hok hn => hi.next hok hn).safe

def blank : Session := initial (fun _ => 0) (fun _ _ _ => 0) (fun _ => 0) []

def slotReused : List Action :=
  [.malloc 0 100 [fun _ => 4096] [(0, 5)], .malloc 0 120 [] [(0, 5), (0, 9)], .free 0 4736,
    .malloc 0 100 [] [(0, 5)]]

private theorem guarded_slotReused : Transition.Guarded (next (.libdieharder false false))
    (ok (.libdieharder false false)) blank slotReused := by
  refine ⟨⟨by decide, fun _ => ⟨by decide, trivial⟩⟩, ?_⟩
  intro s hs
  refine ⟨⟨by decide, trivial⟩, ?_⟩
  intro t ht
  have hlive : ((next (.libdieharder false false) blank (.malloc 0 100 [fun _ => 4096] [(0, 5)])).bind fun s =>
      (next (.libdieharder false false) s (.malloc 0 120 [] [(0, 5), (0, 9)])).map fun t =>
        (t.live 0 4736).isSome) = some true := by
    decide
  rw [hs, Option.bind_some, ht] at hlive
  refine ⟨Or.inl (Option.some.inj hlive), ?_⟩
  intro u _
  exact ⟨⟨by decide, trivial⟩, fun _ _ => trivial⟩

theorem reach_safe_slotReused :
    let s := Transition.final (next (.libdieharder false false)) blank slotReused
    (Transition.run (next (.libdieharder false false)) blank slotReused).isSome ∧
      (s.live 0 4736 = some 100 ∧ s.live 0 5248 = some 120) ∧ Safe (.libdieharder false false) s := by
  have hrun : (Transition.run (next (.libdieharder false false)) blank slotReused).isSome := by decide
  exact ⟨hrun, by decide, reach_safe (Transition.reach_final guarded_slotReused hrun)⟩

end Session

end DieHard
