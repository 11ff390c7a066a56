import DieHard.Heap.FalseAlarm

/-!
# Free memory of DieHarder is zero

`free` overwrites the slot that it releases with zeros, and the pages that a miniheap maps are zero when
they are new. The program writes inside of its live objects only, so all free slots are zero at all
times, and `malloc` never hands out what an earlier object has left behind.
-/

namespace DieHard

open Blocks Transition

variable {cfg : HeapConfig}

/-- `n` bytes of zeros. -/
def ZeroAt (mem : Addr → BitVec 8) (p n : Nat) : Prop := ∀ o : Nat, o < n → mem (p + o) = 0

section ZeroAt

variable {mem : Addr → BitVec 8} {p n : Nat}

theorem zeroAt_memsetZero (mem : Addr → BitVec 8) (p n : Nat) : ZeroAt (memsetZero mem p n) p n := by
  intro o ho
  rw [memsetZero, if_pos ⟨Nat.le_add_right p o, Nat.add_lt_add_left ho p⟩]

theorem ZeroAt.memsetZero (h : ZeroAt mem p n) (q m : Nat) : ZeroAt (memsetZero mem q m) p n := by
  intro o ho
  rw [DieHard.memsetZero, h o ho, ite_self]

theorem ZeroAt.update (h : ZeroAt mem p n) {a : Nat} (ha : a < p ∨ p + n ≤ a) (b : BitVec 8) :
    ZeroAt (Function.update mem a b) p n := by
  intro o ho
  have hne : p + o ≠ a := by omega
  exact (Function.update_of_ne hne _ _).trans (h o ho)

theorem ZeroAt.part (h : ZeroAt mem p n) {d m : Nat} (hle : d + m ≤ n) : ZeroAt mem (p + d) m := by
  intro o ho
  rw [Nat.add_assoc]
  exact h _ (by omega)

end ZeroAt

def Process.Zeroed (cfg : HeapConfig) (s : Process) : Prop :=
  ∀ x : Slot, s.Active cfg x.id → x.index < cfg.nObjects x.id → s.bit x = false →
    ZeroAt s.env.mem ((s.layout cfg x.id).addr x.index) (getClassSize x.id.cls)

def Env.ZeroSource (cfg : HeapConfig) (id : MiniId) (source : Nat → Addr) (env : Env) : Prop :=
  ∀ j < (cfg.sourceLayout id source).count,
    ZeroAt env.mem ((cfg.sourceLayout id source).base j) (cfg.sourceLayout id source).bytes

/-- Every block that the source hands out while the loop of `growHeapIfNeeded` turns is zero. -/
def SourcesZero (cfg : HeapConfig) (k cls : Nat) : List (Nat → Addr) → RandomHeap → Env → Prop
  | [], _, _ => True
  | source :: sources, h, env => h.needsGrowth cfg = true →
    env.ZeroSource cfg ⟨k, cls, h.miniHeapsInUse⟩ source ∧
      SourcesZero cfg k cls sources (RandomHeap.getAnotherMiniHeap cfg k cls source h env).1
        (RandomHeap.getAnotherMiniHeap cfg k cls source h env).2

theorem activate_mem (hd : cfg.dieHarderOn = true) (id : MiniId) (source : Nat → Addr) (m : MiniHeap)
    (env : Env) : (RandomMiniHeap.activate cfg id source m env).2.mem = env.mem := by
  rw [RandomMiniHeap.activate, if_pos hd, RandomMiniHeapDieHarder.activate]
  split
  · rfl
  · exact (cfg.miniHeapType id).internalActivate_mem id source m env

section Growth

variable {s : Process} {k cls : Nat} {source : Nat → Addr}

theorem Process.Zeroed.grown (h : s.Zeroed cfg) (hc : cls < cfg.maxIndex)
    (hzero : s.env.ZeroSource cfg (Placed.nextId s k cls) source) {m : MiniHeap} {env : Env}
    (hact : Activation cfg (Placed.nextId s k cls) source s.env m env) (hmem : env.mem = s.env.mem) :
    (Placed.grownProcess s k cls m env cfg).Zeroed cfg := by
  intro x hxa hxlt hxb
  show ZeroAt env.mem _ _
  rw [hmem]
  rcases (Placed.active_grown s k cls m env hc x.id).mp hxa with hold | hnew
  · rw [Placed.layout_grown_of_active s k cls m env hold]
    apply h x hold hxlt
    have hne : x.id ≠ Placed.nextId s k cls := by
      intro he
      exact @Placed.next_not_active cfg s k cls (he ▸ hold)
    rwa [Process.bit, Placed.mini_grown, if_neg hne] at hxb
  · rw [hnew] at hxlt ⊢
    rw [Placed.layout_grown_next]
    -- the slot lies in one block of the source
    have hslot : x.index < (cfg.layout (Placed.nextId s k cls) m).slots :=
      hxlt.trans_le (HeapConfig.nObjects_le_slots _ _)
    have hblock := hzero _ (Layout.block_lt hslot)
    rw [← hact.base _ (Layout.block_lt hslot)] at hblock
    exact hblock.part ((cfg.layout (Placed.nextId s k cls) m).slot_end_le x.index)

theorem Process.Zeroed.getAnotherMiniHeap (h : s.Zeroed cfg) (hp : Placed cfg s)
    (hd : cfg.dieHarderOn = true) (hc : cls < cfg.maxIndex)
    (hfresh : s.env.Fresh cfg ⟨k, cls, (s.random k cls).miniHeapsInUse⟩ source)
    (hzero : s.env.ZeroSource cfg ⟨k, cls, (s.random k cls).miniHeapsInUse⟩ source) :
    (s.setRandom k cls
      (RandomHeap.getAnotherMiniHeap cfg k cls source (s.random k cls) s.env).1
      (RandomHeap.getAnotherMiniHeap cfg k cls source (s.random k cls) s.env).2).Zeroed cfg := by
  have hsame : (s.setRandom k cls (s.random k cls) s.env).Zeroed cfg := by
    rw [Process.random, Process.setRandom_self]
    exact h
  rw [RandomHeap.getAnotherMiniHeap]
  by_cases hneed : (s.random k cls).needsGrowth cfg = true
  · by_cases hlt : (s.random k cls).miniHeapsInUse < cfg.maxMiniHeaps
    · simp only [hneed, Bool.not_true, Bool.false_eq_true, if_false, if_pos hlt]
      have hm : (s.mini (Placed.nextId s k cls)).isHeapActivated = false := by
        rw [Bool.eq_false_iff]
        intro hact
        exact Placed.next_not_active s k cls ((hp.activated (Placed.nextId s k cls)).mp hact)
      have hact : Activation cfg (Placed.nextId s k cls) source s.env _ _ := activate_spec hfresh hm
      exact h.grown hc hzero hact (activate_mem hd _ _ _ _)
    · simp only [hneed, Bool.not_true, Bool.false_eq_true, if_false, if_neg hlt]
      exact hsame
  · simp only [hneed, Bool.not_false, if_true]
    exact hsame

/-- The loop of `growHeapIfNeeded` adds slots that are zero. -/
theorem Process.Zeroed.growHeapIfNeeded (h : s.Zeroed cfg) (hp : Placed cfg s)
    (hd : cfg.dieHarderOn = true) (hc : cls < cfg.maxIndex) {sources : List (Nat → Addr)}
    (hfresh : SourcesFresh cfg k cls sources (s.random k cls) s.env)
    (hzero : SourcesZero cfg k cls sources (s.random k cls) s.env) {r : RandomHeap} {env : Env}
    (hg : RandomHeap.growHeapIfNeeded cfg k cls sources (s.random k cls) s.env = some (r, env)) :
    (s.setRandom k cls r env).Zeroed cfg := by
  have hsame : (s.setRandom k cls (s.random k cls) s.env).Zeroed cfg := by
    rw [Process.random, Process.setRandom_self]
    exact h
  induction sources generalizing s with
  | nil =>
    rw [RandomHeap.growHeapIfNeeded] at hg
    split at hg
    · cases hg
    · cases hg
      exact hsame
  | cons source sources ih =>
    rw [RandomHeap.growHeapIfNeeded] at hg
    split at hg
    · rename_i hneed
      have hgrew := hp.getAnotherMiniHeap hc (hfresh hneed).1
      have hfirst := h.getAnotherMiniHeap hp hd hc (hfresh hneed).1 (hzero hneed).1
      have hrandom (r : RandomHeap) (env : Env) : (s.setRandom k cls r env).random k cls = r :=
        Process.setRandom_heaps_self s k cls r env
      have hnext := ih hfirst hgrew.placed (by rw [hrandom]; exact (hfresh hneed).2)
        (by rw [hrandom]; exact (hzero hneed).2) (by rwa [hrandom])
        (by rwa [hrandom, Process.setRandom_setRandom])
      rwa [Process.setRandom_setRandom] at hnext
    · cases hg
      exact hsame

end Growth

section Calls

variable {s s' : Process} {x : Slot}

theorem Process.Zeroed.took (h : s.Zeroed cfg) (ht : s.Took cfg x s') (hmem : s'.env.mem = s.env.mem) :
    s'.Zeroed cfg := by
  intro y hya hylt hyb
  have hbit := ht.bit_eq y
  rw [hyb, eq_comm, Bool.or_eq_false_iff] at hbit
  rw [ht.layout.layout_eq, hmem]
  exact h y ((ht.layout.active_iff y.id).mp hya) hylt hbit.1

theorem Process.Zeroed.malloc (h : s.Zeroed cfg) (hp : Placed cfg s) (hd : cfg.dieHarderOn = true)
    (hf : cfg.dieFastOn = false) {k sz : Nat} (hsz : sz ≤ cfg.maxSize) {sources : List (Nat → Addr)}
    {randoms : List (Nat × Nat)} {p : Addr}
    (hfresh : SourcesFresh cfg k (requestClass sz) sources (s.random k (requestClass sz)) s.env)
    (hzero : SourcesZero cfg k (requestClass sz) sources (s.random k (requestClass sz)) s.env)
    (hm : s.malloc cfg k sz sources randoms = some (p, s')) :
    s'.Zeroed cfg ∧ ZeroAt s'.env.mem p (objectSize sz) := by
  have hc := requestClass_lt hsz
  obtain ⟨x, r, env, env', -, hxc, hx, hg, hgrew, hpos, hl, ht, henv⟩ := hp.malloc_parts hsz hfresh hm
  have hgrown := h.growHeapIfNeeded hp hd hc hfresh hzero hg
  have hrandom : (s.setRandom k (requestClass sz) r env).random k (requestClass sz) = r :=
    Process.setRandom_heaps_self s k _ r env
  obtain ⟨-, -, -, -, -, -, -, -, hw⟩ := hgrew.placed.getObjectLoop hc (k := k)
    (by rwa [hrandom]) (by rw [hrandom]; exact hl)
  have hmem : s'.env.mem = env.mem := by
    rw [henv, Process.mallocFill, hf]
    exact hw.mem_eq
  refine ⟨hgrown.took ht hmem, ?_⟩
  have hslot := hgrown x ht.active ht.index_lt ht.clear
  rwa [← ht.layout.layout_eq, ← hx, hxc, Process.setRandom_env, ← hmem] at hslot

theorem Process.Zeroed.freed (h : s.Zeroed cfg) (hd : cfg.dieHarderOn = true)
    (hfreed : s.Freed cfg x ((s.layout cfg x.id).addr x.index) s') : s'.Zeroed cfg := by
  intro y hya hylt hyb
  have hbit := hfreed.bit_eq y
  rw [hyb, eq_comm, Bool.and_eq_false_iff, decide_eq_false_iff_not, not_not] at hbit
  rw [hfreed.layout.layout_eq, hfreed.mem, RandomMiniHeap.trash, if_pos hd]
  rcases hbit with hfree | rfl
  · exact (h y ((hfreed.layout.active_iff y.id).mp hya) hylt hfree).memsetZero _ _
  · exact zeroAt_memsetZero _ _ _

end Calls

namespace Session

/-- The source of memory answers with fresh pages, which are zero; the program writes inside of live
objects, frees live objects and perhaps frees a slot again that is free already. -/
def scrubbed (cfg : HeapConfig) (s : Session) : ProgramAction → Prop
  | .malloc k sz sources _ => sz ≤ cfg.maxSize →
    SourcesFresh cfg k (requestClass sz) sources (s.process.random k (requestClass sz)) s.process.env ∧
      SourcesZero cfg k (requestClass sz) sources (s.process.random k (requestClass sz)) s.process.env
  | .free k p => (s.live k p).isSome ∨ s.InFreeSlot cfg k p
  | .write a _ => ∃ k p sz, s.live k p = some sz ∧ p ≤ a ∧ a < p + objectSize sz

structure Clean (cfg : HeapConfig) (s : Session) : Prop where
  inv : Inv cfg s
  zeroed : s.process.Zeroed cfg

variable {s s' : Session}

theorem clean_malloc (hd : cfg.dieHarderOn = true) (hf : cfg.dieFastOn = false) (h : Clean cfg s)
    {k sz : Nat} {sources : List (Nat → Addr)} {randoms : List (Nat × Nat)}
    (hok : s.scrubbed cfg (.malloc k sz sources randoms))
    (hn : s.step cfg (.malloc k sz sources randoms) = some s') : Clean cfg s' := by
  obtain ⟨hinv, ⟨hsz, p, hm⟩ | rfl⟩ := h.inv.step_malloc (fun hsz => (hok hsz).1) hn
  · obtain ⟨hfresh, hzero⟩ := hok hsz
    exact ⟨hinv, (h.zeroed.malloc h.inv.placed hd hf hsz hfresh hzero hm).1⟩
  · exact h

theorem clean_free (hd : cfg.dieHarderOn = true) (h : Clean cfg s) {k : Nat} {p : Addr}
    (hok : s.scrubbed cfg (.free k p)) :
    Clean cfg (s.record (s.process.free cfg k p).2 k p none) := by
  refine ⟨h.inv.next (a := .free _ _) (hok.imp_right Or.inl) rfl, ?_⟩
  rcases hok with hlive | hfree
  · obtain ⟨sz, hl⟩ := Option.isSome_iff_exists.mp hlive
    obtain ⟨x, rfl, -, rfl, -, process, hfree, hfreed⟩ := h.inv.free_live hl
    rw [hfree]
    exact h.zeroed.freed hd hfreed
  · obtain ⟨env, hrefused, hw⟩ := h.inv.free_refused (Or.inl hfree)
    rw [hrefused]
    intro x hxa hxlt hxb
    show ZeroAt env.mem _ _
    rw [hw.mem_eq]
    exact h.zeroed x hxa hxlt hxb

theorem clean_write (h : Clean cfg s) {a : Nat} {b : BitVec 8} (hok : s.scrubbed cfg (.write a b))
    (hn : s.step cfg (.write a b) = some s') : Clean cfg s' := by
  have hinv := h.inv.step_write hn
  cases hn
  obtain ⟨k, p, sz, hl, hle, hlt⟩ := hok
  obtain ⟨x, -, hc, hb, rfl⟩ := h.inv.live_slot k p sz hl
  have hplaced := h.inv.placed
  refine ⟨hinv, ?_⟩
  intro y hya hylt hyb
  apply (h.zeroed y hya hylt hyb).update
  have hyx : y ≠ x := by
    rintro rfl
    exact Bool.false_ne_true (hyb.symm.trans hb)
  have hapart := hplaced.slots_apart hya (hplaced.bit_active hb) hylt (hplaced.bits _ _ hb).2 hyx
  have hsize : getClassSize x.id.cls = objectSize sz := congrArg getClassSize hc
  rw [hsize] at hapart
  have hale : (s.process.layout cfg x.id).addr x.index ≤ a := hle
  have halt : a < (s.process.layout cfg x.id).addr x.index + objectSize sz := hlt
  show a < (s.process.layout cfg y.id).addr y.index ∨
    (s.process.layout cfg y.id).addr y.index + getClassSize y.id.cls ≤ a
  simp only [Apart] at hapart
  omega

theorem Clean.step (hd : cfg.dieHarderOn = true) (hf : cfg.dieFastOn = false) (h : Clean cfg s)
    {a : ProgramAction} (hok : s.scrubbed cfg a) (hn : s.step cfg a = some s') : Clean cfg s' := by
  cases a with
  | malloc k sz sources randoms => exact clean_malloc hd hf h hok hn
  | free k p =>
    cases hn
    exact clean_free hd h hok
  | write a b => exact clean_write h hok hn

/-- No slot gives away what was stored in it before. -/
structure NoOldData (cfg : HeapConfig) (s : Session) : Prop where
  free : ∀ x : Slot, s.process.Active cfg x.id → x.index < cfg.nObjects x.id → s.process.bit x = false →
    ZeroAt s.process.env.mem ((s.process.layout cfg x.id).addr x.index) (getClassSize x.id.cls)
  malloc : ∀ k sz sources randoms p process, s.scrubbed cfg (.malloc k sz sources randoms) →
    s.process.malloc cfg k sz sources randoms = some (p, process) → p ≠ 0 →
    ZeroAt process.env.mem p (objectSize sz)

theorem Clean.noOldData (hd : cfg.dieHarderOn = true) (hf : cfg.dieFastOn = false) (h : Clean cfg s) :
    NoOldData cfg s := by
  refine ⟨h.zeroed, ?_⟩
  intro k sz sources randoms p process hok hm hne
  by_cases hsz : sz ≤ cfg.maxSize
  · obtain ⟨hfresh, hzero⟩ := hok hsz
    exact (h.zeroed.malloc h.inv.placed hd hf hsz hfresh hzero hm).2
  · exact absurd (malloc_too_large hsz hm).1 hne

/-- In every run of the program the free slots are zero, and so is every object that `malloc`
returns. -/
theorem reach_noOldData (hd : cfg.dieHarderOn = true) (hf : cfg.dieFastOn = false)
    {localRandom : Nat → BitVec 64} {random : Nat → Nat → Nat → BitVec 64} {mem : Addr → BitVec 8}
    {mapped : List (Addr × Nat)}
    (hr : Reach (step cfg) (scrubbed cfg) (initial localRandom random mem mapped) s) :
    NoOldData cfg s := by
  have hclean : Clean cfg s := by
    apply hr.invariant (I := Clean cfg)
    · refine ⟨inv_initial _ _ _ _, ?_⟩
      intro x ha
      exact absurd ha.2 (Nat.not_lt_zero _)
    · intro r a r' hr hok hn
      exact hr.step hd hf hok hn
  exact hclean.noOldData hd hf

/-- With the parameters of `libdieharder.cpp`, the program writes to the object of `largestMalloc` and
frees it twice. -/
def largestMapped : Session := final (step (.libdieharder false true)) blank [largestMalloc]

def largestWritten : Session := final (step (.libdieharder false true)) largestMapped [.write 0x100005 7]

def largestFreed : Session := final (step (.libdieharder false true)) largestWritten [.free 0 0x100000]

def largestFreedTwice : Session := final (step (.libdieharder false true)) largestFreed [.free 0 0x100000]

theorem mapped_request : blank.process.env.Fresh (.libdieharder false true) ⟨0, requestClass 1048576,
    (blank.process.random 0 (requestClass 1048576)).miniHeapsInUse⟩ (fun _ => 0x100000) ∧
    0x100005 < 0x100000 + objectSize 1048576 := by decide +kernel

theorem largest_runs : (run (step (.libdieharder false true)) blank [largestMalloc]).isSome = true ∧
    (run (step (.libdieharder false true)) largestMapped [.write 0x100005 7]).isSome = true ∧
    (run (step (.libdieharder false true)) largestWritten [.free 0 0x100000]).isSome = true ∧
    (run (step (.libdieharder false true)) largestFreed [.free 0 0x100000]).isSome = true := by
  decide +kernel

theorem largest_ledger : largestMapped.live 0 0x100000 = some 1048576 ∧
    (largestWritten.live 0 0x100000).isSome = true ∧
    largestFreed.process.Active (.libdieharder false true) ⟨0, 16, 0⟩ ∧
    (largestFreed.process.layout (.libdieharder false true) ⟨0, 16, 0⟩).Contains 0 0x100000 ∧
    largestFreed.live 0 ((largestFreed.process.layout (.libdieharder false true) ⟨0, 16, 0⟩).addr 0) =
      none := by decide +kernel

theorem noOldData_largest : NoOldData (.libdieharder false true) largestFreedTwice := by
  obtain ⟨hfirst, hsecond, hthird, hfourth⟩ := largest_runs
  obtain ⟨hlive, hlive', hactive, hcontains, hnone⟩ := largest_ledger
  have hmalloc : blank.scrubbed (.libdieharder false true) largestMalloc :=
    fun _ => ⟨fun _ => ⟨mapped_request.1, trivial⟩, fun _ => ⟨fun _ _ _ _ => rfl, trivial⟩⟩
  have hwrite : largestMapped.scrubbed (.libdieharder false true) (.write 0x100005 7) :=
    ⟨0, 0x100000, 1048576, hlive, by decide, mapped_request.2⟩
  have hfree : largestWritten.scrubbed (.libdieharder false true) (.free 0 0x100000) := Or.inl hlive'
  have hagain : largestFreed.scrubbed (.libdieharder false true) (.free 0 0x100000) :=
    Or.inr ⟨⟨⟨0, 16, 0⟩, 0⟩, rfl, hactive, hcontains, hnone⟩
  exact @reach_noOldData (.libdieharder false true) _ rfl rfl _ _ _ _
    ((((Reach.refl.step hmalloc (step_of_run hfirst)).step hwrite (step_of_run hsecond)).step hfree
      (step_of_run hthird)).step hagain (step_of_run hfourth))

end Session

end DieHard
