import DieHard.Heap.Safety

/-!
# DieFast

With DieFast on, free slots hold the freed value of their miniheap in every word. `malloc` looks at the
slot that it takes, and `malloc` and `free` look at the free ones among its two neighbours. A correct
program is accused only when `free` looks at the slot that it has just released.
-/

namespace DieHard

open Blocks

theorem loadWord_eq {mem : Addr → BitVec 8} {p : Nat} {val : BitVec 64}
    (h : ∀ k : Nat, k < 8 → mem (p + k) = byteOf val k) : loadWord mem p = val := by
  have h0 : mem p = byteOf val 0 := h 0 (by decide)
  rw [loadWord, h 7 (by decide), h 6 (by decide), h 5 (by decide), h 4 (by decide), h 3 (by decide),
    h 2 (by decide), h 1 (by decide), h0]
  apply BitVec.eq_of_getLsbD_eq
  intro i hi
  simp only [byteOf, BitVec.getLsbD_append, BitVec.getLsbD_setWidth, BitVec.getLsbD_ushiftRight]
  interval_cases i <;> rfl

namespace DieFast

/-- The bytes of the buffer are those of `val` over and over. -/
def Full (mem : Addr → BitVec 8) (ptr sz : Nat) (val : BitVec 64) : Prop :=
  ∀ o : Nat, o < sz → mem (ptr + o) = byteOf val (o % 8)

variable {mem : Addr → BitVec 8} {ptr sz ptr' sz' : Nat} {val val' : BitVec 64}

theorem Full.checkNot (h : Full mem ptr sz val) : checkNot mem ptr sz val = false := by
  rw [DieFast.checkNot, List.any_eq_false]
  intro i hi
  have hlt := List.mem_range.mp hi
  have hle := words_le sz
  have hword : loadWord mem (ptr + 8 * i) = val := by
    apply loadWord_eq
    intro k hk
    rw [Nat.add_assoc, h _ (by omega), Nat.mul_add_mod, Nat.mod_eq_of_lt hk]
  simp [hword]

theorem full_fill (hdvd : 8 ∣ sz) (hlt : sz / 8 < 2 ^ 31) : Full (fill mem ptr sz val) ptr sz val := by
  intro o ho
  have hin : ptr ≤ ptr + o ∧ ptr + o < ptr + sz / 8 * 8 := by omega
  rw [fill, words_eq hlt, if_pos hin, Nat.add_sub_cancel_left]

theorem fill_of_apart {a : Nat} (h : a < ptr ∨ ptr + sz ≤ a) : fill mem ptr sz val a = mem a := by
  have hle := words_le sz
  have hout : ¬ (ptr ≤ a ∧ a < ptr + words sz * 8) := by omega
  rw [fill, if_neg hout]

theorem Full.fill_apart (h : Full mem ptr sz val) (ha : Apart ptr sz ptr' sz') :
    Full (fill mem ptr' sz' val') ptr sz val := by
  intro o ho
  rw [fill_of_apart, h o ho]
  simp only [Apart] at ha
  omega

theorem Full.part (h : Full mem ptr sz val) {d : Nat} (hdvd : 8 ∣ d) (hle : d + sz' ≤ sz) :
    Full mem (ptr + d) sz' val := by
  intro o ho
  rw [Nat.add_assoc, h _ (by omega)]
  congr 1
  omega

end DieFast

variable {cfg : HeapConfig}

/-- The indices that `checkOverflowError` computes for its two neighbours. -/
def leftIndex (cfg : HeapConfig) (id : MiniId) (index : Nat) : Nat :=
  (index + 2 ^ 32 - 1) % 2 ^ 32 % cfg.nObjects id

def rightIndex (cfg : HeapConfig) (id : MiniId) (index : Nat) : Nat :=
  (index + 1) % 2 ^ 32 % cfg.nObjects id

def Slot.OwnNeighbour (cfg : HeapConfig) (x : Slot) : Prop :=
  leftIndex cfg x.id x.index = x.index ∨ rightIndex cfg x.id x.index = x.index

namespace RandomMiniHeapCore

variable {id : MiniId} {m : MiniHeap} {env : Env}

theorem reportIfOverflowed_of_full {p : Nat}
    (h : DieFast.Full env.mem p (getClassSize id.cls) m.freedValue) :
    reportIfOverflowed id m env p = env := by
  rw [reportIfOverflowed, h.checkNot]
  rfl

def Intact (cfg : HeapConfig) (id : MiniId) (m : MiniHeap) (env : Env) (index : Nat) : Prop :=
  m.miniHeapBitmap.isSet index = true ∨
    DieFast.Full env.mem (RandomMiniHeap.getObject cfg id m index) (getClassSize id.cls) m.freedValue

/-- Half of `checkOverflowError`. -/
def checkNeighbour (cfg : HeapConfig) (id : MiniId) (m : MiniHeap) (n : Nat) (env : Env) : Env :=
  if m.miniHeapBitmap.isSet n then env
  else reportIfOverflowed id m env (RandomMiniHeap.getObject cfg id m n)

theorem checkOverflowError_eq (cfg : HeapConfig) (id : MiniId) (m : MiniHeap) (index : Nat) (env : Env) :
    checkOverflowError cfg id m index env = checkNeighbour cfg id m (rightIndex cfg id index)
      (checkNeighbour cfg id m (leftIndex cfg id index) env) := rfl

theorem checkNeighbour_of_intact {n : Nat} (h : Intact cfg id m env n) :
    checkNeighbour cfg id m n env = env := by
  rw [checkNeighbour]
  rcases h with hset | hfull
  · rw [if_pos hset]
  · rw [reportIfOverflowed_of_full hfull, ite_self]

theorem checkOverflowError_of_intact {index : Nat}
    (hl : Intact cfg id m env (leftIndex cfg id index))
    (hr : Intact cfg id m env (rightIndex cfg id index)) :
    checkOverflowError cfg id m index env = env := by
  rw [checkOverflowError_eq, checkNeighbour_of_intact hl, checkNeighbour_of_intact hr]

theorem mem_checkNeighbour (cfg : HeapConfig) (id : MiniId) (m : MiniHeap) (n : Nat) (env : Env) :
    (checkNeighbour cfg id m n env).mem = env.mem := by
  rw [checkNeighbour]
  split
  · rfl
  · rw [reportIfOverflowed]
    split <;> rfl

theorem reports_ne_nil {index : Nat}
    (hclear : m.miniHeapBitmap.isSet (rightIndex cfg id index) = false)
    (hcheck : DieFast.checkNot env.mem (RandomMiniHeap.getObject cfg id m (rightIndex cfg id index))
      (getClassSize id.cls) m.freedValue = true) :
    (checkOverflowError cfg id m index env).reports ≠ [] := by
  rw [← mem_checkNeighbour cfg id m (leftIndex cfg id index) env] at hcheck
  rw [checkOverflowError_eq, checkNeighbour, hclear, if_neg Bool.false_ne_true, reportIfOverflowed,
    if_pos hcheck, Env.report]
  simp

end RandomMiniHeapCore

/-- Every free slot of an active miniheap holds the freed value. -/
def Process.Filled (cfg : HeapConfig) (s : Process) : Prop :=
  ∀ x : Slot, s.Active cfg x.id → x.index < cfg.nObjects x.id → s.bit x = false →
    DieFast.Full s.env.mem ((s.layout cfg x.id).addr x.index) (getClassSize x.id.cls)
      (s.mini x.id).freedValue

theorem Placed.getClassSize_lt {s : Process} (hp : Placed cfg s) {id : MiniId}
    (ha : s.Active cfg id) : getClassSize id.cls / 8 < 2 ^ 31 := by
  have hle := (hp.counters id.owner id.cls).miniHeaps_le
  have hpos := ha.2
  have hcls := ha.1
  have hsize : getClassSize id.cls ≤ 2 ^ 31 := by
    rw [getClassSize_eq]
    apply Nat.pow_le_pow_right (by decide)
    simp only [HeapConfig.maxIndex, HeapConfig.maxMiniHeaps, staticlog_alignment] at hcls hle
    omega
  omega

theorem dvd_getClassSize (cls : Nat) : 8 ∣ getClassSize cls := by
  rw [getClassSize_eq]
  exact pow_dvd_pow 2 (show 3 ≤ cls + 4 by omega)

section Free

variable {s : Process} {x : Slot}

theorem Process.Filled.intact (h : s.Filled cfg) (hp : Placed cfg s) (ha : s.Active cfg x.id)
    {b : BitMap} {index : Nat} (hlt : index < cfg.nObjects x.id)
    (hbit : b.isSet index = false → s.bit ⟨x.id, index⟩ = false) :
    RandomMiniHeapCore.Intact cfg x.id { s.mini x.id with miniHeapBitmap := b } s.env index := by
  cases hset : b.isSet index with
  | true => exact Or.inl hset
  | false =>
    right
    have hfull := h ⟨x.id, index⟩ ha hlt (hbit hset)
    rw [← hp.getObject_eq ha (hlt.trans_le (HeapConfig.nObjects_le_slots _ _))] at hfull
    exact hfull

theorem leftIndex_lt (cfg : HeapConfig) (id : MiniId) (index : Nat) :
    leftIndex cfg id index < cfg.nObjects id := Nat.mod_lt _ (cfg.nObjects_pos id)

theorem rightIndex_lt (cfg : HeapConfig) (id : MiniId) (index : Nat) :
    rightIndex cfg id index < cfg.nObjects id := Nat.mod_lt _ (cfg.nObjects_pos id)

theorem Placed.freedEnv_reports (hp : Placed cfg s) (hf : cfg.dieFastOn = true) (hb : s.bit x = true)
    {p : Nat} (hx : (s.layout cfg x.id).Contains x.index p) :
    (s.freedEnv cfg x p).reports = (RandomMiniHeapCore.checkOverflowError cfg x.id { s.mini x.id with
      miniHeapBitmap := ((s.mini x.id).miniHeapBitmap.reset x.index).1 } x.index s.env).reports := by
  have ha := hp.bit_active hb
  have hin := (hp.inBounds_iff ha).mpr ⟨_, hx.inBlock⟩
  have hidx := (hp.computeIndex_eq ha hx.inBlock).trans hx.index_eq
  have hset : (s.mini x.id).miniHeapBitmap.isSet x.index = true := hb
  have hcore : RandomMiniHeapCore.free cfg x.id p (s.mini x.id) s.env =
      (true, { s.mini x.id with miniHeapBitmap := ((s.mini x.id).miniHeapBitmap.reset x.index).1 },
        RandomMiniHeapCore.checkOverflowError cfg x.id { s.mini x.id with
          miniHeapBitmap := ((s.mini x.id).miniHeapBitmap.reset x.index).1 } x.index s.env) := by
    simp only [RandomMiniHeapCore.free, hin, Bool.not_true, Bool.false_eq_true, if_false, hidx,
      BitMap.reset_snd, hset, Bool.true_or, if_true, hf]
  rw [Process.freedEnv, RandomMiniHeap.free, hcore]
  rfl

theorem Process.Filled.freedEnv_reports (h : s.Filled cfg) (hp : Placed cfg s)
    (hf : cfg.dieFastOn = true) (hb : s.bit x = true) (hown : ¬ x.OwnNeighbour cfg) {p : Nat}
    (hx : (s.layout cfg x.id).Contains x.index p) : (s.freedEnv cfg x p).reports = s.env.reports := by
  have ha := hp.bit_active hb
  -- the bit of a neighbour is as it was
  have hbit (n : Nat) (hn : n ≠ x.index)
      (hclear : ((s.mini x.id).miniHeapBitmap.reset x.index).1.isSet n = false) :
      s.bit ⟨x.id, n⟩ = false := by
    have hsame : (s.mini x.id).miniHeapBitmap.isSet n = false := by
      simpa [BitMap.isSet_reset, hn] using hclear
    exact hsame
  rw [hp.freedEnv_reports hf hb hx]
  exact congrArg Env.reports (RandomMiniHeapCore.checkOverflowError_of_intact
    (h.intact hp ha (leftIndex_lt cfg x.id x.index) (hbit _ fun he => hown (Or.inl he)))
    (h.intact hp ha (rightIndex_lt cfg x.id x.index) (hbit _ fun he => hown (Or.inr he))))

theorem Process.Filled.freed (h : s.Filled cfg) (hp : Placed cfg s) (hd : cfg.dieHarderOn = false)
    (hf : cfg.dieFastOn = true) (hb : s.bit x = true) {s' : Process}
    (hfreed : s.Freed cfg x ((s.layout cfg x.id).addr x.index) s') : s'.Filled cfg := by
  have hmem : s'.env.mem = DieFast.fill s.env.mem ((s.layout cfg x.id).addr x.index)
      (getClassSize x.id.cls) (s.mini x.id).freedValue := by
    rw [hfreed.mem, RandomMiniHeap.trash, hd, hf]
    rfl
  intro y hya hylt hyb
  have hya := (hfreed.layout.active_iff y.id).mp hya
  have hvalue : (s'.mini y.id).freedValue = (s.mini y.id).freedValue :=
    (hfreed.layout.heaps y.id.owner y.id.cls).freedValue y.id.index
  rw [hfreed.layout.layout_eq, hvalue, hmem]
  by_cases hyx : y = x
  · subst hyx
    exact DieFast.full_fill (dvd_getClassSize _) (hp.getClassSize_lt hya)
  · have hyb : s.bit y = false := by
      have hbit := hfreed.bit_eq y
      rw [hyb] at hbit
      simpa [hyx] using hbit.symm
    apply (h y hya hylt hyb).fill_apart
    exact hp.slots_apart hya (hp.bit_active hb) hylt (hp.bits _ _ hb).2 hyx

end Free

section Malloc

variable {s : Process} {k cls : Nat}

/-- The fill of a miniheap that growth activates covers all of its words. -/
def RandomHeap.FillsWhole (cfg : HeapConfig) (k cls : Nat) (h : RandomHeap) : Prop :=
  ∀ i, h.miniHeapsInUse ≤ i →
    (if i = 0 then 0 else cfg.minObjects cls * 2 ^ (i - 1)) * cfg.denominator ≤ cfg.numerator * h.inUse →
    cfg.nObjects ⟨k, cls, i⟩ * getClassSize cls / 8 < 2 ^ 31

theorem activate_eq (hd : cfg.dieHarderOn = false) (hf : cfg.dieFastOn = true) {id : MiniId}
    {source : Nat → Addr} {m : MiniHeap} {env : Env} (hfresh : env.Fresh cfg id source)
    (hm : m.isHeapActivated = false) :
    RandomMiniHeap.activate cfg id source m env =
      ({ m with
          miniHeap := source 0
          miniHeapBitmap := BitMap.reserve (cfg.nObjects id)
          isHeapActivated := true },
        { env.map (source 0) (cfg.nObjects id * getClassSize id.cls) with
          mem := DieFast.fill env.mem (source 0) (cfg.nObjects id * getClassSize id.cls) m.freedValue }) := by
  have hcount : (cfg.sourceLayout id source).count = 1 := by
    simp [HeapConfig.sourceLayout, HeapConfig.layout, hd]
  have hne : source 0 ≠ 0 := by
    have h0 := (hfresh.1 0 (by omega)).1
    simpa [HeapConfig.sourceLayout, HeapConfig.layout, hd] using h0
  simp only [RandomMiniHeap.activate, hd, Bool.false_eq_true, if_false, RandomMiniHeapDieHard.activate,
    hm, if_neg hne, hf, if_true]
  rfl

theorem addr_apart_of_block {L : Layout} {i b n : Nat} (h : Apart (L.base (i / L.per)) L.bytes b n) :
    Apart (L.addr i) L.size b n := by
  have hend := L.slot_end_le i
  simp only [Apart, Layout.addr] at h ⊢
  omega

/-- The block of the next miniheap is apart from the slots of the old ones. -/
theorem Placed.slot_apart_next (hd : cfg.dieHarderOn = false) (hc : cls < cfg.maxIndex) {m : MiniHeap}
    {env : Env} (base : Nat) (hplaced : Placed cfg (Placed.grownProcess s k cls m env cfg))
    (hbase : m.miniHeap = base) {x : Slot} (ha : s.Active cfg x.id)
    (hlt : x.index < cfg.nObjects x.id) :
    Apart ((s.layout cfg x.id).addr x.index) (getClassSize x.id.cls) base
      (cfg.nObjects (Placed.nextId s k cls) * getClassSize cls) := by
  have hne : x.id ≠ Placed.nextId s k cls := by
    intro he
    exact @Placed.next_not_active cfg s k cls (he ▸ ha)
  have hblock := hplaced.separate x.id (Placed.nextId s k cls) (x.index / (s.layout cfg x.id).per) 0
    ((Placed.active_grown s k cls m env hc _).mpr (Or.inl ha))
    ((Placed.active_grown s k cls m env hc _).mpr (Or.inr rfl))
  rw [@Placed.layout_grown_next cfg s k cls m env, Placed.layout_grown_of_active s k cls m env ha]
    at hblock
  have hcount : (cfg.layout (Placed.nextId s k cls) m).count = 1 := by
    simp [HeapConfig.layout, hd]
  have hslot : x.index < (s.layout cfg x.id).slots := hlt.trans_le (HeapConfig.nObjects_le_slots _ _)
  have hapart := hblock (Layout.block_lt hslot) (by omega) fun he => hne (Prod.mk.inj he).1
  have hnewBase : (cfg.layout (Placed.nextId s k cls) m).base 0 = base := by
    simp [HeapConfig.layout, hd, hbase]
  have hnewBytes : (cfg.layout (Placed.nextId s k cls) m).bytes =
      cfg.nObjects (Placed.nextId s k cls) * getClassSize cls := by
    simp [HeapConfig.layout, Layout.bytes, hd, Placed.nextId]
  rw [hnewBase, hnewBytes] at hapart
  exact addr_apart_of_block hapart

/-- The next miniheap, activated on blocks of the source, is filled. -/
theorem Process.Filled.grown (h : s.Filled cfg) (hd : cfg.dieHarderOn = false)
    (hc : cls < cfg.maxIndex) {m : MiniHeap} {env : Env} (base : Nat)
    (hplaced : Placed cfg (Placed.grownProcess s k cls m env cfg))
    (hbase : m.miniHeap = base)
    (hmem : env.mem = DieFast.fill s.env.mem base
      (cfg.nObjects (Placed.nextId s k cls) * getClassSize cls) m.freedValue)
    (hlt : cfg.nObjects (Placed.nextId s k cls) * getClassSize cls / 8 < 2 ^ 31) :
    (Placed.grownProcess s k cls m env cfg).Filled cfg := by
  intro x hxa hxlt hxb
  show DieFast.Full env.mem _ _ _
  rw [hmem, Placed.mini_grown]
  rcases (Placed.active_grown s k cls m env hc x.id).mp hxa with hold | hnew
  · have hne : x.id ≠ Placed.nextId s k cls := by
      intro he
      exact @Placed.next_not_active cfg s k cls (he ▸ hold)
    rw [if_neg hne, Placed.layout_grown_of_active s k cls m env hold]
    have hxb : s.bit x = false := by
      rwa [Process.bit, Placed.mini_grown, if_neg hne] at hxb
    exact (h x hold hxlt hxb).fill_apart (Placed.slot_apart_next hd hc base hplaced hbase hold hxlt)
  · rw [hnew] at hxlt ⊢
    rw [if_pos rfl, Placed.layout_grown_next]
    have haddr : (cfg.layout (Placed.nextId s k cls) m).addr x.index =
        base + x.index * getClassSize cls := by
      simp only [Layout.addr, HeapConfig.layout, hd, Bool.false_eq_true, if_false, hbase]
      rw [Nat.mod_eq_of_lt hxlt]
      rfl
    rw [haddr]
    have hdvd := dvd_getClassSize cls
    apply (DieFast.full_fill (hdvd.mul_left _) hlt).part (hdvd.mul_left _)
    show x.index * getClassSize cls + getClassSize cls ≤ _
    rw [← Nat.succ_mul]
    exact Nat.mul_le_mul_right _ hxlt

/-- Growth fills what it adds, and reports nothing. -/
theorem Process.Filled.getAnotherMiniHeap (h : s.Filled cfg) (hp : Placed cfg s)
    (hd : cfg.dieHarderOn = false) (hf : cfg.dieFastOn = true) (hc : cls < cfg.maxIndex)
    (hneed : (s.random k cls).needsGrowth cfg = true) {source : Nat → Addr}
    (hfresh : s.env.Fresh cfg ⟨k, cls, (s.random k cls).miniHeapsInUse⟩ source)
    (hwhole : (s.random k cls).FillsWhole cfg k cls) :
    (s.setRandom k cls
      (RandomHeap.getAnotherMiniHeap cfg k cls source (s.random k cls) s.env).1
      (RandomHeap.getAnotherMiniHeap cfg k cls source (s.random k cls) s.env).2).Filled cfg ∧
    (RandomHeap.getAnotherMiniHeap cfg k cls source (s.random k cls) s.env).2.reports =
      s.env.reports ∧
    (RandomHeap.getAnotherMiniHeap cfg k cls source (s.random k cls) s.env).1.FillsWhole cfg k cls := by
  rw [RandomHeap.getAnotherMiniHeap]
  by_cases hlt : (s.random k cls).miniHeapsInUse < cfg.maxMiniHeaps
  · simp only [hneed, Bool.not_true, Bool.false_eq_true, if_false, if_pos hlt]
    have hm : ((s.random k cls).miniHeaps (s.random k cls).miniHeapsInUse).isHeapActivated = false := by
      rw [Bool.eq_false_iff]
      intro hact
      exact Placed.next_not_active s k cls ((hp.activated (Placed.nextId s k cls)).mp hact)
    have hact : Activation cfg (Placed.nextId s k cls) source s.env _ _ := activate_spec hfresh hm
    have hplaced := hp.placed_grown hc hlt hfresh hact
    have hactivate := activate_eq hd hf hfresh hm
    have hsmall : cfg.nObjects (Placed.nextId s k cls) * getClassSize cls / 8 < 2 ^ 31 := by
      apply hwhole _ (Nat.le_refl _)
      rw [RandomHeap.needsGrowth, decide_eq_true_eq] at hneed
      have havail := (hp.counters k cls).available_eq
      rw [← Process.random] at havail
      rwa [← havail]
    rw [Placed.nextId] at hplaced
    rw [hactivate] at hplaced ⊢
    refine ⟨h.grown hd hc _ hplaced rfl rfl hsmall, rfl, ?_⟩
    intro i hi hle
    exact hwhole i (Nat.le_of_succ_le hi) hle
  · simp only [hneed, Bool.not_true, Bool.false_eq_true, if_false, if_neg hlt]
    rw [Process.random, Process.setRandom_self]
    exact ⟨h, trivial, hwhole⟩

/-- The loop of `growHeapIfNeeded` fills what it adds, and reports nothing. -/
theorem Process.Filled.growHeapIfNeeded (h : s.Filled cfg) (hp : Placed cfg s)
    (hd : cfg.dieHarderOn = false) (hf : cfg.dieFastOn = true) (hc : cls < cfg.maxIndex)
    {sources : List (Nat → Addr)} (hfresh : SourcesFresh cfg k cls sources (s.random k cls) s.env)
    (hwhole : (s.random k cls).FillsWhole cfg k cls) {r : RandomHeap} {env : Env}
    (hg : RandomHeap.growHeapIfNeeded cfg k cls sources (s.random k cls) s.env = some (r, env)) :
    (s.setRandom k cls r env).Filled cfg ∧ env.reports = s.env.reports := by
  induction sources generalizing s with
  | nil =>
    rw [RandomHeap.growHeapIfNeeded] at hg
    split at hg
    · cases hg
    · cases hg
      rw [Process.random, Process.setRandom_self]
      exact ⟨h, rfl⟩
  | cons source sources ih =>
    rw [RandomHeap.growHeapIfNeeded] at hg
    split at hg
    · rename_i hneed
      obtain ⟨hfirst, hrest⟩ := hfresh hneed
      have hgrew := hp.getAnotherMiniHeap hc hfirst
      obtain ⟨hfilled, hreports, hwhole'⟩ := h.getAnotherMiniHeap hp hd hf hc hneed hfirst hwhole
      have hrandom (r : RandomHeap) (env : Env) : (s.setRandom k cls r env).random k cls = r :=
        Process.setRandom_heaps_self s k cls r env
      have hnext := ih hfilled hgrew.placed (by rwa [hrandom]) (by rwa [hrandom]) (by rwa [hrandom])
      rw [Process.setRandom_setRandom] at hnext
      exact ⟨hnext.1, hnext.2.trans hreports⟩
    · cases hg
      rw [Process.random, Process.setRandom_self]
      exact ⟨h, rfl⟩

/-- What the checks of `malloc` leave of the shared state when slot `x` is taken. -/
def Process.mallocChecks (cfg : HeapConfig) (s : Process) (x : Slot) : Env :=
  let m := { s.mini x.id with
    miniHeapBitmap := ((s.mini x.id).miniHeapBitmap.tryToSet x.index).1 }
  RandomMiniHeapCore.checkOverflowError cfg x.id m x.index
    (RandomMiniHeapCore.reportIfOverflowed x.id m s.env (RandomMiniHeap.getObject cfg x.id m x.index))

theorem Placed.getObject_checks (hf : cfg.dieFastOn = true) {random : Nat × Nat}
    (hb : s.bit (s.drawn cfg k cls random) = false) :
    (RandomHeap.getObject cfg k cls random (s.random k cls) s.env).2.2 =
      s.mallocChecks cfg (s.drawn cfg k cls random) := by
  have hclear : ((s.random k cls).miniHeaps
      ((s.random k cls).chosenMiniHeap random.1)).miniHeapBitmap.isSet
      (modulo (cfg.nObjects ⟨k, cls, (s.random k cls).chosenMiniHeap random.1⟩) random.2) = false := hb
  simp only [RandomHeap.getObject, RandomMiniHeapCore.malloc, BitMap.tryToSet_snd, hclear,
    Bool.not_false, Bool.not_true, Bool.false_eq_true, if_false, hf, if_true]
  rfl

theorem Placed.getObjectLoop_checks (hp : Placed cfg s) (hf : cfg.dieFastOn = true)
    (hc : cls < cfg.maxIndex) (hpos : 0 < (s.random k cls).miniHeapsInUse)
    {randoms : List (Nat × Nat)} {p : Addr} {r : RandomHeap} {env : Env}
    (hl : RandomHeap.getObjectLoop cfg k cls randoms (s.random k cls) s.env = some (p, r, env)) :
    ∃ x : Slot, s.Active cfg x.id ∧ x.index < cfg.nObjects x.id ∧ s.bit x = false ∧
      p = (s.layout cfg x.id).addr x.index ∧ env = s.mallocChecks cfg x := by
  induction randoms with
  | nil => cases hl
  | cons random randoms ih =>
    rw [RandomHeap.getObjectLoop] at hl
    cases hb : s.bit (s.drawn cfg k cls random) with
    | true =>
      simp only [Placed.getObject_taken hb, if_true] at hl
      exact ih hl
    | false =>
      obtain ⟨env', hget, -⟩ := hp.getObject_clear hc hpos hb
      have henv := Placed.getObject_checks hf hb
      have ha := hp.drawn_active random hc hpos
      have hlt := Placed.drawn_lt cfg s k cls random
      have hne := hp.addr_ne_zero ha (hlt.trans_le (HeapConfig.nObjects_le_slots _ _))
      rw [hget] at henv
      simp only [hget, if_neg hne, Option.some.injEq, Prod.mk.injEq] at hl
      exact ⟨_, ha, hlt, hb, hl.1.symm, hl.2.2.symm.trans henv⟩

theorem Process.Filled.mallocChecks (h : s.Filled cfg) (hp : Placed cfg s) {x : Slot}
    (ha : s.Active cfg x.id) (hlt : x.index < cfg.nObjects x.id) (hb : s.bit x = false) :
    s.mallocChecks cfg x = s.env := by
  have hfull := h _ ha hlt hb
  rw [← hp.getObject_eq ha (hlt.trans_le (HeapConfig.nObjects_le_slots _ _))] at hfull
  -- the bit of the slot is set when the neighbours are looked at
  have hbit (n : Nat) (hclear : ((s.mini x.id).miniHeapBitmap.tryToSet x.index).1.isSet n = false) :
      s.bit ⟨x.id, n⟩ = false := by
    rw [BitMap.isSet_tryToSet, Bool.or_eq_false_iff] at hclear
    exact hclear.1
  have hself : RandomMiniHeapCore.reportIfOverflowed x.id
      { s.mini x.id with miniHeapBitmap := ((s.mini x.id).miniHeapBitmap.tryToSet x.index).1 } s.env
      (RandomMiniHeap.getObject cfg x.id (s.mini x.id) x.index) = s.env :=
    RandomMiniHeapCore.reportIfOverflowed_of_full hfull
  exact (congrArg _ hself).trans (RandomMiniHeapCore.checkOverflowError_of_intact
    (h.intact hp ha (leftIndex_lt cfg _ x.index) (hbit _))
    (h.intact hp ha (rightIndex_lt cfg _ x.index) (hbit _)))

theorem Process.Filled.getObjectLoop_env (h : s.Filled cfg) (hp : Placed cfg s)
    (hf : cfg.dieFastOn = true) (hc : cls < cfg.maxIndex) (hpos : 0 < (s.random k cls).miniHeapsInUse)
    {randoms : List (Nat × Nat)} {p : Addr} {r : RandomHeap} {env : Env}
    (hl : RandomHeap.getObjectLoop cfg k cls randoms (s.random k cls) s.env = some (p, r, env)) :
    env = s.env := by
  obtain ⟨x, ha, hlt, hb, -, rfl⟩ := hp.getObjectLoop_checks hf hc hpos hl
  exact h.mallocChecks hp ha hlt hb

theorem Process.Filled.took (h : s.Filled cfg) (hp : Placed cfg s) {x : Slot} {s' : Process}
    (ht : s.Took cfg x s') (val : BitVec 64)
    (hmem : s'.env.mem = DieFast.fill s.env.mem ((s.layout cfg x.id).addr x.index)
      (getClassSize x.id.cls) val) : s'.Filled cfg := by
  intro y hya hylt hyb
  have hya := (ht.layout.active_iff y.id).mp hya
  have hvalue : (s'.mini y.id).freedValue = (s.mini y.id).freedValue :=
    (ht.layout.heaps y.id.owner y.id.cls).freedValue y.id.index
  have hbit := ht.bit_eq y
  rw [hyb, eq_comm, Bool.or_eq_false_iff, decide_eq_false_iff_not] at hbit
  rw [ht.layout.layout_eq, hvalue, hmem]
  apply (h y hya hylt hbit.1).fill_apart
  exact hp.slots_apart hya ht.active hylt ht.index_lt hbit.2

theorem Process.Filled.malloc (h : s.Filled cfg) (hp : Placed cfg s) (hd : cfg.dieHarderOn = false)
    (hf : cfg.dieFastOn = true) {sz : Nat} (hsz : sz ≤ cfg.maxSize) {sources : List (Nat → Addr)}
    {randoms : List (Nat × Nat)} {p : Addr} {s' : Process}
    (hfresh : SourcesFresh cfg k (requestClass sz) sources (s.random k (requestClass sz)) s.env)
    (hwhole : (s.random k (requestClass sz)).FillsWhole cfg k (requestClass sz))
    (hm : s.malloc cfg k sz sources randoms = some (p, s')) :
    s'.Filled cfg ∧ s'.env.reports = s.env.reports := by
  have hc := requestClass_lt hsz
  obtain ⟨x, r, env, env', -, hxc, hx, hg, hgrew, hpos, hl, ht, henv⟩ := hp.malloc_parts hsz hfresh hm
  obtain ⟨hfilled, hreports⟩ := h.growHeapIfNeeded hp hd hf hc hfresh hwhole hg
  have hrandom : (s.setRandom k (requestClass sz) r env).random k (requestClass sz) = r :=
    Process.setRandom_heaps_self s k _ r env
  obtain rfl : env' = env := by
    apply hfilled.getObjectLoop_env hgrew.placed hf hc (k := k)
    · rwa [hrandom]
    · rw [hrandom]
      exact hl
  constructor
  · apply hfilled.took hgrew.placed ht (s.heaps k).localRandomValue
    rw [henv, Process.mallocFill, if_pos hf, hx, ht.layout.layout_eq, hxc]
    rfl
  · rw [henv]
    exact hreports

end Malloc

end DieHard
