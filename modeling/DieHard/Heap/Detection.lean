import DieHard.Heap.FalseAlarm

/-!
# Detection of overflows

With DieFast on, the program may write anywhere. A free slot that no longer holds the freed value of its
miniheap stays so until `malloc` returns it or another write goes to it. The `malloc` that returns it and
every `malloc` and `free` of one of its neighbours report it, with the offset of its first word that
differs.
-/

namespace DieHard

open Blocks Transition

variable {cfg : HeapConfig}

/-- From `env` to `env'` the error `r` has been printed. -/
def Env.Reported (env : Env) (r : Report) (env' : Env) : Prop :=
  ∃ news, env'.reports = env.reports ++ news ∧ r ∈ news

section Reported

variable {env env₁ env₂ : Env} {r : Report}

theorem Env.reported_report (env : Env) (r : Report) : env.Reported r (env.report r) :=
  ⟨[r], rfl, List.mem_singleton_self r⟩

theorem Env.Reported.after (h : env₁.Reported r env₂) (hp : env.reports <+: env₁.reports) :
    env.Reported r env₂ := by
  obtain ⟨news, hnews, hr⟩ := h
  obtain ⟨olds, holds⟩ := hp
  refine ⟨olds ++ news, ?_, List.mem_append_right _ hr⟩
  rw [hnews, ← holds, List.append_assoc]

theorem Env.Reported.before (h : env.Reported r env₁) (hp : env₁.reports <+: env₂.reports) :
    env.Reported r env₂ := by
  obtain ⟨news, hnews, hr⟩ := h
  obtain ⟨more, hmore⟩ := hp
  refine ⟨news ++ more, ?_, List.mem_append_left _ hr⟩
  rw [← hmore, hnews, List.append_assoc]

end Reported

namespace DieFast

/-- Word `w` is the first of the buffer that is not `val`. -/
def FirstDiffers (mem : Addr → BitVec 8) (ptr sz : Nat) (val : BitVec 64) (w : Nat) : Prop :=
  IsLeast {v | v < sz / 8 ∧ loadWord mem (ptr + 8 * v) ≠ val} w

variable {mem mem' : Addr → BitVec 8} {ptr sz v w : Nat} {val : BitVec 64}

theorem exists_firstDiffers (hv : v < sz / 8) (hne : loadWord mem (ptr + 8 * v) ≠ val) :
    ∃ w ≤ v, FirstDiffers mem ptr sz val w := by
  classical
  have hex : ∃ v, v < sz / 8 ∧ loadWord mem (ptr + 8 * v) ≠ val := ⟨v, hv, hne⟩
  exact ⟨Nat.find hex, Nat.find_min' hex ⟨hv, hne⟩, Nat.find_spec hex,
    fun u hu => Nat.find_min' hex hu⟩

theorem loadWord_congr {p p' : Nat} (h : ∀ k : Nat, k < 8 → mem (p + k) = mem' (p' + k)) :
    loadWord mem p = loadWord mem' p' := by
  have h0 : mem p = mem' p' := h 0 (by decide)
  rw [loadWord, loadWord, h0, h 1 (by decide), h 2 (by decide), h 3 (by decide), h 4 (by decide),
    h 5 (by decide), h 6 (by decide), h 7 (by decide)]

theorem FirstDiffers.congr (h : FirstDiffers mem ptr sz val w)
    (hmem : ∀ o : Nat, o < sz → mem' (ptr + o) = mem (ptr + o)) : FirstDiffers mem' ptr sz val w := by
  have hword (v : Nat) (hv : v < sz / 8) : loadWord mem' (ptr + 8 * v) = loadWord mem (ptr + 8 * v) := by
    apply loadWord_congr
    intro k hk
    rw [Nat.add_assoc]
    exact hmem _ (by omega)
  have hsame : {v | v < sz / 8 ∧ loadWord mem' (ptr + 8 * v) ≠ val} =
      {v | v < sz / 8 ∧ loadWord mem (ptr + 8 * v) ≠ val} := by
    ext v
    apply and_congr_right
    intro hv
    rw [hword v hv]
  rw [FirstDiffers, hsame]
  exact h

theorem FirstDiffers.checkNot (h : FirstDiffers mem ptr sz val w) (hlt : sz / 8 < 2 ^ 31) :
    checkNot mem ptr sz val = true := by
  rw [DieFast.checkNot, List.any_eq_true, words_eq hlt]
  exact ⟨w, List.mem_range.mpr h.1.1, bne_iff_ne.mpr h.1.2⟩

end DieFast

namespace RandomMiniHeapCore

variable {id : MiniId} {m : MiniHeap} {env : Env} {p w : Nat}

theorem overflowIndex_eq
    (h : DieFast.FirstDiffers env.mem p (getClassSize id.cls) m.freedValue w) :
    overflowIndex id m env p = 8 * w := by
  obtain ⟨⟨hlt, hne⟩, hleast⟩ := h
  have hbefore : ∀ v ∈ List.range w, (loadWord env.mem (p + 8 * v) == m.freedValue) = true := by
    intro v hv
    have hvw := List.mem_range.mp hv
    rw [beq_iff_eq]
    by_contra hdiff
    exact absurd (hleast ⟨hvw.trans hlt, hdiff⟩) (Nat.not_le_of_lt hvw)
  have hsplit : List.range (getClassSize id.cls / 8) =
      List.range w ++ w :: (List.range (getClassSize id.cls / 8 - w - 1)).map (w + 1 + ·) := by
    have hlen : getClassSize id.cls / 8 = w + 1 + (getClassSize id.cls / 8 - w - 1) := by omega
    conv_lhs => rw [hlen, List.range_add, List.range_succ, List.append_assoc]
    rfl
  have hstop : (loadWord env.mem (p + 8 * w) == m.freedValue) = false := by
    rwa [beq_eq_false_iff_ne]
  rw [overflowIndex, hsplit, List.takeWhile_append_of_pos hbefore, List.takeWhile_cons, hstop,
    if_neg Bool.false_ne_true, List.append_nil, List.length_range, Nat.mul_comm]

theorem reportIfOverflowed_eq (hlt : getClassSize id.cls / 8 < 2 ^ 31)
    (h : DieFast.FirstDiffers env.mem p (getClassSize id.cls) m.freedValue w) :
    reportIfOverflowed id m env p = env.report (.overflow p (8 * w)) := by
  rw [reportIfOverflowed, if_pos (h.checkNot hlt), overflowIndex_eq h]

theorem prefix_reportIfOverflowed (id : MiniId) (m : MiniHeap) (env : Env) (p : Addr) :
    env.reports <+: (reportIfOverflowed id m env p).reports := by
  rw [reportIfOverflowed]
  split
  · exact List.prefix_append _ _
  · exact List.prefix_rfl

theorem mem_reportIfOverflowed (id : MiniId) (m : MiniHeap) (env : Env) (p : Addr) :
    (reportIfOverflowed id m env p).mem = env.mem := by
  rw [reportIfOverflowed]
  split <;> rfl

theorem prefix_checkNeighbour (cfg : HeapConfig) (id : MiniId) (m : MiniHeap) (n : Nat) (env : Env) :
    env.reports <+: (checkNeighbour cfg id m n env).reports := by
  rw [checkNeighbour]
  split
  · exact List.prefix_rfl
  · exact prefix_reportIfOverflowed _ _ _ _

theorem prefix_checkOverflowError (cfg : HeapConfig) (id : MiniId) (m : MiniHeap) (index : Nat)
    (env : Env) : env.reports <+: (checkOverflowError cfg id m index env).reports := by
  rw [checkOverflowError_eq]
  exact (prefix_checkNeighbour _ _ _ _ _).trans (prefix_checkNeighbour _ _ _ _ _)

theorem checkNeighbour_reported {n : Nat} (hlt : getClassSize id.cls / 8 < 2 ^ 31)
    (hclear : m.miniHeapBitmap.isSet n = false) (hp : RandomMiniHeap.getObject cfg id m n = p)
    (h : DieFast.FirstDiffers env.mem p (getClassSize id.cls) m.freedValue w) :
    env.Reported (.overflow p (8 * w)) (checkNeighbour cfg id m n env) := by
  rw [checkNeighbour, hclear, if_neg Bool.false_ne_true, hp, reportIfOverflowed_eq hlt h]
  exact env.reported_report _

theorem checkOverflowError_reported {n index : Nat} (hlt : getClassSize id.cls / 8 < 2 ^ 31)
    (hn : leftIndex cfg id index = n ∨ rightIndex cfg id index = n)
    (hclear : m.miniHeapBitmap.isSet n = false) (hp : RandomMiniHeap.getObject cfg id m n = p)
    (h : DieFast.FirstDiffers env.mem p (getClassSize id.cls) m.freedValue w) :
    env.Reported (.overflow p (8 * w)) (checkOverflowError cfg id m index env) := by
  rw [checkOverflowError_eq]
  rcases hn with rfl | rfl
  · exact (checkNeighbour_reported hlt hclear hp h).before (prefix_checkNeighbour _ _ _ _ _)
  · apply (checkNeighbour_reported hlt hclear hp _).after (prefix_checkNeighbour _ _ _ _ _)
    rwa [mem_checkNeighbour]

end RandomMiniHeapCore

/-- The index of `x` is one above or one below that of `y`, modulo the number of objects. -/
def Slot.NextTo (cfg : HeapConfig) (x y : Slot) : Prop :=
  x.id = y.id ∧ (x.index = (y.index + 1) % cfg.nObjects y.id ∨
    y.index = (x.index + 1) % cfg.nObjects y.id)

section Neighbours

variable {id : MiniId} {n i j : Nat}

theorem rightIndex_eq (hn : cfg.nObjects id = 2 ^ n) (hi : i < 2 ^ 32) (hj : j < 2 ^ 32)
    (h : j = (i + 1) % cfg.nObjects id) : rightIndex cfg id i = j := by
  rw [rightIndex, h, hn]
  rcases Nat.lt_or_ge 32 n with hlt | hle
  · have hpow : 2 ^ 33 ≤ 2 ^ n := Nat.pow_le_pow_right (by decide) hlt
    rw [h, hn, Nat.mod_eq_of_lt (by omega)] at hj
    rw [Nat.mod_eq_of_lt hj]
  · exact Nat.mod_mod_of_dvd _ (pow_dvd_pow 2 hle)

theorem leftIndex_eq (hn : cfg.nObjects id = 2 ^ n) (hj : j < 2 ^ 32) (hjn : j < cfg.nObjects id)
    (h : i = (j + 1) % cfg.nObjects id) : leftIndex cfg id i = j := by
  rw [leftIndex, h]
  rw [hn] at hjn ⊢
  rcases Nat.lt_or_ge 32 n with hlt | hle
  · have hpow : 2 ^ 33 ≤ 2 ^ n := Nat.pow_le_pow_right (by decide) hlt
    have hsum : j + 1 + 2 ^ 32 - 1 = j + 2 ^ 32 := by omega
    rw [Nat.mod_eq_of_lt (by omega : j + 1 < 2 ^ n), hsum, Nat.add_mod_right, Nat.mod_eq_of_lt hj,
      Nat.mod_eq_of_lt hjn]
  · have hdvd : 2 ^ n ∣ 2 ^ 32 := pow_dvd_pow 2 hle
    rw [Nat.mod_mod_of_dvd _ hdvd]
    obtain ⟨q, hq⟩ := hdvd
    rw [hq]
    generalize 2 ^ n = N at hjn hq
    have hqpos : 0 < q := by
      rcases Nat.eq_zero_or_pos q with rfl | hpos
      · simp at hq
      · exact hpos
    rcases Nat.lt_or_ge (j + 1) N with hnext | hlast
    · have hsum : j + 1 + N * q - 1 = j + N * q := by omega
      rw [Nat.mod_eq_of_lt hnext, hsum, Nat.add_mul_mod_self_left, Nat.mod_eq_of_lt hjn]
    · -- the index wraps around
      have hlast' : j + 1 = N := by omega
      have hsplit : N * q = N * (q - 1) + N := by
        rw [← Nat.mul_succ, Nat.succ_eq_add_one, Nat.sub_add_cancel hqpos]
      have hsum : 0 + N * q - 1 = j + N * (q - 1) := by omega
      rw [hlast', Nat.mod_self, hsum, Nat.add_mul_mod_self_left, Nat.mod_eq_of_lt hjn]

theorem Slot.NextTo.neighbour {x y : Slot} (h : x.NextTo cfg y) (hn : cfg.nObjects y.id = 2 ^ n)
    (hx : x.index < 2 ^ 32) (hy : y.index < 2 ^ 32) (hlt : y.index < cfg.nObjects y.id) :
    leftIndex cfg y.id x.index = y.index ∨ rightIndex cfg y.id x.index = y.index := by
  rcases h.2 with habove | hbelow
  · exact Or.inl (leftIndex_eq hn hy hlt habove)
  · exact Or.inr (rightIndex_eq hn hx hy hbelow)

end Neighbours

/-- The free slot `y` does not hold the freed value; `w` is its first word that differs. -/
structure Process.Corrupt (cfg : HeapConfig) (s : Process) (y : Slot) (w : Nat) : Prop where
  active : s.Active cfg y.id
  index_lt : y.index < cfg.nObjects y.id
  free : s.bit y = false
  first : DieFast.FirstDiffers s.env.mem ((s.layout cfg y.id).addr y.index) (getClassSize y.id.cls)
    (s.mini y.id).freedValue w

/-- Slot `y` is as it was. -/
structure Process.Keeps (cfg : HeapConfig) (y : Slot) (s s' : Process) : Prop where
  active : s'.Active cfg y.id
  layout : s'.layout cfg y.id = s.layout cfg y.id
  freedValue : (s'.mini y.id).freedValue = (s.mini y.id).freedValue
  bit : s'.bit y = s.bit y
  mem : ∀ o : Nat, o < getClassSize y.id.cls →
    s'.env.mem ((s.layout cfg y.id).addr y.index + o) = s.env.mem ((s.layout cfg y.id).addr y.index + o)

section Keeps

variable {s s' s'' : Process} {x y : Slot} {w : Nat}

theorem Process.Keeps.refl (ha : s.Active cfg y.id) : Keeps cfg y s s :=
  ⟨ha, rfl, rfl, rfl, fun _ _ => rfl⟩

theorem Process.Keeps.trans (h : Keeps cfg y s s') (h' : Keeps cfg y s' s'') : Keeps cfg y s s'' := by
  refine ⟨h'.active, h'.layout.trans h.layout, h'.freedValue.trans h.freedValue, h'.bit.trans h.bit, ?_⟩
  intro o ho
  have hmem := h'.mem o ho
  rw [h.layout] at hmem
  exact hmem.trans (h.mem o ho)

theorem Process.Corrupt.keeps (h : s.Corrupt cfg y w) (hk : Keeps cfg y s s') : s'.Corrupt cfg y w := by
  refine ⟨hk.active, h.index_lt, hk.bit.trans h.free, ?_⟩
  rw [hk.layout, hk.freedValue]
  exact h.first.congr hk.mem

theorem Process.SameLayout.keeps (h : s.SameLayout s') (hp : Placed cfg s) (hx : s.Active cfg x.id)
    (hxlt : x.index < cfg.nObjects x.id) (hy : s.Active cfg y.id) (hylt : y.index < cfg.nObjects y.id)
    (hne : y ≠ x) (hbit : s'.bit y = s.bit y) {val : BitVec 64}
    (hmem : s'.env.mem = DieFast.fill s.env.mem ((s.layout cfg x.id).addr x.index)
      (getClassSize x.id.cls) val) : Keeps cfg y s s' := by
  refine ⟨(h.active_iff y.id).mpr hy, h.layout_eq y.id,
    (h.heaps y.id.owner y.id.cls).freedValue y.id.index, hbit, ?_⟩
  intro o ho
  rw [hmem]
  apply DieFast.fill_of_apart
  have hapart := hp.slots_apart hy hx hylt hxlt hne
  simp only [Apart] at hapart
  omega

theorem Process.Freed.keeps (h : s.Freed cfg x ((s.layout cfg x.id).addr x.index) s') (hp : Placed cfg s)
    (hd : cfg.dieHarderOn = false) (hf : cfg.dieFastOn = true) (hb : s.bit x = true)
    (hc : s.Corrupt cfg y w) : Keeps cfg y s s' := by
  have hne : y ≠ x := by
    rintro rfl
    exact Bool.false_ne_true (hc.free.symm.trans hb)
  apply h.layout.keeps hp (hp.bit_active hb) (hp.bits _ _ hb).2 hc.active hc.index_lt hne
  · rw [h.bit_eq, decide_eq_true hne, Bool.and_true]
  · rw [h.mem, RandomMiniHeap.trash, hd, hf]
    rfl

theorem Process.Took.keeps (h : s.Took cfg x s') (hp : Placed cfg s) (hc : s.Corrupt cfg y w)
    (hne : y ≠ x) {val : BitVec 64}
    (hmem : s'.env.mem = DieFast.fill s.env.mem ((s.layout cfg x.id).addr x.index)
      (getClassSize x.id.cls) val) : Keeps cfg y s s' := by
  apply h.layout.keeps hp h.active h.index_lt hc.active hc.index_lt hne _ hmem
  rw [h.bit_eq, decide_eq_false hne, Bool.or_false]

end Keeps

section Growth

variable {s : Process} {k cls w : Nat} {y : Slot}

/-- A new miniheap is filled apart from the slots there are, and nothing is reported. -/
theorem Placed.getAnotherMiniHeap_keeps (hp : Placed cfg s) (hd : cfg.dieHarderOn = false)
    (hf : cfg.dieFastOn = true) (hc : cls < cfg.maxIndex) {source : Nat → Addr}
    (hfresh : s.env.Fresh cfg ⟨k, cls, (s.random k cls).miniHeapsInUse⟩ source)
    (hy : s.Active cfg y.id) (hylt : y.index < cfg.nObjects y.id) :
    Process.Keeps cfg y s (s.setRandom k cls
      (RandomHeap.getAnotherMiniHeap cfg k cls source (s.random k cls) s.env).1
      (RandomHeap.getAnotherMiniHeap cfg k cls source (s.random k cls) s.env).2) ∧
    (RandomHeap.getAnotherMiniHeap cfg k cls source (s.random k cls) s.env).2.reports =
      s.env.reports := by
  have hsame : Process.Keeps cfg y s (s.setRandom k cls (s.random k cls) s.env) := by
    rw [Process.random, Process.setRandom_self]
    exact .refl hy
  rw [RandomHeap.getAnotherMiniHeap]
  by_cases hneed : (s.random k cls).needsGrowth cfg = true
  · by_cases hlt : (s.random k cls).miniHeapsInUse < cfg.maxMiniHeaps
    · simp only [hneed, Bool.not_true, Bool.false_eq_true, if_false, if_pos hlt]
      have hm : ((s.random k cls).miniHeaps (s.random k cls).miniHeapsInUse).isHeapActivated = false := by
        rw [Bool.eq_false_iff]
        intro hact
        exact Placed.next_not_active s k cls ((hp.activated (Placed.nextId s k cls)).mp hact)
      have hact : Activation cfg (Placed.nextId s k cls) source s.env _ _ := activate_spec hfresh hm
      have hplaced := hp.placed_grown hc hlt hfresh hact
      have hactivate := activate_eq hd hf hfresh hm
      rw [Placed.nextId] at hplaced
      rw [hactivate] at hplaced ⊢
      refine ⟨?_, rfl⟩
      have hne : y.id ≠ Placed.nextId s k cls := by
        intro he
        exact @Placed.next_not_active cfg s k cls (he ▸ hy)
      have hmini := fun m env => (@Placed.mini_grown cfg s k cls m env y.id).trans (if_neg hne)
      refine ⟨(Placed.active_grown s k cls _ _ hc _).mpr (Or.inl hy),
        Placed.layout_grown_of_active s k cls _ _ hy, congrArg MiniHeap.freedValue (hmini _ _),
        congrArg (fun m => m.miniHeapBitmap.isSet y.index) (hmini _ _), ?_⟩
      intro o ho
      apply DieFast.fill_of_apart
      have hapart := Placed.slot_apart_next hd hc (source 0) hplaced rfl hy hylt
      simp only [Apart, Placed.nextId] at hapart
      dsimp only
      omega
    · simp only [hneed, Bool.not_true, Bool.false_eq_true, if_false, if_neg hlt]
      exact ⟨hsame, trivial⟩
  · simp only [hneed, Bool.not_false, if_true]
    exact ⟨hsame, trivial⟩

theorem Placed.growHeapIfNeeded_keeps (hp : Placed cfg s) (hd : cfg.dieHarderOn = false)
    (hf : cfg.dieFastOn = true) (hc : cls < cfg.maxIndex) {sources : List (Nat → Addr)}
    (hfresh : SourcesFresh cfg k cls sources (s.random k cls) s.env) (hy : s.Active cfg y.id)
    (hylt : y.index < cfg.nObjects y.id) {r : RandomHeap} {env : Env}
    (hg : RandomHeap.growHeapIfNeeded cfg k cls sources (s.random k cls) s.env = some (r, env)) :
    Process.Keeps cfg y s (s.setRandom k cls r env) ∧ env.reports = s.env.reports := by
  have hsame : Process.Keeps cfg y s (s.setRandom k cls (s.random k cls) s.env) := by
    rw [Process.random, Process.setRandom_self]
    exact .refl hy
  induction sources generalizing s with
  | nil =>
    rw [RandomHeap.growHeapIfNeeded] at hg
    split at hg
    · cases hg
    · cases hg
      exact ⟨hsame, rfl⟩
  | cons source sources ih =>
    rw [RandomHeap.growHeapIfNeeded] at hg
    split at hg
    · rename_i hneed
      have hgrew := hp.getAnotherMiniHeap hc (hfresh hneed).1
      obtain ⟨hkeeps, hreports⟩ := hp.getAnotherMiniHeap_keeps hd hf hc (hfresh hneed).1 hy hylt
      have hrandom (r : RandomHeap) (env : Env) : (s.setRandom k cls r env).random k cls = r :=
        Process.setRandom_heaps_self s k cls r env
      have hnext := ih hgrew.placed (by rw [hrandom]; exact (hfresh hneed).2) hkeeps.active
        (by rwa [hrandom]) (by rw [hrandom, Process.setRandom_setRandom]; exact .refl hkeeps.active)
      rw [Process.setRandom_setRandom] at hnext
      exact ⟨hkeeps.trans hnext.1, hnext.2.trans hreports⟩
    · cases hg
      exact ⟨hsame, rfl⟩

end Growth

section Checks

variable {s s' : Process} {x y : Slot} {n w : Nat}

theorem Process.Corrupt.checkOverflowError (h : s.Corrupt cfg y w) (hp : Placed cfg s)
    (hn : cfg.nObjects y.id = 2 ^ n) (hy : y.index < 2 ^ 32) (hx : x.index < 2 ^ 32)
    (hnext : x.NextTo cfg y) {b : BitMap} (hclear : b.isSet y.index = false) {env : Env}
    (hmem : env.mem = s.env.mem) :
    env.Reported (.overflow ((s.layout cfg y.id).addr y.index) (8 * w))
      (RandomMiniHeapCore.checkOverflowError cfg x.id { s.mini x.id with miniHeapBitmap := b }
        x.index env) := by
  have hobj : RandomMiniHeap.getObject cfg y.id { s.mini y.id with miniHeapBitmap := b } y.index =
      (s.layout cfg y.id).addr y.index :=
    hp.getObject_eq h.active (h.index_lt.trans_le (HeapConfig.nObjects_le_slots _ _))
  have hfirst := h.first
  rw [← hmem] at hfirst
  rw [hnext.1]
  exact RandomMiniHeapCore.checkOverflowError_reported (hp.getClassSize_lt h.active)
    (hnext.neighbour hn hx hy h.index_lt) hclear hobj hfirst

/-- A `malloc` of the slot or of a neighbour looks at it. -/
theorem Process.Corrupt.mallocChecks (h : s.Corrupt cfg y w) (hp : Placed cfg s)
    (hn : cfg.nObjects y.id = 2 ^ n) (hy : y.index < 2 ^ 32) (hx : x.index < 2 ^ 32)
    (hnext : x = y ∨ x.NextTo cfg y) :
    s.env.Reported (.overflow ((s.layout cfg y.id).addr y.index) (8 * w)) (s.mallocChecks cfg x) := by
  by_cases hxy : x = y
  · subst hxy
    have hself : RandomMiniHeapCore.reportIfOverflowed x.id
        { s.mini x.id with miniHeapBitmap := ((s.mini x.id).miniHeapBitmap.tryToSet x.index).1 } s.env
        (RandomMiniHeap.getObject cfg x.id (s.mini x.id) x.index) =
          s.env.report (.overflow ((s.layout cfg x.id).addr x.index) (8 * w)) := by
      rw [hp.getObject_eq h.active (h.index_lt.trans_le (HeapConfig.nObjects_le_slots _ _))]
      exact RandomMiniHeapCore.reportIfOverflowed_eq (hp.getClassSize_lt h.active) h.first
    have hreport := s.env.reported_report (.overflow ((s.layout cfg x.id).addr x.index) (8 * w))
    rw [← hself] at hreport
    exact hreport.before (RandomMiniHeapCore.prefix_checkOverflowError _ _ _ _ _)
  · have hnext := hnext.resolve_left hxy
    have hne : y.index ≠ x.index := by
      intro he
      apply hxy
      cases x
      cases y
      simp_all [Slot.NextTo]
    have hclear : ((s.mini x.id).miniHeapBitmap.tryToSet x.index).1.isSet y.index = false := by
      have hfree : (s.mini x.id).miniHeapBitmap.isSet y.index = false := by
        rw [hnext.1]
        exact h.free
      simp only [BitMap.isSet_tryToSet, hfree, hne, decide_false, Bool.or_false]
    exact (h.checkOverflowError hp hn hy hx hnext hclear
      (RandomMiniHeapCore.mem_reportIfOverflowed _ _ _ _)).after
      (RandomMiniHeapCore.prefix_reportIfOverflowed _ _ _ _)

theorem Process.Corrupt.freedEnv (h : s.Corrupt cfg y w) (hp : Placed cfg s) (hf : cfg.dieFastOn = true)
    (hn : cfg.nObjects y.id = 2 ^ n) (hy : y.index < 2 ^ 32) (hx : x.index < 2 ^ 32)
    (hb : s.bit x = true) (hnext : x.NextTo cfg y) {p : Nat}
    (hxp : (s.layout cfg x.id).Contains x.index p) :
    s.env.Reported (.overflow ((s.layout cfg y.id).addr y.index) (8 * w)) (s.freedEnv cfg x p) := by
  have hclear : ((s.mini x.id).miniHeapBitmap.reset x.index).1.isSet y.index = false := by
    have hfree : (s.mini x.id).miniHeapBitmap.isSet y.index = false := by
      rw [hnext.1]
      exact h.free
    simp only [BitMap.isSet_reset, hfree, Bool.false_and]
  rw [Env.Reported, hp.freedEnv_reports hf hb hxp]
  exact h.checkOverflowError hp hn hy hx hnext hclear rfl

theorem Process.Corrupt.malloc_keeps (h : s.Corrupt cfg y w) (hp : Placed cfg s)
    (hd : cfg.dieHarderOn = false) (hf : cfg.dieFastOn = true) {k sz : Nat} (hsz : sz ≤ cfg.maxSize)
    {sources : List (Nat → Addr)} {randoms : List (Nat × Nat)} {p : Addr}
    (hfresh : SourcesFresh cfg k (requestClass sz) sources (s.random k (requestClass sz)) s.env)
    (hm : s.malloc cfg k sz sources randoms = some (p, s'))
    (hne : p ≠ (s.layout cfg y.id).addr y.index) : Keeps cfg y s s' := by
  have hc := requestClass_lt hsz
  obtain ⟨x, r, env, env', -, hxc, hx, hg, hgrew, hpos, hl, ht, henv⟩ := hp.malloc_parts hsz hfresh hm
  obtain ⟨hkeeps, -⟩ := hp.growHeapIfNeeded_keeps hd hf hc hfresh h.active h.index_lt hg
  have hgrown := h.keeps hkeeps
  have hrandom : (s.setRandom k (requestClass sz) r env).random k (requestClass sz) = r :=
    Process.setRandom_heaps_self s k _ r env
  obtain ⟨-, -, -, -, -, -, -, -, hw⟩ := hgrew.placed.getObjectLoop hc (k := k)
    (by rwa [hrandom]) (by rw [hrandom]; exact hl)
  rw [ht.layout.layout_eq] at hx
  refine hkeeps.trans (@Process.Took.keeps cfg _ s' x y w ht hgrew.placed hgrown ?_
    (s.heaps k).localRandomValue ?_)
  · rintro rfl
    rw [hkeeps.layout] at hx
    exact hne hx
  · rw [henv, Process.mallocFill, if_pos hf, hx, hxc, hw.mem_eq]

/-- The `malloc` that returns the slot or a neighbour reports it. -/
theorem Process.Corrupt.malloc_reported (h : s.Corrupt cfg y w) (hp : Placed cfg s)
    (hd : cfg.dieHarderOn = false) (hf : cfg.dieFastOn = true) (hn : cfg.nObjects y.id = 2 ^ n)
    (hy : y.index < 2 ^ 32) (hx : x.index < 2 ^ 32) (hid : x.id = y.id)
    (hxlt : x.index < cfg.nObjects x.id) (hnext : x = y ∨ x.NextTo cfg y) {k sz : Nat}
    (hsz : sz ≤ cfg.maxSize) {sources : List (Nat → Addr)} {randoms : List (Nat × Nat)}
    (hfresh : SourcesFresh cfg k (requestClass sz) sources (s.random k (requestClass sz)) s.env)
    (hm : s.malloc cfg k sz sources randoms = some ((s.layout cfg x.id).addr x.index, s')) :
    s.env.Reported (.overflow ((s.layout cfg y.id).addr y.index) (8 * w)) s'.env := by
  have hc := requestClass_lt hsz
  obtain ⟨z, r, env, env', -, -, -, hg, hgrew, hpos, hl, -, henv⟩ := hp.malloc_parts hsz hfresh hm
  obtain ⟨hkeeps, hreports⟩ := hp.growHeapIfNeeded_keeps hd hf hc hfresh h.active h.index_lt hg
  have hrandom : (s.setRandom k (requestClass sz) r env).random k (requestClass sz) = r :=
    Process.setRandom_heaps_self s k _ r env
  obtain ⟨z', ha, hlt, -, haddr, hchecks⟩ := hgrew.placed.getObjectLoop_checks hf hc (k := k)
    (by rwa [hrandom]) (by rw [hrandom]; exact hl)
  -- the slot that the loop has drawn is `x`
  have hxa : (s.setRandom k (requestClass sz) r env).Active cfg x.id := hid ▸ hkeeps.active
  have hlayout : (s.setRandom k (requestClass sz) r env).layout cfg x.id = s.layout cfg x.id := by
    rw [hid]
    exact hkeeps.layout
  have hxc := Layout.contains_addr (hxlt.trans_le
    (HeapConfig.nObjects_le_slots x.id ((s.setRandom k (requestClass sz) r env).mini x.id)))
  have hzc := Layout.contains_addr (hlt.trans_le
    (HeapConfig.nObjects_le_slots z'.id ((s.setRandom k (requestClass sz) r env).mini z'.id)))
  have hxz : x = z' := by
    apply hgrew.placed.slot_eq hxa ha hxc
    rw [← hlayout] at haddr
    have hsame : (cfg.layout x.id ((s.setRandom k (requestClass sz) r env).mini x.id)).addr x.index =
        (cfg.layout z'.id ((s.setRandom k (requestClass sz) r env).mini z'.id)).addr z'.index := haddr
    rw [hsame]
    exact hzc
  have hreported := (h.keeps hkeeps).mallocChecks hgrew.placed hn hy hx hnext
  rw [hkeeps.layout, hxz, ← hchecks] at hreported
  rw [henv]
  rw [Env.Reported, Process.setRandom_env, hreports] at hreported
  exact hreported

end Checks

namespace Session

/-- The source of memory answers with fresh memory and the program frees live objects; it may write
anywhere. -/
def careless (cfg : HeapConfig) (s : Session) : ProgramAction → Prop
  | .malloc k sz sources _ => sz ≤ cfg.maxSize →
    SourcesFresh cfg k (requestClass sz) sources (s.process.random k (requestClass sz)) s.process.env
  | .free k p => (s.live k p).isSome
  | .write _ _ => True

/-- `malloc` does not return slot `y`, and no write goes to it. -/
def sparing (cfg : HeapConfig) (y : Slot) (s : Session) : ProgramAction → Prop
  | .malloc k sz sources randoms => ∀ p process, s.process.malloc cfg k sz sources randoms =
    some (p, process) → p ≠ (s.process.layout cfg y.id).addr y.index
  | .free _ _ => True
  | .write a _ => a < (s.process.layout cfg y.id).addr y.index ∨
    (s.process.layout cfg y.id).addr y.index + getClassSize y.id.cls ≤ a

/-- The calls that report that `w` is the first word of the free slot `y` that differs. -/
structure Detects (cfg : HeapConfig) (s : Session) (y : Slot) (w : Nat) : Prop where
  corrupt : s.process.Corrupt cfg y w
  /-- The `malloc` that returns the slot or one of its neighbours. -/
  malloc : ∀ k sz sources randoms process (x : Slot), s.careless cfg (.malloc k sz sources randoms) →
    x.id = y.id → x.index < cfg.nObjects x.id → x.index < 2 ^ 32 → x = y ∨ x.NextTo cfg y →
    s.process.malloc cfg k sz sources randoms =
      some ((s.process.layout cfg x.id).addr x.index, process) →
    s.process.env.Reported (.overflow ((s.process.layout cfg y.id).addr y.index) (8 * w)) process.env
  /-- The `free` of a neighbour. -/
  free : ∀ k (x : Slot), x.index < cfg.nObjects x.id → x.index < 2 ^ 32 → x.NextTo cfg y →
    s.careless cfg (.free k ((s.process.layout cfg x.id).addr x.index)) →
    s.process.env.Reported (.overflow ((s.process.layout cfg y.id).addr y.index) (8 * w))
      (s.process.free cfg k ((s.process.layout cfg x.id).addr x.index)).2.env

variable {s s' : Session} {y : Slot} {n w : Nat}

/-- A corrupted free slot is detected. -/
theorem detects_of_corrupt (hd : cfg.dieHarderOn = false) (hf : cfg.dieFastOn = true) (h : Inv cfg s)
    (hn : cfg.nObjects y.id = 2 ^ n) (hy : y.index < 2 ^ 32) (hc : s.process.Corrupt cfg y w) :
    Detects cfg s y w := by
  refine ⟨hc, ?_, ?_⟩
  · intro k sz sources randoms process x hok hid hxlt hx hnext hm
    have hxa : s.process.Active cfg x.id := by
      rw [hid]
      exact hc.active
    have hsz : sz ≤ cfg.maxSize := by
      by_contra hlarge
      exact h.placed.addr_ne_zero hxa (hxlt.trans_le (HeapConfig.nObjects_le_slots _ _))
        (malloc_too_large hlarge hm).1
    exact hc.malloc_reported h.placed hd hf hn hy hx hid hxlt hnext hsz (hok hsz) hm
  · intro k x hxlt hx hnext hok
    obtain ⟨sz, hl⟩ := Option.isSome_iff_exists.mp hok
    obtain ⟨z, rfl, -, haddr, hb, -⟩ := h.free_live hl
    have hxa : s.process.Active cfg x.id := by
      rw [hnext.1]
      exact hc.active
    have hxc := Layout.contains_addr (hxlt.trans_le
      (HeapConfig.nObjects_le_slots x.id (s.process.mini x.id)))
    have hzc := Layout.contains_addr (h.placed.bit_slot hb)
    -- the live object is the one at slot `x`
    have hxz : x = z := by
      apply h.placed.slot_eq hxa (h.placed.bit_active hb) hxc
      rw [show (cfg.layout x.id (s.process.mini x.id)).addr x.index = _ from haddr]
      exact hzc
    subst hxz
    have hcontains := Layout.contains_addr (h.placed.bit_slot hb)
    rw [h.placed.free_env hxa hcontains hb]
    exact hc.freedEnv h.placed hf hn hy hx hb hnext hcontains

theorem corrupt_step (hd : cfg.dieHarderOn = false) (hf : cfg.dieFastOn = true) (h : Inv cfg s)
    (hc : s.process.Corrupt cfg y w) {a : ProgramAction} (hok : s.careless cfg a)
    (hspare : s.sparing cfg y a) (hn : s.step cfg a = some s') : s'.process.Corrupt cfg y w := by
  cases a with
  | malloc k sz sources randoms =>
    obtain ⟨-, ⟨hsz, p, hm⟩ | rfl⟩ := h.step_malloc hok hn
    · exact hc.keeps (hc.malloc_keeps h.placed hd hf hsz (hok hsz) hm (hspare p _ hm))
    · exact hc
  | free k p =>
    cases hn
    obtain ⟨sz, hl⟩ := Option.isSome_iff_exists.mp hok
    obtain ⟨x, rfl, -, rfl, hb, process, hfree, hfreed⟩ := h.free_live hl
    rw [hfree]
    exact hc.keeps (hfreed.keeps h.placed hd hf hb hc)
  | write a b =>
    cases hn
    refine hc.keeps ⟨hc.active, rfl, rfl, rfl, ?_⟩
    intro o ho
    have hother (a : Nat) (hout : a < (s.process.layout cfg y.id).addr y.index ∨
        (s.process.layout cfg y.id).addr y.index + getClassSize y.id.cls ≤ a) :
        (s.process.layout cfg y.id).addr y.index + o ≠ a := by omega
    exact Function.update_of_ne (hother a hspare) _ _

theorem inv_step (h : Inv cfg s) {a : ProgramAction} (hok : s.careless cfg a)
    (hn : s.step cfg a = some s') : Inv cfg s' := by
  cases a with
  | malloc k sz sources randoms => exact (h.step_malloc hok hn).1
  | free k p =>
    cases hn
    exact h.next (a := .free k p) (Or.inl hok) rfl
  | write a b => exact h.step_write hn

/-- In every run, a free slot with a word that is not the freed value stays detectable for as long as
`malloc` does not return it and no write goes to it. An index is an `unsigned int`. -/
theorem reach_detects (hd : cfg.dieHarderOn = false) (hf : cfg.dieFastOn = true)
    {localRandom : Nat → BitVec 64} {random : Nat → Nat → Nat → BitVec 64} {mem : Addr → BitVec 8}
    {mapped : List (Addr × Nat)}
    (hr : Reach (step cfg) (careless cfg) (initial localRandom random mem mapped) s)
    (hn : cfg.nObjects y.id = 2 ^ n) (hy : y.index < 2 ^ 32) (ha : s.process.Active cfg y.id)
    (hlt : y.index < cfg.nObjects y.id) (hfree : s.process.bit y = false) {v : Nat}
    (hv : v < getClassSize y.id.cls / 8)
    (hne : loadWord s.process.env.mem ((s.process.layout cfg y.id).addr y.index + 8 * v) ≠
      (s.process.mini y.id).freedValue)
    (ht : Reach (step cfg) (fun r a => r.careless cfg a ∧ r.sparing cfg y a) s s') :
    ∃ w ≤ v, Detects cfg s' y w := by
  have hinv (t : Session) (ht : Reach (step cfg) (careless cfg) (initial localRandom random mem mapped) t) :
      Inv cfg t := ht.invariant (inv_initial _ _ _ _) fun _ _ _ hi => inv_step hi
  obtain ⟨w, hwv, hw⟩ := DieFast.exists_firstDiffers hv hne
  have hboth : Inv cfg s' ∧ s'.process.Corrupt cfg y w := by
    apply ht.invariant (I := fun t => Inv cfg t ∧ t.process.Corrupt cfg y w)
    · exact ⟨hinv s hr, ha, hlt, hfree, hw⟩
    · intro r a r' hr hok hstep
      exact ⟨inv_step hr.1 hok.1 hstep, corrupt_step hd hf hr.1 hr.2 hok.1 hok.2 hstep⟩
  exact ⟨w, hwv, detects_of_corrupt hd hf hboth.1 hn hy hboth.2⟩

/-- The program writes over the end of the object of `smallMalloc`, two slots further on, and frees the
object. -/
def smallOverflowed : Session := final (step (.libdieharder true false)) smallObject [.write 4992 7]

def smallReleased : Session := final (step (.libdieharder true false)) smallOverflowed [.free 0 4736]

def smallVictim : Slot := ⟨⟨0, 3, 0⟩, 7⟩

theorem overflowed_state :
    (run (step (.libdieharder true false)) smallObject [.write 4992 7]).isSome = true ∧
    (run (step (.libdieharder true false)) smallOverflowed [.free 0 4736]).isSome = true ∧
    (smallOverflowed.live 0 4736).isSome = true ∧
    smallOverflowed.process.Active (.libdieharder true false) smallVictim.id ∧
    smallVictim.index < (HeapConfig.libdieharder true false).nObjects smallVictim.id ∧
    smallOverflowed.process.bit smallVictim = false ∧
    loadWord smallOverflowed.process.env.mem ((smallOverflowed.process.layout (.libdieharder true false)
      smallVictim.id).addr smallVictim.index + 8 * 0) ≠
      (smallOverflowed.process.mini smallVictim.id).freedValue := by decide +kernel

theorem detects_overflowed : ∃ w ≤ 0, Detects (.libdieharder true false) smallReleased smallVictim w := by
  obtain ⟨hwritten, hreleased, hlive, hactive, hlt, hfree, hne⟩ := overflowed_state
  have hmalloc : blank.careless (.libdieharder true false) smallMalloc := correct_small
  have hwrite : smallObject.careless (.libdieharder true false) (.write 4992 7) := trivial
  have hrelease : smallOverflowed.careless (.libdieharder true false) (.free 0 4736) := hlive
  have hspare : smallOverflowed.sparing (.libdieharder true false) smallVictim (.free 0 4736) := trivial
  exact @reach_detects (.libdieharder true false) _ _ _ _ rfl rfl _ _ _ _
    ((Reach.refl.step hmalloc step_small).step hwrite (step_of_run hwritten)) small_request.2.1
    (by decide) hactive hlt hfree _ (by decide) hne
    (Reach.refl.step ⟨hrelease, hspare⟩ (step_of_run hreleased))

end Session

end DieHard
