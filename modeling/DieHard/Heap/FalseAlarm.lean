import DieHard.Heap.DieFast

/-!
# False alarms of DieFast

The program writes inside of its live objects and frees each of them once by its start. Neither `malloc`
nor `free` reports an error as long as no slot is freed that is its own neighbour, which is what happens
in miniheaps with a single object.
-/

namespace DieHard

open Blocks Transition

variable {cfg : HeapConfig}

/-- In a miniheap whose number of objects is a power of two other than one, no slot is its own
neighbour. -/
theorem not_ownNeighbour_of_two_pow {x : Slot} {n : Nat} (hn : cfg.nObjects x.id = 2 ^ n) (hpos : 0 < n)
    (hle : n ≤ 32) (hlt : x.index < 2 ^ n) : ¬ x.OwnNeighbour cfg := by
  have hdvd : 2 ^ n ∣ 2 ^ 32 := pow_dvd_pow 2 hle
  have htwo : 2 ≤ 2 ^ n := by
    calc 2 = 2 ^ 1 := rfl
      _ ≤ 2 ^ n := Nat.pow_le_pow_right (by decide) hpos
  rw [Slot.OwnNeighbour, leftIndex, rightIndex, hn, Nat.mod_mod_of_dvd _ hdvd, Nat.mod_mod_of_dvd _ hdvd]
  generalize hN : 2 ^ n = N at hlt hdvd htwo
  rintro (hleft | hright)
  · obtain ⟨q, hq⟩ := hdvd
    rw [hq] at hleft
    have hq1 : 1 ≤ q := by
      rcases Nat.eq_zero_or_pos q with rfl | h
      · simp at hq
      · exact h
    have hsum : x.index + N * q - 1 = x.index + N - 1 + N * (q - 1) := by
      have hsplit : N * q = N * (q - 1) + N := by
        rw [← Nat.mul_succ, Nat.succ_eq_add_one, Nat.sub_add_cancel hq1]
      omega
    rw [hsum, Nat.add_mul_mod_self_left] at hleft
    rcases Nat.eq_zero_or_pos x.index with hzero | hpos'
    · rw [hzero, Nat.zero_add, Nat.mod_eq_of_lt (by omega)] at hleft
      omega
    · have hshift : x.index + N - 1 = x.index - 1 + N := by omega
      rw [hshift, Nat.add_mod_right, Nat.mod_eq_of_lt (by omega)] at hleft
      omega
  · rcases Nat.lt_or_ge (x.index + 1) N with hlast | hlast
    · rw [Nat.mod_eq_of_lt hlast] at hright
      omega
    · have heq : x.index + 1 = N := by omega
      rw [heq, Nat.mod_self] at hright
      omega

theorem Placed.reports_ne_nil {s : Process} (hp : Placed cfg s) (hf : cfg.dieFastOn = true) {x : Slot}
    (hb : s.bit x = true) (hright : rightIndex cfg x.id x.index = x.index) {p : Nat}
    (hx : (s.layout cfg x.id).Contains x.index p)
    (hcheck : DieFast.checkNot s.env.mem ((s.layout cfg x.id).addr x.index) (getClassSize x.id.cls)
      (s.mini x.id).freedValue = true) : (s.freedEnv cfg x p).reports ≠ [] := by
  have hclear : ((s.mini x.id).miniHeapBitmap.reset x.index).1.isSet (rightIndex cfg x.id x.index) =
      false := by
    rw [hright, BitMap.isSet_reset]
    simp
  rw [← hp.getObject_eq (hp.bit_active hb) (hp.bit_slot hb)] at hcheck
  rw [hp.freedEnv_reports hf hb hx]
  apply RandomMiniHeapCore.reports_ne_nil hclear
  rw [hright]
  exact hcheck

namespace Session

inductive ProgramAction
  | malloc (k sz : Nat) (sources : List (Nat → Addr)) (randoms : List (Nat × Nat))
  | free (k : Nat) (p : Addr)
  | write (a : Addr) (b : BitVec 8)

/-- One step of the program; `malloc` may return the null pointer. -/
def step (cfg : HeapConfig) (s : Session) : ProgramAction → Option Session
  | .malloc k sz sources randoms =>
    (s.process.malloc cfg k sz sources randoms).map fun r =>
      if r.1 = 0 then ⟨r.2, s.live⟩ else s.record r.2 k r.1 (some sz)
  | .free k p => some (s.record (s.process.free cfg k p).2 k p none)
  | .write a b =>
    let mem := Function.update s.process.env.mem a b
    some { s with process := { s.process with env := { s.process.env with mem := mem } } }

/-- The source of memory answers with fresh memory; the program frees live objects and writes inside of
them. -/
def correct (cfg : HeapConfig) (s : Session) : ProgramAction → Prop
  | .malloc k sz sources _ => sz ≤ cfg.maxSize →
    SourcesFresh cfg k (requestClass sz) sources (s.process.random k (requestClass sz)) s.process.env
  | .free k p => (s.live k p).isSome
  | .write a _ => ∃ k p sz, s.live k p = some sz ∧ p ≤ a ∧ a < p + objectSize sz

/-- No slot is freed that is its own neighbour, and no miniheap is activated that has too many words for
the loop that fills it. -/
def harmless (cfg : HeapConfig) (s : Session) : ProgramAction → Prop
  | .malloc k sz _ _ => sz ≤ cfg.maxSize →
    (s.process.random k (requestClass sz)).FillsWhole cfg k (requestClass sz)
  | .free k p => ∀ x : Slot, x.id.owner = k → s.process.bit x = true →
    p = (s.process.layout cfg x.id).addr x.index → ¬ x.OwnNeighbour cfg
  | .write _ _ => True

/-- Nothing has been reported, and nothing will be. -/
structure Calm (cfg : HeapConfig) (s : Session) : Prop where
  inv : Inv cfg s
  filled : s.process.Filled cfg
  reports : s.process.env.reports = []

variable {s s' : Session}

theorem malloc_too_large {k sz : Nat} {sources : List (Nat → Addr)} {randoms : List (Nat × Nat)}
    {p : Addr} {process : Process} (hsz : ¬ sz ≤ cfg.maxSize)
    (hm : s.process.malloc cfg k sz sources randoms = some (p, process)) :
    p = 0 ∧ process = s.process := by
  rw [Process.malloc, DieHardHeap.malloc, if_pos (Nat.lt_of_not_le hsz)] at hm
  simp only [Option.bind_eq_bind, Option.bind_some, Option.pure_def, Option.some.injEq, Prod.mk.injEq,
    Function.update_eq_self] at hm
  exact ⟨hm.1.symm, hm.2.symm⟩

theorem Inv.step_malloc (h : Inv cfg s) {k sz : Nat} {sources : List (Nat → Addr)}
    {randoms : List (Nat × Nat)} (hok : s.correct cfg (.malloc k sz sources randoms))
    (hn : Session.step cfg s (.malloc k sz sources randoms) = some s') : Inv cfg s' ∧
      ((sz ≤ cfg.maxSize ∧ ∃ p, s.process.malloc cfg k sz sources randoms = some (p, s'.process)) ∨
        s' = s) := by
  obtain ⟨⟨p, process⟩, hm, rfl⟩ := Option.map_eq_some_iff.mp hn
  by_cases hsz : sz ≤ cfg.maxSize
  · obtain ⟨x, -, -, hp, hx⟩ := h.placed.malloc hsz (hok hsz) hm
    have hne : p ≠ 0 := by
      rw [hp]
      exact hx.placed.addr_ne_zero hx.active (hx.index_lt.trans_le (HeapConfig.nObjects_le_slots _ _))
    simp only [if_neg hne]
    refine ⟨?_, Or.inl ⟨hsz, p, hm⟩⟩
    apply h.next (a := .malloc k sz sources randoms) ⟨hsz, hok hsz⟩
    rw [Session.next, hm]
    rfl
  · obtain ⟨rfl, rfl⟩ := malloc_too_large hsz hm
    exact ⟨h, Or.inr rfl⟩

theorem Inv.step_write (h : Inv cfg s) {a : Nat} {b : BitVec 8}
    (hn : s.step cfg (.write a b) = some s') : Inv cfg s' := by
  cases hn
  exact ⟨h.placed.setEnv ⟨rfl, rfl, rfl⟩, h.live_slot, h.slot_live⟩

theorem calm_malloc (hd : cfg.dieHarderOn = false) (hf : cfg.dieFastOn = true) (h : Calm cfg s)
    {k sz : Nat} {sources : List (Nat → Addr)} {randoms : List (Nat × Nat)}
    (hok : s.correct cfg (.malloc k sz sources randoms))
    (hwhole : s.harmless cfg (.malloc k sz sources randoms))
    (hn : s.step cfg (.malloc k sz sources randoms) = some s') : Calm cfg s' := by
  obtain ⟨hinv, ⟨hsz, p, hm⟩ | rfl⟩ := h.inv.step_malloc hok hn
  · obtain ⟨hfilled, hreports⟩ := h.filled.malloc h.inv.placed hd hf hsz (hok hsz) (hwhole hsz) hm
    exact ⟨hinv, hfilled, hreports.trans h.reports⟩
  · exact h

theorem calm_free (hd : cfg.dieHarderOn = false) (hf : cfg.dieFastOn = true) (h : Calm cfg s)
    {k : Nat} {p : Addr} (hok : s.correct cfg (.free k p)) (hown : s.harmless cfg (.free k p)) :
    Calm cfg (s.record (s.process.free cfg k p).2 k p none) := by
  obtain ⟨sz, hl⟩ := Option.isSome_iff_exists.mp hok
  obtain ⟨x, rfl, -, rfl, hb, process, hfree, hfreed⟩ := h.inv.free_live hl
  have hplaced := h.inv.placed
  have hcontains := Layout.contains_addr (hplaced.bit_slot hb)
  have hreports := h.filled.freedEnv_reports hplaced hf hb (hown x rfl hb rfl) hcontains
  rw [← hplaced.free_env (hplaced.bit_active hb) hcontains hb] at hreports
  refine ⟨h.inv.next (a := .free _ _) (Or.inl hok) rfl, ?_, hreports.trans h.reports⟩
  rw [hfree]
  exact h.filled.freed hplaced hd hf hb hfreed

theorem calm_write (h : Calm cfg s) {a : Nat} {b : BitVec 8} (hok : s.correct cfg (.write a b))
    (hn : s.step cfg (.write a b) = some s') : Calm cfg s' := by
  have hinv := h.inv.step_write hn
  cases hn
  obtain ⟨k, p, sz, hl, hle, hlt⟩ := hok
  obtain ⟨x, -, hc, hb, rfl⟩ := h.inv.live_slot k p sz hl
  have hplaced := h.inv.placed
  refine ⟨hinv, ?_, h.reports⟩
  intro y hya hylt hyb o ho
  have hyx : y ≠ x := by
    rintro rfl
    exact Bool.false_ne_true (hyb.symm.trans hb)
  have hapart := hplaced.slots_apart hya (hplaced.bit_active hb) hylt (hplaced.bits _ _ hb).2 hyx
  have hsize : getClassSize x.id.cls = objectSize sz := congrArg getClassSize hc
  rw [hsize] at hapart
  have hother : (s.process.layout cfg y.id).addr y.index + o ≠ a := by
    have hale : (s.process.layout cfg x.id).addr x.index ≤ a := hle
    have halt : a < (s.process.layout cfg x.id).addr x.index + objectSize sz := hlt
    simp only [Apart] at hapart
    omega
  exact (Function.update_of_ne hother _ _).trans (h.filled y hya hylt hyb o ho)

theorem Calm.step (hd : cfg.dieHarderOn = false) (hf : cfg.dieFastOn = true) (h : Calm cfg s)
    {a : ProgramAction} (hok : s.correct cfg a ∧ s.harmless cfg a) (hn : s.step cfg a = some s') :
    Calm cfg s' := by
  cases a with
  | malloc k sz sources randoms => exact calm_malloc hd hf h hok.1 hok.2 hn
  | free k p =>
    cases hn
    exact calm_free hd hf h hok.1 hok.2
  | write a b => exact calm_write h hok.1 hn

/-- In every run of a correct program all of whose steps are harmless, neither `malloc` nor `free`
reports an error. -/
theorem reach_noReports (hd : cfg.dieHarderOn = false) (hf : cfg.dieFastOn = true)
    {localRandom : Nat → BitVec 64} {random : Nat → Nat → Nat → BitVec 64} {mem : Addr → BitVec 8}
    {mapped : List (Addr × Nat)}
    (hr : Reach (step cfg) (fun s a => s.correct cfg a ∧ s.harmless cfg a)
      (initial localRandom random mem mapped) s) : s.process.env.reports = [] := by
  have hcalm : Calm cfg s := by
    apply hr.invariant (I := Calm cfg)
    · have hinv : Inv cfg (initial localRandom random mem mapped) := inv_initial _ _ _ _
      refine ⟨hinv, ?_, rfl⟩
      intro x ha
      exact absurd ha.2 (Nat.not_lt_zero _)
    · intro r a r' hr hok hn
      exact hr.step hd hf hok hn
  exact hcalm.reports

theorem calm_blank : Calm (.libdieharder true false) blank := by
  refine ⟨inv_initial _ _ _ _, ?_, rfl⟩
  intro x ha
  exact absurd ha.2 (Nat.not_lt_zero _)

theorem fillsWhole_blank {k cls : Nat}
    (h : (HeapConfig.libdieharder true false).nObjects ⟨k, cls, 0⟩ * getClassSize cls / 8 < 2 ^ 31) :
    (blank.process.random k cls).FillsWhole (.libdieharder true false) k cls := by
  intro i _ hle
  have hnone : (blank.process.random k cls).inUse = 0 := rfl
  have hpos := (HeapConfig.libdieharder true false).minObjects_pos cls
  have hden : (HeapConfig.libdieharder true false).denominator = 7 := rfl
  rw [hnone, hden] at hle
  split at hle
  · rename_i hzero
    rwa [hzero]
  · have hpow := Nat.mul_pos hpos (Nat.two_pow_pos (i - 1))
    omega

theorem step_of_run {cfg : HeapConfig} {s : Session} {a : ProgramAction}
    (h : (run (step cfg) s [a]).isSome) : s.step cfg a = some (final (step cfg) s [a]) := by
  have hrun := run_eq_final h
  rw [run_cons] at hrun
  obtain ⟨t, ht, he⟩ := Option.bind_eq_some_iff.mp hrun
  cases he
  exact ht

/-- With the parameters of `libdieharder.cpp`, the largest request gets the only slot of its miniheap. -/
def largestMalloc : ProgramAction := .malloc 0 1048576 [fun _ => 0x100000] [(0, 0)]

def largestObject : Session := final (step (.libdieharder true false)) blank [largestMalloc]

theorem largest_request : requestClass 1048576 = 16 ∧
    (HeapConfig.libdieharder true false).nObjects ⟨0, 16, 0⟩ = 1 ∧
    blank.process.env.Fresh (.libdieharder true false) ⟨0, requestClass 1048576,
      (blank.process.random 0 (requestClass 1048576)).miniHeapsInUse⟩ (fun _ => 0x100000) ∧
    (HeapConfig.libdieharder true false).nObjects ⟨0, requestClass 1048576, 0⟩ *
      getClassSize (requestClass 1048576) / 8 < 2 ^ 31 ∧
    0 < DieFast.words (getClassSize 16) := by decide +kernel

theorem largest_state : (run (step (.libdieharder true false)) blank [largestMalloc]).isSome = true ∧
    largestObject.live 0 0x100000 = some 1048576 ∧
    (largestObject.process.random 0 16).miniHeapsInUse = 1 ∧
    (largestObject.process.mini ⟨0, 16, 0⟩).freedValue = 1 ∧
    loadWord largestObject.process.env.mem (0x100000 + 8 * 0) = 0 := by decide +kernel

theorem step_largest : blank.step (.libdieharder true false) largestMalloc = some largestObject :=
  step_of_run largest_state.1

theorem correct_largest : blank.correct (.libdieharder true false) largestMalloc :=
  fun _ _ => ⟨largest_request.2.2.1, trivial⟩

/-- The free of the only slot looks at that slot. -/
theorem not_noReports_largest : ¬ ∀ s : Session,
    Reach (step (.libdieharder true false)) (correct (.libdieharder true false)) blank s →
      s.process.env.reports = [] := by
  intro h
  obtain ⟨hclass, hone, -, hfills, hwords⟩ := largest_request
  obtain ⟨-, hl, hminis, hvalue, hword⟩ := largest_state
  have hcalm : Calm (.libdieharder true false) largestObject :=
    calm_malloc rfl rfl calm_blank correct_largest (fun _ => fillsWhole_blank hfills) step_largest
  obtain ⟨x, hk, hc, hp, hb, -⟩ := hcalm.inv.free_live hl
  have hplaced := hcalm.inv.placed
  have hcls : x.id.cls = 16 := hc.trans hclass
  have hindex : x.id.index = 0 := by
    have hlt := (hplaced.bit_active hb).2
    rw [hk, hcls, ← Process.random, hminis] at hlt
    omega
  have hid : x.id = ⟨0, 16, 0⟩ := by
    calc x.id = ⟨x.id.owner, x.id.cls, x.id.index⟩ := rfl
      _ = ⟨0, 16, 0⟩ := by rw [hk, hcls, hindex]
  have hobjects : (HeapConfig.libdieharder true false).nObjects x.id = 1 := by
    rw [hid, hone]
  have hslot : x.index = 0 := by
    have hlt := (hplaced.bits x.id x.index hb).2
    omega
  have hright : rightIndex (.libdieharder true false) x.id x.index = x.index := by
    rw [rightIndex, hobjects, Nat.mod_one, hslot]
  have hcheck : DieFast.checkNot largestObject.process.env.mem
      ((largestObject.process.layout (.libdieharder true false) x.id).addr x.index)
      (getClassSize x.id.cls) (largestObject.process.mini x.id).freedValue = true := by
    rw [← hp, hcls, hid, DieFast.checkNot, List.any_eq_true]
    refine ⟨0, List.mem_range.mpr hwords, ?_⟩
    rw [hvalue, hword]
    decide
  have hcontains := Layout.contains_addr (hplaced.bit_slot hb)
  have halarm := hplaced.reports_ne_nil rfl hb hright hcontains hcheck
  rw [← hplaced.free_env (hplaced.bit_active hb) hcontains hb, ← hp, hk] at halarm
  have hstep : largestObject.step (.libdieharder true false) (.free 0 0x100000) = some (largestObject.record
      (largestObject.process.free (.libdieharder true false) 0 0x100000).2 0 0x100000 none) := by
    rw [step]
  have hcorrect : largestObject.correct (.libdieharder true false) (.free 0 0x100000) := by
    rw [correct, hl]
    exact Option.isSome_some
  have hnone := h _ ((Reach.refl.step correct_largest step_largest).step hcorrect hstep)
  exact halarm hnone

def smallMalloc : ProgramAction := .malloc 0 100 [fun _ => 4096] [(0, 5)]

def smallObject : Session := final (step (.libdieharder true false)) blank [smallMalloc]

def smallWritten : Session := final (step (.libdieharder true false)) smallObject [.write 4740 7]

theorem small_request : requestClass 100 = 3 ∧
    (HeapConfig.libdieharder true false).nObjects ⟨0, 3, 0⟩ = 2 ^ 13 ∧
    blank.process.env.Fresh (.libdieharder true false) ⟨0, requestClass 100,
      (blank.process.random 0 (requestClass 100)).miniHeapsInUse⟩ (fun _ => 4096) ∧
    (HeapConfig.libdieharder true false).nObjects ⟨0, requestClass 100, 0⟩ *
      getClassSize (requestClass 100) / 8 < 2 ^ 31 ∧
    4740 < 4736 + objectSize 100 := by decide +kernel

theorem small_state : (run (step (.libdieharder true false)) blank [smallMalloc]).isSome = true ∧
    (run (step (.libdieharder true false)) smallObject [.write 4740 7]).isSome = true ∧
    smallObject.live 0 4736 = some 100 ∧ smallWritten.live 0 4736 = some 100 ∧
    (smallWritten.process.random 0 3).miniHeapsInUse = 1 := by decide +kernel

theorem step_small : blank.step (.libdieharder true false) smallMalloc = some smallObject :=
  step_of_run small_state.1

theorem step_written : smallObject.step (.libdieharder true false) (.write 4740 7) = some smallWritten :=
  step_of_run small_state.2.1

theorem correct_small : blank.correct (.libdieharder true false) smallMalloc :=
  fun _ _ => ⟨small_request.2.2.1, trivial⟩

theorem harmless_small : blank.harmless (.libdieharder true false) smallMalloc :=
  fun _ => fillsWhole_blank small_request.2.2.2.1

theorem correct_written : smallObject.correct (.libdieharder true false) (.write 4740 7) :=
  ⟨0, 4736, 100, small_state.2.2.1, by decide, small_request.2.2.2.2⟩

theorem live_written : smallWritten.live 0 4736 = some 100 := small_state.2.2.2.1

theorem harmless_freed : smallWritten.harmless (.libdieharder true false) (.free 0 4736) := by
  intro x hk hb hp
  have hcalm : Calm (.libdieharder true false) smallWritten :=
    calm_write (calm_malloc rfl rfl calm_blank correct_small harmless_small step_small) correct_written
      step_written
  obtain ⟨y, hyk, hyc, hyp, hyb, -⟩ := hcalm.inv.free_live live_written
  obtain rfl := hcalm.inv.slot_inj hb hyb (hp.symm.trans hyp)
  have hcls : x.id.cls = 3 := hyc.trans small_request.1
  have hindex : x.id.index = 0 := by
    have hlt := (hcalm.inv.placed.bit_active hb).2
    rw [hk, hcls, ← Process.random, small_state.2.2.2.2] at hlt
    omega
  have hid : x.id = ⟨0, 3, 0⟩ := by
    calc x.id = ⟨x.id.owner, x.id.cls, x.id.index⟩ := rfl
      _ = ⟨0, 3, 0⟩ := by rw [hk, hcls, hindex]
  have hobjects : (HeapConfig.libdieharder true false).nObjects x.id = 2 ^ 13 := by
    rw [hid, small_request.2.1]
  have hlt := (hcalm.inv.placed.bits x.id x.index hb).2
  rw [hobjects] at hlt
  exact not_ownNeighbour_of_two_pow hobjects (by decide) (by decide) hlt

theorem noReports_small : (smallWritten.record
    (smallWritten.process.free (.libdieharder true false) 0 4736).2 0 4736 none).process.env.reports = [] := by
  have hfree : smallWritten.step (.libdieharder true false) (.free 0 4736) = some (smallWritten.record
      (smallWritten.process.free (.libdieharder true false) 0 4736).2 0 4736 none) := by
    rw [step]
  have hlive : smallWritten.correct (.libdieharder true false) (.free 0 4736) := by
    rw [correct, live_written]
    exact Option.isSome_some
  exact @reach_noReports (.libdieharder true false) _ rfl rfl _ _ _ _
    (((Reach.refl.step ⟨correct_small, harmless_small⟩ step_small).step ⟨correct_written, trivial⟩
      step_written).step ⟨hlive, harmless_freed⟩ hfree)

end Session

end DieHard
