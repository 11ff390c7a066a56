import DieHard.Concurrent.RandomHeap

/-!
# The growth protocol

One thread at a time holds the grow lock. While it activates a miniheap it stores three counters one after
the other, so in between some of them are one miniheap ahead of `_miniHeapsInUse`. The threads that draw
in the meantime still find activated miniheaps.
-/

namespace DieHard

open Transition

/-- The thread is between acquiring and releasing `_growLock`. -/
def HeapPc.holdsLock : HeapPc → Bool
  | loadMiniHeaps | lockedInUse _ | lockedAvailable _ _ | addAvailable _ | activate _ _
  | storeAvailable _ _ | storeChunks _ | storeMiniHeaps _ | unlock => true
  | _ => false

variable {cfg : HeapConfig} {cls : Nat} {arena : Arena cfg cls}

/-- The objects of the first `n` miniheaps. -/
def HeapConfig.availableIn (cfg : HeapConfig) (cls n : Nat) : Nat :=
  if n = 0 then 0 else 2 ^ (n - 1) * cfg.minObjects cls

theorem HeapConfig.availableIn_succ (cls n : Nat) :
    cfg.availableIn cls (n + 1) =
      if n = 0 then cfg.availableIn cls n + cfg.minObjects cls
      else cfg.availableIn cls n + (1 <<< (n - 1)) * cfg.minObjects cls := by
  cases n with
  | zero => simp [availableIn]
  | succ n =>
    simp only [availableIn, Nat.add_sub_cancel, Nat.one_shiftLeft, if_neg (Nat.succ_ne_zero _)]
    rw [Nat.pow_succ]
    ring

theorem HeapConfig.availableIn_mono (cls : Nat) {m n : Nat} (h : m ≤ n) :
    cfg.availableIn cls m ≤ cfg.availableIn cls n := by
  induction n, h using Nat.le_induction with
  | base => exact Nat.le_refl _
  | succ n _ ih =>
    rw [availableIn_succ]
    split <;> omega

theorem HeapConfig.availableIn_add_nObjects (cls i : Nat) :
    cfg.availableIn cls i + cfg.nObjects ⟨0, cls, i⟩ = cfg.availableIn cls (i + 1) := by
  rw [availableIn_succ, nObjects]
  split
  · rfl
  · rw [Nat.mul_comm (cfg.minObjects cls)]

/-- Miniheap `i` behind all smaller ones. -/
def HeapConfig.consecutiveLayout (cfg : HeapConfig) (cls i : Nat) : Blocks.Layout where
  size := getClassSize cls
  per := cfg.nObjects ⟨0, cls, i⟩
  count := 1
  base _ := (cfg.minObjects cls + cfg.availableIn cls i) * getClassSize cls
  size_pos := getClassSize_pos cls
  per_pos := cfg.nObjects_pos _

section Consecutive

variable (cfg : HeapConfig) (cls : Nat)

theorem HeapConfig.nObjects_le_consecutive (i : Nat) :
    cfg.nObjects ⟨0, cls, i⟩ ≤ (cfg.consecutiveLayout cls i).slots := by
  simp [Blocks.Layout.slots, consecutiveLayout]

theorem HeapConfig.separate_consecutive : Blocks.Separate (cfg.consecutiveLayout cls) fun _ => True := by
  intro i k j l _ _ hj hl hne
  simp only [consecutiveLayout, Nat.lt_one_iff] at hj hl
  have hik : i ≠ k := by
    rintro rfl
    exact hne (by rw [hj, hl])
  simp only [Blocks.Apart, Blocks.Layout.bytes, consecutiveLayout, ← Nat.add_mul]
  have hbefore {i k : Nat} (h : i < k) :
      (cfg.minObjects cls + cfg.availableIn cls i + cfg.nObjects ⟨0, cls, i⟩) * getClassSize cls ≤
        (cfg.minObjects cls + cfg.availableIn cls k) * getClassSize cls := by
    have hle := @HeapConfig.availableIn_mono cfg cls _ _ (Nat.succ_le_of_lt h)
    rw [Nat.succ_eq_add_one, ← HeapConfig.availableIn_add_nObjects] at hle
    exact Nat.mul_le_mul_right _ (by omega)
  rcases Nat.lt_or_gt_of_ne hik with h | h
  · exact Or.inl (hbefore h)
  · exact Or.inr (hbefore h)

theorem HeapConfig.consecutive_addr_ne_zero (i j : Nat) (_ : j < cfg.nObjects ⟨0, cls, i⟩) :
    (cfg.consecutiveLayout cls i).addr j ≠ 0 := by
  have hpos := Nat.mul_pos (cfg.minObjects_pos cls) (getClassSize_pos cls)
  simp only [Blocks.Layout.addr, consecutiveLayout, Nat.add_mul]
  omega

end Consecutive

/-- The miniheaps one after the other. -/
def Arena.consecutive (cfg : HeapConfig) (cls : Nat) : Arena cfg cls where
  layout := cfg.consecutiveLayout cls
  nObjects_le := cfg.nObjects_le_consecutive cls
  separate := cfg.separate_consecutive cls
  addr_ne_zero := cfg.consecutive_addr_ne_zero cls

/-- The counters are those of so many miniheaps beyond `_miniHeapsInUse`. -/
structure SharedHeap.Counters (cfg : HeapConfig) (cls : Nat) (h : SharedHeap)
    (activated available chunks : Nat) : Prop where
  activated_eq : h.activated = List.range (h.miniHeapsInUse + activated)
  available_eq : h.available = cfg.availableIn cls (h.miniHeapsInUse + available)
  chunksInUse_eq : h.chunksInUse = 2 ^ (h.miniHeapsInUse + chunks - 1) - 1
  miniHeaps_le : h.miniHeapsInUse + activated ≤ cfg.maxMiniHeaps

namespace SharedHeap

/-- What the holder of the lock knows, by the place where it stands. -/
def Held (cfg : HeapConfig) (cls : Nat) (h : SharedHeap) : HeapPc → Prop
  | .lockedInUse k | .lockedAvailable k _ => k = h.miniHeapsInUse ∧ h.Counters cfg cls 0 0 0
  | .addAvailable k => k = h.miniHeapsInUse ∧ k < cfg.maxMiniHeaps ∧ h.Counters cfg cls 0 0 0
  | .activate k newAvailable =>
    k = h.miniHeapsInUse ∧ k < cfg.maxMiniHeaps ∧ newAvailable = cfg.availableIn cls (k + 1) ∧
      h.Counters cfg cls 0 0 0
  | .storeAvailable k newAvailable =>
    k = h.miniHeapsInUse ∧ newAvailable = cfg.availableIn cls (k + 1) ∧ h.Counters cfg cls 1 0 0
  | .storeChunks k => k = h.miniHeapsInUse ∧ h.Counters cfg cls 1 1 0
  | .storeMiniHeaps k => k = h.miniHeapsInUse ∧ h.Counters cfg cls 1 1 1
  | _ => h.Counters cfg cls 0 0 0

/-- The fields that only the holder of the lock writes. -/
structure SameCounters (h h' : SharedHeap) : Prop where
  available_eq : h'.available = h.available
  miniHeapsInUse_eq : h'.miniHeapsInUse = h.miniHeapsInUse
  chunksInUse_eq : h'.chunksInUse = h.chunksInUse
  activated_eq : h'.activated = h.activated

variable {h h' : SharedHeap} {pc : HeapPc} {x y z : Nat}

theorem SameCounters.refl (h : SharedHeap) : SameCounters h h := ⟨rfl, rfl, rfl, rfl⟩

theorem SameCounters.counters (hs : SameCounters h h') (hc : h.Counters cfg cls x y z) :
    h'.Counters cfg cls x y z where
  activated_eq := by rw [hs.activated_eq, hs.miniHeapsInUse_eq, hc.activated_eq]
  available_eq := by rw [hs.available_eq, hs.miniHeapsInUse_eq, hc.available_eq]
  chunksInUse_eq := by rw [hs.chunksInUse_eq, hs.miniHeapsInUse_eq, hc.chunksInUse_eq]
  miniHeaps_le := by rw [hs.miniHeapsInUse_eq]; exact hc.miniHeaps_le

theorem SameCounters.held (hs : SameCounters h h') (hh : h.Held cfg cls pc) :
    h'.Held cfg cls pc := by
  cases pc <;> simp only [Held, hs.miniHeapsInUse_eq] at hh ⊢
  case lockedInUse | lockedAvailable => exact ⟨hh.1, hs.counters hh.2⟩
  case addAvailable => exact ⟨hh.1, hh.2.1, hs.counters hh.2.2⟩
  case activate => exact ⟨hh.1, hh.2.1, hh.2.2.1, hs.counters hh.2.2.2⟩
  case storeAvailable => exact ⟨hh.1, hh.2.1, hs.counters hh.2.2⟩
  case storeChunks | storeMiniHeaps => exact ⟨hh.1, hs.counters hh.2⟩
  all_goals exact hs.counters hh

theorem Held.counters (hh : h.Held cfg cls pc) :
    ∃ x y z, z ≤ y ∧ y ≤ x ∧ x ≤ 1 ∧ h.Counters cfg cls x y z := by
  cases pc <;> simp only [Held] at hh
  case lockedInUse | lockedAvailable => exact ⟨0, 0, 0, by omega, by omega, by omega, hh.2⟩
  case addAvailable => exact ⟨0, 0, 0, by omega, by omega, by omega, hh.2.2⟩
  case activate => exact ⟨0, 0, 0, by omega, by omega, by omega, hh.2.2.2⟩
  case storeAvailable => exact ⟨1, 0, 0, by omega, by omega, by omega, hh.2.2⟩
  case storeChunks => exact ⟨1, 1, 0, by omega, by omega, by omega, hh.2⟩
  case storeMiniHeaps => exact ⟨1, 1, 1, by omega, by omega, by omega, hh.2⟩
  all_goals exact ⟨0, 0, 0, by omega, by omega, by omega, hh⟩

theorem Counters.chosen_mem (hc : h.Counters cfg cls x y z) (hzx : z ≤ x) (hne : h.activated ≠ [])
    (random : Nat) : h.chosenMiniHeap random ∈ h.activated := by
  have hpos : 0 < h.miniHeapsInUse + x := by
    apply Nat.pos_of_ne_zero
    intro h0
    exact hne (by rw [hc.activated_eq, h0, List.range_zero])
  have hle : random &&& h.chunksInUse ≤ 2 ^ (h.miniHeapsInUse + z - 1) - 1 := by
    rw [← hc.chunksInUse_eq]
    exact Nat.and_le_right
  have hlog : h.chosenMiniHeap random ≤ h.miniHeapsInUse + z - 1 := by
    have htwo := Nat.two_pow_pos (h.miniHeapsInUse + z - 1)
    apply log2_le_iff.mpr
    omega
  rw [hc.activated_eq, List.mem_range]
  omega

theorem Counters.activated_ne_nil (hc : h.Counters cfg cls x y z) (hyx : y ≤ x)
    (hav : h.available ≠ 0) : h.activated ≠ [] := by
  intro hnil
  rw [hc.activated_eq, List.range_eq_nil] at hnil
  apply hav
  rw [hc.available_eq, HeapConfig.availableIn, if_pos (by omega)]

/-- What a thread that draws knows. -/
def Choosing (h : SharedHeap) : HeapPc → Prop
  | .getObject _ => h.activated ≠ []
  | .tryToSet _ index => index ∈ h.activated
  | _ => True

theorem Choosing.mono (hch : h.Choosing pc) (hsub : h.activated ⊆ h'.activated) :
    h'.Choosing pc := by
  cases pc
  case getObject => exact fun hnil => hch (List.subset_nil.mp (hnil ▸ hsub))
  case tryToSet => exact hsub hch
  all_goals trivial

end SharedHeap

namespace ConcurrentHeap

variable {h : SharedHeap} {pc : HeapPc} {random : Nat} {s s' : ConcurrentHeap} {a : Action}

open SharedHeap

theorem available_ne_zero {inUse available : Nat} (hn : needsGrowth cfg inUse available = false) :
    available ≠ 0 := by
  rintro rfl
  simp [needsGrowth] at hn

theorem freeIn_sameCounters {h' : SharedHeap} {i ptr : Nat}
    (hf : freeIn cfg cls arena h i ptr = some h') :
    SameCounters h h' ∧ h'.growLock = h.growLock := by
  obtain ⟨j, -, -, rfl⟩ := freeIn_eq hf
  exact ⟨⟨rfl, rfl, rfl, rfl⟩, rfl⟩

theorem inUse_sameCounters (h : SharedHeap) (n : Nat) :
    SameCounters h { h with inUse := n } ∧ { h with inUse := n }.growLock = h.growLock :=
  ⟨⟨rfl, rfl, rfl, rfl⟩, rfl⟩

theorem addInUse_sameCounters (h : SharedHeap) :
    SameCounters h h.addInUse ∧ h.addInUse.growLock = h.growLock :=
  inUse_sameCounters h (sizeSucc h.inUse)

theorem subInUse_sameCounters (h : SharedHeap) :
    SameCounters h h.subInUse ∧ h.subInUse.growLock = h.growLock :=
  inUse_sameCounters h (sizeSub h.inUse 1)

/-- A thread without the lock leaves the counters alone, and may take a free lock. -/
theorem access_outside (hpc : pc.holdsLock = false) :
    SameCounters h (access cfg cls arena random h pc).1 ∧
      ((access cfg cls arena random h pc).1.growLock = h.growLock ∧
          (access cfg cls arena random h pc).2.holdsLock = false ∨
        h.growLock = false ∧ (access cfg cls arena random h pc).1.growLock = true ∧
          (access cfg cls arena random h pc).2 = .loadMiniHeaps) := by
  cases pc with
  | tryLock | retryLock =>
    rw [access]
    cases hlock : h.growLock with
    | false => exact ⟨⟨rfl, rfl, rfl, rfl⟩, Or.inr ⟨rfl, rfl, rfl⟩⟩
    | true => exact ⟨.refl h, Or.inl ⟨hlock, rfl⟩⟩
  | loadAvailable | growAvailable | spin | recheckAvailable | loadNumHeaps =>
    rw [access]
    refine ⟨.refl h, Or.inl ⟨rfl, ?_⟩⟩
    split <;> rfl
  | tryToSet again index =>
    rw [access]
    split
    · exact ⟨.refl h, Or.inl ⟨rfl, rfl⟩⟩
    · exact ⟨⟨rfl, rfl, rfl, rfl⟩, Or.inl ⟨rfl, rfl⟩⟩
  | freeCached ptr cached numHeaps =>
    rw [access]
    split
    · next h' hf =>
      obtain ⟨hsame, hlock⟩ := freeIn_sameCounters hf
      exact ⟨hsame, Or.inl ⟨hlock, rfl⟩⟩
    · exact ⟨.refl h, Or.inl ⟨rfl, rfl⟩⟩
  | freeSearch ptr cached left =>
    cases left with
    | zero => exact ⟨.refl h, Or.inl ⟨rfl, rfl⟩⟩
    | succ i =>
      rw [access]
      split
      · exact ⟨.refl h, Or.inl ⟨rfl, rfl⟩⟩
      split
      · next h' hf =>
        obtain ⟨hsame, hlock⟩ := freeIn_sameCounters hf
        exact ⟨hsame, Or.inl ⟨hlock, rfl⟩⟩
      · exact ⟨.refl h, Or.inl ⟨rfl, rfl⟩⟩
  | loadMiniHeaps | lockedInUse | lockedAvailable | addAvailable | activate | storeAvailable
  | storeChunks | storeMiniHeaps | unlock => cases hpc
  | addInUse ptr =>
    obtain ⟨hsame, hlock⟩ := addInUse_sameCounters h
    exact ⟨hsame, Or.inl ⟨hlock, rfl⟩⟩
  | subInUse =>
    obtain ⟨hsame, hlock⟩ := subInUse_sameCounters h
    exact ⟨hsame, Or.inl ⟨hlock, rfl⟩⟩
  | idle | loadInUse | growInUse | recheckInUse | getObject | loadCached | storeCached =>
    rw [access]
    exact ⟨⟨rfl, rfl, rfl, rfl⟩, Or.inl ⟨rfl, rfl⟩⟩

/-- The holder goes through its protocol, and leaves the counters of whole miniheaps behind. -/
theorem access_holding (hpc : pc.holdsLock = true) (hh : h.Held cfg cls pc) :
    (access cfg cls arena random h pc).2.holdsLock = true ∧
        (access cfg cls arena random h pc).1.growLock = h.growLock ∧
        (access cfg cls arena random h pc).1.Held cfg cls (access cfg cls arena random h pc).2 ∨
      (access cfg cls arena random h pc).2.holdsLock = false ∧
        (access cfg cls arena random h pc).1.growLock = false ∧
        (access cfg cls arena random h pc).1.Counters cfg cls 0 0 0 := by
  cases pc with
  | loadMiniHeaps => exact Or.inl ⟨rfl, rfl, rfl, hh⟩
  | lockedInUse k => exact Or.inl ⟨rfl, rfl, hh⟩
  | lockedAvailable k inUse =>
    obtain ⟨hk, hc⟩ := hh
    rw [access]
    refine Or.inl ?_
    split
    · exact ⟨rfl, rfl, hc⟩
    split
    · next hmax => exact ⟨rfl, rfl, hk, hmax, hc⟩
    · exact ⟨rfl, rfl, hc⟩
  | addAvailable k =>
    obtain ⟨rfl, hmax, hc⟩ := hh
    have hsucc : cfg.availableIn cls (h.miniHeapsInUse + 1) = _ := HeapConfig.availableIn_succ cls _
    have hav : h.available = cfg.availableIn cls h.miniHeapsInUse := hc.available_eq
    rw [← hav] at hsucc
    exact Or.inl ⟨rfl, rfl, rfl, hmax, hsucc.symm, hc⟩
  | activate k newAvailable =>
    obtain ⟨rfl, hmax, hnew, hc⟩ := hh
    have hact : h.activated ++ [h.miniHeapsInUse] = List.range (h.miniHeapsInUse + 1) := by
      rw [hc.activated_eq, Nat.add_zero, List.range_succ]
    exact Or.inl ⟨rfl, rfl, rfl, hnew, hact, hc.available_eq, hc.chunksInUse_eq, hmax⟩
  | storeAvailable k newAvailable =>
    obtain ⟨rfl, hnew, hc⟩ := hh
    exact Or.inl ⟨rfl, rfl, rfl, hc.activated_eq, hnew, hc.chunksInUse_eq, hc.miniHeaps_le⟩
  | storeChunks k =>
    obtain ⟨rfl, hc⟩ := hh
    have hchunks : (1 <<< h.miniHeapsInUse) - 1 = 2 ^ (h.miniHeapsInUse + 1 - 1) - 1 := by
      rw [Nat.one_shiftLeft, Nat.add_sub_cancel]
    exact Or.inl ⟨rfl, rfl, rfl, hc.activated_eq, hc.available_eq, hchunks, hc.miniHeaps_le⟩
  | storeMiniHeaps k =>
    obtain ⟨rfl, hc⟩ := hh
    exact Or.inl ⟨rfl, rfl, hc.activated_eq, hc.available_eq, hc.chunksInUse_eq, hc.miniHeaps_le⟩
  | unlock => exact Or.inr ⟨rfl, rfl, hh.activated_eq, hh.available_eq, hh.chunksInUse_eq, hh.miniHeaps_le⟩
  | _ => cases hpc

theorem access_activated (hpc : pc.holdsLock = true) :
    h.activated ⊆ (access cfg cls arena random h pc).1.activated := by
  cases pc with
  | activate k newAvailable => exact List.subset_append_left _ _
  | loadMiniHeaps | lockedInUse | lockedAvailable | addAvailable | storeAvailable | storeChunks
  | storeMiniHeaps | unlock => exact List.Subset.refl _
  | _ => cases hpc

/-- A thread comes to draw through the check, which needs an activated miniheap. -/
theorem access_choosing {x y z : Nat} (hc : h.Counters cfg cls x y z) (hzx : z ≤ x) (hyx : y ≤ x)
    (hch : h.Choosing pc) :
    (access cfg cls arena random h pc).1.Choosing (access cfg cls arena random h pc).2 := by
  have hpass {inUse : Nat} (hn : ¬ needsGrowth cfg inUse h.available = true) : h.activated ≠ [] :=
    hc.activated_ne_nil hyx (available_ne_zero (by simpa using hn))
  cases pc with
  | loadAvailable inUse | growAvailable inUse =>
    rw [access]
    split
    · trivial
    · next hn => exact hpass hn
  | getObject again => exact hc.chosen_mem hzx hch random
  | tryToSet again index =>
    rw [access]
    split
    · exact List.ne_nil_of_mem hch
    · trivial
  | spin | recheckAvailable | lockedAvailable | loadNumHeaps =>
    rw [access]
    repeat' split
    all_goals trivial
  | tryLock | retryLock | freeCached =>
    rw [access]
    split <;> trivial
  | freeSearch ptr cached left =>
    cases left with
    | zero => trivial
    | succ i =>
      rw [access]
      repeat' split
      all_goals trivial
  | _ => trivial

end ConcurrentHeap

/-- The invariant of the growth protocol. -/
structure Growing (cfg : HeapConfig) (cls : Nat) (s : ConcurrentHeap) : Prop where
  unique : ∀ t u, (s.pc t).holdsLock = true → (s.pc u).holdsLock = true → t = u
  locked : s.heap.growLock = true ↔ ∃ t, (s.pc t).holdsLock = true
  held : ∀ t, (s.pc t).holdsLock = true → s.heap.Held cfg cls (s.pc t)
  rest : s.heap.growLock = false → s.heap.Counters cfg cls 0 0 0
  choosing : ∀ t, s.heap.Choosing (s.pc t)

namespace Growing

variable {s s' : ConcurrentHeap} {a : ConcurrentHeap.Action}

open ConcurrentHeap

theorem initial : Growing cfg cls .initial where
  unique _ _ ht := by cases ht
  locked := by simp [ConcurrentHeap.initial, SharedHeap.initial, HeapPc.holdsLock]
  held _ ht := by cases ht
  rest _ := ⟨rfl, rfl, rfl, Nat.zero_le _⟩
  choosing _ := trivial

theorem counters (hg : Growing cfg cls s) :
    ∃ x y z, z ≤ y ∧ y ≤ x ∧ x ≤ 1 ∧ s.heap.Counters cfg cls x y z := by
  cases hlock : s.heap.growLock with
  | false => exact ⟨0, 0, 0, by omega, by omega, by omega, hg.rest hlock⟩
  | true =>
    obtain ⟨t, ht⟩ := hg.locked.mp hlock
    exact (hg.held t ht).counters

variable {t : Nat} {r : SharedHeap × HeapPc}

private theorem choosing_move (hg : Growing cfg cls s) (hsub : s.heap.activated ⊆ r.1.activated)
    (hch : r.1.Choosing r.2) (u : Nat) : (s.move t r).heap.Choosing ((s.move t r).pc u) := by
  by_cases hu : u = t
  · subst hu
    rw [move_pc]
    exact hch
  · rw [move_pc_of_ne hu]
    exact (hg.choosing u).mono hsub

theorem move_outside (hg : Growing cfg cls s) (hout : (s.pc t).holdsLock = false)
    (hpc : r.2.holdsLock = false) (hsame : SharedHeap.SameCounters s.heap r.1)
    (hlock : r.1.growLock = s.heap.growLock) (hch : r.1.Choosing r.2) :
    Growing cfg cls (s.move t r) := by
  have hholds (u : Nat) : ((s.move t r).pc u).holdsLock = (s.pc u).holdsLock := by
    by_cases hu : u = t
    · rw [hu, move_pc, hpc, hout]
    · rw [move_pc_of_ne hu]
  refine ⟨?_, ?_, ?_, ?_, hg.choosing_move (fun _ hi => hsame.activated_eq ▸ hi) hch⟩
  · intro u v hu hv
    exact hg.unique u v (hholds u ▸ hu) (hholds v ▸ hv)
  · simp only [hholds, move_heap, hlock]
    exact hg.locked
  · intro u hu
    have hne : u ≠ t := by
      rintro rfl
      rw [hholds, hout] at hu
      cases hu
    rw [move_pc_of_ne hne]
    exact hsame.held (hg.held u (hholds u ▸ hu))
  · intro h
    exact hsame.counters (hg.rest (hlock ▸ h))

/-- A thread takes the free lock. -/
theorem move_acquire (hg : Growing cfg cls s) (hfree : s.heap.growLock = false)
    (hpc : r.2 = .loadMiniHeaps) (hsame : SharedHeap.SameCounters s.heap r.1)
    (hlock : r.1.growLock = true) : Growing cfg cls (s.move t r) := by
  have hnone (u : Nat) : (s.pc u).holdsLock = false := by
    rw [Bool.eq_false_iff]
    intro hu
    rw [hg.locked.mpr ⟨u, hu⟩] at hfree
    cases hfree
  have honly (u : Nat) (hu : ((s.move t r).pc u).holdsLock = true) : u = t := by
    by_contra hne
    rw [move_pc_of_ne hne, hnone] at hu
    cases hu
  have hch : r.1.Choosing r.2 := by
    rw [hpc]
    trivial
  refine ⟨?_, ?_, ?_, ?_, hg.choosing_move (fun _ hi => hsame.activated_eq ▸ hi) hch⟩
  · intro u v hu hv
    rw [honly u hu, honly v hv]
  · refine iff_of_true hlock ⟨t, ?_⟩
    rw [move_pc, hpc]
    rfl
  · intro u hu
    rw [honly u hu, move_pc, hpc]
    exact hsame.counters (hg.rest hfree)
  · intro h
    rw [move_heap, hlock] at h
    cases h

/-- The holder goes on, or lets the lock go. -/
theorem move_holder (hg : Growing cfg cls s) (hhold : (s.pc t).holdsLock = true)
    (hsub : s.heap.activated ⊆ r.1.activated) (hch : r.1.Choosing r.2)
    (hstep : r.2.holdsLock = true ∧ r.1.growLock = s.heap.growLock ∧ r.1.Held cfg cls r.2 ∨
      r.2.holdsLock = false ∧ r.1.growLock = false ∧ r.1.Counters cfg cls 0 0 0) :
    Growing cfg cls (s.move t r) := by
  have honly (u : Nat) (hu : ((s.move t r).pc u).holdsLock = true) : u = t := by
    by_contra hne
    rw [move_pc_of_ne hne] at hu
    exact hne (hg.unique u t hu hhold)
  have hunique (u v : Nat) (hu : ((s.move t r).pc u).holdsLock = true)
      (hv : ((s.move t r).pc v).holdsLock = true) : u = v := by
    rw [honly u hu, honly v hv]
  rcases hstep with ⟨hpc, hlock, hheld⟩ | ⟨hpc, hlock, hcounters⟩
  · have htrue : r.1.growLock = true := by
      rw [hlock]
      exact hg.locked.mpr ⟨t, hhold⟩
    refine ⟨hunique, iff_of_true htrue ⟨t, ?_⟩, ?_, ?_, hg.choosing_move hsub hch⟩
    · rw [move_pc]
      exact hpc
    · intro u hu
      rw [honly u hu, move_pc]
      exact hheld
    · intro h
      rw [move_heap, htrue] at h
      cases h
  · have hnone (u : Nat) : ¬ ((s.move t r).pc u).holdsLock = true := by
      intro hu
      rw [honly u hu, move_pc, hpc] at hu
      cases hu
    refine ⟨hunique, ?_, fun u hu => absurd hu (hnone u), fun _ => hcounters,
      hg.choosing_move hsub hch⟩
    rw [move_heap, hlock]
    exact iff_of_false Bool.false_ne_true fun ⟨u, hu⟩ => hnone u hu

private theorem idle_holdsLock {pc : HeapPc} (h : pc.isIdle = true) : pc.holdsLock = false := by
  cases pc <;> first | rfl | cases h

theorem next (hg : Growing cfg cls s) (h : ConcurrentHeap.next cfg cls arena s a = some s') :
    Growing cfg cls s' := by
  obtain ⟨t, -, hidle, rfl⟩ | ⟨t, ptr, -, hidle, rfl⟩ | ⟨t, random, -, -, rfl⟩ := next_cases h
  · exact hg.move_outside (idle_holdsLock hidle) rfl (.refl _) rfl trivial
  · exact hg.move_outside (idle_holdsLock hidle) rfl (.refl _) rfl trivial
  · obtain ⟨x, y, z, hzy, hyx, -, hc⟩ := hg.counters
    have hch := @access_choosing cfg cls arena s.heap (s.pc t) random _ _ _ hc (hzy.trans hyx) hyx (hg.choosing t)
    cases hpc : (s.pc t).holdsLock with
    | true =>
      exact hg.move_holder hpc (access_activated hpc) hch (access_holding hpc (hg.held t hpc))
    | false =>
      obtain ⟨hsame, ⟨hlock, hout⟩ | ⟨hfree, htaken, hload⟩⟩ :=
        @access_outside cfg cls arena s.heap (s.pc t) random hpc
      · exact hg.move_outside hpc hout hsame hlock hch
      · exact hg.move_acquire hfree hload hsame htaken

end Growing

namespace ConcurrentHeap

theorem growing_of_reach {ok : ConcurrentHeap → Action → Prop} {s : ConcurrentHeap}
    (h : Reach (next cfg cls arena) ok .initial s) : Growing cfg cls s :=
  h.invariant .initial fun _ _ _ hg _ hn => hg.next hn

/-- Under any interleaving one thread at a time holds the grow lock, the miniheaps are activated once each
and in order, the counters speak of whole miniheaps whenever the lock is free, and once there is a
miniheap every draw finds an activated one. -/
theorem reach_growthProtocol {s : ConcurrentHeap}
    (h : Reach (next cfg cls arena) (fun _ _ => True) .initial s) :
    (∀ t u, (s.pc t).holdsLock = true → (s.pc u).holdsLock = true → t = u) ∧
    s.heap.activated = List.range s.heap.activated.length ∧
    s.heap.activated.length ≤ cfg.maxMiniHeaps ∧
    (s.heap.growLock = false → ∀ k, k = s.heap.miniHeapsInUse →
      s.heap.activated.length = k ∧
      (k = 0 → s.heap.available = 0 ∧ s.heap.chunksInUse = 0) ∧
      (1 ≤ k → s.heap.available = 2 ^ (k - 1) * cfg.minObjects cls ∧
        s.heap.chunksInUse = 2 ^ (k - 1) - 1)) ∧
    (1 ≤ s.heap.miniHeapsInUse ∨ (∃ t again, s.pc t = .getObject again) →
      ∀ random, log2 ((random &&& s.heap.chunksInUse) + 1) ∈ s.heap.activated) := by
  have hg := growing_of_reach h
  obtain ⟨x, y, z, hzy, hyx, hx, hc⟩ := hg.counters
  have hlen : s.heap.activated.length = s.heap.miniHeapsInUse + x := by
    rw [hc.activated_eq, List.length_range]
  refine ⟨hg.unique, ?_, ?_, ?_, ?_⟩
  · rw [hlen]
    exact hc.activated_eq
  · rw [hlen]
    exact hc.miniHeaps_le
  · rintro hfree k rfl
    have hrest := hg.rest hfree
    refine ⟨?_, ?_, ?_⟩
    · rw [hrest.activated_eq, List.length_range, Nat.add_zero]
    · intro h0
      refine ⟨?_, ?_⟩
      · rw [hrest.available_eq, h0]
        rfl
      · rw [hrest.chunksInUse_eq, h0]
        rfl
    · intro h1
      refine ⟨?_, ?_⟩
      · rw [hrest.available_eq, Nat.add_zero, HeapConfig.availableIn, if_neg (by omega)]
      · rw [hrest.chunksInUse_eq, Nat.add_zero]
  · intro hready random
    apply hc.chosen_mem (hzy.trans hyx)
    rcases hready with hone | ⟨t, again, ht⟩
    · rw [hc.activated_eq, ne_eq, List.range_eq_nil]
      omega
    · have hch := hg.choosing t
      rw [ht] at hch
      exact hch

def firstGrowth : List Action := .malloc 0 :: List.replicate 13 (.step 0 0)

theorem growthProtocol_firstGrowth :
    log2 ((5 &&& (final (next (.libdieharder false false) 16 (.consecutive _ 16)) .initial
        firstGrowth).heap.chunksInUse) + 1) ∈
      (final (next (.libdieharder false false) 16 (.consecutive _ 16)) .initial
        firstGrowth).heap.activated :=
  (reach_growthProtocol (reach_final (guarded_true _ _ _) (by decide +kernel))).2.2.2.2
    (Or.inl (by decide +kernel)) 5

end ConcurrentHeap

end DieHard
