import DieHard.Heap.Growth

/-!
# Allocation

A `malloc` activates miniheaps while the heap is too full, then draws slots until it hits a free one.
Growth extends the placement; the draw that succeeds sets the bit of one slot that was clear.
-/

namespace DieHard

open Blocks

variable {cfg : HeapConfig}

/-- Every active miniheap of `s` is still active in `s'`, with the same layout. -/
structure Process.Extends (cfg : HeapConfig) (s s' : Process) : Prop where
  active : ∀ id, s.Active cfg id → s'.Active cfg id
  layout_eq : ∀ id, s.Active cfg id → s'.layout cfg id = s.layout cfg id

namespace Process

variable {s s' s'' : Process}

theorem Extends.refl (s : Process) : s.Extends cfg s := ⟨fun _ h => h, fun _ _ => rfl⟩

theorem Extends.trans (h : s.Extends cfg s') (h' : s'.Extends cfg s'') : s.Extends cfg s'' :=
  ⟨fun id ha => h'.active id (h.active id ha),
    fun id ha => (h'.layout_eq id (h.active id ha)).trans (h.layout_eq id ha)⟩

theorem SameLayout.extends (h : s.SameLayout s') : s.Extends cfg s' :=
  ⟨fun id => (h.active_iff id).mpr, fun id _ => h.layout_eq id⟩

theorem Extends.contains (h : s.Extends cfg s') {x : Slot} {p : Nat} (ha : s.Active cfg x.id)
    (hx : (s.layout cfg x.id).Contains x.index p) : (s'.layout cfg x.id).Contains x.index p := by
  rwa [h.layout_eq _ ha]

end Process

/-- The random heap with its next miniheap activated. -/
def RandomHeap.grown (cfg : HeapConfig) (cls : Nat) (h : RandomHeap) (m : MiniHeap) : RandomHeap :=
  { h with
    miniHeaps := Function.update h.miniHeaps h.miniHeapsInUse m
    available :=
      if h.miniHeapsInUse = 0 then h.available + cfg.minObjects cls
      else h.available + (1 <<< (h.miniHeapsInUse - 1)) * cfg.minObjects cls
    chunksInUse := (1 <<< h.miniHeapsInUse) - 1
    miniHeapsInUse := h.miniHeapsInUse + 1 }

theorem countersOk_grown {cls : Nat} {h : RandomHeap} (hc : CountersOk cfg cls h)
    (hlt : h.miniHeapsInUse < cfg.maxMiniHeaps) (m : MiniHeap) :
    CountersOk cfg cls (h.grown cfg cls m) := by
  refine ⟨hlt, ?_, ?_⟩
  · have ha := hc.available_eq
    simp only [RandomHeap.grown, Nat.succ_ne_zero, if_false, Nat.add_sub_cancel]
    by_cases h0 : h.miniHeapsInUse = 0
    · rw [if_pos h0] at ha ⊢
      rw [ha, h0, Nat.pow_zero, Nat.mul_one, Nat.zero_add]
    · rw [if_neg h0] at ha ⊢
      obtain ⟨n, hn⟩ := Nat.exists_eq_succ_of_ne_zero h0
      rw [ha, hn, Nat.succ_sub_one, Nat.one_shiftLeft, Nat.pow_succ]
      ring
  · simp only [RandomHeap.grown, Nat.add_sub_cancel, Nat.one_shiftLeft]

namespace Placed

variable {s : Process} {k cls : Nat} {source : Nat → Addr}

section Grown

variable (s k cls) (m : MiniHeap) (env : Env)

def nextId : MiniId := ⟨k, cls, (s.random k cls).miniHeapsInUse⟩

def grownProcess (cfg : HeapConfig) : Process :=
  s.setRandom k cls ((s.random k cls).grown cfg cls m) env

theorem mini_grown (id : MiniId) :
    (grownProcess s k cls m env cfg).mini id = if id = nextId s k cls then m else s.mini id := by
  rw [grownProcess, Process.mini_setRandom]
  by_cases hid : id = nextId s k cls
  · rw [hid, if_pos ⟨rfl, rfl⟩, if_pos rfl]
    simp [RandomHeap.grown, nextId]
  · rw [if_neg hid]
    split
    · rename_i he
      have hne : id.index ≠ (s.random k cls).miniHeapsInUse := by
        intro hi
        refine hid ?_
        cases id
        simp_all [nextId]
      obtain ⟨rfl, rfl⟩ := he
      exact Function.update_of_ne hne _ _
    · rfl

theorem active_grown (hc : cls < cfg.maxIndex) (id : MiniId) :
    (grownProcess s k cls m env cfg).Active cfg id ↔ s.Active cfg id ∨ id = nextId s k cls := by
  rw [Process.Active, Process.Active, grownProcess, Process.setRandom_heaps]
  by_cases he : id.owner = k ∧ id.cls = cls
  · obtain ⟨rfl, rfl⟩ := he
    have hnext : id = nextId s id.owner id.cls ↔
        id.index = (s.random id.owner id.cls).miniHeapsInUse := by
      cases id
      simp [nextId]
    rw [if_pos ⟨rfl, rfl⟩, hnext]
    simp only [RandomHeap.grown, Process.random, hc, true_and]
    omega
  · rw [if_neg he]
    have hnext : id ≠ nextId s k cls := by
      rintro rfl
      exact he ⟨rfl, rfl⟩
    simp [hnext]

theorem next_not_active : ¬ s.Active cfg (nextId s k cls) := by
  rintro ⟨-, h⟩
  exact Nat.lt_irrefl _ h

theorem layout_grown_of_active {id : MiniId} (ha : s.Active cfg id) :
    (grownProcess s k cls m env cfg).layout cfg id = s.layout cfg id := by
  have hne : id ≠ nextId s k cls := by
    rintro rfl
    exact next_not_active s k cls ha
  rw [Process.layout, mini_grown, if_neg hne, Process.layout]

theorem layout_grown_next :
    (grownProcess s k cls m env cfg).layout cfg (nextId s k cls) = cfg.layout (nextId s k cls) m := by
  rw [Process.layout, mini_grown, if_pos rfl]

end Grown

private theorem separate_grown (h : Placed cfg s) (hc : cls < cfg.maxIndex)
    (hf : s.env.Fresh cfg (nextId s k cls) source) {m : MiniHeap} {env : Env}
    (hact : Activation cfg (nextId s k cls) source s.env m env) :
    Separate ((grownProcess s k cls m env cfg).layout cfg)
      ((grownProcess s k cls m env cfg).Active cfg) := by
  -- a block of the new miniheap against a block of an old one
  have hnew : ∀ id j i, s.Active cfg id → j < (s.layout cfg id).count →
      i < (cfg.layout (nextId s k cls) m).count →
      Apart ((cfg.layout (nextId s k cls) m).base i) (cfg.layout (nextId s k cls) m).bytes
        ((s.layout cfg id).base j) (s.layout cfg id).bytes := by
    intro id j i ha hj hi
    rw [hact.base i hi]
    exact (hf.1 i hi).2.2 _ (h.base id j ha hj).2.2
  intro a b i j ha hb hi hj hne
  rcases (active_grown s k cls m env hc a).mp ha with ha | rfl
  · rw [layout_grown_of_active s k cls m env ha] at hi ⊢
    rcases (active_grown s k cls m env hc b).mp hb with hb | rfl
    · rw [layout_grown_of_active s k cls m env hb] at hj ⊢
      exact h.separate a b i j ha hb hi hj hne
    · rw [layout_grown_next] at hj ⊢
      exact (hnew a i j ha hi hj).symm
  · rw [layout_grown_next] at hi ⊢
    rcases (active_grown s k cls m env hc b).mp hb with hb | rfl
    · rw [layout_grown_of_active s k cls m env hb] at hj ⊢
      exact hnew b j i hb hj hi
    · rw [layout_grown_next] at hj ⊢
      have hij : i ≠ j := fun he => hne (by rw [he])
      rw [hact.base i hi, hact.base j hj]
      exact hf.2 i hi j hj hij

/-- Placement after the activation of the next miniheap on fresh blocks. -/
theorem placed_grown (h : Placed cfg s) (hc : cls < cfg.maxIndex)
    (hlt : (s.random k cls).miniHeapsInUse < cfg.maxMiniHeaps)
    (hf : s.env.Fresh cfg (nextId s k cls) source) {m : MiniHeap} {env : Env}
    (hact : Activation cfg (nextId s k cls) source s.env m env) :
    Placed cfg (grownProcess s k cls m env cfg) := by
  have hsep := h.separate_grown hc hf hact
  have hnextActive : (grownProcess s k cls m env cfg).Active cfg (nextId s k cls) :=
    (active_grown s k cls m env hc _).mpr (Or.inr rfl)
  refine ⟨?_, ?_, hsep, ?_, ?_, ?_⟩
  · intro id
    rw [active_grown s k cls m env hc, mini_grown]
    split
    · rename_i he
      simp [he, hact.activated]
    · rename_i hne
      simp [hne, h.activated id]
  · intro id j ha hj
    rcases (active_grown s k cls m env hc id).mp ha with ha | rfl
    · rw [layout_grown_of_active s k cls m env ha] at hj ⊢
      obtain ⟨h1, h2, h3⟩ := h.base id j ha hj
      exact ⟨h1, h2, (hact.mapped _).mpr (Or.inr h3)⟩
    · rw [layout_grown_next] at hj ⊢
      rw [hact.base j hj]
      obtain ⟨h1, h2, -⟩ := hf.1 j hj
      exact ⟨h1, h2, (hact.mapped _).mpr (Or.inl ⟨j, hj, rfl⟩)⟩
  · intro hd p e
    have hold := h.pageTable hd p e
    show env.pageTable _ = some e ↔ _
    by_cases hin : ∃ j, (cfg.layout (nextId s k cls) m).InBlock j p
    · obtain ⟨j, hj⟩ := hin
      have hentry := hact.entry hd j p hj
      have hj' : ((grownProcess s k cls m env cfg).layout cfg (nextId s k cls)).InBlock j p := by
        rwa [layout_grown_next]
      constructor
      · intro he
        rw [hentry] at he
        cases he
        refine ⟨hnextActive, j, hj', ?_⟩
        rw [layout_grown_next]
      · rintro ⟨ha, i, hi, hidx⟩
        obtain ⟨hid, rfl⟩ := hsep.block_unique ha hnextActive hi hj'
        rw [hentry]
        cases e
        simp only at hid hidx
        subst hid
        rw [hidx, layout_grown_next]
    · rw [hact.other p (not_exists.mp hin), hold]
      constructor
      · rintro ⟨ha, j, hj, hidx⟩
        refine ⟨(active_grown s k cls m env hc _).mpr (Or.inl ha), j, ?_, ?_⟩
        · rwa [layout_grown_of_active s k cls m env ha]
        · rwa [layout_grown_of_active s k cls m env ha]
      · rintro ⟨ha, j, hj, hidx⟩
        rcases (active_grown s k cls m env hc _).mp ha with ha | he
        · rw [layout_grown_of_active s k cls m env ha] at hj hidx
          exact ⟨ha, j, hj, hidx⟩
        · rw [he, layout_grown_next] at hj
          exact absurd ⟨j, hj⟩ hin
  · intro id i hi
    rw [mini_grown] at hi
    split at hi
    · rw [hact.clear i] at hi
      cases hi
    · obtain ⟨ha, hlt⟩ := h.bits id i hi
      exact ⟨(active_grown s k cls m env hc id).mpr (Or.inl ha), hlt⟩
  · intro k' cls'
    rw [grownProcess, Process.setRandom_heaps]
    split
    · rename_i he
      obtain ⟨rfl, rfl⟩ := he
      exact countersOk_grown (h.counters k' cls') hlt m
    · exact h.counters k' cls'

end Placed

/-- What one growth step keeps. -/
structure Process.Grew (cfg : HeapConfig) (s s' : Process) : Prop where
  placed : Placed cfg s'
  extends' : s.Extends cfg s'
  bit_eq : ∀ y, s'.bit y = s.bit y
  inUse_eq : ∀ k cls, (s'.random k cls).inUse = (s.random k cls).inUse

theorem Process.Grew.trans {s s' s'' : Process} (h : s.Grew cfg s') (h' : s'.Grew cfg s'') :
    s.Grew cfg s'' :=
  ⟨h'.placed, h.extends'.trans h'.extends', fun y => (h'.bit_eq y).trans (h.bit_eq y),
    fun k cls => (h'.inUse_eq k cls).trans (h.inUse_eq k cls)⟩

/-- `getAnotherMiniHeap` on fresh memory keeps the placement. -/
theorem Placed.getAnotherMiniHeap {s : Process} (h : Placed cfg s) {k cls : Nat}
    (hc : cls < cfg.maxIndex) {source : Nat → Addr}
    (hf : s.env.Fresh cfg ⟨k, cls, (s.random k cls).miniHeapsInUse⟩ source) :
    s.Grew cfg (s.setRandom k cls
      (RandomHeap.getAnotherMiniHeap cfg k cls source (s.random k cls) s.env).1
      (RandomHeap.getAnotherMiniHeap cfg k cls source (s.random k cls) s.env).2) := by
  have hsame : s.Grew cfg (s.setRandom k cls (s.random k cls) s.env) := by
    rw [Process.random, Process.setRandom_self]
    exact ⟨h, .refl s, fun _ => rfl, fun _ _ => rfl⟩
  rw [RandomHeap.getAnotherMiniHeap]
  by_cases hneed : (s.random k cls).needsGrowth cfg = true
  · by_cases hlt : (s.random k cls).miniHeapsInUse < cfg.maxMiniHeaps
    · simp only [hneed, Bool.not_true, Bool.false_eq_true, if_false, if_pos hlt]
      have hinactive : ¬ s.Active cfg (Placed.nextId s k cls) := Placed.next_not_active s k cls
      have hm : (s.mini (Placed.nextId s k cls)).isHeapActivated = false := by
        rw [Bool.eq_false_iff]
        intro hact
        exact hinactive ((h.activated _).mp hact)
      have hact : Activation cfg (Placed.nextId s k cls) source s.env _ _ := activate_spec hf hm
      have hplaced := h.placed_grown hc hlt hf hact
      refine ⟨hplaced, ⟨?_, ?_⟩, ?_, ?_⟩
      · intro id ha
        exact (Placed.active_grown s k cls _ _ hc id).mpr (Or.inl ha)
      · intro id ha
        exact Placed.layout_grown_of_active s k cls _ _ ha
      · intro y
        have hmini := @Placed.mini_grown cfg s k cls
          (RandomMiniHeap.activate cfg (Placed.nextId s k cls) source
            (s.mini (Placed.nextId s k cls)) s.env).1
          (RandomMiniHeap.activate cfg (Placed.nextId s k cls) source
            (s.mini (Placed.nextId s k cls)) s.env).2 y.id
        refine (congrArg (fun m => m.miniHeapBitmap.isSet y.index) hmini).trans ?_
        split
        · rename_i hy
          rw [hact.clear, eq_comm, Bool.eq_false_iff]
          intro hb
          exact hinactive (hy ▸ h.bit_active hb)
        · rfl
      · intro k' cls'
        rw [Process.random, Process.setRandom_heaps]
        split
        · rename_i he
          obtain ⟨rfl, rfl⟩ := he
          rfl
        · rfl
    · simp only [hneed, Bool.not_true, Bool.false_eq_true, if_false, if_neg hlt]
      exact hsame
  · simp only [hneed, Bool.not_false, if_true]
    exact hsame

/-- What growth adds is the next miniheap, on the blocks of the source. -/
theorem Placed.getAnotherMiniHeap_added {s : Process} {k cls : Nat} (hc : cls < cfg.maxIndex)
    {source : Nat → Addr} (h : Placed cfg s)
    (hf : s.env.Fresh cfg ⟨k, cls, (s.random k cls).miniHeapsInUse⟩ source) {id : MiniId}
    (ha : (s.setRandom k cls
      (RandomHeap.getAnotherMiniHeap cfg k cls source (s.random k cls) s.env).1
      (RandomHeap.getAnotherMiniHeap cfg k cls source (s.random k cls) s.env).2).Active cfg id)
    (hno : ¬ s.Active cfg id) :
    id = ⟨k, cls, (s.random k cls).miniHeapsInUse⟩ ∧
    ∀ j p, ((s.setRandom k cls
      (RandomHeap.getAnotherMiniHeap cfg k cls source (s.random k cls) s.env).1
      (RandomHeap.getAnotherMiniHeap cfg k cls source (s.random k cls) s.env).2).layout cfg
        id).InBlock j p → (cfg.sourceLayout id source).InBlock j p := by
  have hsame : ¬ (s.setRandom k cls (s.random k cls) s.env).Active cfg id := by
    rw [Process.random, Process.setRandom_self]
    exact hno
  rw [RandomHeap.getAnotherMiniHeap] at ha ⊢
  by_cases hneed : (s.random k cls).needsGrowth cfg = true
  · by_cases hlt : (s.random k cls).miniHeapsInUse < cfg.maxMiniHeaps
    · simp only [hneed, Bool.not_true, Bool.false_eq_true, if_false, if_pos hlt] at ha ⊢
      have hinactive : ¬ s.Active cfg (Placed.nextId s k cls) := Placed.next_not_active s k cls
      have hm : (s.mini (Placed.nextId s k cls)).isHeapActivated = false := by
        rw [Bool.eq_false_iff]
        intro hact
        exact hinactive ((h.activated _).mp hact)
      have hact : Activation cfg (Placed.nextId s k cls) source s.env _ _ := activate_spec hf hm
      obtain rfl := ((Placed.active_grown s k cls _ _ hc id).mp ha).resolve_left hno
      refine ⟨rfl, ?_⟩
      intro j p hj
      have hlayout := @Placed.layout_grown_next cfg s k cls
        (RandomMiniHeap.activate cfg (Placed.nextId s k cls) source
          (s.mini (Placed.nextId s k cls)) s.env).1
        (RandomMiniHeap.activate cfg (Placed.nextId s k cls) source
          (s.mini (Placed.nextId s k cls)) s.env).2
      have hj' : (cfg.layout (Placed.nextId s k cls) _).InBlock j p := hlayout ▸ hj
      obtain ⟨hcount, hle, hup⟩ := hj'
      have hbase := hact.base j hcount
      rw [hbase] at hle hup
      exact ⟨hcount, hle, hup⟩
    · simp only [hneed, Bool.not_true, Bool.false_eq_true, if_false, if_neg hlt] at ha
      exact absurd ha hsame
  · simp only [hneed, Bool.not_false, if_true] at ha
    exact absurd ha hsame

/-- Every block that the source hands out while the loop of `growHeapIfNeeded` turns is fresh. -/
def SourcesFresh (cfg : HeapConfig) (k cls : Nat) : List (Nat → Addr) → RandomHeap → Env → Prop
  | [], _, _ => True
  | source :: sources, h, env => h.needsGrowth cfg = true →
    env.Fresh cfg ⟨k, cls, h.miniHeapsInUse⟩ source ∧
      SourcesFresh cfg k cls sources (RandomHeap.getAnotherMiniHeap cfg k cls source h env).1
        (RandomHeap.getAnotherMiniHeap cfg k cls source h env).2

/-- `growHeapIfNeeded` keeps the placement and ends with room. -/
theorem Placed.growHeapIfNeeded {s : Process} (hp : Placed cfg s) {k cls : Nat}
    (hc : cls < cfg.maxIndex) {sources : List (Nat → Addr)}
    (hf : SourcesFresh cfg k cls sources (s.random k cls) s.env) {h : RandomHeap} {env : Env}
    (hg : RandomHeap.growHeapIfNeeded cfg k cls sources (s.random k cls) s.env = some (h, env)) :
    s.Grew cfg (s.setRandom k cls h env) ∧ h.needsGrowth cfg = false := by
  have hsame : s.Grew cfg (s.setRandom k cls (s.random k cls) s.env) := by
    rw [Process.random, Process.setRandom_self]
    exact ⟨hp, .refl s, fun _ => rfl, fun _ _ => rfl⟩
  induction sources generalizing s with
  | nil =>
    rw [RandomHeap.growHeapIfNeeded] at hg
    split at hg
    · cases hg
    · rename_i hneed
      cases hg
      exact ⟨hsame, by simpa using hneed⟩
  | cons source sources ih =>
    rw [RandomHeap.growHeapIfNeeded] at hg
    split at hg
    · rename_i hneed
      obtain ⟨hf1, hf2⟩ := hf hneed
      have hgrew := hp.getAnotherMiniHeap hc hf1
      have hrandom (s : Process) (h : RandomHeap) (env : Env) :
          (s.setRandom k cls h env).random k cls = h := Process.setRandom_heaps_self s k cls h env
      have hnext := ih hgrew.placed (by rwa [hrandom]) (by rwa [hrandom]) (by
        rw [hrandom, Process.setRandom_setRandom]
        exact ⟨hgrew.placed, .refl _, fun _ => rfl, fun _ _ => rfl⟩)
      rw [Process.setRandom_setRandom] at hnext
      exact ⟨hgrew.trans hnext.1, hnext.2⟩
    · rename_i hneed
      cases hg
      exact ⟨hsame, by simpa using hneed⟩

/-- The slot that a draw of random heap `cls` of heap `k` selects. -/
def Process.drawn (cfg : HeapConfig) (s : Process) (k cls : Nat) (random : Nat × Nat) : Slot :=
  ⟨⟨k, cls, (s.random k cls).chosenMiniHeap random.1⟩,
    modulo (cfg.nObjects ⟨k, cls, (s.random k cls).chosenMiniHeap random.1⟩) random.2⟩

/-- The random heap with the bit of slot `x` set. -/
def RandomHeap.setBit (h : RandomHeap) (x : Slot) : RandomHeap :=
  { h with
    miniHeaps := Function.update h.miniHeaps x.id.index { h.miniHeaps x.id.index with
      miniHeapBitmap := ((h.miniHeaps x.id.index).miniHeapBitmap.tryToSet x.index).1 } }

private theorem chosenMiniHeap_lt {cls : Nat} {h : RandomHeap} (hc : CountersOk cfg cls h)
    (hpos : 0 < h.miniHeapsInUse) (random : Nat) : h.chosenMiniHeap random < h.miniHeapsInUse := by
  have hle : random &&& h.chunksInUse ≤ h.chunksInUse := Nat.and_le_right
  have hpow := Nat.two_pow_pos (h.miniHeapsInUse - 1)
  have hlog : h.chosenMiniHeap random ≤ h.miniHeapsInUse - 1 := by
    rw [RandomHeap.chosenMiniHeap, log2_le_iff]
    rw [hc.chunksInUse_eq] at hle
    rw [hc.chunksInUse_eq]
    omega
  omega

theorem CountersOk.miniHeaps_pos {cls : Nat} {h : RandomHeap} (hc : CountersOk cfg cls h)
    (hroom : h.needsGrowth cfg = false) : 0 < h.miniHeapsInUse := by
  by_contra hzero
  have h0 : h.miniHeapsInUse = 0 := by omega
  have ha := hc.available_eq
  rw [if_pos h0] at ha
  simp [RandomHeap.needsGrowth, ha] at hroom

namespace Placed

variable {s : Process} {k cls : Nat} {random : Nat × Nat}

theorem drawn_active (h : Placed cfg s) (random : Nat × Nat) (hc : cls < cfg.maxIndex)
    (hpos : 0 < (s.random k cls).miniHeapsInUse) : s.Active cfg (s.drawn cfg k cls random).id :=
  ⟨hc, chosenMiniHeap_lt (h.counters k cls) hpos random.1⟩

theorem drawn_lt (cfg : HeapConfig) (s : Process) (k cls : Nat) (random : Nat × Nat) :
    (s.drawn cfg k cls random).index < cfg.nObjects (s.drawn cfg k cls random).id :=
  modulo_lt (cfg.nObjects_pos _) _

theorem addr_ne_zero (h : Placed cfg s) {x : Slot} (ha : s.Active cfg x.id)
    (hx : x.index < (s.layout cfg x.id).slots) : (s.layout cfg x.id).addr x.index ≠ 0 := by
  have hne := (h.base x.id _ ha (Layout.block_lt hx)).1
  rw [Layout.addr]
  omega

theorem getObject_taken (hb : s.bit (s.drawn cfg k cls random) = true) :
    RandomHeap.getObject cfg k cls random (s.random k cls) s.env = (0, s.random k cls, s.env) := by
  have hset : ((s.random k cls).miniHeaps ((s.random k cls).chosenMiniHeap random.1)).miniHeapBitmap.isSet
      (modulo (cfg.nObjects ⟨k, cls, (s.random k cls).chosenMiniHeap random.1⟩) random.2) = true := hb
  simp only [RandomHeap.getObject, RandomMiniHeapCore.malloc, BitMap.tryToSet_snd, hset, Bool.not_true,
    Bool.not_false, if_true, BitMap.tryToSet_of_set hset, Function.update_eq_self]

theorem getObject_clear (h : Placed cfg s) (hc : cls < cfg.maxIndex)
    (hpos : 0 < (s.random k cls).miniHeapsInUse)
    (hb : s.bit (s.drawn cfg k cls random) = false) :
    ∃ env, RandomHeap.getObject cfg k cls random (s.random k cls) s.env =
        ((s.layout cfg (s.drawn cfg k cls random).id).addr (s.drawn cfg k cls random).index,
          (s.random k cls).setBit (s.drawn cfg k cls random), env) ∧
      s.env.Wrote s.env.mem env := by
  have ha := h.drawn_active random hc hpos
  have hlt := drawn_lt cfg s k cls random
  have hclear : ((s.random k cls).miniHeaps
      ((s.random k cls).chosenMiniHeap random.1)).miniHeapBitmap.isSet
      (modulo (cfg.nObjects ⟨k, cls, (s.random k cls).chosenMiniHeap random.1⟩) random.2) = false := hb
  have hobj := h.getObject_eq ha (hlt.trans_le (HeapConfig.nObjects_le_slots _ _))
  simp only [RandomHeap.getObject, RandomMiniHeapCore.malloc, BitMap.tryToSet_snd, hclear,
    Bool.not_false, Bool.not_true, Bool.false_eq_true, if_false]
  refine ⟨_, Prod.ext ?_ (Prod.ext rfl rfl), RandomMiniHeapCore.wrote_mallocChecks⟩
  exact hobj

end Placed

/-- What taking slot `x` does. -/
structure Process.Took (cfg : HeapConfig) (s : Process) (x : Slot) (s' : Process) : Prop where
  active : s.Active cfg x.id
  index_lt : x.index < cfg.nObjects x.id
  clear : s.bit x = false
  bit_eq : ∀ y, s'.bit y = (s.bit y || decide (y = x))
  layout : s.SameLayout s'
  inUse : ∀ k cls, (s'.random k cls).inUse =
    if k = x.id.owner ∧ cls = x.id.cls then sizeSucc (s.random k cls).inUse
    else (s.random k cls).inUse

theorem Process.Took.placed {s s' : Process} {x : Slot} (ht : s.Took cfg x s') (h : Placed cfg s) :
    Placed cfg s' := by
  refine h.transfer ht.layout ?_
  intro id i hi
  have hbit := ht.bit_eq ⟨id, i⟩
  rw [show s'.bit ⟨id, i⟩ = true from hi, eq_comm, Bool.or_eq_true, decide_eq_true_eq] at hbit
  rcases hbit with hb | hx
  · exact h.bits id i hb
  · rw [← hx] at ht
    exact ⟨ht.active, ht.index_lt⟩

theorem mini_setBit (r : RandomHeap) (x : Slot) (i : Nat) :
    (r.setBit x).addInUse.miniHeaps i =
      if i = x.id.index then { r.miniHeaps i with
        miniHeapBitmap := ((r.miniHeaps i).miniHeapBitmap.tryToSet x.index).1 } else r.miniHeaps i := by
  by_cases hi : i = x.id.index
  · subst hi
    simp [RandomHeap.setBit, RandomHeap.addInUse]
  · simp [RandomHeap.setBit, RandomHeap.addInUse, hi]

/-- Setting the bit of a clear slot and counting it is an allocation. -/
theorem Process.took_setBit {s : Process} {x : Slot} (ha : s.Active cfg x.id)
    (hlt : x.index < cfg.nObjects x.id) (hb : s.bit x = false) {env : Env} {mem : Addr → BitVec 8}
    (hw : s.env.Wrote mem env) :
    s.Took cfg x (s.setRandom x.id.owner x.id.cls
      ((s.random x.id.owner x.id.cls).setBit x).addInUse env) := by
  refine ⟨ha, hlt, hb, ?_, ?_, ?_⟩
  · intro y
    simp only [Process.bit, Process.mini_setRandom]
    by_cases hid : y.id = x.id
    · have hyx : y = x ↔ y.index = x.index := by
        cases y
        cases x
        simp_all
      rw [hid, if_pos ⟨rfl, rfl⟩, mini_setBit, if_pos rfl]
      simp only [BitMap.isSet_tryToSet, hyx]
      rfl
    · have hyx : y ≠ x := fun he => hid (by rw [he])
      simp only [hyx, decide_false, Bool.or_false]
      split
      · rename_i he
        have hi : y.id.index ≠ x.id.index := by
          intro hi
          refine hid ?_
          cases hyid : y.id
          cases hxid : x.id
          simp_all
        rw [mini_setBit, if_neg hi, Process.random, Process.mini, he.1, he.2]
      · rfl
  · refine .setRandom ?_ hw
    have hsame : (s.random x.id.owner x.id.cls).SameLayout
        ((s.random x.id.owner x.id.cls).setBit x) := RandomHeap.SameLayout.setBitmap _ _ _ _ _
    exact ⟨hsame.available, hsame.miniHeapsInUse, hsame.chunksInUse, hsame.activated,
      hsame.freedValue, hsame.miniHeap, hsame.mapEntryToPage⟩
  · intro k cls
    rw [Process.random, Process.setRandom_heaps]
    split
    · rename_i he
      rw [he.1, he.2]
      rfl
    · rfl

theorem Placed.getObjectLoop {s : Process} (h : Placed cfg s) {k cls : Nat} (hc : cls < cfg.maxIndex)
    (hpos : 0 < (s.random k cls).miniHeapsInUse) {randoms : List (Nat × Nat)} {p : Addr}
    {h' : RandomHeap} {env : Env}
    (hl : RandomHeap.getObjectLoop cfg k cls randoms (s.random k cls) s.env = some (p, h', env)) :
    ∃ x : Slot, x.id.owner = k ∧ x.id.cls = cls ∧ s.Active cfg x.id ∧
      x.index < cfg.nObjects x.id ∧ s.bit x = false ∧ p = (s.layout cfg x.id).addr x.index ∧
      h' = (s.random k cls).setBit x ∧ s.env.Wrote s.env.mem env := by
  induction randoms with
  | nil => cases hl
  | cons random randoms ih =>
    rw [RandomHeap.getObjectLoop] at hl
    cases hb : s.bit (s.drawn cfg k cls random) with
    | true =>
      simp only [Placed.getObject_taken hb, if_true] at hl
      exact ih hl
    | false =>
      obtain ⟨env', hget, hw⟩ := h.getObject_clear hc hpos hb
      have ha := h.drawn_active random hc hpos
      have hlt := Placed.drawn_lt cfg s k cls random
      have hne := h.addr_ne_zero ha (hlt.trans_le (HeapConfig.nObjects_le_slots _ _))
      simp only [hget, if_neg hne, Option.some.injEq, Prod.mk.injEq] at hl
      obtain ⟨rfl, rfl, rfl⟩ := hl
      exact ⟨_, rfl, rfl, ha, hlt, hb, rfl, rfl, hw⟩

/-- What a `malloc` that returns slot `x` has done. -/
structure Process.Malloced (cfg : HeapConfig) (s : Process) (x : Slot) (s' : Process) : Prop where
  placed : Placed cfg s'
  extends' : s.Extends cfg s'
  active : s'.Active cfg x.id
  index_lt : x.index < cfg.nObjects x.id
  clear : s.bit x = false
  bit_eq : ∀ y, s'.bit y = (s.bit y || decide (y = x))

theorem Process.Grew.malloced {s s₁ s' : Process} {x : Slot} (hg : s.Grew cfg s₁)
    (ht : s₁.Took cfg x s') : s.Malloced cfg x s' :=
  ⟨ht.placed hg.placed, hg.extends'.trans ht.layout.extends, (ht.layout.active_iff _).mpr ht.active,
    ht.index_lt, (hg.bit_eq x).symm.trans ht.clear,
    fun y => (ht.bit_eq y).trans (by rw [hg.bit_eq])⟩

def requestClass (sz : Nat) : Nat := getIndex (if sz < alignment then alignment else sz)

theorem requestClass_lt {sz : Nat} (h : sz ≤ cfg.maxSize) : requestClass sz < cfg.maxIndex := by
  refine cfg.getIndex_lt ?_
  split
  · rw [← cfg.maxSize_eq_classSize, getClassSize_eq, alignment]
    exact Nat.pow_le_pow_right (n := 2) (i := 4) (by decide) (by omega)
  · exact h

theorem RandomHeap.makeRoom_eq (cfg : HeapConfig) (owner cls : Nat) (sources : List (Nat → Addr))
    (h : RandomHeap) (env : Env) :
    makeRoom cfg owner cls sources h env = growHeapIfNeeded cfg owner cls sources h env := by
  rw [makeRoom]
  split
  · rfl
  · rename_i hneed
    cases sources <;> rw [growHeapIfNeeded, if_neg hneed]

/-- With DieFast, `malloc` overwrites the object that it returns. -/
def Process.mallocFill (cfg : HeapConfig) (s : Process) (k cls : Nat) (p : Addr)
    (mem : Addr → BitVec 8) : Addr → BitVec 8 :=
  if cfg.dieFastOn then DieFast.fill mem p (getClassSize cls) (s.heaps k).localRandomValue else mem

theorem malloc_pieces {s s' : Process} {k sz : Nat} {sources : List (Nat → Addr)}
    {randoms : List (Nat × Nat)} {p : Addr} (hsz : sz ≤ cfg.maxSize)
    (hm : s.malloc cfg k sz sources randoms = some (p, s')) :
    ∃ h env h' env', RandomHeap.growHeapIfNeeded cfg k (requestClass sz) sources
        (s.random k (requestClass sz)) s.env = some (h, env) ∧
      RandomHeap.getObjectLoop cfg k (requestClass sz) randoms h env = some (p, h', env') ∧
      s' = s.setRandom k (requestClass sz) h'.addInUse
        { env' with mem := s.mallocFill cfg k (requestClass sz) p env'.mem } := by
  rw [Process.malloc] at hm
  obtain ⟨⟨p₁, h₁, env₁⟩, hheap, hm⟩ := Option.bind_eq_some_iff.mp hm
  rw [DieHardHeap.malloc, if_neg (by omega)] at hheap
  obtain ⟨⟨p₂, h₂, env₂⟩, hclass, hheap⟩ := Option.bind_eq_some_iff.mp hheap
  obtain ⟨⟨h₃, env₃⟩, hg, hclass⟩ := Option.bind_eq_some_iff.mp hclass
  obtain ⟨⟨p₄, h₄, env₄⟩, hl, hclass⟩ := Option.bind_eq_some_iff.mp hclass
  cases hm
  cases hheap
  cases hclass
  refine ⟨h₃, env₃, h₄, env₂, (RandomHeap.makeRoom_eq ..).symm.trans hg, hl, ?_⟩
  rw [Process.setRandom, requestClass, Process.mallocFill]
  by_cases hd : cfg.dieFastOn = true <;> simp [hd]

/-- A `malloc` that returns grows the heap and then takes one clear slot of the request's class. -/
theorem Placed.malloc_parts {s s' : Process} (hp : Placed cfg s) {k sz : Nat} (hsz : sz ≤ cfg.maxSize)
    {sources : List (Nat → Addr)} {randoms : List (Nat × Nat)} {p : Addr}
    (hf : SourcesFresh cfg k (requestClass sz) sources (s.random k (requestClass sz)) s.env)
    (hm : s.malloc cfg k sz sources randoms = some (p, s')) :
    ∃ (x : Slot) (h : RandomHeap) (env env' : Env), x.id.owner = k ∧ x.id.cls = requestClass sz ∧
      p = (s'.layout cfg x.id).addr x.index ∧
      RandomHeap.growHeapIfNeeded cfg k (requestClass sz) sources (s.random k (requestClass sz)) s.env =
        some (h, env) ∧
      s.Grew cfg (s.setRandom k (requestClass sz) h env) ∧ 0 < h.miniHeapsInUse ∧
      RandomHeap.getObjectLoop cfg k (requestClass sz) randoms h env = some (p, h.setBit x, env') ∧
      (s.setRandom k (requestClass sz) h env).Took cfg x s' ∧
      s'.env = { env' with mem := s.mallocFill cfg k (requestClass sz) p env'.mem } := by
  have hc := requestClass_lt hsz
  obtain ⟨h, env, h', env', hg, hl, rfl⟩ := malloc_pieces hsz hm
  obtain ⟨hgrew, hroom⟩ := hp.growHeapIfNeeded hc hf hg
  have hrandom : (s.setRandom k (requestClass sz) h env).random k (requestClass sz) = h :=
    Process.setRandom_heaps_self s k _ h env
  have hcounters := hgrew.placed.counters k (requestClass sz)
  rw [Process.setRandom_heaps_self] at hcounters
  have hpos := hcounters.miniHeaps_pos hroom
  have hl' : RandomHeap.getObjectLoop cfg k (requestClass sz) randoms
      ((s.setRandom k (requestClass sz) h env).random k (requestClass sz))
      (s.setRandom k (requestClass sz) h env).env = some (p, h', env') := by rwa [hrandom]
  obtain ⟨x, rfl, hxc, ha, hlt, hb, rfl, rfl, hw⟩ :=
    hgrew.placed.getObjectLoop hc (by rwa [hrandom]) hl'
  have hw' (mem : Addr → BitVec 8) :
      (s.setRandom x.id.owner (requestClass sz) h env).env.Wrote mem { env' with mem := mem } :=
    ⟨rfl, hw.pageTable_eq, hw.mapped_eq⟩
  have ht := Process.took_setBit ha hlt hb (hw' (s.mallocFill cfg x.id.owner (requestClass sz)
    ((s.setRandom x.id.owner (requestClass sz) h env).layout cfg x.id |>.addr x.index) env'.mem))
  rw [hxc, Process.setRandom_setRandom, hrandom] at ht
  rw [hrandom] at hl
  refine ⟨x, h, env, env', rfl, hxc, ?_, hg, hgrew, hpos, hl, ?_, rfl⟩
  · rw [hrandom, ht.layout.layout_eq]
  · rw [hrandom]
    exact ht

theorem Placed.malloc_took {s s' : Process} (hp : Placed cfg s) {k sz : Nat} (hsz : sz ≤ cfg.maxSize)
    {sources : List (Nat → Addr)} {randoms : List (Nat × Nat)} {p : Addr}
    (hf : SourcesFresh cfg k (requestClass sz) sources (s.random k (requestClass sz)) s.env)
    (hm : s.malloc cfg k sz sources randoms = some (p, s')) :
    ∃ (x : Slot) (s₁ : Process), x.id.owner = k ∧ x.id.cls = requestClass sz ∧
      p = (s'.layout cfg x.id).addr x.index ∧ s.Grew cfg s₁ ∧ s₁.Took cfg x s' := by
  obtain ⟨x, h, env, env', hk, hc, hx, -, hgrew, -, -, ht, -⟩ := hp.malloc_parts hsz hf hm
  exact ⟨x, _, hk, hc, hx, hgrew, ht⟩

theorem Placed.malloc {s s' : Process} (hp : Placed cfg s) {k sz : Nat} (hsz : sz ≤ cfg.maxSize)
    {sources : List (Nat → Addr)} {randoms : List (Nat × Nat)} {p : Addr}
    (hf : SourcesFresh cfg k (requestClass sz) sources (s.random k (requestClass sz)) s.env)
    (hm : s.malloc cfg k sz sources randoms = some (p, s')) :
    ∃ x : Slot, x.id.owner = k ∧ x.id.cls = requestClass sz ∧
      p = (s'.layout cfg x.id).addr x.index ∧ s.Malloced cfg x s' := by
  obtain ⟨x, s₁, hk, hc, hx, hgrew, ht⟩ := hp.malloc_took hsz hf hm
  exact ⟨x, hk, hc, hx, hgrew.malloced ht⟩

end DieHard
