import DieHard.Heap.Frame

/-!
# The searches of `free` and `getSize`

`free` asks the miniheaps of every size class, the cached ones first. On a placed process it finds the
one slot that contains the address, whatever the caches hold, and otherwise changes nothing.
-/

namespace DieHard

open Blocks

variable {cfg : HeapConfig} {s : Process} {p : Nat}

private theorem wrote_reportIfOverflowed {id : MiniId} {m : MiniHeap} {env env' : Env} {a : Addr}
    {mem : Addr → BitVec 8} (h : env.Wrote mem env') :
    env.Wrote mem (RandomMiniHeapCore.reportIfOverflowed id m env' a) := by
  rw [RandomMiniHeapCore.reportIfOverflowed]
  split
  · exact h.report _
  · exact h

private theorem wrote_checkOverflowError {id : MiniId} {m : MiniHeap} {env env' : Env} {i : Nat}
    {mem : Addr → BitVec 8} (h : env.Wrote mem env') :
    env.Wrote mem (RandomMiniHeapCore.checkOverflowError cfg id m i env') := by
  have hleft : env.Wrote mem (if m.miniHeapBitmap.isSet ((i + 2 ^ 32 - 1) % 2 ^ 32 % cfg.nObjects id)
      then env' else RandomMiniHeapCore.reportIfOverflowed id m env'
        (RandomMiniHeap.getObject cfg id m ((i + 2 ^ 32 - 1) % 2 ^ 32 % cfg.nObjects id))) := by
    split
    · exact h
    · exact wrote_reportIfOverflowed h
  simp only [RandomMiniHeapCore.checkOverflowError]
  split
  · exact hleft
  · exact wrote_reportIfOverflowed hleft

theorem RandomMiniHeapCore.wrote_checks {id : MiniId} {m : MiniHeap} {env env' : Env} {i : Nat}
    {mem : Addr → BitVec 8} (h : env.Wrote mem env') :
    env.Wrote mem (if cfg.dieFastOn then checkOverflowError cfg id m i env' else env') := by
  split
  · exact wrote_checkOverflowError h
  · exact h

theorem RandomMiniHeapCore.wrote_mallocChecks {id : MiniId} {m : MiniHeap} {env : Env} {i : Nat}
    {a : Addr} : env.Wrote env.mem (if cfg.dieFastOn then
      checkOverflowError cfg id m i (reportIfOverflowed id m env a) else env) := by
  split
  · exact wrote_checkOverflowError (wrote_reportIfOverflowed (.refl _))
  · exact .refl _

namespace Placed

theorem mini_free_outside (h : Placed cfg s) {id : MiniId} (ha : s.Active cfg id)
    (hout : ∀ j, ¬ (s.layout cfg id).InBlock j p) :
    RandomMiniHeap.free cfg id p (s.mini id) s.env = (false, s.mini id, s.env) := by
  have hin : RandomMiniHeap.inBounds cfg id (s.mini id) s.env p = false := by
    rw [Bool.eq_false_iff]
    intro hin
    obtain ⟨j, hj⟩ := (h.inBounds_iff ha).mp hin
    exact hout j hj
  simp [RandomMiniHeap.free, RandomMiniHeapCore.free, hin]

theorem core_free_slot (h : Placed cfg s) {x : Slot} (ha : s.Active cfg x.id)
    (hx : (s.layout cfg x.id).Contains x.index p) :
    ∃ env, RandomMiniHeapCore.free cfg x.id p (s.mini x.id) s.env =
        (s.bit x, { s.mini x.id with
          miniHeapBitmap := ((s.mini x.id).miniHeapBitmap.reset x.index).1 }, env) ∧
      s.env.Wrote s.env.mem env := by
  have hin := (h.inBounds_iff ha).mpr ⟨_, hx.inBlock⟩
  have hidx := (h.computeIndex_eq ha hx.inBlock).trans hx.index_eq
  simp only [RandomMiniHeapCore.free, hin, Bool.not_true, Bool.false_eq_true, if_false, hidx,
    BitMap.reset_snd]
  refine ⟨_, rfl, RandomMiniHeapCore.wrote_checks ?_⟩
  split
  · exact .refl _
  · exact (Env.Wrote.refl _).report _

theorem mini_free_clear (h : Placed cfg s) {x : Slot} (ha : s.Active cfg x.id)
    (hx : (s.layout cfg x.id).Contains x.index p) (hb : s.bit x = false) :
    ∃ env, RandomMiniHeap.free cfg x.id p (s.mini x.id) s.env = (false, s.mini x.id, env) ∧
      s.env.Wrote s.env.mem env := by
  obtain ⟨env, hfree, hw⟩ := h.core_free_slot ha hx
  have hclear : (s.mini x.id).miniHeapBitmap.isSet x.index = false := hb
  rw [hb, BitMap.reset_of_clear hclear] at hfree
  refine ⟨env, ?_, hw⟩
  simp [RandomMiniHeap.free, hfree]

theorem mini_free_set (h : Placed cfg s) {x : Slot} (ha : s.Active cfg x.id)
    (hx : (s.layout cfg x.id).Contains x.index p) (hb : s.bit x = true) :
    ∃ env, RandomMiniHeap.free cfg x.id p (s.mini x.id) s.env =
        (true, { s.mini x.id with
          miniHeapBitmap := ((s.mini x.id).miniHeapBitmap.reset x.index).1 }, env) ∧
      s.env.Wrote (RandomMiniHeap.trash cfg x.id (s.mini x.id) p s.env.mem) env := by
  obtain ⟨env, hfree, hw⟩ := h.core_free_slot ha hx
  rw [hb] at hfree
  refine ⟨{ env with mem := RandomMiniHeap.trash cfg x.id (s.mini x.id) p s.env.mem }, ?_,
    rfl, hw.pageTable_eq, hw.mapped_eq⟩
  simp only [RandomMiniHeap.free, hfree, if_true, hw.mem_eq]
  rfl

end Placed

/-- No slot of the miniheap that contains `p` has its bit set. -/
def Process.Misses (cfg : HeapConfig) (s : Process) (p : Nat) (id : MiniId) : Prop :=
  ∀ i, (s.layout cfg id).Contains i p → s.bit ⟨id, i⟩ = false

theorem Placed.mini_free_miss (h : Placed cfg s) {id : MiniId} (ha : s.Active cfg id)
    (hm : s.Misses cfg p id) :
    ∃ env, RandomMiniHeap.free cfg id p (s.mini id) s.env = (false, s.mini id, env) ∧
      s.env.Wrote s.env.mem env := by
  by_cases hin : ∃ j, (s.layout cfg id).InBlock j p
  · obtain ⟨j, hj⟩ := hin
    exact h.mini_free_clear (x := ⟨id, _⟩) ha hj.contains (hm _ hj.contains)
  · exact ⟨s.env, h.mini_free_outside ha (not_exists.mp hin), .refl _⟩

/-- The miniheap does not free `p`, and the shared state stays within `R`. -/
def Process.Refuses (cfg : HeapConfig) (s : Process) (p : Nat) (R : Env → Prop) (id : MiniId) : Prop :=
  ∀ env, R env → ∃ env', RandomMiniHeap.free cfg id p (s.mini id) env = (false, s.mini id, env') ∧ R env'

theorem Placed.refuses_of_misses (h : Placed cfg s) {id : MiniId} (ha : s.Active cfg id)
    (hm : s.Misses cfg p id) : s.Refuses cfg p (s.env.Wrote s.env.mem) id := by
  intro env hw
  obtain ⟨env', hfree, hw'⟩ := (h.setEnv hw).mini_free_miss ha hm
  refine ⟨env', hfree, ?_⟩
  have hmem : env.mem = s.env.mem := hw.mem_eq
  exact hmem ▸ hw.trans hw'

theorem Placed.not_inBlock_of_ne (h : Placed cfg s) {x : Slot} (ha : s.Active cfg x.id)
    (hx : (s.layout cfg x.id).Contains x.index p) {id : MiniId} (hid : s.Active cfg id)
    (hne : id ≠ x.id) (j : Nat) : ¬ (s.layout cfg id).InBlock j p := by
  intro hj
  exact hne (h.separate.block_unique hid ha hj hx.inBlock).1

theorem Placed.refuses_of_ne (h : Placed cfg s) {x : Slot} (ha : s.Active cfg x.id)
    (hx : (s.layout cfg x.id).Contains x.index p) {id : MiniId} (hid : s.Active cfg id)
    (hne : id ≠ x.id) : s.Refuses cfg p (fun env => env = s.env) id := by
  rintro env rfl
  exact ⟨_, h.mini_free_outside hid (h.not_inBlock_of_ne ha hx hid hne), rfl⟩

/-- What the miniheap of slot `x` leaves of the shared state when it frees `p`. -/
def Process.freedEnv (cfg : HeapConfig) (s : Process) (x : Slot) (p : Nat) : Env :=
  (RandomMiniHeap.free cfg x.id p (s.mini x.id) s.env).2.2

/-- The random heap with the bit of slot `x` reset. -/
def RandomHeap.resetBit (h : RandomHeap) (x : Slot) : RandomHeap :=
  { h with
    miniHeaps := Function.update h.miniHeaps x.id.index { h.miniHeaps x.id.index with
      miniHeapBitmap := ((h.miniHeaps x.id.index).miniHeapBitmap.reset x.index).1 } }

/-- The random heap after a successful free of slot `x`. -/
def RandomHeap.clearSlot (h : RandomHeap) (x : Slot) (cached : Int) : RandomHeap :=
  { (h.resetBit x).subInUse with cachedMiniHeap := cached }

def Process.random (s : Process) (k cls : Nat) : RandomHeap := (s.heaps k).heaps cls

namespace Placed

variable {k cls : Nat}

theorem active_mk (hc : cls < cfg.maxIndex) {i : Nat}
    (hi : i < (s.random k cls).miniHeapsInUse) : s.Active cfg ⟨k, cls, i⟩ := ⟨hc, hi⟩

theorem freeIn_miss {R : Env → Prop} {i : Nat} (hm : s.Refuses cfg p R ⟨k, cls, i⟩) {env : Env}
    (hR : R env) : ∃ env', RandomHeap.freeIn cfg k cls p i (s.random k cls) env =
      (false, s.random k cls, env') ∧ R env' := by
  obtain ⟨env', hfree, hR'⟩ := hm env hR
  have hfree' : RandomMiniHeap.free cfg ⟨k, cls, i⟩ p ((s.random k cls).miniHeaps i) env =
      (false, (s.random k cls).miniHeaps i, env') := hfree
  refine ⟨env', ?_, hR'⟩
  simp only [RandomHeap.freeIn, hfree', Function.update_eq_self]

theorem freeIn_hit (h : Placed cfg s) {x : Slot} (ha : s.Active cfg x.id)
    (hx : (s.layout cfg x.id).Contains x.index p) (hb : s.bit x = true) :
    RandomHeap.freeIn cfg x.id.owner x.id.cls p x.id.index (s.random x.id.owner x.id.cls) s.env =
      (true, (s.random x.id.owner x.id.cls).resetBit x, s.freedEnv cfg x p) := by
  obtain ⟨env', hfree, -⟩ := h.mini_free_set ha hx hb
  have henv : s.freedEnv cfg x p = env' := by
    rw [Process.freedEnv, hfree]
  have hfree' : RandomMiniHeap.free cfg ⟨x.id.owner, x.id.cls, x.id.index⟩ p
      ((s.random x.id.owner x.id.cls).miniHeaps x.id.index) s.env =
        (true, { (s.random x.id.owner x.id.cls).miniHeaps x.id.index with
          miniHeapBitmap := (((s.random x.id.owner x.id.cls).miniHeaps
            x.id.index).miniHeapBitmap.reset x.index).1 }, env') := hfree
  rw [RandomHeap.freeIn, hfree', RandomHeap.resetBit, henv]

private theorem freeSearch_miss {R : Env → Prop} {cached : Int}
    (hm : ∀ i < (s.random k cls).miniHeapsInUse, s.Refuses cfg p R ⟨k, cls, i⟩) {n : Nat}
    (hn : n ≤ (s.random k cls).miniHeapsInUse) {env : Env} (hR : R env) :
    ∃ env', RandomHeap.freeSearch cfg k cls p cached n (s.random k cls) env =
        (false, s.random k cls, env') ∧ R env' := by
  induction n generalizing env with
  | zero => exact ⟨env, rfl, hR⟩
  | succ i ih =>
    by_cases hcached : (i : Int) = cached
    · rw [RandomHeap.freeSearch, if_pos hcached]
      exact ih (by omega) hR
    · obtain ⟨env', hfree, hR'⟩ := freeIn_miss (hm i hn) hR
      rw [RandomHeap.freeSearch, if_neg hcached]
      simp only [hfree, Bool.false_eq_true, if_false]
      exact ih (by omega) hR'

theorem random_free_miss {R : Env → Prop}
    (hm : ∀ i < (s.random k cls).miniHeapsInUse, s.Refuses cfg p R ⟨k, cls, i⟩) {env : Env}
    (hR : R env) :
    ∃ env', RandomHeap.free cfg k cls p (s.random k cls) env = (false, s.random k cls, env') ∧
      R env' := by
  rw [RandomHeap.free]
  split
  · rename_i hcached
    have hlt : (s.random k cls).cachedMiniHeap.toNat < (s.random k cls).miniHeapsInUse := by omega
    obtain ⟨env', hfree, hR'⟩ := freeIn_miss (hm _ hlt) hR
    simp only [hfree, Bool.false_eq_true, if_false]
    exact freeSearch_miss hm (Nat.le_refl _) hR'
  · exact freeSearch_miss hm (Nat.le_refl _) hR

private theorem freeSearch_hit (h : Placed cfg s) {x : Slot} (ha : s.Active cfg x.id)
    (hx : (s.layout cfg x.id).Contains x.index p) (hb : s.bit x = true) {cached : Int}
    (hne : (x.id.index : Int) ≠ cached) {n : Nat}
    (hn : n ≤ (s.random x.id.owner x.id.cls).miniHeapsInUse) (hxn : x.id.index < n) :
    ∃ cached', RandomHeap.freeSearch cfg x.id.owner x.id.cls p cached n
        (s.random x.id.owner x.id.cls) s.env =
          (true, (s.random x.id.owner x.id.cls).clearSlot x cached', s.freedEnv cfg x p) := by
  induction n with
  | zero => omega
  | succ i ih =>
    by_cases hcached : (i : Int) = cached
    · rw [RandomHeap.freeSearch, if_pos hcached]
      refine ih (by omega) ?_
      have hxi : x.id.index ≠ i := fun he => hne (by rw [he]; exact hcached)
      omega
    · rw [RandomHeap.freeSearch, if_neg hcached]
      by_cases hi : i = x.id.index
      · subst hi
        refine ⟨x.id.index, ?_⟩
        simp only [h.freeIn_hit ha hx hb, if_true, RandomHeap.clearSlot]
      · have hai := active_mk (s := s) (k := x.id.owner) ha.1 hn
        have hrefuse := h.refuses_of_ne ha hx hai fun he => hi (congrArg MiniId.index he)
        obtain ⟨env', hfree, rfl⟩ := freeIn_miss hrefuse rfl
        simp only [hfree, Bool.false_eq_true, if_false]
        exact ih (by omega) (by omega)

theorem random_free_hit (h : Placed cfg s) {x : Slot} (ha : s.Active cfg x.id)
    (hx : (s.layout cfg x.id).Contains x.index p) (hb : s.bit x = true) :
    ∃ cached, RandomHeap.free cfg x.id.owner x.id.cls p (s.random x.id.owner x.id.cls) s.env =
        (true, (s.random x.id.owner x.id.cls).clearSlot x cached, s.freedEnv cfg x p) := by
  have hxlt : x.id.index < (s.random x.id.owner x.id.cls).miniHeapsInUse := ha.2
  rw [RandomHeap.free]
  by_cases hc : (x.id.index : Int) = (s.random x.id.owner x.id.cls).cachedMiniHeap
  · refine ⟨(s.random x.id.owner x.id.cls).cachedMiniHeap, ?_⟩
    have hnat : (s.random x.id.owner x.id.cls).cachedMiniHeap.toNat = x.id.index := by omega
    rw [if_pos (by omega), hnat]
    simp only [h.freeIn_hit ha hx hb, if_true, RandomHeap.clearSlot]
    rfl
  · split
    · rename_i hcached
      have hlt : (s.random x.id.owner x.id.cls).cachedMiniHeap.toNat <
        (s.random x.id.owner x.id.cls).miniHeapsInUse := by omega
      have hai := active_mk (s := s) (k := x.id.owner) ha.1 hlt
      have hne : (s.random x.id.owner x.id.cls).cachedMiniHeap.toNat ≠ x.id.index := by omega
      have hrefuse := h.refuses_of_ne ha hx hai fun he => hne (congrArg MiniId.index he)
      obtain ⟨env', hfree, rfl⟩ := freeIn_miss hrefuse rfl
      simp only [hfree, Bool.false_eq_true, if_false]
      exact h.freeSearch_hit ha hx hb hc (Nat.le_refl _) hxlt
    · exact h.freeSearch_hit ha hx hb hc (Nat.le_refl _) hxlt

end Placed

/-- What a successful free of slot `x` at address `p` does. -/
structure Process.Freed (cfg : HeapConfig) (s : Process) (x : Slot) (p : Nat) (s' : Process) : Prop where
  bit_eq : ∀ y, s'.bit y = (s.bit y && decide (y ≠ x))
  layout : s.SameLayout s'
  inUse : ∀ k cls, (s'.random k cls).inUse =
    if k = x.id.owner ∧ cls = x.id.cls then sizeSub (s.random k cls).inUse 1
    else (s.random k cls).inUse
  mem : s'.env.mem = RandomMiniHeap.trash cfg x.id (s.mini x.id) p s.env.mem

namespace Placed

variable {k : Nat}

private theorem classFreeIn_miss {R : Env → Prop} {c : Nat} (hc : c < cfg.maxIndex)
    (hm : ∀ id, id.owner = k → id.cls = c → s.Active cfg id → s.Refuses cfg p R id) {env : Env}
    (hR : R env) :
    ∃ env', DieHardHeap.freeIn cfg k p c (s.heaps k) env = (false, s.heaps k, env') ∧ R env' := by
  obtain ⟨env', hfree, hR'⟩ := random_free_miss (s := s) (k := k)
    (fun i hi => hm ⟨k, c, i⟩ rfl rfl (active_mk hc hi)) hR
  have hfree' : RandomHeap.free cfg k c p ((s.heaps k).heaps c) env =
      (false, (s.heaps k).heaps c, env') := hfree
  refine ⟨env', ?_, hR'⟩
  simp only [DieHardHeap.freeIn, hfree', Function.update_eq_self]

private theorem classFreeSearch_miss {R : Env → Prop} {cached : Int} {classes : List Nat}
    (hcs : ∀ c ∈ classes, c < cfg.maxIndex)
    (hm : ∀ id, id.owner = k → s.Active cfg id → s.Refuses cfg p R id) {env : Env} (hR : R env) :
    ∃ env', DieHardHeap.freeSearch cfg k p cached classes (s.heaps k) env =
      (false, s.heaps k, env') ∧ R env' := by
  induction classes generalizing env with
  | nil => exact ⟨env, rfl, hR⟩
  | cons c classes ih =>
    have ih' {env : Env} (hR : R env) := ih (fun c hc => hcs c (List.mem_cons_of_mem _ hc)) hR
    rw [DieHardHeap.freeSearch]
    split
    · exact ih' hR
    · obtain ⟨env', hfree, hR'⟩ := classFreeIn_miss (hcs c List.mem_cons_self)
        (fun id ho _ => hm id ho) hR
      simp only [hfree, Bool.false_eq_true, if_false]
      exact ih' hR'

private theorem classFreeIn_hit (h : Placed cfg s) {x : Slot} (ha : s.Active cfg x.id)
    (hx : (s.layout cfg x.id).Contains x.index p) (hb : s.bit x = true) :
    ∃ cached, DieHardHeap.freeIn cfg x.id.owner p x.id.cls (s.heaps x.id.owner) s.env =
        (true, { s.heaps x.id.owner with
          heaps := Function.update (s.heaps x.id.owner).heaps x.id.cls
            ((s.random x.id.owner x.id.cls).clearSlot x cached) }, s.freedEnv cfg x p) := by
  obtain ⟨cached, hfree⟩ := h.random_free_hit ha hx hb
  have hfree' : RandomHeap.free cfg x.id.owner x.id.cls p ((s.heaps x.id.owner).heaps x.id.cls) s.env =
      (true, (s.random x.id.owner x.id.cls).clearSlot x cached, s.freedEnv cfg x p) := hfree
  refine ⟨cached, ?_⟩
  rw [DieHardHeap.freeIn, hfree']

theorem refuses_of_cls_ne (h : Placed cfg s) {x : Slot} (ha : s.Active cfg x.id)
    (hx : (s.layout cfg x.id).Contains x.index p) {c : Nat} (hne : c ≠ x.id.cls) :
    ∀ id, id.owner = x.id.owner → id.cls = c → s.Active cfg id →
      s.Refuses cfg p (fun env => env = s.env) id := by
  intro id _ hc hid
  exact h.refuses_of_ne ha hx hid fun he => hne (by rw [← hc, he])

private theorem classFreeSearch_hit (h : Placed cfg s) {x : Slot} (ha : s.Active cfg x.id)
    (hx : (s.layout cfg x.id).Contains x.index p) (hb : s.bit x = true) {cached : Int}
    (hne : (x.id.cls : Int) ≠ cached) {classes : List Nat} (hcs : ∀ c ∈ classes, c < cfg.maxIndex)
    (hxc : x.id.cls ∈ classes) :
    ∃ cachedClass cached', DieHardHeap.freeSearch cfg x.id.owner p cached classes
        (s.heaps x.id.owner) s.env =
          (true, { s.heaps x.id.owner with
            cachedSizeClass := cachedClass
            heaps := Function.update (s.heaps x.id.owner).heaps x.id.cls
              ((s.random x.id.owner x.id.cls).clearSlot x cached') }, s.freedEnv cfg x p) := by
  induction classes with
  | nil => simp at hxc
  | cons c classes ih =>
    have hcs' : ∀ c ∈ classes, c < cfg.maxIndex := fun c hc => hcs c (List.mem_cons_of_mem _ hc)
    rw [DieHardHeap.freeSearch]
    by_cases hc : c = x.id.cls
    · subst hc
      obtain ⟨cached', hfree⟩ := h.classFreeIn_hit ha hx hb
      refine ⟨x.id.cls, cached', ?_⟩
      rw [if_neg hne]
      simp only [hfree, if_true]
    · have hxc' : x.id.cls ∈ classes := (List.mem_cons.mp hxc).resolve_left (Ne.symm hc)
      split
      · exact ih hcs' hxc'
      · obtain ⟨env', hfree, rfl⟩ := classFreeIn_miss (hcs c List.mem_cons_self)
          (h.refuses_of_cls_ne ha hx hc) rfl
        simp only [hfree, Bool.false_eq_true, if_false]
        exact ih hcs' hxc'

theorem free_miss (h : Placed cfg s)
    (hm : ∀ id, id.owner = k → s.Active cfg id → s.Misses cfg p id) :
    ∃ env, s.free cfg k p = (false, ⟨s.heaps, env⟩) ∧ s.env.Wrote s.env.mem env := by
  have hcs : ∀ c ∈ List.range cfg.maxIndex, c < cfg.maxIndex := fun c => List.mem_range.mp
  have hrefuse : ∀ id, id.owner = k → s.Active cfg id →
      s.Refuses cfg p (s.env.Wrote s.env.mem) id := fun id ho ha => h.refuses_of_misses ha (hm id ho ha)
  have hmiss : ∃ env, DieHardHeap.free cfg k p (s.heaps k) s.env = (false, s.heaps k, env) ∧
      s.env.Wrote s.env.mem env := by
    rw [DieHardHeap.free]
    split
    · rename_i hcached
      obtain ⟨env, hfree, hw⟩ := classFreeIn_miss (c := (s.heaps k).cachedSizeClass.toNat)
        (by omega) (fun id ho _ => hrefuse id ho) (.refl s.env)
      simp only [hfree, Bool.false_eq_true, if_false]
      exact classFreeSearch_miss hcs hrefuse hw
    · exact classFreeSearch_miss hcs hrefuse (.refl s.env)
  obtain ⟨env, hfree, hw⟩ := hmiss
  refine ⟨env, ?_, hw⟩
  rw [Process.free, hfree]
  simp only [Function.update_eq_self]

private theorem heap_free_hit (h : Placed cfg s) {x : Slot} (ha : s.Active cfg x.id)
    (hx : (s.layout cfg x.id).Contains x.index p) (hb : s.bit x = true) :
    ∃ cachedClass cached, DieHardHeap.free cfg x.id.owner p (s.heaps x.id.owner) s.env =
        (true, { s.heaps x.id.owner with
          cachedSizeClass := cachedClass
          heaps := Function.update (s.heaps x.id.owner).heaps x.id.cls
            ((s.random x.id.owner x.id.cls).clearSlot x cached) }, s.freedEnv cfg x p) := by
  have hcs : ∀ c ∈ List.range cfg.maxIndex, c < cfg.maxIndex := fun c => List.mem_range.mp
  rw [DieHardHeap.free]
  by_cases hc : (x.id.cls : Int) = (s.heaps x.id.owner).cachedSizeClass
  · obtain ⟨cached, hfree⟩ := h.classFreeIn_hit ha hx hb
    refine ⟨(s.heaps x.id.owner).cachedSizeClass, cached, ?_⟩
    have hnat : (s.heaps x.id.owner).cachedSizeClass.toNat = x.id.cls := by omega
    have hlt := ha.1
    rw [if_pos (by omega), hnat]
    simp only [hfree, if_true]
  · split
    · rename_i hcached
      obtain ⟨env, hfree, rfl⟩ := classFreeIn_miss
        (c := (s.heaps x.id.owner).cachedSizeClass.toNat) (by omega)
        (h.refuses_of_cls_ne ha hx (by omega)) rfl
      simp only [hfree, Bool.false_eq_true, if_false]
      exact h.classFreeSearch_hit ha hx hb hc hcs (List.mem_range.mpr ha.1)
    · exact h.classFreeSearch_hit ha hx hb hc hcs (List.mem_range.mpr ha.1)

private theorem mini_clearSlot (r : RandomHeap) (x : Slot) (cached : Int) (i : Nat) :
    (r.clearSlot x cached).miniHeaps i =
      if i = x.id.index then { r.miniHeaps i with
        miniHeapBitmap := ((r.miniHeaps i).miniHeapBitmap.reset x.index).1 } else r.miniHeaps i := by
  by_cases hi : i = x.id.index
  · subst hi
    simp [RandomHeap.clearSlot, RandomHeap.resetBit, RandomHeap.subInUse]
  · simp [RandomHeap.clearSlot, RandomHeap.resetBit, RandomHeap.subInUse, hi]

private theorem clearSlot_sameLayout (r : RandomHeap) (x : Slot) (cached : Int) :
    r.SameLayout (r.clearSlot x cached) := by
  have hsame : r.SameLayout (r.resetBit x) := RandomHeap.SameLayout.setBitmap _ _ _ _ _
  exact ⟨by simp only [RandomHeap.clearSlot, RandomHeap.subInUse, hsame.available],
    by simp only [RandomHeap.clearSlot, RandomHeap.subInUse, hsame.miniHeapsInUse],
    by simp only [RandomHeap.clearSlot, RandomHeap.subInUse, hsame.chunksInUse],
    hsame.activated, hsame.freedValue, hsame.miniHeap, hsame.mapEntryToPage⟩

/-- The process after the free of slot `x`, with the caches and the shared state it leaves. -/
def cleared (s : Process) (x : Slot) (cachedClass cached : Int) (env : Env) : Process :=
  ⟨Function.update s.heaps x.id.owner { s.heaps x.id.owner with
    cachedSizeClass := cachedClass
    heaps := Function.update (s.heaps x.id.owner).heaps x.id.cls
      ((s.random x.id.owner x.id.cls).clearSlot x cached) }, env⟩

private theorem random_cleared (s : Process) (x : Slot) (cachedClass cached : Int) (env : Env)
    (k cls : Nat) : (cleared s x cachedClass cached env).random k cls =
      if k = x.id.owner ∧ cls = x.id.cls then (s.random k cls).clearSlot x cached
      else s.random k cls := by
  by_cases hk : k = x.id.owner
  · subst hk
    by_cases hcls : cls = x.id.cls
    · subst hcls
      simp [cleared, Process.random]
    · simp [cleared, Process.random, hcls]
  · simp [cleared, Process.random, hk]

private theorem bit_cleared (s : Process) (x y : Slot) (cachedClass cached : Int) (env : Env) :
    (cleared s x cachedClass cached env).bit y = (s.bit y && decide (y ≠ x)) := by
  have hmini : (cleared s x cachedClass cached env).mini y.id =
      ((cleared s x cachedClass cached env).random y.id.owner y.id.cls).miniHeaps y.id.index := rfl
  have hmini' : s.mini y.id = (s.random y.id.owner y.id.cls).miniHeaps y.id.index := rfl
  rw [Process.bit, Process.bit, hmini, hmini', random_cleared]
  by_cases hid : y.id = x.id
  · have hyx : y ≠ x ↔ y.index ≠ x.index := by
      cases y
      cases x
      simp_all
    rw [hid, if_pos ⟨rfl, rfl⟩, mini_clearSlot, if_pos rfl]
    simp only [BitMap.isSet_reset, hyx]
  · have hyx : y ≠ x := fun he => hid (by rw [he])
    simp only [ne_eq, hyx, not_false_eq_true, decide_true, Bool.and_true]
    split
    · rename_i he
      have hi : y.id.index ≠ x.id.index := by
        intro hi
        refine hid ?_
        cases hyid : y.id
        cases hxid : x.id
        simp_all
      rw [mini_clearSlot, if_neg hi]
    · rfl

private theorem free_eq_cleared (h : Placed cfg s) {x : Slot} (ha : s.Active cfg x.id)
    (hx : (s.layout cfg x.id).Contains x.index p) (hb : s.bit x = true) :
    ∃ cachedClass cached, s.free cfg x.id.owner p =
      (true, cleared s x cachedClass cached (s.freedEnv cfg x p)) := by
  obtain ⟨cachedClass, cached, hfree⟩ := h.heap_free_hit ha hx hb
  exact ⟨cachedClass, cached, by rw [Process.free, hfree, cleared]⟩

theorem free_env (h : Placed cfg s) {x : Slot} (ha : s.Active cfg x.id)
    (hx : (s.layout cfg x.id).Contains x.index p) (hb : s.bit x = true) :
    (s.free cfg x.id.owner p).2.env = s.freedEnv cfg x p := by
  obtain ⟨cachedClass, cached, hfree⟩ := h.free_eq_cleared ha hx hb
  rw [hfree, cleared]

theorem freed_cleared (h : Placed cfg s) {x : Slot} (ha : s.Active cfg x.id)
    (hx : (s.layout cfg x.id).Contains x.index p) (hb : s.bit x = true) (cachedClass cached : Int) :
    s.Freed cfg x p (cleared s x cachedClass cached (s.freedEnv cfg x p)) := by
  obtain ⟨env', hmini, hw'⟩ := h.mini_free_set ha hx hb
  have hw : s.env.Wrote (RandomMiniHeap.trash cfg x.id (s.mini x.id) p s.env.mem)
      (s.freedEnv cfg x p) := by
    rwa [Process.freedEnv, hmini]
  refine ⟨fun y => bit_cleared s x y _ _ _, ⟨?_, hw.pageTable_eq, hw.mapped_eq⟩, ?_, hw.mem_eq⟩
  · intro k cls
    have hrandom := random_cleared s x cachedClass cached (s.freedEnv cfg x p) k cls
    rw [Process.random, Process.random] at hrandom
    rw [hrandom]
    split
    · exact clearSlot_sameLayout _ _ _
    · exact .refl _
  · intro k cls
    rw [random_cleared]
    split <;> rfl

theorem free_hit (h : Placed cfg s) {x : Slot} (ha : s.Active cfg x.id)
    (hx : (s.layout cfg x.id).Contains x.index p) (hb : s.bit x = true) :
    ∃ s', s.free cfg x.id.owner p = (true, s') ∧ s.Freed cfg x p s' := by
  obtain ⟨cachedClass, cached, hfree⟩ := h.free_eq_cleared ha hx hb
  exact ⟨_, hfree, h.freed_cleared ha hx hb cachedClass cached⟩

end Placed

theorem Process.Freed.placed {s' : Process} {x : Slot} (hf : s.Freed cfg x p s') (h : Placed cfg s) :
    Placed cfg s' := by
  refine h.transfer hf.layout ?_
  intro id i hi
  have hbit := hf.bit_eq ⟨id, i⟩
  rw [show s'.bit ⟨id, i⟩ = true from hi] at hbit
  exact h.bits id i (Bool.and_eq_true_iff.mp hbit.symm).1

/-- `p` lies in an allocated object of heap `k`. -/
def Process.InObject (cfg : HeapConfig) (s : Process) (k : Nat) (p : Nat) (x : Slot) : Prop :=
  x.id.owner = k ∧ s.bit x = true ∧ (s.layout cfg x.id).Contains x.index p

theorem Placed.free_cases (h : Placed cfg s) (k : Nat) (p : Nat) :
    (∃ x s', s.InObject cfg k p x ∧ s.free cfg k p = (true, s') ∧ s.Freed cfg x p s') ∨
    ((∀ x, ¬ s.InObject cfg k p x) ∧
      ∃ env, s.free cfg k p = (false, ⟨s.heaps, env⟩) ∧ s.env.Wrote s.env.mem env) := by
  by_cases hx : ∃ x, s.InObject cfg k p x
  · obtain ⟨x, rfl, hb, hx⟩ := hx
    obtain ⟨s', hfree, hf⟩ := h.free_hit (h.bits _ _ hb).1 hx hb
    exact Or.inl ⟨x, s', ⟨rfl, hb, hx⟩, hfree, hf⟩
  · refine Or.inr ⟨not_exists.mp hx, h.free_miss ?_⟩
    intro id hk _ i hi
    rw [Bool.eq_false_iff]
    intro hb
    exact hx ⟨⟨id, i⟩, hk, hb, hi⟩

/-- The space left in the slot from `p` on. -/
def Process.spaceLeft (cfg : HeapConfig) (s : Process) (x : Slot) (p : Nat) : Nat :=
  getClassSize x.id.cls - (p - (s.layout cfg x.id).addr x.index)

namespace Placed

variable {k : Nat}

theorem spaceLeft_pos {x : Slot} (hx : (s.layout cfg x.id).Contains x.index p) :
    0 < s.spaceLeft cfg x p := by
  obtain ⟨-, hle, hlt⟩ := hx
  have hsize : (s.layout cfg x.id).size = getClassSize x.id.cls := rfl
  rw [hsize] at hlt
  rw [Process.spaceLeft]
  omega

private theorem getSizeSearch_zero (h : Placed cfg s) (hd : cfg.dieHarderOn = false) {c : Nat}
    (hc : c < cfg.maxIndex)
    (hout : ∀ i < (s.random k c).miniHeapsInUse, ∀ j, ¬ (s.layout cfg ⟨k, c, i⟩).InBlock j p)
    {n : Nat} (hn : n ≤ (s.random k c).miniHeapsInUse) :
    RandomHeap.getSizeSearch cfg k c s.env p (s.random k c) n = 0 := by
  induction n with
  | zero => rfl
  | succ i ih =>
    have hzero : RandomMiniHeap.getSize cfg ⟨k, c, i⟩ ((s.random k c).miniHeaps i) s.env p = 0 :=
      h.getSize_eq_zero hd (active_mk hc hn) (hout i hn)
    simp only [RandomHeap.getSizeSearch, hzero, ne_eq, not_true_eq_false, if_false]
    exact ih (by omega)

theorem classSizeOf_zero (h : Placed cfg s) (hd : cfg.dieHarderOn = false) {c : Nat}
    (hc : c < cfg.maxIndex)
    (hout : ∀ i < (s.random k c).miniHeapsInUse, ∀ j, ¬ (s.layout cfg ⟨k, c, i⟩).InBlock j p) :
    s.classSizeOf cfg k p c = 0 :=
  h.getSizeSearch_zero hd hc hout (Nat.le_refl _)

private theorem getSizeSearch_slot (h : Placed cfg s) (hd : cfg.dieHarderOn = false) {x : Slot}
    (ha : s.Active cfg x.id) (hx : (s.layout cfg x.id).Contains x.index p) {n : Nat}
    (hn : n ≤ (s.random x.id.owner x.id.cls).miniHeapsInUse) (hxn : x.id.index < n) :
    RandomHeap.getSizeSearch cfg x.id.owner x.id.cls s.env p (s.random x.id.owner x.id.cls) n =
      s.spaceLeft cfg x p := by
  induction n with
  | zero => omega
  | succ i ih =>
    by_cases hi : i = x.id.index
    · subst hi
      have hsize : RandomMiniHeap.getSize cfg ⟨x.id.owner, x.id.cls, x.id.index⟩
          ((s.random x.id.owner x.id.cls).miniHeaps x.id.index) s.env p = s.spaceLeft cfg x p :=
        h.getSize_eq ha hx
      have hpos := spaceLeft_pos hx
      simp only [RandomHeap.getSizeSearch, hsize]
      rw [if_pos (by omega)]
    · have hai := active_mk (s := s) (k := x.id.owner) ha.1 hn
      have hne : (⟨x.id.owner, x.id.cls, i⟩ : MiniId) ≠ x.id :=
        fun he => hi (congrArg MiniId.index he)
      have hzero : RandomMiniHeap.getSize cfg ⟨x.id.owner, x.id.cls, i⟩
          ((s.random x.id.owner x.id.cls).miniHeaps i) s.env p = 0 :=
        h.getSize_eq_zero hd hai (h.not_inBlock_of_ne ha hx hai hne)
      simp only [RandomHeap.getSizeSearch, hzero, ne_eq, not_true_eq_false, if_false]
      exact ih (by omega) (by omega)

theorem classSizeOf_slot (h : Placed cfg s) (hd : cfg.dieHarderOn = false) {x : Slot}
    (ha : s.Active cfg x.id) (hx : (s.layout cfg x.id).Contains x.index p) :
    s.classSizeOf cfg x.id.owner p x.id.cls = s.spaceLeft cfg x p :=
  h.getSizeSearch_slot hd ha hx (Nat.le_refl _) ha.2

private theorem classSearch_zero {cached : Int} {classes : List Nat}
    (hz : ∀ c ∈ classes, s.classSizeOf cfg k p c = 0) :
    s.getSizeSearch cfg k p cached classes = none := by
  induction classes with
  | nil => rfl
  | cons c classes ih =>
    have ih' := ih fun c hc => hz c (List.mem_cons_of_mem _ hc)
    rw [Process.getSizeSearch]
    split
    · exact ih'
    · simp only [hz c List.mem_cons_self, ne_eq, not_true_eq_false, if_false]
      exact ih'

private theorem classSearch_found {cached : Int} {classes : List Nat} {c₀ sz : Nat}
    (hsz : s.classSizeOf cfg k p c₀ = sz) (hpos : 0 < sz)
    (hz : ∀ c ∈ classes, c ≠ c₀ → s.classSizeOf cfg k p c = 0) (hne : (c₀ : Int) ≠ cached)
    (hmem : c₀ ∈ classes) : s.getSizeSearch cfg k p cached classes = some (sz, c₀) := by
  induction classes with
  | nil => simp at hmem
  | cons c classes ih =>
    have ih' := ih fun c hc => hz c (List.mem_cons_of_mem _ hc)
    rw [Process.getSizeSearch]
    by_cases hc : c = c₀
    · subst hc
      rw [if_neg hne]
      simp only [hsz]
      rw [if_pos (by omega)]
    · have hmem' : c₀ ∈ classes := (List.mem_cons.mp hmem).resolve_left (Ne.symm hc)
      split
      · exact ih' hmem'
      · simp only [hz c List.mem_cons_self hc, ne_eq, not_true_eq_false, if_false]
        exact ih' hmem'

theorem getHeap_slot (h : Placed cfg s) (hd : cfg.dieHarderOn = true) {x : Slot}
    (ha : s.Active cfg x.id) (hx : (s.layout cfg x.id).Contains x.index p) :
    s.env.getHeap cfg p = some x.id := by
  have he := (h.pageTable hd p ⟨x.id, x.index / (s.layout cfg x.id).per *
    (s.layout cfg x.id).per⟩).mpr ⟨ha, _, hx.inBlock, rfl⟩
  rw [Env.getHeap, he]
  rfl

/-- `getSize` of an address in a slot: the slot's own heap answers the space left, and in the
DieHarder variant every heap does. -/
theorem getSize_slot (h : Placed cfg s) {x : Slot} (ha : s.Active cfg x.id)
    (hx : (s.layout cfg x.id).Contains x.index p)
    (hk : cfg.dieHarderOn = true ∨ k = x.id.owner) :
    (s.getSize cfg k p).1 = s.spaceLeft cfg x p := by
  by_cases hd : cfg.dieHarderOn = true
  · simp only [Process.getSize, hd, Bool.not_true, Bool.false_eq_true, if_false,
      h.getHeap_slot hd ha hx]
    exact h.getSize_eq ha hx
  · have hd' : cfg.dieHarderOn = false := by simpa using hd
    obtain rfl := hk.resolve_left hd
    have hsz := h.classSizeOf_slot hd' ha hx
    have hpos := spaceLeft_pos hx
    have hz : ∀ c, c < cfg.maxIndex → c ≠ x.id.cls → s.classSizeOf cfg x.id.owner p c = 0 := by
      intro c hc hne
      refine h.classSizeOf_zero hd' hc ?_
      intro i hi
      exact h.not_inBlock_of_ne ha hx (active_mk hc hi) fun he => hne (congrArg MiniId.cls he)
    simp only [Process.getSize, hd', Bool.not_false, if_true]
    by_cases hc : (x.id.cls : Int) = (s.heaps x.id.owner).cachedSizeClass
    · have hnat : (s.heaps x.id.owner).cachedSizeClass.toNat = x.id.cls := by omega
      have hlt := ha.1
      rw [if_pos (by omega), hnat, hsz, if_pos (by omega)]
    · have hfound := classSearch_found hsz hpos
        (fun c hcm hne => hz c (List.mem_range.mp hcm) hne) hc (List.mem_range.mpr ha.1)
      rw [hfound]
      split
      · rename_i hcached
        rw [hz _ (by omega) (by omega)]
        simp
      · rfl

/-- `getSize` of an address outside every block of the heap, or in the DieHarder variant outside
every block of any heap. -/
theorem getSize_zero (h : Placed cfg s)
    (hout : ∀ id, cfg.dieHarderOn = true ∨ id.owner = k → s.Active cfg id →
      ∀ j, ¬ (s.layout cfg id).InBlock j p) :
    (s.getSize cfg k p).1 = 0 := by
  by_cases hd : cfg.dieHarderOn = true
  · have hnone : s.env.getHeap cfg p = none := by
      rw [Env.getHeap, Option.map_eq_none_iff, Option.eq_none_iff_forall_ne_some]
      intro e he
      obtain ⟨ha, j, hj, -⟩ := (h.pageTable hd p e).mp he
      exact hout e.heap (Or.inl hd) ha j hj
    simp only [Process.getSize, hd, Bool.not_true, Bool.false_eq_true, if_false, hnone]
  · have hd' : cfg.dieHarderOn = false := by simpa using hd
    have hz : ∀ c, c < cfg.maxIndex → s.classSizeOf cfg k p c = 0 := by
      intro c hc
      refine h.classSizeOf_zero hd' hc ?_
      intro i hi
      exact hout ⟨k, c, i⟩ (Or.inr rfl) (active_mk hc hi)
    have hnone : s.getSizeSearch cfg k p (s.heaps k).cachedSizeClass (List.range cfg.maxIndex) = none :=
      classSearch_zero fun c hc => hz c (List.mem_range.mp hc)
    simp only [Process.getSize, hd', Bool.not_false, if_true, hnone]
    split
    · rename_i hcached
      rw [hz _ (by omega)]
      simp
    · rfl

end Placed

end DieHard
