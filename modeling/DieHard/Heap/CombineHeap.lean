import DieHard.Heap.InvalidFree
import DieHard.Heap.LargeObjects

/-!
# Small and large heap together

`CombineHeap` serves small requests from a `DieHardHeap` and large ones from the large heap. Its
`getSize` asks the small heap first. A small object reports the space left from every address in it, a
large object only from its page addresses, because those have the only entries.
-/

namespace DieHard

open Blocks LargeHeap

variable {cfg : HeapConfig}

/-- The `DieHardHeap` objects of a process and the large heap they share. -/
structure CombineHeap where
  small : Process
  big : LargeSession

namespace CombineHeap

/-- `malloc` of heap `k`; `ptr` is the answer of `Mapper::map` to a large request. -/
def malloc (cfg : HeapConfig) (k sz : Nat) (sources : List (Nat → Addr)) (randoms : List (Nat × Nat))
    (ptr : Addr) (s : CombineHeap) : Option (Addr × CombineHeap) :=
  if sz ≤ cfg.maxSize then
    (s.small.malloc cfg k sz sources randoms).map fun r => (r.1, { s with small := r.2 })
  else (s.big.next cfg (.malloc sz ptr)).map fun big => (ptr, { s with big := big })

/-- `free` of heap `k`. -/
def free (cfg : HeapConfig) (k : Nat) (p : Addr) (s : CombineHeap) : Option CombineHeap :=
  let r := s.small.free cfg k p
  if r.1 then some { s with small := r.2 }
  else (s.big.next cfg (.free p)).map fun big => ⟨r.2, big⟩

/-- `getSize` of heap `k`. -/
def getSize (cfg : HeapConfig) (k : Nat) (p : Addr) (s : CombineHeap) : Nat × CombineHeap :=
  let r := s.small.getSize cfg k p
  (if r.1 = 0 then s.big.heap.getSize p else r.1, { s with small := r.2 })

inductive Action
  | malloc (k sz : Nat) (sources : List (Nat → Addr)) (randoms : List (Nat × Nat)) (ptr : Addr)
  | free (k : Nat) (p : Addr)
  | getSize (k : Nat) (p : Addr)

instance : Inhabited Action := ⟨.free 0 0⟩

def next (cfg : HeapConfig) (s : CombineHeap) : Action → Option CombineHeap
  | .malloc k sz sources randoms ptr => (s.malloc cfg k sz sources randoms ptr).map Prod.snd
  | .free k p => s.free cfg k p
  | .getSize k p => some (s.getSize cfg k p).2

def ApartFromLarge (cfg : HeapConfig) (s : CombineHeap) : Prop :=
  ∀ r ∈ s.small.env.mapped, ∀ b, s.big.live b ≠ 0 →
    Apart r.1 r.2 b (extent cfg (s.big.live b))

/-- The sources of memory hand out what is not in use, mappings of large objects succeed, their pages fit
the `int` of the large heap, and no free is given the address of a later page of a large object. -/
def ok (cfg : HeapConfig) (s : CombineHeap) : Action → Prop
  | .malloc k sz sources randoms ptr =>
    if sz ≤ cfg.maxSize then
      SourcesFresh cfg k (requestClass sz) sources (s.small.random k (requestClass sz)) s.small.env ∧
        ∀ r, s.malloc cfg k sz sources randoms ptr = some r → r.2.ApartFromLarge cfg
    else s.big.ok cfg (.malloc sz ptr) ∧
      ∀ r ∈ s.small.env.mapped, Apart r.1 r.2 ptr (extent cfg sz)
  | .free _ p => s.big.ok cfg (.free p)
  | .getSize _ _ => True

structure Inv (cfg : HeapConfig) (s : CombineHeap) : Prop where
  placed : Placed cfg s.small
  big : s.big.Inv cfg
  apart : s.ApartFromLarge cfg

end CombineHeap

/-- `getSize` changes no more than a cached size class. -/
theorem Process.getSize_frame (cfg : HeapConfig) (s : Process) (k : Nat) (p : Addr) :
    (∀ k' cls, ((s.getSize cfg k p).2.heaps k').heaps cls = (s.heaps k').heaps cls) ∧
      (s.getSize cfg k p).2.env = s.env := by
  have hcached (i : Int) : ∀ k' cls,
      ((Function.update s.heaps k { s.heaps k with cachedSizeClass := i }) k').heaps cls =
        (s.heaps k').heaps cls := by
    intro k' cls
    rw [Function.update_apply]
    split
    · rename_i he
      rw [he]
    · rfl
  rw [Process.getSize]
  split
  · cases hr : s.getSizeSearch cfg k p (s.heaps k).cachedSizeClass (List.range cfg.maxIndex) with
    | none =>
      simp only [hr]
      split
      · split <;> exact ⟨fun _ _ => rfl, rfl⟩
      · exact ⟨fun _ _ => rfl, rfl⟩
    | some r =>
      simp only [hr]
      split
      · split
        · exact ⟨fun _ _ => rfl, rfl⟩
        · exact ⟨hcached r.2, rfl⟩
      · exact ⟨hcached r.2, rfl⟩
  · cases s.env.getHeap cfg p <;> exact ⟨fun _ _ => rfl, rfl⟩

theorem Placed.getSize_placed {s : Process} (h : Placed cfg s) (k : Nat) (p : Addr) :
    Placed cfg (s.getSize cfg k p).2 := by
  obtain ⟨hheaps, henv⟩ := s.getSize_frame cfg k p
  have hlayout : s.SameLayout (s.getSize cfg k p).2 := by
    refine ⟨?_, by rw [henv], by rw [henv]⟩
    intro k' cls
    rw [hheaps]
    exact .refl _
  refine h.transfer hlayout ?_
  intro id i hi
  rw [Process.mini, hheaps] at hi
  exact h.bits id i hi

namespace CombineHeap

variable {s s' : CombineHeap}

private theorem inv_malloc (h : Inv cfg s) {k sz : Nat} {sources : List (Nat → Addr)}
    {randoms : List (Nat × Nat)} {ptr : Addr} (hok : s.ok cfg (.malloc k sz sources randoms ptr))
    {r : Addr × CombineHeap} (hm : s.malloc cfg k sz sources randoms ptr = some r) : Inv cfg r.2 := by
  by_cases hsz : sz ≤ cfg.maxSize
  · simp only [ok, if_pos hsz] at hok
    have hapart := hok.2 r hm
    rw [malloc, if_pos hsz] at hm
    obtain ⟨⟨p, process⟩, hp, rfl⟩ := Option.map_eq_some_iff.mp hm
    obtain ⟨x, -, -, -, hx⟩ := h.placed.malloc hsz hok.1 hp
    exact ⟨hx.placed, h.big, hapart⟩
  · simp only [ok, if_neg hsz] at hok
    rw [malloc, if_neg hsz] at hm
    obtain ⟨big, hb, rfl⟩ := Option.map_eq_some_iff.mp hm
    refine ⟨h.placed, h.big.next hok.1 hb, ?_⟩
    intro r hr b hlive
    cases hb
    simp only at hlive ⊢
    split at hlive
    · rename_i hno
      rw [if_pos hno]
      exact h.apart r hr b hlive
    · rename_i hno
      rw [if_neg hno]
      rw [Function.update_apply] at hlive ⊢
      split at hlive
      · rename_i he
        rw [if_pos he, he]
        exact hok.2 r hr
      · rename_i he
        rw [if_neg he]
        exact h.apart r hr b hlive

private theorem inv_free (h : Inv cfg s) {k : Nat} {p : Addr} (hok : s.ok cfg (.free k p))
    (hf : s.free cfg k p = some s') : Inv cfg s' := by
  rcases h.placed.free_cases k p with ⟨x, process, -, hfree, hx⟩ | ⟨-, env, hfree, hw⟩
  · simp only [free, hfree, if_true, Option.some.injEq] at hf
    subst hf
    refine ⟨hx.placed h.placed, h.big, ?_⟩
    intro r hr
    exact h.apart r (by rwa [hx.layout.mapped] at hr)
  · simp only [free, hfree, Bool.false_eq_true, if_false] at hf
    obtain ⟨big, hb, rfl⟩ := Option.map_eq_some_iff.mp hf
    refine ⟨h.placed.setEnv hw, h.big.next (a := .free p) hok hb, ?_⟩
    intro r hr b hlive
    have hr' : r ∈ s.small.env.mapped := by
      rw [← hw.mapped_eq]
      exact hr
    cases hb
    simp only [Function.update_apply] at hlive ⊢
    split at hlive
    · exact absurd rfl hlive
    · rename_i he
      rw [if_neg he]
      exact h.apart r hr' b hlive

theorem Inv.next {a : Action} (h : Inv cfg s) (hok : s.ok cfg a) (hn : s.next cfg a = some s') :
    Inv cfg s' := by
  cases a with
  | malloc k sz sources randoms ptr =>
    obtain ⟨r, hm, rfl⟩ := Option.map_eq_some_iff.mp hn
    exact inv_malloc h hok hm
  | free k p => exact inv_free h hok hn
  | getSize k p =>
    cases hn
    refine ⟨h.placed.getSize_placed k p, h.big, ?_⟩
    intro r hr
    have henv := (s.small.getSize_frame cfg k p).2
    exact h.apart r (by rw [← henv]; exact hr)

def initial (localRandom : Nat → BitVec 64) (random : Nat → Nat → Nat → BitVec 64)
    (mem : Addr → BitVec 8) (mapped : List (Addr × Nat)) : CombineHeap :=
  ⟨.initial localRandom random mem mapped, .initial⟩

theorem inv_initial (localRandom : Nat → BitVec 64) (random : Nat → Nat → Nat → BitVec 64)
    (mem : Addr → BitVec 8) (mapped : List (Addr × Nat)) :
    Inv cfg (initial localRandom random mem mapped) :=
  ⟨placed_initial _ _ _ _, LargeSession.inv_initial, fun _ _ _ h => absurd rfl h⟩

/-- Heap `k` has a live object of `u` usable bytes at `b`: a small object of a class of that size, or a
large object of the requested size. -/
def Usable (cfg : HeapConfig) (s : CombineHeap) (k : Nat) (b u : Nat) : Prop :=
  (∃ x : Slot, x.id.owner = k ∧ s.small.bit x = true ∧ b = (s.small.layout cfg x.id).addr x.index ∧
    u = getClassSize x.id.cls) ∨ s.big.live b = u

/-- `p` lies in no miniheap and in no large object. -/
def Outside (cfg : HeapConfig) (s : CombineHeap) (p : Nat) : Prop :=
  (∀ id, s.small.Active cfg id → ∀ j, ¬ (s.small.layout cfg id).InBlock j p) ∧
    ∀ b, ¬ (b ≤ p ∧ p < b + s.big.live b)

theorem Inv.not_inBlock (h : Inv cfg s) {b p : Nat} (hlo : b ≤ p) (hhi : p < b + s.big.live b)
    {id : MiniId} (ha : s.small.Active cfg id) (j : Nat) : ¬ (s.small.layout cfg id).InBlock j p := by
  rintro ⟨hj, hle, hlt⟩
  have hmapped := (h.placed.base id j ha hj).2.2
  have hlive : s.big.live b ≠ 0 := by omega
  have hapart := h.apart _ hmapped b hlive
  have hext := le_extent cfg (s.big.live b)
  simp only [Apart] at hapart
  omega

/-- The size that a large object reports. -/
theorem Inv.getSize_large (h : Inv cfg s) {k b o : Nat} (ho : o < s.big.live b) :
    (s.getSize cfg k (b + o)).1 = if cfg.pageSize ∣ o then s.big.live b - o else 0 := by
  have hsmall : (s.small.getSize cfg k (b + o)).1 = 0 :=
    h.placed.getSize_zero fun id _ ha j => h.not_inBlock (Nat.le_add_right b o) (by omega) ha j
  have hbig : (s.getSize cfg k (b + o)).1 = s.big.heap.get (b + o) := by
    simp only [getSize, hsmall, if_true]
    rfl
  rw [hbig]
  split
  · rename_i hd
    have hpage : IsPage cfg b (s.big.live b) (b + o) :=
      isPage_iff.mpr ⟨Nat.le_add_right b o, by omega, by rwa [Nat.add_sub_cancel_left]⟩
    rw [h.big.page b (b + o) hpage, Nat.add_sub_cancel_left]
  · rename_i hd
    refine h.big.other (b + o) ?_
    intro c hc
    have hcb : c = b := by
      by_contra hne
      have hapart := h.big.apart c b (LargeSession.live_of_page hc) (by omega) hne
      have hcl := hc.lt
      have hce := le_extent cfg (s.big.live c)
      have hbe := le_extent cfg (s.big.live b)
      rcases hapart with hlt | hlt <;> omega
    rw [hcb] at hc
    have hdvd := (isPage_iff.mp hc).2.2
    rw [Nat.add_sub_cancel_left] at hdvd
    exact hd hdvd

/-- In every reachable state a live object reports the space left from an address inside it exactly
when it is a small object or the address is one of its page addresses; an address outside all memory
of the heap reports zero. -/
theorem getSize_interior_iff {localRandom : Nat → BitVec 64} {random : Nat → Nat → Nat → BitVec 64}
    {mem : Addr → BitVec 8} {mapped : List (Addr × Nat)}
    (h : Transition.Reach (next cfg) (ok cfg) (initial localRandom random mem mapped) s) (k : Nat) :
    (∀ b u o, s.Usable cfg k b u → o < u →
      ((s.getSize cfg k (b + o)).1 = u - o ↔ s.big.live b = 0 ∨ cfg.pageSize ∣ o)) ∧
    ∀ p, s.Outside cfg p → (s.getSize cfg k p).1 = 0 := by
  have hinv : Inv cfg s := h.invariant (inv_initial _ _ _ _) fun _ _ _ hi hok hn => hi.next hok hn
  constructor
  · rintro b u o (⟨x, rfl, hb, rfl, rfl⟩ | rfl) ho
    · have ha := hinv.placed.bit_active hb
      have hx : (s.small.layout cfg x.id).Contains x.index ((s.small.layout cfg x.id).addr x.index + o) :=
        ⟨hinv.placed.bit_slot hb, Nat.le_add_right _ _, Nat.add_lt_add_left ho _⟩
      have hsz := hinv.placed.getSize_slot ha hx (Or.inr rfl)
      have hzero : s.big.live ((s.small.layout cfg x.id).addr x.index) = 0 := by
        by_contra hl
        have hc := Layout.contains_addr (hinv.placed.bit_slot hb)
        exact hinv.not_inBlock (Nat.le_refl _) (by omega) ha _ hc.inBlock
      rw [Process.spaceLeft, Nat.add_sub_cancel_left] at hsz
      simp only [getSize, hsz, hzero, true_or, iff_true]
      rw [if_neg (by omega)]
    · rw [hinv.getSize_large ho]
      constructor
      · intro he
        by_contra hno
        rw [if_neg fun hd => hno (Or.inr hd)] at he
        omega
      · intro hc
        rw [if_pos (hc.resolve_left (by omega))]
  · intro p hp
    have hsmall : (s.small.getSize cfg k p).1 = 0 :=
      hinv.placed.getSize_zero fun id _ ha j => hp.1 id ha j
    simp only [getSize, hsmall, if_true]
    exact hinv.big.other p fun b hb => hp.2 b hb.lt

def blank : CombineHeap := initial (fun _ => 0) (fun _ _ _ => 0) (fun _ => 0) []

def twoMegabytes : List Action := [.malloc 0 2097152 [] [] 4194304]

def twoMegabytesState : CombineHeap :=
  Transition.final (next (.libdieharder false false)) blank twoMegabytes

private theorem reach_twoMegabytes : Transition.Reach (next (.libdieharder false false))
    (ok (.libdieharder false false)) blank twoMegabytesState := by
  refine Transition.reach_final ⟨⟨Or.inr ⟨by decide, ⟨by decide, ?_⟩, by decide⟩, ?_⟩, fun _ _ => trivial⟩ rfl
  · intro b hb
    exact absurd rfl hb
  · intro r hr
    cases hr

private theorem usable_twoMegabytes : twoMegabytesState.Usable (.libdieharder false false) 0 4194304
    2097152 := Or.inr rfl

theorem getSize_secondPage :
    (twoMegabytesState.getSize (.libdieharder false false) 0 (4194304 + 4096)).1 = 2097152 - 4096 ∧
      (twoMegabytesState.getSize (.libdieharder false false) 0 0).1 = 0 := by
  have h := getSize_interior_iff reach_twoMegabytes 0
  refine ⟨(h.1 4194304 2097152 4096 usable_twoMegabytes (by decide)).mpr (Or.inr (by decide)),
    h.2 0 ⟨?_, ?_⟩⟩
  · rintro id ⟨-, ha⟩
    exact absurd ha (Nat.not_lt_zero _)
  · rintro b ⟨hlo, hhi⟩
    obtain rfl := Nat.le_zero.mp hlo
    exact absurd hhi (by decide)

/-- From its second byte on the object reports nothing. -/
theorem not_getSize_secondByte :
    Transition.Reach (next (.libdieharder false false)) (ok (.libdieharder false false)) blank
        twoMegabytesState ∧
      twoMegabytesState.Usable (.libdieharder false false) 0 4194304 2097152 ∧
      (twoMegabytesState.getSize (.libdieharder false false) 0 (4194304 + 1)).1 ≠ 2097152 - 1 := by
  refine ⟨reach_twoMegabytes, usable_twoMegabytes, ?_⟩
  intro he
  have h := (getSize_interior_iff reach_twoMegabytes 0).1 4194304 2097152 1 usable_twoMegabytes
    (by decide)
  rcases h.mp he with hlive | hdvd
  · exact absurd hlive (by decide)
  · exact absurd hdvd (by decide)

end CombineHeap

end DieHard
