import DieHard.Heap.LargeObjects

/-!
# Threads on the large heap

`malloc` maps its object before it takes the lock, so other threads map, set and free objects between the
mapping and the entries of an object. The entries are those of the live objects in every schedule as long
as the page counts fit the `int` of the loops.
-/

namespace DieHard

open Blocks Transition LargeHeap

/-- The heap, the objects that threads have mapped and not entered yet, and the sizes of the objects whose
`malloc` has returned, by base. -/
structure LargeThreads where
  heap : LargeHeap
  mapped : Nat → Option (Nat × Addr)
  live : Addr → Nat

/-- `map` carries the answer of `Mapper::map`; `set` and `free` are done under the lock. -/
inductive LargeStep
  | map (thread : Nat) (sz : Nat) (ptr : Addr)
  | set (thread : Nat)
  | free (ptr : Addr)

namespace LargeThreads

variable (cfg : HeapConfig)

def new : LargeThreads := ⟨.empty, fun _ => none, fun _ => 0⟩

def next (s : LargeThreads) : LargeStep → Option LargeThreads
  | .map t sz ptr =>
    match s.mapped t with
    | none => some { s with mapped := Function.update s.mapped t (some (sz, ptr)) }
    | some _ => none
  | .set t =>
    match s.mapped t with
    | none => none
    | some (sz, ptr) => some {
        heap := (LargeHeap.malloc cfg sz ptr s.heap).2
        mapped := Function.update s.mapped t none
        live := if sz = 0 then s.live else Function.update s.live ptr sz }
  | .free p => some { s with
      heap := (LargeHeap.free cfg p s.heap).2
      live := Function.update s.live p 0 }

/-- The pages of `sz` bytes at `ptr` are not mapped. -/
structure Unmapped (s : LargeThreads) (sz : Nat) (ptr : Addr) : Prop where
  live : ∀ b, s.live b ≠ 0 → Apart ptr (extent cfg sz) b (extent cfg (s.live b))
  mapped : ∀ t n b, s.mapped t = some (n, b) → n ≠ 0 → Apart ptr (extent cfg sz) b (extent cfg n)

/-- The mapping succeeds with whole pages that are not mapped at that moment. A free is given the base of a
live object, or no address of one. -/
def ok (s : LargeThreads) : LargeStep → Prop
  | .map _ sz ptr => sz = 0 ∨ (cfg.pageSize ∣ ptr ∧ ptr ≠ 0) ∧ Unmapped cfg s sz ptr
  | .set _ => True
  | .free p => s.live p ≠ 0 ∨ ∀ b, ¬ IsPage cfg b (s.live b) p

/-- The pages of each request fit the `int`. -/
def Fits : LargeStep → Prop
  | .map _ sz _ => LargeHeap.Fits cfg sz
  | .set _ => True
  | .free _ => True

/-- There is one entry for each page of each live object, with the size that is left from that page, and
no other. A free unmaps the object at its base, removes its entries and leaves the others. -/
structure Consistent (s : LargeThreads) : Prop where
  page : ∀ b a, IsPage cfg b (s.live b) a → s.heap.get a = s.live b - (a - b)
  other : ∀ a, (∀ b, ¬ IsPage cfg b (s.live b) a) → s.heap.get a = 0
  free : ∀ p, s.live p ≠ 0 → (LargeHeap.free cfg p s.heap).1 = some (s.live p) ∧
    ∀ a, (LargeHeap.free cfg p s.heap).2.get a =
      if IsPage cfg p (s.live p) a then 0 else s.heap.get a

def session (s : LargeThreads) : LargeSession := ⟨s.heap, s.live⟩

structure Inv (s : LargeThreads) : Prop where
  session : LargeSession.Inv cfg s.session
  mapped : ∀ t sz ptr, s.mapped t = some (sz, ptr) → LargeHeap.Fits cfg sz ∧
    (sz ≠ 0 → s.session.MapperFresh cfg sz ptr ∧ ptr ≠ 0)
  apart : ∀ t u m a n b, t ≠ u → s.mapped t = some (m, a) → s.mapped u = some (n, b) → m ≠ 0 →
    n ≠ 0 → Apart a (extent cfg m) b (extent cfg n)

variable {cfg} {s s' : LargeThreads} {t sz : Nat} {ptr p : Addr}

theorem inv_new : Inv cfg new := by
  refine ⟨LargeSession.inv_initial, ?_, ?_⟩
  · intro t sz ptr hmapped
    contradiction
  · intro t u m a n b _ hmapped
    contradiction

theorem Inv.not_laterPage (h : Inv cfg s) (hok : s.live p ≠ 0 ∨ ∀ b, ¬ IsPage cfg b (s.live b) p) :
    ¬ s.session.LaterPage cfg p := by
  intro hlater
  obtain ⟨b, hne, hb⟩ := hlater
  cases hok with
  | inl hlive => exact hne (h.session.page_unique (h.session.page_base hlive) hb)
  | inr hno => exact hno b hb

theorem Inv.map (h : Inv cfg s) (hfits : LargeHeap.Fits cfg sz)
    (hok : sz = 0 ∨ (cfg.pageSize ∣ ptr ∧ ptr ≠ 0) ∧ Unmapped cfg s sz ptr) :
    Inv cfg { s with mapped := Function.update s.mapped t (some (sz, ptr)) } := by
  have hnew (hsz : sz ≠ 0) := hok.resolve_left hsz
  have hcases {u n : Nat} {b : Addr}
      (hu : Function.update s.mapped t (some (sz, ptr)) u = some (n, b)) :
      u = t ∧ n = sz ∧ b = ptr ∨ u ≠ t ∧ s.mapped u = some (n, b) := by
    rw [Function.update_apply] at hu
    split at hu
    · rename_i hut
      cases hu
      exact .inl ⟨hut, rfl, rfl⟩
    · exact .inr ⟨‹_›, hu⟩
  refine ⟨h.session, ?_, ?_⟩
  · intro u n b hu
    cases hcases hu with
    | inl hthis =>
      obtain ⟨-, rfl, rfl⟩ := hthis
      refine ⟨hfits, ?_⟩
      intro hsz
      exact ⟨⟨(hnew hsz).1.1, (hnew hsz).2.live⟩, (hnew hsz).1.2⟩
    | inr hother => exact h.mapped u n b hother.2
  · intro u w m a n b hne hu hw hm hn
    cases hcases hu with
    | inl hthis =>
      obtain ⟨rfl, rfl, rfl⟩ := hthis
      cases hcases hw with
      | inl hsame => exact absurd hsame.1.symm hne
      | inr hother => exact (hnew hm).2.mapped w n b hother.2 hn
    | inr hother =>
      cases hcases hw with
      | inl hthis =>
        obtain ⟨rfl, rfl, rfl⟩ := hthis
        exact ((hnew hn).2.mapped u m a hother.2 hm).symm
      | inr hother' => exact h.apart u w m a n b hne hother.2 hother'.2 hm hn

theorem Inv.relive (h : Inv cfg s) {heap : LargeHeap} {mapped : Nat → Option (Nat × Addr)}
    {live : Addr → Nat} (hsession : LargeSession.Inv cfg ⟨heap, live⟩)
    (hmapped : ∀ u x, mapped u = some x → s.mapped u = some x)
    (hapart : ∀ u n b c, mapped u = some (n, b) → n ≠ 0 → live c ≠ 0 → live c ≠ s.live c →
      Apart b (extent cfg n) c (extent cfg (live c))) : Inv cfg ⟨heap, mapped, live⟩ := by
  refine ⟨hsession, ?_, ?_⟩
  · intro u n b hu
    obtain ⟨hn, hfresh⟩ := h.mapped u n b (hmapped u _ hu)
    refine ⟨hn, ?_⟩
    intro hn0
    refine ⟨⟨(hfresh hn0).1.1, ?_⟩, (hfresh hn0).2⟩
    intro c hc
    by_cases hsame : live c = s.live c
    · have hlive : s.live c ≠ 0 := hsame ▸ hc
      have hold := (hfresh hn0).1.2 c hlive
      exact (hsame ▸ hold : Apart b (extent cfg n) c (extent cfg (live c)))
    · exact hapart u n b c hu hn0 hc hsame
  · intro u w m a n b hne hu hw
    exact h.apart u w m a n b hne (hmapped u _ hu) (hmapped w _ hw)

theorem Inv.set (h : Inv cfg s) (hmapped : s.mapped t = some (sz, ptr)) :
    Inv cfg {
      heap := (LargeHeap.malloc cfg sz ptr s.heap).2
      mapped := Function.update s.mapped t none
      live := if sz = 0 then s.live else Function.update s.live ptr sz } := by
  obtain ⟨hfits, hfresh⟩ := h.mapped t sz ptr hmapped
  have hrest {u : Nat} {x : Nat × Addr} (hu : Function.update s.mapped t none u = some x) :
      u ≠ t ∧ s.mapped u = some x := by
    rw [Function.update_apply] at hu
    split at hu
    · contradiction
    · exact ⟨‹_›, hu⟩
  by_cases hsz : sz = 0
  · have hsession : LargeSession.Inv cfg ⟨(LargeHeap.malloc cfg sz ptr s.heap).2,
        if sz = 0 ∨ ptr = 0 then s.live else Function.update s.live ptr sz⟩ :=
      h.session.next (a := .malloc sz ptr) (.inl hsz) rfl
    rw [if_pos (.inl hsz)] at hsession
    rw [if_pos hsz]
    apply h.relive hsession
    · intro u x hu
      exact (hrest hu).2
    · intro u n b c _ _ _ hne
      contradiction
  · have hsession : LargeSession.Inv cfg ⟨(LargeHeap.malloc cfg sz ptr s.heap).2,
        if sz = 0 ∨ ptr = 0 then s.live else Function.update s.live ptr sz⟩ :=
      h.session.next (a := .malloc sz ptr) (.inr ⟨hfits, hfresh hsz⟩) rfl
    rw [if_neg (not_or.mpr ⟨hsz, (hfresh hsz).2⟩)] at hsession
    rw [if_neg hsz]
    have hnew {b : Addr} (hne : Function.update s.live ptr sz b ≠ s.live b) : b = ptr := by
      by_contra hb
      exact hne (Function.update_of_ne hb _ _)
    apply h.relive hsession
    · intro u x hu
      exact (hrest hu).2
    · intro u n b c hu hn _ hne
      rw [hnew hne, Function.update_self]
      exact h.apart u t n b sz ptr (hrest hu).1 (hrest hu).2 hmapped hn hsz

theorem Inv.free (h : Inv cfg s) (hok : s.live p ≠ 0 ∨ ∀ b, ¬ IsPage cfg b (s.live b) p) :
    Inv cfg { s with
      heap := (LargeHeap.free cfg p s.heap).2
      live := Function.update s.live p 0 } := by
  have hp := h.not_laterPage hok
  have hnone {b : Addr} (hb : Function.update s.live p 0 b ≠ 0) :
      Function.update s.live p 0 b = s.live b := by
    by_cases hbp : b = p
    · rw [hbp, Function.update_self] at hb
      contradiction
    · rw [Function.update_of_ne hbp]
  apply h.relive (h.session.next (a := .free p) hp rfl)
  · intro u x hu
    exact hu
  · intro u n b c _ _ hc hne
    exact absurd (hnone hc) hne

theorem Inv.next {a : LargeStep} (h : Inv cfg s) (hok : s.ok cfg a) (hfits : Fits cfg a)
    (hs : s.next cfg a = some s') : Inv cfg s' := by
  cases a with
  | map t sz ptr =>
    simp only [LargeThreads.next] at hs
    split at hs
    · obtain rfl := Option.some.inj hs
      exact h.map hfits hok
    · contradiction
  | set t =>
    simp only [LargeThreads.next] at hs
    split at hs
    · contradiction
    · rename_i hmapped
      obtain rfl := Option.some.inj hs
      exact h.set hmapped
  | free p =>
    obtain rfl := Option.some.inj hs
    exact h.free hok

theorem Inv.consistent (h : Inv cfg s) : Consistent cfg s := by
  refine ⟨h.session.page, h.session.other, ?_⟩
  intro p hlive
  have hp := h.not_laterPage (.inl hlive)
  have hfree := h.session.freesByBase_iff.mpr hp
  rw [LargeSession.FreesByBase, if_neg (show s.session.live p ≠ 0 from hlive)] at hfree
  exact hfree

/-- In every run of any number of threads whose requests fit the `int` the entries are those of the live
objects. -/
theorem reach_consistent (h : Reach (next cfg) (fun s a => s.ok cfg a ∧ Fits cfg a) new s) :
    Consistent cfg s := by
  apply Inv.consistent
  apply h.invariant inv_new
  intro r a r' hi hok hs
  exact hi.next hok.1 hok.2 hs

def reuse : List LargeStep := [.map 0 8192 65536, .set 0, .free 65536, .map 1 4096 69632, .set 1]

theorem consistent_reuse : Consistent (.libdieharder false false)
    (final (LargeThreads.next (.libdieharder false false)) new reuse) := by
  apply reach_consistent
  refine reach_final ⟨⟨.inr ⟨by decide, ?_, ?_⟩, (by decide : LargeHeap.Fits _ _)⟩, ?_⟩ rfl
  · intro b hb
    contradiction
  · intro t n b hb
    contradiction
  · intro s₁ h₁
    cases h₁
    refine ⟨⟨trivial, trivial⟩, ?_⟩
    intro s₂ h₂
    cases h₂
    refine ⟨⟨.inl (by decide), trivial⟩, ?_⟩
    intro s₃ h₃
    cases h₃
    refine ⟨⟨.inr ⟨by decide, ?_, ?_⟩, (by decide : LargeHeap.Fits _ _)⟩, ?_⟩
    · intro b hb
      by_cases hbase : b = 65536
      · rw [hbase] at hb
        contradiction
      · have hnone : Function.update (Function.update (fun _ => 0) 65536 8192) 65536 0 b = 0 := by
          rw [Function.update_of_ne hbase, Function.update_of_ne hbase]
        exact absurd hnone hb
    · intro t n b hb
      cases t with
      | zero => contradiction
      | succ t => contradiction
    · intro s₄ h₄
      cases h₄
      exact ⟨⟨trivial, trivial⟩, fun _ _ => trivial⟩

def huge : List LargeStep := [.map 0 (2 ^ 43) (2 ^ 44), .set 0]

/-- It has no entry at all. -/
theorem not_consistent : ¬ ∀ cfg s, Reach (next cfg) (ok cfg) new s → Consistent cfg s := by
  intro h
  have hreach : Reach (LargeThreads.next (.libdieharder false false)) (ok (.libdieharder false false))
      new (final (LargeThreads.next (.libdieharder false false)) new huge) := by
    refine reach_final ⟨.inr ⟨by decide, ?_, ?_⟩, fun _ _ => ⟨trivial, fun _ _ => trivial⟩⟩ rfl
    · intro b hb
      contradiction
    · intro t n b hb
      contradiction
  have hpage := (h _ _ hreach).page (2 ^ 44) (2 ^ 44) (isPage_iff.mpr (by decide))
  have hnone : (final (LargeThreads.next (.libdieharder false false)) new huge).heap.get (2 ^ 44) = 0 := by
    decide
  rw [hnone] at hpage
  revert hpage
  decide

end LargeThreads

end DieHard
