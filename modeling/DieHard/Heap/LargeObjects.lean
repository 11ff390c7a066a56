import DieHard.Heap.LargeHeap
import DieHard.Lib.Blocks
import DieHard.Lib.Transition

/-!
# Runs of the large heap

`set` makes an entry for every page of an object, so `free` takes the address of a later page for an
object of its own. As long as no call does that, every mapping succeeds and the pages of every object fit
the `int` of the loops, the entries are those of the live objects, and a free releases a whole object by its
base or nothing.
-/

namespace DieHard

open Blocks

variable {cfg : HeapConfig}

open LargeHeap

/-- A large heap and the sizes of its live objects, by base; other addresses have size `0`. -/
structure LargeSession where
  heap : LargeHeap
  live : Addr → Nat

namespace LargeSession

/-- `malloc` carries the answer of `Mapper::map`. -/
inductive Action
  | malloc (sz : Nat) (ptr : Addr)
  | free (p : Addr)

instance : Inhabited Action := ⟨.free 0⟩

def initial : LargeSession := ⟨LargeHeap.empty, fun _ => 0⟩

/-- The program gets an object unless it asked for no byte or the mapping failed, and gives up the
object whose base it frees. -/
def next (cfg : HeapConfig) (s : LargeSession) : Action → Option LargeSession
  | .malloc sz ptr => some ⟨(LargeHeap.malloc cfg sz ptr s.heap).2,
      if sz = 0 ∨ ptr = 0 then s.live else Function.update s.live ptr sz⟩
  | .free p => some ⟨(LargeHeap.free cfg p s.heap).2, Function.update s.live p 0⟩

/-- `p` is the address of a later page of a live object. -/
def LaterPage (cfg : HeapConfig) (s : LargeSession) (p : Addr) : Prop :=
  ∃ b, p ≠ b ∧ IsPage cfg b (s.live b) p

/-- `Mapper::map` answers with whole pages that no live object uses. -/
def MapperFresh (cfg : HeapConfig) (s : LargeSession) (sz : Nat) (ptr : Addr) : Prop :=
  cfg.pageSize ∣ ptr ∧ ∀ b, s.live b ≠ 0 → Apart ptr (extent cfg sz) b (extent cfg (s.live b))

/-- The mappings succeed, the pages of the objects fit the `int`, and no free is given the address of a
later page. -/
def ok (cfg : HeapConfig) (s : LargeSession) : Action → Prop
  | .malloc sz ptr => sz = 0 ∨ Fits cfg sz ∧ s.MapperFresh cfg sz ptr ∧ ptr ≠ 0
  | .free p => ¬ s.LaterPage cfg p

/-- `free(p)` unmaps the live object at base `p` and removes its entries; without such an object it
returns false and changes nothing. -/
def FreesByBase (cfg : HeapConfig) (s : LargeSession) (p : Addr) : Prop :=
  if s.live p = 0 then LargeHeap.free cfg p s.heap = (none, s.heap)
  else (LargeHeap.free cfg p s.heap).1 = some (s.live p) ∧
    ∀ a, (LargeHeap.free cfg p s.heap).2.get a =
      if IsPage cfg p (s.live p) a then 0 else s.heap.get a

/-- The entries are those of the live objects, which are apart. -/
structure Inv (cfg : HeapConfig) (s : LargeSession) : Prop where
  base : ∀ b, s.live b ≠ 0 → b ≠ 0 ∧ cfg.pageSize ∣ b
  fits : ∀ b, s.live b ≠ 0 → Fits cfg (s.live b)
  apart : ∀ b c, s.live b ≠ 0 → s.live c ≠ 0 → b ≠ c →
    Apart b (extent cfg (s.live b)) c (extent cfg (s.live c))
  page : ∀ b a, IsPage cfg b (s.live b) a → s.heap.get a = s.live b - (a - b)
  other : ∀ a, (∀ b, ¬ IsPage cfg b (s.live b) a) → s.heap.get a = 0

theorem inv_initial : Inv cfg initial := by
  have hno (b a : Addr) : ¬ IsPage cfg b (initial.live b) a := by
    intro h
    obtain ⟨hle, hlt⟩ := h.lt
    exact Nat.not_lt.mpr hle hlt
  refine ⟨fun b h => absurd rfl h, fun b h => absurd rfl h, fun b _ h => absurd rfl h, ?_, fun _ _ => rfl⟩
  intro b a h
  exact absurd h (hno b a)

variable {s s' : LargeSession} {p : Addr}

theorem live_of_page {b a : Addr} (h : IsPage cfg b (s.live b) a) : s.live b ≠ 0 := by
  have hlt := h.lt
  omega

theorem Inv.page_base (h : Inv cfg s) (hp : s.live p ≠ 0) : IsPage cfg p (s.live p) p :=
  (entered_self ((h.fits p hp).iterations_pos (Nat.pos_of_ne_zero hp))).isPage

theorem Inv.page_unique (h : Inv cfg s) {b c a : Addr} (hb : IsPage cfg b (s.live b) a)
    (hc : IsPage cfg c (s.live c) a) : b = c := by
  by_contra hne
  have hapart := h.apart b c (live_of_page hb) (live_of_page hc) hne
  have hbl := hb.lt
  have hcl := hc.lt
  have hbe := le_extent cfg (s.live b)
  have hce := le_extent cfg (s.live c)
  rcases hapart with hlt | hlt <;> omega

theorem Inv.get_base (h : Inv cfg s) (hp : ¬ s.LaterPage cfg p) : s.heap.get p = s.live p := by
  by_cases hl : s.live p = 0
  · rw [hl]
    refine h.other p ?_
    intro b hb
    by_cases hbp : p = b
    · rw [hbp] at hl
      exact live_of_page hb hl
    · exact hp ⟨b, hbp, hb⟩
  · rw [h.page p p (h.page_base hl), Nat.sub_self, Nat.sub_zero]

/-- In a state with the invariant a free is right exactly when its pointer is not a later page. -/
theorem Inv.freesByBase_iff (h : Inv cfg s) : s.FreesByBase cfg p ↔ ¬ s.LaterPage cfg p := by
  constructor
  · rintro hf ⟨b, hne, hb⟩
    have hget := h.page b p hb
    have hlt := hb.lt
    have hzero : s.live p = 0 := by
      by_contra hl
      exact hne (h.page_unique (h.page_base hl) hb)
    rw [FreesByBase, if_pos hzero, LargeHeap.free, if_pos (by omega)] at hf
    cases hf
  · intro hp
    have hget := h.get_base hp
    rw [FreesByBase]
    split
    · rename_i hl
      rw [LargeHeap.free, if_neg (by omega)]
    · rename_i hl
      rw [LargeHeap.free, if_pos (by omega)]
      refine ⟨by rw [hget], ?_⟩
      intro a
      have hiff : Entered cfg p (s.live p) a ↔ IsPage cfg p (s.live p) a := (h.fits p hl).entered_iff
      split
      · rename_i ha
        rw [← hiff, ← hget] at ha
        exact get_clear_entered ha
      · rename_i ha
        rw [← hiff, ← hget] at ha
        exact get_clear_other ha

private theorem inv_malloc (h : Inv cfg s) {sz : Nat} {ptr : Addr} (hsz : sz ≠ 0) (hfits : Fits cfg sz)
    (hf : s.MapperFresh cfg sz ptr) (hne : ptr ≠ 0) (hheap : s'.heap = LargeHeap.set cfg ptr sz s.heap)
    (hlive : ∀ b, s'.live b = if b = ptr then sz else s.live b) : Inv cfg s' := by
  have hzero : s.live ptr = 0 := by
    by_contra hl
    have hapart := hf.2 ptr hl
    have h1 := le_extent cfg sz
    have h2 := le_extent cfg (s.live ptr)
    rcases hapart with hlt | hlt <;> omega
  -- an old object shares no page with the new one
  have hold {b a : Addr} (hb : IsPage cfg b (s.live b) a) : ¬ IsPage cfg ptr sz a := by
    intro ha
    have hapart := hf.2 b (live_of_page hb)
    have hbl := hb.lt
    have hal := ha.lt
    have hbe := le_extent cfg (s.live b)
    have hae := le_extent cfg sz
    rcases hapart with hlt | hlt <;> omega
  refine ⟨?_, ?_, ?_, ?_, ?_⟩
  · intro b hb
    rw [hlive] at hb
    split at hb
    · rename_i he
      rw [he]
      exact ⟨hne, hf.1⟩
    · exact h.base b hb
  · intro b hb
    rw [hlive] at hb ⊢
    split
    · exact hfits
    · rename_i hbp
      rw [if_neg hbp] at hb
      exact h.fits b hb
  · intro b c hb hc hbc
    rw [hlive] at hb hc
    rw [hlive, hlive]
    by_cases hbp : b = ptr
    · have hcp : c ≠ ptr := fun he => hbc (hbp.trans he.symm)
      rw [if_neg hcp] at hc ⊢
      rw [if_pos hbp, hbp]
      exact hf.2 c hc
    · rw [if_neg hbp] at hb ⊢
      by_cases hcp : c = ptr
      · rw [if_pos hcp, hcp]
        exact (hf.2 b hb).symm
      · rw [if_neg hcp] at hc ⊢
        exact h.apart b c hb hc hbc
  · intro b a hb
    rw [hlive] at hb
    rw [hlive, hheap]
    by_cases hbp : b = ptr
    · rw [if_pos hbp, hbp] at hb
      rw [if_pos hbp, hbp]
      exact get_set_entered (hfits.entered_iff.mpr hb)
    · rw [if_neg hbp] at hb ⊢
      rw [get_set_other fun ha => hold hb ha.isPage]
      exact h.page b a hb
  · intro a hno
    have hnew := hno ptr
    rw [hlive, if_pos rfl] at hnew
    rw [hheap, get_set_other fun ha => hnew ha.isPage]
    refine h.other a ?_
    intro b hb
    have hbp : b ≠ ptr := by
      rintro rfl
      exact live_of_page hb hzero
    have hp := hno b
    rw [hlive, if_neg hbp] at hp
    exact hp hb

private theorem inv_free (h : Inv cfg s) (hp : ¬ s.LaterPage cfg p)
    (hheap : s'.heap = (LargeHeap.free cfg p s.heap).2)
    (hlive : ∀ b, s'.live b = if b = p then 0 else s.live b) : Inv cfg s' := by
  have hfree := h.freesByBase_iff.mpr hp
  have hpage {b a : Addr} (hb : IsPage cfg b (s'.live b) a) : b ≠ p ∧ IsPage cfg b (s.live b) a := by
    have hl := live_of_page hb
    rw [hlive] at hb hl
    split at hl
    · exact absurd rfl hl
    · rename_i hbp
      rw [if_neg hbp] at hb
      exact ⟨hbp, hb⟩
  -- what the free does to an entry
  have hget (a : Addr) : s'.heap.get a = if IsPage cfg p (s.live p) a then 0 else s.heap.get a := by
    rw [FreesByBase] at hfree
    rw [hheap]
    by_cases hl : s.live p = 0
    · rw [if_pos hl] at hfree
      rw [hfree, if_neg fun ha => live_of_page ha hl]
    · rw [if_neg hl] at hfree
      exact hfree.2 a
  refine ⟨?_, ?_, ?_, ?_, ?_⟩
  · intro b hb
    rw [hlive] at hb
    split at hb
    · exact absurd rfl hb
    · exact h.base b hb
  · intro b hb
    rw [hlive] at hb ⊢
    split at hb
    · exact absurd rfl hb
    · rename_i hbp
      rw [if_neg hbp]
      exact h.fits b hb
  · intro b c hb hc hbc
    rw [hlive] at hb hc
    rw [hlive, hlive]
    split at hb
    · exact absurd rfl hb
    · split at hc
      · exact absurd rfl hc
      · rename_i hbp hcp
        rw [if_neg hbp, if_neg hcp]
        exact h.apart b c hb hc hbc
  · intro b a hb
    obtain ⟨hbp, hb'⟩ := hpage hb
    rw [hget, hlive, if_neg hbp, if_neg fun ha => hbp (h.page_unique hb' ha)]
    exact h.page b a hb'
  · intro a hno
    rw [hget]
    split
    · rfl
    · rename_i hna
      refine h.other a ?_
      intro b hb
      have hbp : b ≠ p := by
        rintro rfl
        exact hna hb
      have hn := hno b
      rw [hlive, if_neg hbp] at hn
      exact hn hb

theorem Inv.next {a : Action} (h : Inv cfg s) (hok : s.ok cfg a) (hn : s.next cfg a = some s') :
    Inv cfg s' := by
  cases a with
  | malloc sz ptr =>
    cases hn
    by_cases hsz : sz = 0
    · have hset : LargeHeap.set cfg ptr 0 s.heap = s.heap := by
        have hpages : pages cfg 0 = 0 := Nat.div_eq_of_lt (by have := cfg.pageSize_pos; omega)
        have hit := hpages ▸ iterations_le cfg 0
        rw [LargeHeap.set, Nat.le_zero.mp hit]
        rfl
      simp only [hsz, true_or, if_true, LargeHeap.malloc, hset]
      exact h
    · obtain ⟨hfits, hf, hne⟩ := hok.resolve_left hsz
      refine inv_malloc h hsz hfits hf hne rfl ?_
      intro b
      simp only [if_neg (not_or.mpr ⟨hsz, hne⟩), Function.update_apply]
  | free p =>
    cases hn
    exact inv_free h hok rfl fun b => Function.update_apply ..

theorem reach_inv (h : Transition.Reach (next cfg) (ok cfg) initial s) : Inv cfg s :=
  h.invariant inv_initial fun _ _ _ hi hok hn => hi.next hok hn

/-- In every run whose mappings succeed, whose objects fit the `int` and whose frees name no later page of
a live object, a free releases a live object by its base or nothing, for every pointer but the later
pages. -/
theorem freesByBase_iff_not_laterPage (h : Transition.Reach (next cfg) (ok cfg) initial s) (p : Addr) :
    s.FreesByBase cfg p ↔ ¬ s.LaterPage cfg p :=
  (reach_inv h).freesByBase_iff

def threePages : List Action := [.malloc 12288 65536]

def threePagesState : LargeSession :=
  Transition.final (next (.libdieharder false false)) initial threePages

private theorem reach_threePages : Transition.Reach (next (.libdieharder false false))
    (ok (.libdieharder false false)) initial threePagesState := by
  refine Transition.reach_final ⟨Or.inr ⟨by decide, ⟨by decide, ?_⟩, by decide⟩, fun _ _ => trivial⟩ rfl
  intro b hb
  exact absurd rfl hb

theorem freesByBase_threePages : threePagesState.FreesByBase (.libdieharder false false) 65536 := by
  refine (freesByBase_iff_not_laterPage reach_threePages 65536).mpr ?_
  rintro ⟨b, hne, hb⟩
  have hlive : threePagesState.live b = 0 := Function.update_of_ne (Ne.symm hne) _ _
  exact live_of_page hb hlive

/-- The free of the second page of the object unmaps its last two pages. -/
theorem not_freesByBase_secondPage :
    Transition.Reach (next (.libdieharder false false)) (ok (.libdieharder false false)) initial
        threePagesState ∧
      threePagesState.live 69632 = 0 ∧ ¬ threePagesState.FreesByBase (.libdieharder false false) 69632 ∧
      (LargeHeap.free (.libdieharder false false) 69632 threePagesState.heap).1 = some 8192 := by
  refine ⟨reach_threePages, by decide, ?_, by decide⟩
  rw [freesByBase_iff_not_laterPage reach_threePages, not_not]
  exact ⟨65536, by decide, by decide⟩

end LargeSession

end DieHard
