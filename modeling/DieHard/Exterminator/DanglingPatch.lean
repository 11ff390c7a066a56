import DieHard.Exterminator.Deferred

/-!
# Patches for dangling pointers

The patcher turns the time for which an object should have lived longer into a patch, and `free` adds the
patch to the time of the object's allocation. One caller of `do_dang_ptr` counts that time from the free
of the object, the other one from its allocation.
-/

namespace DieHard.Exterminator

/-- `danglePatches`: the patch for an allocation site and a free site. -/
abbrev PatchDb := Word → Word → Option Word

namespace PatchDb

/-- `add_dangle_patch` -/
def addDanglePatch (db : PatchDb) (allocSite freeSite td : Word) : PatchDb :=
  Function.update db allocSite (Function.update (db allocSite) freeSite (some td))

/-- `do_dang_ptr`, with an `int` in place of a word; a larger patch stays. -/
def doDangPtr (db : PatchDb) (allocSite freeSite td : Word) : PatchDb :=
  let td := (if td = 0 then 1 else td) * 2
  match db allocSite freeSite with
  | some dangle => if td.slt dangle then db else db.addDanglePatch allocSite freeSite td
  | none => db.addDanglePatch allocSite freeSite td

@[simp] theorem addDanglePatch_self (db : PatchDb) (allocSite freeSite td : Word) :
    db.addDanglePatch allocSite freeSite td allocSite freeSite = some td := by
  simp [addDanglePatch]

end PatchDb

/-- The callers of `do_dang_ptr` that have found the object. -/
inductive Caller
  | compareHeaps
  | dangPtrReadSearch

/-- The time that the caller passes for an object allocated at `a` and freed at `f` in a heap dumped at
`t`. -/
def Caller.drag : Caller → (a f t : Word) → Word
  | .compareHeaps, _, f, t => t - f
  | .dangPtrReadSearch, a, _, t => t - a

def doubled (drag : Word) : Nat := 2 * max 1 drag.toNat

/-- A life of `td` from time `a` on lasts to time `t`, on a clock of 32 bits. -/
def Lasts (a t : Word) (td : Nat) : Prop := t.toNat ≤ a.toNat + td ∧ a.toNat + td < 2 ^ 32

/-- The doubled time, or a larger patch that is there already, lasts to time `t`. -/
def PatchLasts (db : PatchDb) (allocSite freeSite drag a t : Word) : Prop :=
  match db allocSite freeSite with
  | some dangle => if (BitVec.ofNat 32 (doubled drag)).slt dangle then Lasts a t dangle.toNat
      else Lasts a t (doubled drag)
  | none => Lasts a t (doubled drag)

namespace CorrectingHeap

variable {σ ω : Type} [SuperHeap σ ω]

/-- `free` defers the free of the object to time `t` or later. -/
def Defers (h : CorrectingHeap σ) (callsite ptr t : Word) : Prop :=
  ∃ h' x, h.free callsite ptr = some h' ∧ h'.entries = x ::ₘ h.entries ∧ x.ptr = ptr ∧
    t.toNat ≤ x.deathTime

variable {h : CorrectingHeap σ} {allocSite freeSite ptr a t : Word}

theorem defers_iff (hsite : SuperHeap.getAllocCallsite h.super ptr = some allocSite)
    (hid : SuperHeap.getObjectID h.super ptr = some a) :
    h.Defers freeSite ptr t ↔ h.pqueueSize < pqueueLimit ∧
      h.patch.getLifeExtension allocSite freeSite ≠ 0 ∧
      t.toNat ≤ (h.patch.getLifeExtension allocSite freeSite + a).toNat := by
  constructor
  · rintro ⟨h', x, hf, hentries, -, hle⟩
    rcases free_cases hf with ⟨_, -, -, rfl⟩ | ⟨_, _, hsite', hne, hid', hlt, rfl⟩
    · have hcard := congrArg Multiset.card hentries
      simp [entries] at hcard
    · cases hsite.symm.trans hsite'
      cases hid.symm.trans hid'
      rw [entries_push] at hentries
      obtain rfl := (Multiset.cons_inj_left _).mp hentries
      exact ⟨hlt, hne, hle⟩
  · rintro ⟨hlt, hne, hle⟩
    refine ⟨_, ⟨ptr, (h.patch.getLifeExtension allocSite freeSite + a).toNat⟩, ?_, entries_push h _, rfl,
      hle⟩
    simp only [free, hsite, hid, Option.bind_eq_bind, Option.bind_some, if_neg hne, if_pos hlt]

end CorrectingHeap

theorem drag_le {a f t : Word} (haf : a ≤ f) (hft : f ≤ t) (caller : Caller) :
    (caller.drag a f t).toNat ≤ t.toNat - a.toNat := by
  have haf := BitVec.le_def.mp haf
  have hft := BitVec.le_def.mp hft
  cases caller with
  | compareHeaps =>
    rw [Caller.drag, BitVec.toNat_sub_of_le (BitVec.le_def.mpr hft)]
    omega
  | dangPtrReadSearch =>
    rw [Caller.drag, BitVec.toNat_sub_of_le (BitVec.le_def.mpr (haf.trans hft))]

theorem lasts_iff_of_word {a t td : Word} (hat : a ≤ t) (hpos : td = 0 → a < t) :
    Lasts a t td.toNat ↔ td ≠ 0 ∧ t.toNat ≤ (td + a).toNat := by
  have hat := BitVec.le_def.mp hat
  have htd := td.isLt
  have ht := t.isLt
  rw [Lasts, BitVec.toNat_add]
  by_cases hzero : td = 0
  · have hlt := BitVec.lt_def.mp (hpos hzero)
    have hnone : (0 : Word).toNat = 0 := rfl
    simp only [hzero, hnone, ne_eq, not_true_eq_false, false_and, iff_false]
    omega
  · simp only [ne_eq, hzero, not_false_eq_true, true_and]
    omega

theorem lasts_doubled_iff {a t drag : Word} (hat : a ≤ t) (hdrag : drag.toNat ≤ t.toNat - a.toNat) :
    Lasts a t (doubled drag) ↔ BitVec.ofNat 32 (doubled drag) ≠ 0 ∧
      t.toNat ≤ (BitVec.ofNat 32 (doubled drag) + a).toNat := by
  have hat := BitVec.le_def.mp hat
  have ht := t.isLt
  have hmin : 2 ≤ doubled drag := by
    simp only [doubled]
    omega
  have hmax : doubled drag ≤ max 2 (2 * (t.toNat - a.toNat)) := by
    simp only [doubled]
    omega
  have hnone : (0 : Word).toNat = 0 := rfl
  rw [Lasts, BitVec.toNat_add, BitVec.toNat_eq.ne, BitVec.toNat_ofNat, hnone]
  generalize doubled drag = d at hmin hmax
  omega

theorem doubled_eq (drag : Word) : (if drag = 0 then 1 else drag) * 2 = BitVec.ofNat 32 (doubled drag) := by
  apply BitVec.eq_of_toNat_eq
  split
  · rename_i hzero
    subst hzero
    rfl
  · rename_i hne
    have hpos : 0 < drag.toNat := Nat.pos_of_ne_zero fun hzero => hne (BitVec.eq_of_toNat_eq hzero)
    have htwo : (2 : Word).toNat = 2 := rfl
    rw [BitVec.toNat_mul, BitVec.toNat_ofNat, htwo, doubled, Nat.max_eq_right hpos, Nat.mul_comm]

theorem lt_of_slt_zero {a t drag : Word} (hat : a ≤ t) (hdrag : drag.toNat ≤ t.toNat - a.toNat)
    (h : (BitVec.ofNat 32 (doubled drag)).slt 0 = true) : a < t := by
  have hat := BitVec.le_def.mp hat
  apply BitVec.lt_def.mpr
  by_contra hge
  have hdrag : drag = 0 := BitVec.eq_of_toNat_eq (show drag.toNat = 0 by omega)
  subst hdrag
  exact absurd h (by decide)

section Patched

variable {σ ω : Type} [SuperHeap σ ω]

/-- With the patch of the patcher installed, `free` defers the free of the object to the time of the
failure if and only if the queue has room and the patch lasts. -/
theorem defers_patched_iff {h : CorrectingHeap σ} {db : PatchDb} {allocSite freeSite ptr a f t : Word}
    {caller : Caller} (haf : a ≤ f) (hft : f ≤ t)
    (hsite : SuperHeap.getAllocCallsite h.super ptr = some allocSite)
    (hid : SuperHeap.getObjectID h.super ptr = some a)
    (hpatch : db.doDangPtr allocSite freeSite (caller.drag a f t) allocSite freeSite =
      some (h.patch.getLifeExtension allocSite freeSite)) :
    h.Defers freeSite ptr t ↔ h.pqueueSize < pqueueLimit ∧
      PatchLasts db allocSite freeSite (caller.drag a f t) a t := by
  have hat : a ≤ t := BitVec.le_trans haf hft
  have hdrag := drag_le haf hft caller
  rw [CorrectingHeap.defers_iff hsite hid, PatchLasts]
  rw [PatchDb.doDangPtr, doubled_eq] at hpatch
  cases hdb : db allocSite freeSite with
  | none =>
    simp only [hdb, PatchDb.addDanglePatch_self, Option.some.injEq] at hpatch
    rw [← hpatch, ← lasts_doubled_iff hat hdrag]
  | some dangle =>
    simp only [hdb] at hpatch ⊢
    split at hpatch
    · rename_i hslt
      rw [hdb, Option.some.injEq] at hpatch
      rw [if_pos hslt, ← hpatch, lasts_iff_of_word hat]
      intro hzero
      exact lt_of_slt_zero hat hdrag (hzero ▸ hslt)
    · rename_i hslt
      simp only [PatchDb.addDanglePatch_self, Option.some.injEq] at hpatch
      rw [if_neg hslt, ← hpatch, ← lasts_doubled_iff hat hdrag]

end Patched

theorem lasts_dangPtrReadSearch {a f t : Word} (hat : a ≤ t) :
    Lasts a t (doubled (Caller.dangPtrReadSearch.drag a f t)) ↔
      a.toNat + doubled (Caller.dangPtrReadSearch.drag a f t) < 2 ^ 32 := by
  have hdrag : (t - a).toNat = t.toNat - a.toNat := BitVec.toNat_sub_of_le hat
  simp only [Lasts, doubled, Caller.drag, hdrag]
  omega

theorem lasts_compareHeaps {a f t : Word} (haf : a ≤ f) (hft : f ≤ t)
    (hlt : a.toNat + doubled (Caller.compareHeaps.drag a f t) < 2 ^ 32) :
    Lasts a t (doubled (Caller.compareHeaps.drag a f t)) ↔
      f.toNat - a.toNat ≤ t.toNat - f.toNat ∨ t.toNat - a.toNat ≤ 2 := by
  have hdrag : (t - f).toNat = t.toNat - f.toNat := BitVec.toNat_sub_of_le hft
  have haf := BitVec.le_def.mp haf
  have hft := BitVec.le_def.mp hft
  simp only [Lasts, doubled, Caller.drag, hdrag] at hlt ⊢
  omega

def oneObject : DieHardHeap :=
  ((DieHardHeap.initial 0x40000000#32 0 0 0).malloc 1 8 (.slot 0 0)).elim
    (.initial 0x40000000#32 0 0 0) Prod.snd

def patchedHeap (td : Word) : CorrectingHeap DieHardHeap :=
  .initial oneObject ⟨fun _ => 0, fun _ => td⟩ 0

theorem defers_patched_four : (patchedHeap 4).Defers 2 0x40000000#32 4 ↔
    (patchedHeap 4).pqueueSize < pqueueLimit ∧
      PatchLasts (fun _ _ => none) 1 2 (Caller.compareHeaps.drag 1 2 4) 1 4 :=
  defers_patched_iff (by decide) (by decide) (show oneObject.getAllocCallsite _ = _ by decide +kernel)
    (show oneObject.getObjectID _ = _ by decide +kernel) (by decide)

/-- The patch for an object allocated at time 1 and freed at time 5 that was missed at time 8 defers the
free to time 7. -/
theorem not_defers_short : ¬ ∀ a f t : Word, a ≤ f → f ≤ t →
    SuperHeap.getAllocCallsite (patchedHeap 6).super 0x40000000#32 = some 1 →
    SuperHeap.getObjectID (patchedHeap 6).super 0x40000000#32 = some a →
    PatchDb.doDangPtr (fun _ _ => none) 1 2 (Caller.compareHeaps.drag a f t) 1 2 =
      some ((patchedHeap 6).patch.getLifeExtension 1 2) →
    (patchedHeap 6).Defers 2 0x40000000#32 t := by
  intro h
  have hsite : SuperHeap.getAllocCallsite (patchedHeap 6).super 0x40000000#32 = some 1 :=
    show oneObject.getAllocCallsite _ = _ by decide +kernel
  have hid : SuperHeap.getObjectID (patchedHeap 6).super 0x40000000#32 = some 1 :=
    show oneObject.getObjectID _ = _ by decide +kernel
  have hdefers := h 1 5 8 (by decide) (by decide) hsite hid (by decide)
  exact absurd ((CorrectingHeap.defers_iff hsite hid).mp hdefers).2.2 (by decide)

end DieHard.Exterminator
