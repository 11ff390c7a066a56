import DieHard.Exterminator.Correct

/-!
# When deferred frees happen

A run calls `malloc` and `free` of a `CorrectingHeap`. The queue hands out exactly the entries that are
due by the stale member, so that the frees come in time if and only if the member and the allocation
clock let the same entries pass whenever `malloc` is called.
-/

namespace DieHard.Exterminator

open BinaryHeap Transition

namespace CorrectingHeap

variable {σ ω : Type} [SuperHeap σ ω] {h h' : CorrectingHeap σ}

theorem Ordered.malloc (ho : h.Ordered) {callsite sz ptr : Word} {place : ω}
    (hm : h.malloc callsite sz place = some (ptr, h')) :
    ∃ freed : List PqueueEntry, h'.Ordered ∧ h.entries = freed + h'.entries ∧
      (∀ x ∈ freed, x.deathTime ≤ h.globalCt.toNat) ∧
      (∀ x ∈ h'.entries, h.globalCt.toNat < x.deathTime) ∧
      SuperHeap.malloc (freed.foldl (fun s x => SuperHeap.free s callsite x.ptr) h.super) callsite
        (h.padded callsite sz) place = some (ptr, h'.super) := by
  have hd := ho.drain callsite (Nat.le_refl h.pqueueSize)
  simp only [CorrectingHeap.malloc] at hm
  obtain ⟨⟨p, s⟩, hs, he⟩ := Option.map_eq_some_iff.mp hm
  cases he
  rw [hd.super] at hs
  exact ⟨_, hd.ordered, hd.entries, hd.due, hd.pending, hs⟩

theorem free_cases {callsite ptr : Word} (hf : h.free callsite ptr = some h') :
    (∃ a, SuperHeap.getAllocCallsite h.super ptr = some a ∧ h.patch.getLifeExtension a callsite = 0 ∧
      h' = { h with super := SuperHeap.free h.super callsite ptr }) ∨
    ∃ a id, SuperHeap.getAllocCallsite h.super ptr = some a ∧ h.patch.getLifeExtension a callsite ≠ 0 ∧
      SuperHeap.getObjectID h.super ptr = some id ∧ h.pqueueSize < pqueueLimit ∧
      h' = h.push ⟨ptr, (h.patch.getLifeExtension a callsite + id).toNat⟩ := by
  rw [CorrectingHeap.free] at hf
  obtain ⟨a, ha, hf⟩ := Option.bind_eq_some_iff.mp hf
  by_cases hzero : h.patch.getLifeExtension a callsite = 0
  · simp only [hzero, if_true, Option.some.injEq] at hf
    exact Or.inl ⟨a, ha, hzero, hf.symm⟩
  · simp only [hzero, if_false] at hf
    obtain ⟨id, hid, hf⟩ := Option.bind_eq_some_iff.mp hf
    split at hf
    · cases hf
      exact Or.inr ⟨a, id, ha, hzero, hid, ‹_›, rfl⟩
    · cases hf

theorem Ordered.free (ho : h.Ordered) {callsite ptr : Word} (hf : h.free callsite ptr = some h') :
    h'.Ordered ∧ h.entries ≤ h'.entries := by
  rcases free_cases hf with ⟨a, -, -, rfl⟩ | ⟨a, id, -, -, -, -, rfl⟩
  · exact ⟨ho, le_refl _⟩
  · refine ⟨ho.push _, ?_⟩
    rw [entries_push]
    exact Multiset.le_cons_self _ _

end CorrectingHeap

/-- The calls of the program. -/
inductive Action (ω : Type)
  | malloc (callsite sz : Word) (place : ω)
  | free (callsite ptr : Word)

/-- A heap and how many times `malloc` has been called. -/
structure Session (σ : Type) where
  heap : CorrectingHeap σ
  mallocs : Nat

namespace Session

variable {σ ω : Type} [SuperHeap σ ω]

def next (s : Session σ) : Action ω → Option (Session σ)
  | .malloc callsite sz place =>
    (s.heap.malloc callsite sz place).map fun (_, heap) => ⟨heap, s.mallocs + 1⟩
  | .free callsite ptr => (s.heap.free callsite ptr).map fun heap => ⟨heap, s.mallocs⟩

def initial (super : σ) (patch : PatchInfo) (globalCt : Word) : Session σ :=
  ⟨.initial super patch globalCt, 0⟩

/-- The call of `malloc` takes the entries out of the queue that are due, passes each to
`SuperHeap::free` once, and leaves no entry that is due. -/
def FreesWhenDue (s s' : Session σ) (callsite sz : Word) (place : ω) : Prop :=
  ∃ freed : List PqueueEntry, s.heap.entries = freed + s'.heap.entries ∧
    (SuperHeap.malloc (freed.foldl (fun t x => SuperHeap.free t callsite x.ptr) s.heap.super) callsite
      (s.heap.padded callsite sz) place).map Prod.snd = some s'.heap.super ∧
    (∀ x ∈ freed, x.deathTime ≤ s'.mallocs) ∧ ∀ x ∈ s'.heap.entries, s'.mallocs < x.deathTime

/-- The member lets the entries of the queue pass that are due by the clock of the coming `malloc`. -/
def DueByClock (s : Session σ) : Prop :=
  ∀ x ∈ s.heap.entries, x.deathTime ≤ s.heap.globalCt.toNat ↔ x.deathTime ≤ s.mallocs + 1

section Run

variable {ok : Session σ → Action ω → Prop} {init : Session σ}

/-- Deferred frees happen when they are due, and in calls of `malloc` only. -/
def Punctual (e : Execution next ok init) : Prop :=
  ∀ k < e.length, match e.action k with
    | .malloc callsite sz place => FreesWhenDue (e.state k) (e.state (k + 1)) callsite sz place
    | .free _ _ => (e.state k).heap.entries ≤ (e.state (k + 1)).heap.entries

end Run

variable {s s' : Session σ}

theorem ordered_next {a : Action ω} (ho : s.heap.Ordered) (hn : next s a = some s') :
    s'.heap.Ordered := by
  cases a with
  | malloc callsite sz place =>
    obtain ⟨⟨ptr, heap⟩, hm, rfl⟩ := Option.map_eq_some_iff.mp hn
    obtain ⟨_, ho', -⟩ := ho.malloc hm
    exact ho'
  | free callsite ptr =>
    obtain ⟨heap, hf, rfl⟩ := Option.map_eq_some_iff.mp hn
    exact (ho.free hf).1

theorem ordered_reach {ok : Session σ → Action ω → Prop} {super : σ} {patch : PatchInfo} {globalCt : Word}
    (hr : Reach next ok (initial super patch globalCt) s) : s.heap.Ordered := by
  apply hr.invariant (I := fun s => s.heap.Ordered)
  · exact CorrectingHeap.ordered_initial super patch globalCt
  · intro r a r' ho _ hn
    exact ordered_next ho hn

/-- The entries that are taken out are those that the member lets pass. -/
theorem freesWhenDue_iff {callsite sz : Word} {place : ω} (ho : s.heap.Ordered)
    (hn : next s (.malloc callsite sz place) = some s') :
    FreesWhenDue s s' callsite sz place ↔ DueByClock s := by
  obtain ⟨⟨ptr, heap⟩, hm, rfl⟩ := Option.map_eq_some_iff.mp hn
  obtain ⟨freed, -, hentries, hdue, hpending, hsuper⟩ := ho.malloc hm
  constructor
  · rintro ⟨freed', hentries', -, hdue', hpending'⟩ x hx
    constructor
    · intro hle
      have hx' := hx
      rw [hentries', Multiset.mem_add] at hx'
      rcases hx' with hx' | hx'
      · exact hdue' x (by simpa using hx')
      · exact absurd hle (Nat.not_le.mpr (hpending x hx'))
    · intro hle
      rw [hentries, Multiset.mem_add] at hx
      rcases hx with hx | hx
      · exact hdue x (by simpa using hx)
      · exact absurd hle (Nat.not_le.mpr (hpending' x hx))
  · intro hclock
    have hmem (x : PqueueEntry) : x ∈ s.heap.entries ↔ x ∈ freed ∨ x ∈ heap.entries := by
      simp [hentries]
    refine ⟨freed, hentries, by rw [hsuper]; rfl, ?_, ?_⟩
    · intro x hx
      exact (hclock x ((hmem x).mpr (Or.inl hx))).mp (hdue x hx)
    · intro x hx
      have hlt := hpending x hx
      have hiff := hclock x ((hmem x).mpr (Or.inr hx))
      exact Nat.not_le.mp fun hle => absurd (hiff.mpr hle) (Nat.not_le.mpr hlt)

/-- Deferred frees happen when they are due if and only if, whenever `malloc` is called, the stale member
and the clock let the same entries pass. -/
theorem punctual_iff {super : σ} {patch : PatchInfo} {globalCt : Word}
    (e : Execution (next : Session σ → Action ω → Option (Session σ)) (fun _ _ => True)
      (initial super patch globalCt)) :
    Punctual e ↔ ∀ k < e.length, ∀ callsite sz place, e.action k = .malloc callsite sz place →
      DueByClock (e.state k) := by
  constructor
  · intro h k hk callsite sz place ha
    have hn := e.step k hk
    have hstep := h k hk
    rw [ha] at hn hstep
    exact (freesWhenDue_iff (ordered_reach (e.reach hk.le)) hn).mp hstep
  · intro h k hk
    have hn := e.step k hk
    have ho := ordered_reach (e.reach hk.le)
    cases ha : e.action k with
    | malloc callsite sz place =>
      rw [ha] at hn
      exact (freesWhenDue_iff ho hn).mpr (h k hk callsite sz place ha)
    | free callsite ptr =>
      rw [ha] at hn
      obtain ⟨heap, hf, he⟩ := Option.map_eq_some_iff.mp hn
      rw [← he]
      exact (ho.free hf).2

theorem globalCt_free (h : DieHardHeap) (callsite ptr : Word) :
    (h.free callsite ptr).globalCt = h.globalCt := by
  rw [DieHardHeap.free]
  split
  · rfl
  · split
    · rfl
    · rw [DieHardHeap.freeDirect]
      split <;> rfl

theorem globalCt_foldl_free (callsite : Word) (freed : List PqueueEntry) (h : DieHardHeap) :
    (freed.foldl (fun s x => SuperHeap.free s callsite x.ptr) h).globalCt = h.globalCt := by
  induction freed generalizing h with
  | nil => rfl
  | cons x freed ih => exact (ih _).trans (globalCt_free h callsite x.ptr)

theorem globalCt_malloc {h h' : DieHardHeap} {callsite sz ptr : Word} {place : DieHardHeap.Placement}
    (hm : h.malloc callsite sz place = some (ptr, h')) : h'.globalCt = h.globalCt + 1 := by
  cases place with
  | slot sc objectIndex =>
    simp only [DieHardHeap.malloc] at hm
    split at hm
    · obtain ⟨⟨q, p⟩, -, he⟩ := Option.map_eq_some_iff.mp hm
      cases he
      rfl
    · cases hm
  | mapped q =>
    simp only [DieHardHeap.malloc] at hm
    split at hm
    · simp only [Option.some.injEq, DieHardHeap.allocateDirect] at hm
      split at hm
      · cases hm
        rfl
      · split at hm <;> cases hm <;> rfl
    · cases hm

theorem globalCt_reach {ok : Session DieHardHeap → Action DieHardHeap.Placement → Prop}
    {heap dlBase stackBase heapConfigFlags globalCt : Word} {patch : PatchInfo} {s : Session DieHardHeap}
    (hr : Reach next ok (initial (.initial heap dlBase stackBase heapConfigFlags) patch globalCt) s) :
    s.heap.super.globalCt = BitVec.ofNat 32 s.mallocs := by
  have hboth : s.heap.Ordered ∧ s.heap.super.globalCt = BitVec.ofNat 32 s.mallocs := by
    apply hr.invariant (I := fun s => s.heap.Ordered ∧ s.heap.super.globalCt = BitVec.ofNat 32 s.mallocs)
      ⟨CorrectingHeap.ordered_initial _ patch globalCt, rfl⟩
    rintro r a r' ⟨ho, hct⟩ - hn
    refine ⟨ordered_next ho hn, ?_⟩
    cases a with
    | malloc callsite sz place =>
      obtain ⟨⟨ptr, heap⟩, hm, rfl⟩ := Option.map_eq_some_iff.mp hn
      obtain ⟨freed, -, -, -, -, hsuper⟩ := ho.malloc hm
      have hclock := globalCt_malloc hsuper
      rw [globalCt_foldl_free, hct] at hclock
      simpa [BitVec.ofNat_add] using hclock
    | free callsite ptr =>
      obtain ⟨heap, hf, rfl⟩ := Option.map_eq_some_iff.mp hn
      rcases CorrectingHeap.free_cases hf with ⟨a, -, -, rfl⟩ | ⟨a, id, -, -, -, -, rfl⟩
      · exact (globalCt_free r.heap.super callsite ptr).trans hct
      · exact hct
  exact hboth.2

instance {ω : Type} : Inhabited (Action ω) := ⟨.free 0 0⟩

def latePatch : PatchInfo where
  overflowHash := fun _ => 0
  dangleHash := fun k => if k = 3 then 2 else 0

def lateStart : Session DieHardHeap := initial (.initial 0x40000000#32 0 0 0) latePatch 0

def lateRun : List (Action DieHardHeap.Placement) :=
  [.malloc 1 8 (.slot 0 0), .free 2 0x40000000#32, .malloc 1 8 (.slot 0 1), .malloc 1 8 (.slot 0 2)]

def lateExecution : Execution (next : Session DieHardHeap → _ → _) (fun _ _ => True) lateStart :=
  .ofRun lateRun (by decide +kernel) (guarded_true _ _ _)

/-- The third call of `malloc` leaves an entry with the death time 3 in the queue. -/
theorem not_punctual_late : ¬ Punctual lateExecution := by
  intro h
  obtain ⟨freed, -, -, -, hpending⟩ : FreesWhenDue (lateExecution.state 3) (lateExecution.state 4) 1 8
      (DieHardHeap.Placement.slot 0 2) := h 3 (by decide)
  have hmem : (⟨0x40000000#32, 3⟩ : PqueueEntry) ∈ (lateExecution.state 4).heap.entries := by
    decide +kernel
  have hclock : (lateExecution.state 4).mallocs = 3 := by decide +kernel
  have hlt := hpending _ hmem
  rw [hclock] at hlt
  exact absurd hlt (Nat.lt_irrefl 3)

end Session

end DieHard.Exterminator
