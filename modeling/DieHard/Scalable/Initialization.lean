import DieHard.Lib.Transition
import Mathlib.Tactic

/-!
# One-time initialization

The first calls of `getHeapSafe` race to create the key under which each thread keeps its heap. One flag
says that the key exists, another is held by the thread that tries to create it. Key creation and the
mapping of a heap may fail, and the call then has no heap.
-/

namespace DieHard

open Transition

/-- The next access of a thread in `getHeapSafe`. `tried` has the result of `tryInitialize`. -/
inductive InitPc
  | idle
  | checkInitialized
  | compareExchange
  | spin (i : Nat)
  | doubleCheck
  | createKey
  | publish
  | release (result : Bool)
  | tried (result : Bool)
  | getTlsValue
  | mapHeap
  | setTlsValue (heap : Nat)
  deriving DecidableEq

/-- The flags and the key, how often a key has been created, the values of the threads under each key, the
memory mapped for heaps, and the heaps that threads have been given. -/
structure HeapInit where
  initialized : Bool
  initializing : Bool
  heapKey : Nat
  created : Nat
  tls : Nat → Nat → Nat
  mapped : List Nat
  pc : Nat → InitPc
  uses : List (Nat × Nat)

/-- `createKey` carries the result of `pthread_key_create` and what it leaves in the key, `mapHeap` the
memory that it gets, if any. -/
inductive InitStep
  | call (thread : Nat)
  | step (thread : Nat)
  | createKey (thread : Nat) (success : Bool) (key : Nat)
  | mapHeap (thread : Nat) (buf : Option Nat)

namespace HeapInit

def new : HeapInit := ⟨false, false, 0, 0, fun _ _ => 0, [], fun _ => .idle, []⟩

def goTo (s : HeapInit) (t : Nat) (p : InitPc) : HeapInit :=
  { s with pc := Function.update s.pc t p }

/-- `getHeapSafe` of thread `t` returns a heap. -/
def use (s : HeapInit) (t heap : Nat) : HeapInit := { s with uses := (t, heap) :: s.uses }

/-- The accesses whose outcome is not chosen by the system. A thread's value is its heap's address plus
one. -/
def access (s : HeapInit) (t : Nat) : InitPc → Option HeapInit
  | .idle => none
  | .checkInitialized =>
    some (s.goTo t (if s.initialized then .getTlsValue else .compareExchange))
  | .compareExchange =>
    if s.initializing then some (s.goTo t (.spin 0))
    else some ({ s with initializing := true }.goTo t .doubleCheck)
  | .spin i =>
    if i < 1000 then some (s.goTo t (if s.initialized then .tried true else .spin (i + 1)))
    else some (s.goTo t (.tried false))
  | .doubleCheck => some (s.goTo t (if s.initialized then .release true else .createKey))
  | .createKey => none
  | .publish => some ({ s with initialized := true }.goTo t (.release true))
  | .release r => some ({ s with initializing := false }.goTo t (.tried r))
  | .tried r => some (s.goTo t (if r then .getTlsValue else .idle))
  | .getTlsValue =>
    let tlsValue := s.tls s.heapKey t
    if tlsValue ≠ 0 then some ((s.use t (tlsValue - 1)).goTo t .idle) else some (s.goTo t .mapHeap)
  | .mapHeap => none
  | .setTlsValue heap =>
    let values := Function.update (s.tls s.heapKey) t (heap + 1)
    some (({ s with tls := Function.update s.tls s.heapKey values }.use t heap).goTo t .idle)

def next (s : HeapInit) : InitStep → Option HeapInit
  | .call t => if s.pc t = .idle then some (s.goTo t .checkInitialized) else none
  | .step t => s.access t (s.pc t)
  | .createKey t success key =>
    if s.pc t = .createKey then
      if success then some ({ s with
        heapKey := key
        created := s.created + 1
        tls := Function.update s.tls key fun _ => 0 }.goTo t .publish)
      else some ({ s with heapKey := key }.goTo t (.release false))
    else none
  | .mapHeap t buf =>
    if s.pc t = .mapHeap then
      match buf with
      | none => some (s.goTo t .idle)
      | some heap => some ({ s with mapped := heap :: s.mapped }.goTo t (.setTlsValue heap))
    else none

/-- `MmapWrapper::map` answers with memory that is not mapped. -/
def ok (s : HeapInit) : InitStep → Prop
  | .call _ => True
  | .step _ => True
  | .createKey _ _ _ => True
  | .mapHeap _ none => True
  | .mapHeap _ (some heap) => heap ∉ s.mapped

instance (s : HeapInit) (a : InitStep) : Decidable (s.ok a) :=
  match a with
  | .call _ => instDecidableTrue
  | .step _ => instDecidableTrue
  | .createKey _ _ _ => instDecidableTrue
  | .mapHeap _ none => instDecidableTrue
  | .mapHeap _ (some heap) => inferInstanceAs (Decidable (heap ∉ s.mapped))

/-- The thread is between its compare-exchange and its store to the flag. -/
def Holds : InitPc → Prop
  | .doubleCheck => True
  | .createKey => True
  | .publish => True
  | .release _ => True
  | _ => False

/-- The key is created once and published after that, the flag has one holder, and a thread has one heap
of its own. -/
structure OneTime (s : HeapInit) : Prop where
  created_le : s.created ≤ 1
  created_of_initialized : s.initialized = true → s.created = 1
  created_of_tried : ∀ t, s.pc t = .tried true → s.created = 1
  initializing : ∀ t, Holds (s.pc t) → s.initializing = true
  holder : ∀ t u, Holds (s.pc t) → Holds (s.pc u) → t = u
  oneHeap : ∀ t heap heap', (t, heap) ∈ s.uses → (t, heap') ∈ s.uses → heap = heap'
  notShared : ∀ t u heap, (t, heap) ∈ s.uses → (u, heap) ∈ s.uses → t = u

/-- What a thread's place says of the state. -/
def PcOk (s : HeapInit) (t : Nat) : InitPc → Prop
  | .createKey => s.initialized = false
  | .publish => s.initialized = false ∧ s.created = 1
  | .release r => r = true → s.initialized = true
  | .tried r => r = true → s.initialized = true
  | .getTlsValue => s.initialized = true
  | .mapHeap => s.initialized = true ∧ s.tls s.heapKey t = 0
  | .setTlsValue heap => s.initialized = true ∧ s.tls s.heapKey t = 0 ∧ heap ∈ s.mapped ∧
    ∀ u, s.tls s.heapKey u ≠ heap + 1
  | _ => True

structure Inv (s : HeapInit) : Prop where
  pcs : ∀ t, PcOk s t (s.pc t)
  lock : ∀ t, Holds (s.pc t) → s.initializing = true
  holder : ∀ t u, Holds (s.pc t) → Holds (s.pc u) → t = u
  made : s.initialized = true → s.created = 1
  unmade : s.initialized = false → (∀ t, s.pc t ≠ .publish) → s.created = 0
  unset : s.initialized = false → ∀ k t, s.tls k t = 0
  mapped : ∀ t heap, s.tls s.heapKey t = heap + 1 → heap ∈ s.mapped
  apart : ∀ t u heap, s.tls s.heapKey t = heap + 1 → s.tls s.heapKey u = heap + 1 → t = u
  pending : ∀ t u heap, s.pc t = .setTlsValue heap → s.pc u = .setTlsValue heap → t = u
  uses : ∀ t heap, (t, heap) ∈ s.uses → s.tls s.heapKey t = heap + 1

variable {s s' : HeapInit} {t : Nat} {p : InitPc}

theorem inv_new : Inv new := by
  constructor <;> simp [new, PcOk, Holds]

@[simp] theorem pc_goTo_self (s : HeapInit) (t : Nat) (p : InitPc) : (s.goTo t p).pc t = p :=
  Function.update_self ..

theorem pc_goTo_of_ne {u : Nat} (h : u ≠ t) (s : HeapInit) (p : InitPc) :
    (s.goTo t p).pc u = s.pc u := Function.update_of_ne h ..

theorem of_goTo {P : InitPc → Prop} {u : Nat} (hu : P ((s.goTo t p).pc u)) :
    u = t ∧ P p ∨ u ≠ t ∧ P (s.pc u) := by
  by_cases hut : u = t
  · rw [hut, pc_goTo_self] at hu
    exact .inl ⟨hut, hu⟩
  · rw [pc_goTo_of_ne hut] at hu
    exact .inr ⟨hut, hu⟩

theorem forall_goTo {P : Nat → InitPc → Prop} (hp : P t p) (hothers : ∀ u, u ≠ t → P u (s.pc u)) :
    ∀ u, P u ((s.goTo t p).pc u) := by
  rw [goTo, Function.forall_update_iff s.pc P]
  exact ⟨hp, hothers⟩

theorem Inv.holder_goTo (h : Inv s) (hp : Holds p → Holds (s.pc t) ∨ ∀ u, ¬ Holds (s.pc u)) (u w : Nat)
    (hu : Holds ((s.goTo t p).pc u)) (hw : Holds ((s.goTo t p).pc w)) : u = w := by
  have hother {u : Nat} (hut : u ≠ t) (hu : Holds (s.pc u)) (hheld : Holds p) : False := by
    cases hp hheld with
    | inl hkeeps => exact hut (h.holder u t hu hkeeps)
    | inr hfree => exact hfree u hu
  cases of_goTo hu with
  | inl hthis =>
    cases of_goTo hw with
    | inl hthis' => rw [hthis.1, hthis'.1]
    | inr hrest => exact (hother hrest.1 hrest.2 hthis.2).elim
  | inr hrest =>
    cases of_goTo hw with
    | inl hthis => exact (hother hrest.1 hrest.2 hthis.2).elim
    | inr hrest' => exact h.holder u w hrest.2 hrest'.2

theorem Inv.pending_goTo (h : Inv s) (hp : ∀ heap, p = .setTlsValue heap → ∀ u, s.pc u ≠ p)
    (u w heap : Nat) (hu : (s.goTo t p).pc u = .setTlsValue heap)
    (hw : (s.goTo t p).pc w = .setTlsValue heap) : u = w := by
  cases of_goTo (P := (· = .setTlsValue heap)) hu with
  | inl hthis =>
    cases of_goTo (P := (· = .setTlsValue heap)) hw with
    | inl hthis' => rw [hthis.1, hthis'.1]
    | inr hrest => exact absurd (hrest.2.trans hthis.2.symm) (hp heap hthis.2 w)
  | inr hrest =>
    cases of_goTo (P := (· = .setTlsValue heap)) hw with
    | inl hthis => exact absurd (hrest.2.trans hthis.2.symm) (hp heap hthis.2 u)
    | inr hrest' => exact h.pending u w heap hrest.2 hrest'.2

theorem Inv.lock_goTo (h : Inv s) (hp : Holds p → Holds (s.pc t)) (u : Nat)
    (hu : Holds ((s.goTo t p).pc u)) : s.initializing = true := by
  cases of_goTo hu with
  | inl hthis => exact h.lock t (hp hthis.2)
  | inr hother => exact h.lock u hother.2

theorem Inv.unmade_goTo (h : Inv s) (hpublish : s.pc t ≠ .publish) (hinit : s.initialized = false)
    (hnone : ∀ u, (s.goTo t p).pc u ≠ .publish) : s.created = 0 := by
  apply h.unmade hinit
  intro u hu
  by_cases hut : u = t
  · exact hpublish (hut ▸ hu)
  · apply hnone u
    rwa [pc_goTo_of_ne hut]

theorem Inv.goTo (h : Inv s) (hp : PcOk s t p) (hholds : Holds p → Holds (s.pc t))
    (hpublish : s.pc t ≠ .publish) (hset : ∀ heap, p ≠ .setTlsValue heap) : Inv (s.goTo t p) := by
  refine ⟨?_, h.lock_goTo hholds, h.holder_goTo fun hheld => .inl (hholds hheld), h.made,
    h.unmade_goTo hpublish, h.unset, h.mapped, h.apart,
    h.pending_goTo fun heap hheap => absurd hheap (hset heap), h.uses⟩
  exact forall_goTo (P := PcOk s) hp fun u _ => h.pcs u

theorem Inv.acquire (h : Inv s) (hpc : s.pc t = .compareExchange) (hfree : s.initializing = false) :
    Inv ({ s with initializing := true }.goTo t .doubleCheck) := by
  have hnone (u : Nat) : ¬ Holds (s.pc u) := by
    intro hu
    have hlock := h.lock u hu
    rw [hfree] at hlock
    contradiction
  refine ⟨?_, fun _ _ => rfl, h.holder_goTo fun _ => .inr hnone, h.made, ?_, h.unset, h.mapped, h.apart,
    h.pending_goTo (fun _ hheap => nomatch hheap), h.uses⟩
  · exact forall_goTo (P := PcOk s) trivial fun u _ => h.pcs u
  · exact h.unmade_goTo (by rw [hpc]; exact InitPc.noConfusion)

theorem Inv.release (h : Inv s) {r : Bool} (hpc : s.pc t = .release r) :
    Inv ({ s with initializing := false }.goTo t (.tried r)) := by
  have hheld : Holds (s.pc t) := by
    rw [hpc]
    trivial
  have hok := h.pcs t
  rw [hpc] at hok
  refine ⟨?_, ?_, h.holder_goTo fun hheld => hheld.elim, h.made, ?_, h.unset, h.mapped, h.apart,
    h.pending_goTo (fun _ hheap => nomatch hheap), h.uses⟩
  · exact forall_goTo (P := PcOk s) hok fun u _ => h.pcs u
  · intro u hu
    cases of_goTo hu with
    | inl hthis => exact hthis.2.elim
    | inr hother => exact absurd (h.holder u t hother.2 hheld) hother.1
  · exact h.unmade_goTo (by rw [hpc]; exact InitPc.noConfusion)

theorem PcOk.publish (h : PcOk s t p) (hfree : ¬ Holds p) : PcOk { s with initialized := true } t p := by
  cases p with
  | createKey => exact absurd trivial hfree
  | publish => exact absurd trivial hfree
  | release r => exact absurd trivial hfree
  | tried r => exact fun _ => rfl
  | getTlsValue => rfl
  | mapHeap => exact ⟨rfl, h.2⟩
  | setTlsValue heap => exact ⟨rfl, h.2⟩
  | _ => trivial

theorem Inv.publish (h : Inv s) (hpc : s.pc t = .publish) :
    Inv ({ s with initialized := true }.goTo t (.release true)) := by
  have hheld : Holds (s.pc t) := by
    rw [hpc]
    trivial
  have hok := h.pcs t
  rw [hpc] at hok
  refine ⟨?_, h.lock_goTo fun _ => hheld, h.holder_goTo fun _ => .inl hheld, fun _ => hok.2, ?_, ?_,
    h.mapped, h.apart, h.pending_goTo (fun _ hheap => nomatch hheap), h.uses⟩
  · apply forall_goTo (P := PcOk { s with initialized := true })
    · exact fun _ => rfl
    · intro u hu
      exact (h.pcs u).publish fun hother => hu (h.holder u t hother hheld)
  · intro hinit
    contradiction
  · intro hinit
    contradiction

theorem PcOk.withKey (h : PcOk s t p) (hinit : s.initialized = false) (hpublish : p ≠ .publish)
    (key created : Nat) (tls : Nat → Nat → Nat) :
    PcOk { s with heapKey := key, created := created, tls := tls } t p := by
  cases p with
  | publish => exact absurd rfl hpublish
  | getTlsValue => exact h
  | mapHeap => exact absurd (hinit ▸ h.1) Bool.false_ne_true
  | setTlsValue heap => exact absurd (hinit ▸ h.1) Bool.false_ne_true
  | _ => exact h

theorem Inv.createKey (h : Inv s) (hpc : s.pc t = .createKey) (key : Nat) :
    Inv ({ s with
      heapKey := key
      created := s.created + 1
      tls := Function.update s.tls key fun _ => 0 }.goTo t .publish) := by
  have hheld : Holds (s.pc t) := by
    rw [hpc]
    trivial
  have hinit : s.initialized = false := by
    have hok := h.pcs t
    rwa [hpc] at hok
  have hpublish (u : Nat) : s.pc u ≠ .publish := by
    intro hu
    have hut := h.holder u t (by rw [hu]; trivial) hheld
    rw [hut, hpc] at hu
    contradiction
  have hcreated : s.created = 0 := h.unmade hinit hpublish
  have hzero (u : Nat) : Function.update s.tls key (fun _ => 0) key u = 0 := by
    rw [Function.update_self]
  refine ⟨?_, h.lock_goTo fun _ => hheld, h.holder_goTo fun _ => .inl hheld, ?_, ?_, ?_, ?_, ?_,
    h.pending_goTo (fun _ hheap => nomatch hheap), ?_⟩
  · apply forall_goTo (P := PcOk { s with
      heapKey := key
      created := s.created + 1
      tls := Function.update s.tls key fun _ => 0 })
    · exact ⟨hinit, congrArg (· + 1) hcreated⟩
    · intro u _
      exact (h.pcs u).withKey hinit (hpublish u) _ _ _
  · intro hinit'
    exact absurd (hinit.symm.trans hinit') Bool.false_ne_true
  · intro _ hnone
    exact absurd (pc_goTo_self ..) (hnone t)
  · intro _ k u
    show Function.update s.tls key (fun _ => 0) k u = 0
    rw [Function.update_apply]
    split
    · rfl
    · exact h.unset hinit k u
  · intro u heap hu
    exact absurd ((hzero u).symm.trans hu) (Nat.succ_ne_zero heap).symm
  · intro u w heap hu
    exact absurd ((hzero u).symm.trans hu) (Nat.succ_ne_zero heap).symm
  · intro u heap hu
    exact absurd ((h.unset hinit _ u).symm.trans (h.uses u heap hu)) (Nat.succ_ne_zero heap).symm

theorem Inv.createFails (h : Inv s) (hpc : s.pc t = .createKey) (key : Nat) :
    Inv ({ s with heapKey := key }.goTo t (.release false)) := by
  have hheld : Holds (s.pc t) := by
    rw [hpc]
    trivial
  have hinit : s.initialized = false := by
    have hok := h.pcs t
    rwa [hpc] at hok
  have hpublish (u : Nat) : s.pc u ≠ .publish := by
    intro hu
    have hut := h.holder u t (by rw [hu]; trivial) hheld
    rw [hut, hpc] at hu
    contradiction
  refine ⟨?_, h.lock_goTo fun _ => hheld, h.holder_goTo fun _ => .inl hheld, h.made,
    h.unmade_goTo (hpublish t), h.unset, ?_, ?_,
    h.pending_goTo (fun _ hheap => nomatch hheap), ?_⟩
  · apply forall_goTo (P := PcOk { s with heapKey := key })
    · exact fun hfalse => absurd hfalse Bool.false_ne_true
    · intro u _
      exact (h.pcs u).withKey hinit (hpublish u) _ _ _
  · intro u heap hu
    exact absurd ((h.unset hinit key u).symm.trans hu) (Nat.succ_ne_zero heap).symm
  · intro u w heap hu
    exact absurd ((h.unset hinit key u).symm.trans hu) (Nat.succ_ne_zero heap).symm
  · intro u heap hu
    exact absurd ((h.unset hinit _ u).symm.trans (h.uses u heap hu)) (Nat.succ_ne_zero heap).symm

/-- The heap is at memory that no thread has as its heap. -/
theorem Inv.mapHeap (h : Inv s) (hpc : s.pc t = .mapHeap) {heap : Nat} (hnew : heap ∉ s.mapped) :
    Inv ({ s with mapped := heap :: s.mapped }.goTo t (.setTlsValue heap)) := by
  have hok := h.pcs t
  rw [hpc] at hok
  have hpending (u : Nat) : s.pc u ≠ .setTlsValue heap := by
    intro hu
    have hother := h.pcs u
    rw [hu] at hother
    exact hnew hother.2.2.1
  refine ⟨?_, h.lock_goTo fun hheld => hheld.elim, h.holder_goTo fun hheld => hheld.elim, h.made,
    h.unmade_goTo (by rw [hpc]; exact InitPc.noConfusion), h.unset, ?_, h.apart, ?_, h.uses⟩
  · apply forall_goTo (P := PcOk { s with mapped := heap :: s.mapped })
    · refine ⟨hok.1, hok.2, List.mem_cons_self, ?_⟩
      intro u hu
      exact hnew (h.mapped u heap hu)
    · intro u _
      have hother := h.pcs u
      cases hpcu : s.pc u with
      | setTlsValue heap' =>
        rw [hpcu] at hother
        exact ⟨hother.1, hother.2.1, List.mem_cons_of_mem _ hother.2.2.1, hother.2.2.2⟩
      | _ =>
        rw [hpcu] at hother
        exact hother
  · intro u heap' hu
    exact List.mem_cons_of_mem _ (h.mapped u heap' hu)
  · apply h.pending_goTo
    intro heap' _
    exact hpending

theorem Inv.use (h : Inv s) {heap : Nat} (htls : s.tls s.heapKey t = heap + 1) :
    Inv (s.use t heap) := by
  refine ⟨h.pcs, h.lock, h.holder, h.made, h.unmade, h.unset, h.mapped, h.apart, h.pending, ?_⟩
  intro u heap' hu
  cases List.mem_cons.mp hu with
  | inl hthis =>
    obtain ⟨rfl, rfl⟩ := Prod.mk.inj hthis
    exact htls
  | inr hold => exact h.uses u heap' hold

theorem Inv.setTlsValue (h : Inv s) {heap : Nat} (hpc : s.pc t = .setTlsValue heap) :
    Inv ({ s with
      tls := Function.update s.tls s.heapKey
        (Function.update (s.tls s.heapKey) t (heap + 1)) }.goTo t .idle) := by
  have hok := h.pcs t
  rw [hpc] at hok
  obtain ⟨hinit, hnull, hmapped, hunused⟩ := hok
  have hthis : Function.update s.tls s.heapKey (Function.update (s.tls s.heapKey) t (heap + 1))
      s.heapKey t = heap + 1 := by
    rw [Function.update_self, Function.update_self]
  have hother {u : Nat} (hut : u ≠ t) : Function.update s.tls s.heapKey
      (Function.update (s.tls s.heapKey) t (heap + 1)) s.heapKey u = s.tls s.heapKey u := by
    rw [Function.update_self, Function.update_of_ne hut]
  refine ⟨?_, h.lock_goTo fun hheld => hheld.elim, h.holder_goTo fun hheld => hheld.elim, h.made,
    h.unmade_goTo (by rw [hpc]; exact InitPc.noConfusion), ?_, ?_, ?_,
    h.pending_goTo (fun _ hheap => nomatch hheap), ?_⟩
  · apply forall_goTo (P := PcOk { s with
      tls := Function.update s.tls s.heapKey
        (Function.update (s.tls s.heapKey) t (heap + 1)) })
    · trivial
    intro u hut
    have hu := h.pcs u
    cases hpcu : s.pc u with
    | mapHeap =>
      rw [hpcu] at hu
      exact ⟨hu.1, (hother hut).trans hu.2⟩
    | setTlsValue heap' =>
      rw [hpcu] at hu
      refine ⟨hu.1, (hother hut).trans hu.2.1, hu.2.2.1, ?_⟩
      intro w hw
      by_cases hwt : w = t
      · have heq : heap + 1 = heap' + 1 := hthis.symm.trans (hwt ▸ hw)
        rw [← Nat.succ.inj heq] at hpcu
        exact hut (h.pending u t heap hpcu hpc)
      · exact hu.2.2.2 w ((hother hwt).symm.trans hw)
    | _ =>
      rw [hpcu] at hu
      exact hu
  · intro hfalse
    exact absurd (hinit.symm.trans hfalse) Bool.false_ne_true.symm
  · intro u heap' hu
    by_cases hut : u = t
    · have heq : heap + 1 = heap' + 1 := hthis.symm.trans (hut ▸ hu)
      exact Nat.succ.inj heq ▸ hmapped
    · exact h.mapped u heap' ((hother hut).symm.trans hu)
  · intro u w heap' hu hw
    by_cases hut : u = t
    · by_cases hwt : w = t
      · rw [hut, hwt]
      · have heq : heap + 1 = heap' + 1 := hthis.symm.trans (hut ▸ hu)
        exact absurd ((hother hwt).symm.trans (hw.trans heq.symm)) (hunused w)
    · have hu' := (hother hut).symm.trans hu
      by_cases hwt : w = t
      · have heq : heap + 1 = heap' + 1 := hthis.symm.trans (hwt ▸ hw)
        exact absurd (hu'.trans heq.symm) (hunused u)
      · exact h.apart u w heap' hu' ((hother hwt).symm.trans hw)
  · intro u heap' hu
    by_cases hut : u = t
    · have hzero := h.uses u heap' hu
      rw [hut, hnull] at hzero
      contradiction
    · exact (hother hut).trans (h.uses u heap' hu)

theorem Inv.access (h : Inv s) (hs : s.access t (s.pc t) = some s') : Inv s' := by
  have hok := h.pcs t
  cases hpc : s.pc t with
  | idle =>
    rw [hpc] at hs
    contradiction
  | checkInitialized =>
    rw [hpc] at hs
    obtain rfl := Option.some.inj hs
    cases hinit : s.initialized with
    | true => exact h.goTo hinit (fun hheld => hheld.elim) (by simp [hpc]) (by simp)
    | false => exact h.goTo trivial (fun hheld => hheld.elim) (by simp [hpc]) (by simp)
  | compareExchange =>
    rw [hpc, HeapInit.access] at hs
    split at hs
    · obtain rfl := Option.some.inj hs
      exact h.goTo trivial (fun hheld => hheld.elim) (by simp [hpc]) (by simp)
    · rename_i hfree
      obtain rfl := Option.some.inj hs
      exact h.acquire hpc (Bool.eq_false_iff.mpr hfree)
  | spin i =>
    rw [hpc, HeapInit.access] at hs
    split at hs
    · obtain rfl := Option.some.inj hs
      cases hinit : s.initialized with
      | true => exact h.goTo (fun _ => hinit) (fun hheld => hheld.elim) (by simp [hpc]) (by simp)
      | false => exact h.goTo trivial (fun hheld => hheld.elim) (by simp [hpc]) (by simp)
    · obtain rfl := Option.some.inj hs
      exact h.goTo (fun hfalse => nomatch hfalse) (fun hheld => hheld.elim) (by simp [hpc]) (by simp)
  | doubleCheck =>
    rw [hpc] at hs
    obtain rfl := Option.some.inj hs
    cases hinit : s.initialized with
    | true => exact h.goTo (fun _ => hinit) (by simp [hpc, Holds]) (by simp [hpc]) (by simp)
    | false => exact h.goTo hinit (by simp [hpc, Holds]) (by simp [hpc]) (by simp)
  | createKey =>
    rw [hpc] at hs
    contradiction
  | publish =>
    rw [hpc] at hs
    obtain rfl := Option.some.inj hs
    exact h.publish hpc
  | release r =>
    rw [hpc] at hs
    obtain rfl := Option.some.inj hs
    exact h.release hpc
  | tried r =>
    rw [hpc] at hs hok
    obtain rfl := Option.some.inj hs
    cases r with
    | true => exact h.goTo (hok rfl) (fun hheld => hheld.elim) (by simp [hpc]) (by simp)
    | false => exact h.goTo trivial (fun hheld => hheld.elim) (by simp [hpc]) (by simp)
  | getTlsValue =>
    rw [hpc, HeapInit.access] at hs
    rw [hpc] at hok
    split at hs
    · rename_i hne
      obtain rfl := Option.some.inj hs
      have htls : s.tls s.heapKey t = s.tls s.heapKey t - 1 + 1 :=
        (Nat.sub_add_cancel (Nat.pos_of_ne_zero hne)).symm
      exact (h.use htls).goTo trivial (fun hheld => hheld.elim) (by simp [HeapInit.use, hpc]) (by simp)
    · rename_i hnull
      obtain rfl := Option.some.inj hs
      exact h.goTo ⟨hok, not_not.mp hnull⟩ (fun hheld => hheld.elim) (by simp [hpc]) (by simp)
  | mapHeap =>
    rw [hpc] at hs
    contradiction
  | setTlsValue heap =>
    rw [hpc] at hs
    obtain rfl := Option.some.inj hs
    apply (h.setTlsValue hpc).use
    simp [HeapInit.goTo]

theorem Inv.next {a : InitStep} (h : Inv s) (hok : s.ok a) (hs : s.next a = some s') : Inv s' := by
  cases a with
  | call t =>
    rw [HeapInit.next, Option.ite_none_right_eq_some] at hs
    obtain rfl := Option.some.inj hs.2
    exact h.goTo trivial (fun hheld => hheld.elim) (by simp [hs.1]) (by simp)
  | step t => exact h.access hs
  | createKey t success key =>
    simp only [HeapInit.next, Option.ite_none_right_eq_some] at hs
    obtain ⟨hpc, hs⟩ := hs
    cases success with
    | true =>
      obtain rfl := Option.some.inj hs
      exact h.createKey hpc key
    | false =>
      obtain rfl := Option.some.inj hs
      exact h.createFails hpc key
  | mapHeap t buf =>
    cases buf with
    | none =>
      rw [HeapInit.next, Option.ite_none_right_eq_some] at hs
      obtain rfl := Option.some.inj hs.2
      exact h.goTo trivial (fun hheld => hheld.elim) (by simp [hs.1]) (by simp)
    | some heap =>
      rw [HeapInit.next, Option.ite_none_right_eq_some] at hs
      obtain rfl := Option.some.inj hs.2
      exact h.mapHeap hs.1 hok

theorem Inv.oneTime (h : Inv s) : OneTime s := by
  have hpublish {t : Nat} (ht : s.pc t = .publish) : s.created = 1 := by
    have hok := h.pcs t
    rw [ht] at hok
    exact hok.2
  refine ⟨?_, h.made, ?_, h.lock, h.holder, ?_, ?_⟩
  · cases hinit : s.initialized with
    | true => exact (h.made hinit).le
    | false =>
      by_cases hnone : ∀ t, s.pc t ≠ .publish
      · rw [h.unmade hinit hnone]
        exact Nat.zero_le 1
      · obtain ⟨t, ht⟩ := not_forall.mp hnone
        exact (hpublish (not_not.mp ht)).le
  · intro t ht
    have hok := h.pcs t
    rw [ht] at hok
    exact h.made (hok rfl)
  · intro t heap heap' hu hu'
    exact Nat.succ.inj ((h.uses t heap hu).symm.trans (h.uses t heap' hu'))
  · intro t u heap ht hu
    exact h.apart t u heap (h.uses t heap ht) (h.uses u heap hu)

theorem initialized_next {a : InitStep} (hinit : s.initialized = true) (hs : s.next a = some s') :
    s'.initialized = true := by
  cases a with
  | call t =>
    rw [HeapInit.next, Option.ite_none_right_eq_some] at hs
    obtain rfl := Option.some.inj hs.2
    exact hinit
  | step t =>
    rw [HeapInit.next, HeapInit.access.eq_def] at hs
    split at hs <;> grind [HeapInit.goTo, HeapInit.use]
  | createKey t success key =>
    grind [HeapInit.next, HeapInit.goTo]
  | mapHeap t buf =>
    cases buf <;> grind [HeapInit.next, HeapInit.goTo]

/-- In every run the key is created once at most, and afterwards it stays. -/
theorem reach_oneTime (h : Reach next ok new s) :
    OneTime s ∧ ∀ s', Reach next ok s s' → s.initialized = true → s'.initialized = true := by
  constructor
  · apply Inv.oneTime
    exact h.invariant inv_new fun r a r' hi hok hs => hi.next hok hs
  · intro s' hr hinit
    exact hr.invariant hinit fun r a r' hi _ hs => initialized_next hi hs

/-- Thread 1 finds the flag held by thread 0, whose first attempt fails; both get a heap in the end. -/
def twoThreads : List InitStep :=
  [.call 0, .call 1, .step 0, .step 1, .step 0, .step 0, .step 1, .createKey 0 false 7, .step 0, .step 0,
    .call 0, .step 0, .step 0, .step 0, .createKey 0 true 3, .step 0, .step 1, .step 0, .step 0, .step 0,
    .mapHeap 0 (some 4096), .step 0, .step 1, .step 1, .mapHeap 1 (some 8192), .step 1]

theorem oneTime_twoThreads : OneTime (final next new twoThreads) ∧
    ∀ s', Reach next ok (final next new twoThreads) s' →
      (final next new twoThreads).initialized = true → s'.initialized = true := by
  apply reach_oneTime
  exact reach_final (guarded_of_bool (by decide)) (by decide)

end HeapInit

end DieHard
