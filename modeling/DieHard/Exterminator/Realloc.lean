import DieHard.Exterminator.LiveObjects

/-!
# `realloc`

Both wrappers of the heap have the same `realloc`: they allocate, copy what both objects have, and free the old
object. It is freed as well when the allocation has failed, and with it is lost what the program meant to keep.
-/

namespace DieHard.Exterminator

open Transition

/-- `util/wrapper.cpp`, built with `DIEHARD_DIEFAST` or without, and `exterminator/wrapper.cpp`. -/
inductive Wrapper
  | util (diefast : Bool)
  | exterminator

namespace Wrapper

/-- `CUSTOM_MALLOC` clears the bytes of the request. -/
def clears : Wrapper → Bool
  | util diefast => !diefast
  | exterminator => false

end Wrapper

namespace DirectHeap

open DieHardHeap

/-- `CUSTOM_MALLOC` -/
def customMalloc (w : Wrapper) (s : DirectHeap) (callsite sz : Word) (place : Placement) :
    Option (Word × DirectHeap) :=
  (s.heap.malloc callsite sz place).map fun (ptr, heap) =>
    let heap := if w.clears ∧ ptr ≠ 0 then heap.fillZero ptr sz.toNat else heap
    (ptr, ⟨heap, grant s.live sz ptr place⟩)

/-- `CUSTOM_FREE` -/
def customFree (s : DirectHeap) (callsite ptr : Word) : DirectHeap :=
  ⟨s.heap.free callsite ptr, s.live.filter fun o => o.base ≠ ptr⟩

/-- `CUSTOM_GETSIZE` -/
def customGetSize (s : DirectHeap) (ptr : Word) : Word := if ptr = 0 then 0 else s.heap.getSize ptr

def memcpy (s : DirectHeap) (dest src : Word) (n : Nat) : DirectHeap :=
  s.setMemory fun a => if (a - dest).toNat < n then s.heap.memory (src + (a - dest)) else s.heap.memory a

/-- A new object with the first bytes of an old one, before the old one is freed. -/
def customCopy (w : Wrapper) (s : DirectHeap) (callsite ptr sz : Word) (place : Placement) :
    Option (Word × DirectHeap) :=
  let objSize := s.customGetSize ptr
  (s.customMalloc w callsite sz place).map fun (buf, s) =>
    let minSize := if objSize < sz then objSize else sz
    (buf, if buf ≠ 0 then s.memcpy buf ptr minSize.toNat else s)

/-- `CUSTOM_REALLOC` -/
def customRealloc (w : Wrapper) (s : DirectHeap) (callsite freeCallsite ptr sz : Word) (place : Placement) :
    Option (Word × DirectHeap) :=
  if ptr = 0 then s.customMalloc w callsite sz place
  else if sz = 0 then some (0, s.customFree freeCallsite ptr)
  else
    (s.customCopy w callsite ptr sz place).map fun (buf, s) => (buf, s.customFree freeCallsite ptr)

/-- What the program does: it allocates, frees and writes. -/
inductive WrapperAction
  | malloc (callsite sz : Word) (place : Placement)
  | free (callsite ptr : Word)
  | realloc (callsite freeCallsite ptr sz : Word) (place : Placement)
  | write (ptr : Word) (b : Byte)

def nextCall (w : Wrapper) (s : DirectHeap) : WrapperAction → Option DirectHeap
  | .malloc callsite sz place => (s.customMalloc w callsite sz place).map Prod.snd
  | .free callsite ptr => some (s.customFree callsite ptr)
  | .realloc callsite freeCallsite ptr sz place =>
    (s.customRealloc w callsite freeCallsite ptr sz place).map Prod.snd
  | .write ptr b => some (s.setMemory (Function.update s.heap.memory ptr b))

/-- `mmap` keeps its promise, and a mapping begins in 16 KB of addresses of its own. -/
def Opens (s : DirectHeap) (callsite sz : Word) (place : Placement) : Prop :=
  s.maps (.malloc callsite sz place) ∧ s.separate (.malloc callsite sz place)

def Closes (s : DirectHeap) (callsite ptr : Word) : Prop := s.separate (.free callsite ptr)

/-- The allocations and releases of a call are separate from the live objects. -/
def Separate (w : Wrapper) (s : DirectHeap) : WrapperAction → Prop
  | .malloc callsite sz place => s.Opens callsite sz place
  | .free callsite ptr => s.Closes callsite ptr
  | .realloc callsite freeCallsite ptr sz place =>
    if ptr = 0 then s.Opens callsite sz place
    else if sz = 0 then s.Closes freeCallsite ptr
    else s.Opens callsite sz place ∧
      ∀ r, s.customCopy w callsite ptr sz place = some r → r.2.Closes freeCallsite ptr
  | .write _ _ => True

variable {w : Wrapper} {s s' : DirectHeap} {a m n : Nat} {callsite freeCallsite sz ptr p q : Word}
  {place : Placement}

theorem Laid.customMalloc (hs : Laid s) (hopens : s.Opens callsite sz place)
    (hm : s.customMalloc w callsite sz place = some (ptr, s')) : Laid s' := by
  obtain ⟨⟨q, h⟩, hanswer, heq⟩ := Option.map_eq_some_iff.mp hm
  have hafter := hs.malloc hopens.1 hopens.2 hanswer
  cases heq
  split
  · exact hafter.setMemory _
  · exact hafter

theorem Laid.customFree (hs : Laid s) (hcloses : s.Closes callsite ptr) : Laid (s.customFree callsite ptr) :=
  hs.free hcloses

theorem Laid.customCopy (hs : Laid s) (hopens : s.Opens callsite sz place)
    (hc : s.customCopy w callsite ptr sz place = some (q, s')) : Laid s' := by
  obtain ⟨⟨buf, s₁⟩, hm, heq⟩ := Option.map_eq_some_iff.mp hc
  have hafter := hs.customMalloc hopens hm
  cases heq
  split
  · exact hafter.setMemory _
  · exact hafter

theorem Laid.customRealloc (hs : Laid s) (hsep : Separate w s (.realloc callsite freeCallsite ptr sz place))
    (hr : s.customRealloc w callsite freeCallsite ptr sz place = some (q, s')) : Laid s' := by
  rw [Separate] at hsep
  rw [DirectHeap.customRealloc] at hr
  split at hr
  case isTrue hptr =>
    rw [if_pos hptr] at hsep
    exact hs.customMalloc hsep hr
  case isFalse hptr =>
    rw [if_neg hptr] at hsep
    split at hr
    case isTrue hsz =>
      rw [if_pos hsz] at hsep
      cases hr
      exact hs.customFree hsep
    case isFalse hsz =>
      rw [if_neg hsz] at hsep
      obtain ⟨⟨buf, s₁⟩, hc, heq⟩ := Option.map_eq_some_iff.mp hr
      cases heq
      exact (hs.customCopy hsep.1 hc).customFree (hsep.2 _ hc)

theorem Laid.nextCall (hs : Laid s) {call : WrapperAction} (hsep : Separate w s call)
    (hn : s.nextCall w call = some s') : Laid s' := by
  cases call with
  | malloc callsite sz place =>
    obtain ⟨⟨ptr, s₁⟩, hm, rfl⟩ := Option.map_eq_some_iff.mp hn
    exact hs.customMalloc hsep hm
  | free callsite ptr =>
    cases hn
    exact hs.customFree hsep
  | realloc callsite freeCallsite ptr sz place =>
    obtain ⟨⟨q, s₁⟩, hr, rfl⟩ := Option.map_eq_some_iff.mp hn
    exact hs.customRealloc hsep hr
  | write ptr b =>
    cases hn
    exact hs.setMemory _

theorem laid_of_reach {heap dlBase stackBase heapConfigFlags : Word} (hne : heap ≠ 0)
    (hfits : heap.toNat + maxHeapSize < 2 ^ 32)
    (hr : Reach (nextCall w) (Separate w) ⟨.initial heap dlBase stackBase heapConfigFlags, []⟩ s) : Laid s := by
  apply hr.invariant
  · exact laid_initial hne hfits dlBase stackBase heapConfigFlags
  · intro r call r' hr hsep hn
    exact hr.nextCall hsep hn

/-- The allocation of the call is answered: a slot is found, or `mmap` is asked for bytes and has them. -/
def Answered (sz : Word) : Placement → Prop
  | .slot _ _ => True
  | .mapped ptr => ptr ≠ 0 ∧ DieHardHeap.roundUp sz ≠ 0

theorem answered_iff {h : DieHardHeap} (hs : Laid s) (hm : s.heap.malloc callsite sz place = some (ptr, h)) :
    Answered sz place ↔ ptr ≠ 0 := by
  cases place with
  | slot sc i =>
    have ht := taken_of_malloc hm
    have hstart := hs.toNat_start ht.class_lt ht.index_lt
    have hle := le_slotAddress s.heap sc i
    have hheap : s.heap.heap.toNat ≠ 0 := fun heq => hs.heap_ne (BitVec.eq_of_toNat_eq heq)
    rw [← ht.ptr_eq] at hstart
    apply iff_of_true trivial
    intro hnull
    rw [hnull] at hstart
    change 0 = _ at hstart
    omega
  | mapped place =>
    obtain ⟨-, hresult⟩ := mapped_of_malloc hm
    rcases hresult with ⟨rfl, hnot⟩ | ⟨rfl, hplace, hne, -⟩
    · apply iff_of_false
      · intro hanswered
        exact hnot.elim hanswered.1 hanswered.2
      · exact not_not.mpr rfl
    · exact iff_of_true ⟨hplace, hne⟩ hplace

theorem Added.setMemory {memory : Word → Byte} (hadded : Added s s' ptr n)
    (hmemory : ∀ x : Word, n ≤ (x - ptr).toNat → memory x = s'.heap.memory x) :
    Added s (s'.setMemory memory) ptr n where
  laid := hadded.laid.setMemory memory
  object := by
    intro a m
    rw [object_setMemory, hadded.object]
  apart := hadded.apart
  memory := by
    intro x hx
    rw [← hadded.memory x hx]
    exact hmemory x hx

theorem toNat_add_sub (hi : n < 2 ^ 32) : (ptr + BitVec.ofNat 32 n - ptr).toNat = n := by
  rw [add_sub_cancel_left, BitVec.toNat_ofNat, Nat.mod_eq_of_lt hi]

theorem Added.memory_eq (hadded : Added s s' ptr n) (hobject : Object s a m) {x : Word} (hlo : a ≤ x.toNat)
    (hhi : x.toNat < a + m) : s'.heap.memory x = s.heap.memory x := by
  apply hadded.memory
  have hnew : Object s' ptr.toNat n := (hadded.object _ _).mpr (Or.inr ⟨rfl, rfl⟩)
  have hend := hadded.laid.object_end_le hnew
  rw [← Nat.not_lt, sub_toNat_lt_iff hend]
  intro hin
  rcases hadded.apart a m hobject with hle | hle <;> omega

theorem Laid.customMalloc_added (hs : Laid s) (hopens : s.Opens callsite sz place)
    (hm : s.customMalloc w callsite sz place = some (ptr, s')) (hptr : ptr ≠ 0) :
    ∃ n, sz.toNat ≤ n ∧ Added s s' ptr n := by
  obtain ⟨⟨q, h⟩, hanswer, heq⟩ := Option.map_eq_some_iff.mp hm
  obtain ⟨rfl, rfl⟩ := Prod.mk.inj heq
  obtain ⟨n, hle, hadded⟩ := hs.added hopens.1 hopens.2 hanswer hptr
  refine ⟨n, hle, ?_⟩
  split
  · apply hadded.setMemory
    intro x hx
    exact if_neg (Nat.not_lt.mpr (Nat.le_trans hle hx))
  · exact hadded

/-- The copy has the first bytes of the old object. -/
theorem Laid.customCopy_added {u : Nat} (hs : Laid s) (hopens : s.Opens callsite sz place)
    (hp : Object s p.toNat u) (hc : s.customCopy w callsite p sz place = some (q, s')) (hq : q ≠ 0) :
    (∃ n, sz.toNat ≤ n ∧ Added s s' q n) ∧ ∀ i < min u sz.toNat,
      s'.heap.memory (q + BitVec.ofNat 32 i) = s.heap.memory (p + BitVec.ofNat 32 i) := by
  obtain ⟨⟨buf, s₁⟩, hm, heq⟩ := Option.map_eq_some_iff.mp hc
  obtain ⟨rfl, rfl⟩ := Prod.mk.inj heq
  obtain ⟨n, hle, hadded⟩ := hs.customMalloc_added hopens hm hq
  have hsize : (s.customGetSize p).toNat = u := by
    rw [customGetSize, if_neg (hs.ne_zero hp)]
    exact hs.getSize_eq hp
  have hmin : (if s.customGetSize p < sz then s.customGetSize p else sz).toNat = min u sz.toNat := by
    rw [← hsize]
    split
    case isTrue hlt => exact (Nat.min_eq_left (Nat.le_of_lt hlt)).symm
    case isFalse hlt => exact (Nat.min_eq_right (Nat.not_lt.mp hlt)).symm
  rw [if_pos hq, hmin]
  constructor
  · refine ⟨n, hle, hadded.setMemory ?_⟩
    intro x hx
    apply if_neg
    omega
  · intro i hi
    have hend := hs.object_end_le hp
    have hsum : (p + BitVec.ofNat 32 i).toNat = p.toNat + i := by
      rw [BitVec.toNat_add, BitVec.toNat_ofNat]
      omega
    have hold := hadded.memory_eq (x := p + BitVec.ofNat 32 i) hp (by omega) (by omega)
    rw [← hold]
    change (if _ then _ else _) = _
    rw [toNat_add_sub (by omega), if_pos hi, add_sub_cancel_left]

def reallocUnmaps (w : Wrapper) (s : DirectHeap) (callsite ptr sz : Word) (place : Placement) :
    Option (Word × Word) :=
  (s.customCopy w callsite ptr sz place).bind fun r => r.2.heap.unmapped ptr

/-- Object `p` of `u` bytes has become object `q`, which has the same first bytes, and the other objects are as
they were. -/
structure Moved (s s' : DirectHeap) (p q sz : Word) (u : Nat) (range : Option (Word × Word)) : Prop where
  live : ∃ n, Object s' q.toNat n ∧ (s'.customGetSize q).toNat = n ∧ sz.toNat ≤ n
  copied : ∀ i < min u sz.toNat,
    s'.heap.memory (q + BitVec.ofNat 32 i) = s.heap.memory (p + BitVec.ofNat 32 i)
  others : ∀ a m, a ≠ q.toNat → (Object s' a m ↔ Object s a m ∧ a ≠ p.toNat)
  unchanged : ∀ a m, Object s a m → a ≠ p.toNat → ∀ x : Word, a ≤ x.toNat → x.toNat < a + m →
    s'.heap.memory x = s.heap.memory x
  mapped : ∀ base size, range = some (base, size) → ∀ a m, Object s' a m →
    Blocks.Apart base.toNat size.toNat a m

/-- Object `p` of `u` bytes is as it was. -/
structure Kept (s s' : DirectHeap) (p : Word) (u : Nat) : Prop where
  live : Object s' p.toNat u
  unchanged : ∀ x : Word, p.toNat ≤ x.toNat → x.toNat < p.toNat + u → s'.heap.memory x = s.heap.memory x

/-- `realloc` keeps the data: an object of the new size has them, or the old one still does. -/
def Preserves (s s' : DirectHeap) (p q sz : Word) (u : Nat) (range : Option (Word × Word)) : Prop :=
  if q = 0 then Kept s s' p u else Moved s s' p q sz u range

theorem Laid.closes (hs : Laid s) (hp : Object s p.toNat n) : s.Closes callsite p := by
  intro _ hoff o ho hindex
  generalize ha : p.toNat = a at hp
  cases hp with
  | @slot sc i hslot =>
    rw [(hs.isOnHeap_slot hslot ha).1] at hoff
    contradiction
  | @mapped o' ho' =>
    obtain rfl : p = o'.base := BitVec.eq_of_toNat_eq ha
    rw [hs.eq_of_getIndex ho ho' hindex]

theorem Laid.unmapped_eq {base size : Word} (hs : Laid s) (hp : Object s p.toNat n)
    (hrange : s.heap.unmapped p = some (base, size)) : base = p ∧ size.toNat = n := by
  have hsize := hs.getSize_eq hp
  rw [unmapped, if_neg (hs.ne_zero hp)] at hrange
  by_cases hon : s.heap.isOnHeap p = true
  · rw [if_pos hon] at hrange
    contradiction
  · rw [if_neg hon] at hrange
    rw [getSize, if_neg hon] at hsize
    split at hrange
    case isTrue => contradiction
    case isFalse =>
      cases hrange
      exact ⟨rfl, hsize⟩

/-- A call whose allocation is answered keeps the data. -/
theorem Laid.moved {u : Nat} (hs : Laid s) (hopens : s.Opens callsite sz place) (hp : Object s p.toNat u)
    (hc : s.customCopy w callsite p sz place = some (q, s')) (hq : q ≠ 0) :
    Moved s (s'.customFree freeCallsite p) p q sz u (s'.heap.unmapped p) := by
  obtain ⟨⟨n, hle, hadded⟩, hcopied⟩ := hs.customCopy_added hopens hp hc hq
  have hold : Object s' p.toNat u := (hadded.object _ _).mpr (Or.inl hp)
  have hnew : Object s' q.toNat n := (hadded.object _ _).mpr (Or.inr ⟨rfl, rfl⟩)
  have hafter : Laid (s'.customFree freeCallsite p) := hadded.laid.customFree (hadded.laid.closes hold)
  have hfree {a m : Nat} : Object (s'.customFree freeCallsite p) a m ↔ Object s' a m ∧ a ≠ p.toNat :=
    hadded.laid.object_free hold
  have hmemory : (s'.customFree freeCallsite p).heap.memory = s'.heap.memory :=
    memory_free s'.heap freeCallsite p
  -- the new object lies beside the old one
  have hne : q.toNat ≠ p.toNat := by
    intro heq
    have hapart := hadded.apart _ _ hp
    rw [heq] at hapart
    exact Blocks.not_apart_self (hadded.laid.object_pos hnew) (hs.object_pos hp) hapart
  have hlive : Object (s'.customFree freeCallsite p) q.toNat n := hfree.mpr ⟨hnew, hne⟩
  refine ⟨⟨n, hlive, ?_, hle⟩, ?_, ?_, ?_, ?_⟩
  · rw [customGetSize, if_neg hq]
    exact hafter.getSize_eq hlive
  · rw [hmemory]
    exact hcopied
  · intro a m ha
    rw [hfree, hadded.object, or_iff_left fun hand => ha hand.1]
  · intro a m hobject _ x hlo hhi
    rw [hmemory]
    exact hadded.memory_eq hobject hlo hhi
  · intro base size hrange a m hobject
    obtain ⟨rfl, hsize⟩ := hadded.laid.unmapped_eq hold hrange
    have hobject := hfree.mp hobject
    rw [hsize]
    exact hadded.laid.objects_apart hold hobject.1 hobject.2.symm

theorem malloc_of_copy (hc : s.customCopy w callsite p sz place = some (q, s')) :
    ∃ h, s.heap.malloc callsite sz place = some (q, h) ∧ (q = 0 → s' = ⟨h, grant s.live sz 0 place⟩) := by
  obtain ⟨⟨buf, s₁⟩, hm, heq⟩ := Option.map_eq_some_iff.mp hc
  obtain ⟨rfl, rfl⟩ := Prod.mk.inj heq
  obtain ⟨⟨ptr, h⟩, hanswer, heq⟩ := Option.map_eq_some_iff.mp hm
  obtain ⟨rfl, rfl⟩ := Prod.mk.inj heq
  refine ⟨h, hanswer, ?_⟩
  intro hnull
  subst hnull
  simp only [ne_eq, not_true_eq_false, and_false, if_false]

theorem Laid.not_kept {u : Nat} (hs : Laid s) (hopens : s.Opens callsite sz place) (hp : Object s p.toNat u)
    (hc : s.customCopy w callsite p sz place = some (0, s')) : ¬ Kept s (s'.customFree freeCallsite p) p u := by
  have hlaid := hs.customCopy hopens hc
  obtain ⟨h, hanswer, hnull⟩ := malloc_of_copy hc
  obtain rfl := hnull rfl
  have hold : Object ⟨h, grant s.live sz 0 place⟩ p.toNat u := by
    cases place with
    | slot sc i => exact absurd rfl ((answered_iff hs hanswer).mp trivial)
    | mapped place =>
      have hsame := congrFun (mapped_of_malloc hanswer).1
      generalize p.toNat = a at hp ⊢
      cases hp with
      | @slot sc i hslot =>
        rw [← slotAddress_congr (malloc_mapped hanswer).1]
        exact .slot (s := ⟨h, s.live⟩) ((slotLive_congr (hsame sc)).mpr hslot)
      | mapped ho => exact .mapped (s := ⟨h, s.live⟩) ho
  intro hkept
  have hfree : Object _ p.toNat u ∧ p.toNat ≠ p.toNat := (hlaid.object_free hold).mp hkept.live
  exact hfree.2 rfl

/-- In a run whose allocations and releases are separate from the live objects, `realloc` keeps the data of a
live object exactly if its allocation is answered. -/
theorem preserves_iff {heap dlBase stackBase heapConfigFlags : Word} {u : Nat} (hne : heap ≠ 0)
    (hfits : heap.toNat + maxHeapSize < 2 ^ 32)
    (hreach : Reach (nextCall w) (Separate w) ⟨.initial heap dlBase stackBase heapConfigFlags, []⟩ s)
    (hp : Object s p.toNat u) (hsz : sz ≠ 0) (hopens : s.Opens callsite sz place)
    (hr : s.customRealloc w callsite freeCallsite p sz place = some (q, s')) :
    Preserves s s' p q sz u (s.reallocUnmaps w callsite p sz place) ↔ Answered sz place := by
  have hs := laid_of_reach hne hfits hreach
  rw [customRealloc, if_neg (hs.ne_zero hp), if_neg hsz] at hr
  obtain ⟨⟨buf, s₂⟩, hc, heq⟩ := Option.map_eq_some_iff.mp hr
  obtain ⟨rfl, rfl⟩ := Prod.mk.inj heq
  have hrange : s.reallocUnmaps w callsite p sz place = s₂.heap.unmapped p := by
    rw [reallocUnmaps, hc]
    rfl
  obtain ⟨h, hanswer, -⟩ := malloc_of_copy hc
  rw [answered_iff hs hanswer, Preserves, hrange]
  by_cases hq : buf = 0
  · subst hq
    rw [if_pos rfl]
    exact iff_of_false (hs.not_kept hopens hp hc) (not_not.mpr rfl)
  · rw [if_neg hq]
    exact iff_of_true (hs.moved hopens hp hc hq) hq

def oneObject : DirectHeap := final (nextCall .exterminator) noObjects
  [.malloc 1 100 (.slot 4 7), .write 0x41000380#32 7]

private theorem reach_oneObject :
    Reach (nextCall .exterminator) (Separate .exterminator) noObjects oneObject := by
  apply reach_final
  · exact ⟨⟨trivial, trivial⟩, fun _ _ => ⟨trivial, fun _ _ => trivial⟩⟩
  · decide +kernel

private theorem object_oneObject : Object oneObject (0x41000380#32).toNat 128 := by
  have haddress : (0x41000380#32).toNat = slotAddress oneObject.heap 4 7 := by decide +kernel
  rw [haddress]
  exact @Object.slot oneObject 4 7 ⟨by decide, by decide +kernel, by decide +kernel⟩

theorem preserves_oneObject : ∃ s',
    oneObject.customRealloc .exterminator 2 3 0x41000380#32 200 (.slot 5 3) = some (0x41400300#32, s') ∧
    Moved oneObject s' 0x41000380#32 0x41400300#32 200 128
      (oneObject.reallocUnmaps .exterminator 2 0x41000380#32 200 (.slot 5 3)) := by
  have hanswer : (oneObject.customRealloc .exterminator 2 3 0x41000380#32 200 (.slot 5 3)).map Prod.fst =
      some 0x41400300#32 := by decide +kernel
  obtain ⟨⟨q, s'⟩, hr, hq⟩ := Option.map_eq_some_iff.mp hanswer
  obtain rfl : q = 0x41400300#32 := hq
  have hopens : oneObject.Opens 2 200 (.slot 5 3) := ⟨trivial, trivial⟩
  have hiff := preserves_iff (by decide) (by decide) reach_oneObject object_oneObject (by decide) hopens hr
  exact ⟨s', hr, hiff.mpr trivial⟩

/-- `mmap` has no pages for 20000 bytes, and the object is gone. -/
theorem not_preserves : ∃ s', Reach (nextCall .exterminator) (Separate .exterminator) noObjects oneObject ∧
    Object oneObject (0x41000380#32).toNat 128 ∧
    oneObject.customRealloc .exterminator 2 3 0x41000380#32 20000 (.mapped 0) = some (0, s') ∧
    ¬ Preserves oneObject s' 0x41000380#32 0 20000 128
      (oneObject.reallocUnmaps .exterminator 2 0x41000380#32 20000 (.mapped 0)) := by
  have hs := laid_of_reach (by decide) (by decide) reach_oneObject
  have hopens : oneObject.Opens 2 20000 (.mapped 0) := ⟨Or.inl rfl, fun hne => absurd rfl hne⟩
  have hanswer : (oneObject.customCopy .exterminator 2 0x41000380#32 20000 (.mapped 0)).map Prod.fst =
      some 0 := by decide +kernel
  obtain ⟨⟨q, s₁⟩, hc, hq⟩ := Option.map_eq_some_iff.mp hanswer
  obtain rfl : q = 0 := hq
  refine ⟨s₁.customFree 3 0x41000380#32, reach_oneObject, object_oneObject, ?_, ?_⟩
  · rw [customRealloc, if_neg (by decide), if_neg (by decide), hc]
    rfl
  · rw [Preserves, if_pos rfl]
    exact hs.not_kept hopens object_oneObject hc

end DirectHeap

end DieHard.Exterminator
