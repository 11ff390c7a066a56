import DieHard.Lib.ByteMemory
import DieHard.Lib.Regions
import DieHard.Util.KingsleyHeap

/-!
# The heap of the tools

The tools that inject errors keep their own data in a Kingsley heap. Its bins are lists that are threaded through
the freed objects, and new objects are cut off chunks that `mmap` returns, each behind the word with its size.
-/

namespace DieHard

open ByteMemory Blocks Regions Transition

/-- `MmapWrapper::Size` -/
def mmapSize : Nat := 4096

/-- `sizeof(void *)` and `sizeof(size_t)` -/
def wordSize : Nat := 8

structure BumpAlloc where
  bump : Addr
  remaining : Nat

namespace BumpAlloc

/-- The length of the chunk that `refill(sz)` asks for. -/
def chunkLength (sz : Nat) : Nat := if sz < mmapSize then mmapSize else sz

/-- `refill(sz)`, where the chunk is the answer of `mmap`. -/
def refill (sz : Nat) (chunk : Addr) : BumpAlloc := ⟨chunk, chunkLength sz⟩

def withRoom (b : BumpAlloc) (sz : Nat) (chunk : Addr) : BumpAlloc :=
  if b.remaining < sz then refill sz chunk else b

/-- `malloc(sz)`: the pointer, and what is left. -/
def malloc (b : BumpAlloc) (sz : Nat) (chunk : Addr) : Addr × BumpAlloc :=
  let b := b.withRoom sz chunk
  (b.bump, ⟨b.bump + sz, b.remaining - sz⟩)

def range (b : BumpAlloc) : Nat × Nat := (b.bump, b.remaining)

end BumpAlloc

/-- A `KingsleyHeap<FreelistHeap<TopHeap>, TopHeap>`: the lists of freed objects, and the top heaps, of which each
little heap has one and `bigheap` another. The chunks that have been mapped and the objects that the program holds
are not stored. -/
structure SourceHeap where
  memory : Memory
  myFreeList : Int → Addr
  top : Option Int → BumpAlloc
  memoryHeld : Nat
  mapped : List (Nat × Nat)
  live : List Addr

namespace SourceHeap

open StrictSegHeap (headerSize)

def initial : SourceHeap := ⟨fun _ => 0, fun _ => 0, fun _ => ⟨0, 0⟩, 0, [], []⟩

inductive Action
  | malloc (sz : Nat) (chunk : Addr)
  | free (ptr : Addr)
  | write (p : Addr) (byte : BitVec 8)

instance : Inhabited Action := ⟨.free 0⟩

variable (s : SourceHeap)

/-- `UseSizeHeap::getSize` -/
def getSize (ptr : Addr) : Nat := load s.memory wordSize (ptr - headerSize)

/-- The chunk that a top heap maps for an object of `sz` bytes. -/
def mapping (which : Option Int) (sz : Nat) (chunk : Addr) : Option (Nat × Nat) :=
  if (s.top which).remaining < sz + headerSize then some (chunk, BumpAlloc.chunkLength (sz + headerSize)) else none

/-- `SizeHeap::malloc`; the size is stored through a null pointer where `mmap` has failed. -/
def topMalloc (which : Option Int) (sz : Nat) (chunk : Addr) : Option (Addr × SourceHeap) :=
  let (base, top) := (s.top which).malloc (sz + headerSize) chunk
  if base = 0 then none
  else some (base + headerSize,
    { s with
      memory := store s.memory wordSize base sz
      top := Function.update s.top which top
      mapped := (s.mapping which sz chunk).toList ++ s.mapped
      live := (base + headerSize) :: s.live })

/-- `FreelistHeap::malloc` of a little heap -/
def littleMalloc (sizeClass : Int) (sz : Nat) (chunk : Addr) : Option (Addr × SourceHeap) :=
  let ptr := s.myFreeList sizeClass
  if ptr = 0 then s.topMalloc (some sizeClass) sz chunk
  else some (ptr,
    { s with
      myFreeList := Function.update s.myFreeList sizeClass (load s.memory wordSize ptr)
      live := ptr :: s.live })

/-- `StrictSegHeap::malloc`; a little heap does not return null. -/
def malloc (sz : Nat) (chunk : Addr) : Option (Addr × SourceHeap) :=
  if sz ≤ SegHeapConfig.kingsley.maxObjectSize then
    s.littleMalloc (SegHeapConfig.kingsley.getSizeClass sz) sz chunk
  else s.topMalloc none sz chunk

/-- `StrictSegHeap::free`; a top heap does not take objects back. -/
def free (ptr : Addr) : Option SourceHeap :=
  let objectSize := s.getSize ptr
  if SegHeapConfig.kingsley.maxObjectSize < objectSize then some { s with live := s.live.erase ptr }
  else (SegHeapConfig.kingsley.freeClass objectSize).map fun objectSizeClass =>
    { s with
      memory := store s.memory wordSize ptr (s.myFreeList objectSizeClass)
      myFreeList := Function.update s.myFreeList objectSizeClass ptr
      memoryHeld := (s.memoryHeld + objectSize) % sizeRange
      live := s.live.erase ptr }

def next : Action → Option SourceHeap
  | .malloc sz chunk => (s.malloc sz chunk).map Prod.snd
  | .free ptr => s.free ptr
  | .write p byte => some { s with memory := Function.update s.memory p byte }

/-- The object that a `malloc` returns. -/
def result : Action → Option Addr
  | .malloc sz chunk => (s.malloc sz chunk).map Prod.fst
  | _ => none

/-- The top heap that a `malloc` would turn to. -/
def topOf (sz : Nat) : Option Int :=
  if sz ≤ SegHeapConfig.kingsley.maxObjectSize then some (SegHeapConfig.kingsley.getSizeClass sz) else none

/-- The chunk that a `malloc` maps. -/
def maps (sz : Nat) (chunk : Addr) : Option (Nat × Nat) :=
  if sz ≤ SegHeapConfig.kingsley.maxObjectSize ∧ s.myFreeList (SegHeapConfig.kingsley.getSizeClass sz) ≠ 0 then none
  else s.mapping (topOf sz) sz chunk

/-- The program asks for at least one byte and at most `2 ^ 31`, frees objects of at least eight bytes that it holds,
and writes to such as it holds. A chunk that `mmap` returns is in the address space and apart from the others. -/
def Permits : Action → Prop
  | .malloc sz chunk => 1 ≤ sz ∧ sz ≤ 2 ^ 31 ∧ ∀ c ∈ s.maps sz chunk,
    c.1 ≠ 0 ∧ c.1 + c.2 ≤ sizeRange ∧ ∀ c' ∈ s.mapped, ApartOf c c'
  | .free ptr => ptr ∈ s.live ∧ 8 ≤ s.getSize ptr
  | .write p _ => ∃ ptr ∈ s.live, ptr ≤ p ∧ p < ptr + s.getSize ptr

def space (ptr : Addr) : Nat × Nat := (ptr - headerSize, headerSize + s.getSize ptr)

/-- What the program can rely on in a run: an object is as large as it has been asked for, objects share no bytes
and are in mapped memory, and they keep what the program has written to them. -/
structure Isolated (e : Execution next Permits initial) : Prop where
  served : ∀ k < e.length, ∀ sz chunk, e.action k = .malloc sz chunk →
    ∃ ptr, (e.state k).result (e.action k) = some ptr ∧ ptr ∉ (e.state k).live ∧
      (e.state (k + 1)).live = ptr :: (e.state k).live ∧ sz ≤ (e.state (k + 1)).getSize ptr
  apart : ∀ k ≤ e.length, (e.state k).live.Pairwise fun p q =>
    ApartOf ((e.state k).space p) ((e.state k).space q)
  mapped : ∀ k ≤ e.length, ∀ p ∈ (e.state k).live, headerSize ≤ p ∧
    ∃ c ∈ (e.state k).mapped, Within ((e.state k).space p) c
  kept : ∀ k < e.length, ∀ p ∈ (e.state k).live, (e.state (k + 1)).getSize p = (e.state k).getSize p ∧
    (e.action k = .free p ∨ ∀ i < (e.state k).getSize p, (∃ byte, e.action k = .write (p + i) byte) ∨
      (e.state (k + 1)).memory (p + i) = (e.state k).memory (p + i))

def range (a : StrictSegHeap) : Addr ⊕ Option Int → Nat × Nat
  | .inl ptr => (ptr - headerSize, headerSize + a.getSize ptr)
  | .inr which => (s.top which).range

def active (a : StrictSegHeap) : Set (Addr ⊕ Option Int) := {i | ∀ ptr, i = .inl ptr → ptr ∈ a.objects}

/-- The memory holds the sizes and the lists of a heap with lists, and its objects are apart. -/
structure Refines (s : SourceHeap) (a : StrictSegHeap) : Prop where
  inv : StrictSegHeap.Inv a
  live : s.live = a.live
  sizes : ∀ ptr ∈ a.objects, s.getSize ptr = a.getSize ptr
  bins : ∀ sizeClass, Chain s.memory wordSize (s.myFreeList sizeClass) (a.myLittleHeap sizeClass)
  large : ∀ sizeClass, ∀ ptr ∈ a.myLittleHeap sizeClass, 8 ≤ a.getSize ptr
  nodup : a.live.Nodup
  freed : ∀ sizeClass, (a.myLittleHeap sizeClass).Nodup ∧ ∀ ptr ∈ a.myLittleHeap sizeClass, ptr ∉ a.live
  distinct : ∀ c d, c ≠ d → (a.myLittleHeap c).Disjoint (a.myLittleHeap d)
  separated : Separated (s.range a) (active a)
  within : ∀ i ∈ active a, s.range a i = (0, 0) ∨ ∃ c ∈ s.mapped, Within (s.range a i) c
  bound : ∀ c ∈ s.mapped, c.1 ≠ 0 ∧ c.1 + c.2 ≤ sizeRange

variable {s s' : SourceHeap} {a a' : StrictSegHeap} {ptr p q sz chunk : Nat} {which : Option Int}

theorem inl_mem_active (h : ptr ∈ a.objects) : Sum.inl ptr ∈ active a := by
  intro _ heq
  obtain rfl := Sum.inl.inj heq
  exact h

theorem inr_mem_active (a : StrictSegHeap) (which : Option Int) : Sum.inr which ∈ active a := by
  rintro ptr ⟨⟩

namespace Refines

theorem range_within (h : Refines s a) (hptr : ptr ∈ a.objects) :
    ∃ c ∈ s.mapped, Within (s.range a (.inl ptr)) c := by
  rcases h.within _ (inl_mem_active hptr) with hzero | hwithin
  · have hlength : headerSize + a.getSize ptr = 0 := congrArg Prod.snd hzero
    rw [headerSize] at hlength
    omega
  · exact hwithin

theorem bounds (h : Refines s a) (hptr : ptr ∈ a.objects) :
    headerSize ≤ ptr ∧ ptr + a.getSize ptr ≤ sizeRange := by
  have hheader : headerSize ≤ ptr := (h.inv.objects ptr hptr).1
  obtain ⟨c, hc, -, hend⟩ := h.range_within hptr
  have hbound := (h.bound c hc).2
  simp only [range] at hend
  omega

theorem apart (h : Refines s a) (hp : p ∈ a.objects) (hq : q ∈ a.objects) (hne : p ≠ q) :
    Apart (p - headerSize) (headerSize + a.getSize p) (q - headerSize) (headerSize + a.getSize q) :=
  h.separated (inl_mem_active hp) (inl_mem_active hq) fun heq => hne (Sum.inl.inj heq)

section Write

variable {m' : Memory} {b n : Nat} (h : Refines s a) (hp : p ∈ a.objects) (hb : p ≤ b)
  (hend : b + n ≤ p + a.getSize p) (hsame : ∀ x, x < b ∨ b + n ≤ x → m' x = s.memory x)
include h hp hb hend hsame

theorem load_size (hq : q ∈ a.objects) :
    load m' wordSize (q - headerSize) = load s.memory wordSize (q - headerSize) := by
  apply load_of_apart hsame
  have hboundp := (h.bounds hp).1
  have hboundq := (h.bounds hq).1
  rw [headerSize] at hboundp hboundq ⊢
  rw [wordSize]
  by_cases hqp : q = p
  · subst hqp
    exact Or.inl (by omega)
  · have hapart := h.apart hp hq (Ne.symm hqp)
    rw [headerSize] at hapart
    rcases hapart with hle | hle
    · exact Or.inr (by omega)
    · exact Or.inl (by omega)

theorem load_word (hq : q ∈ a.objects) (hne : q ≠ p) (hsize : 8 ≤ a.getSize q) :
    load m' wordSize q = load s.memory wordSize q := by
  apply load_of_apart hsame
  have hboundp := (h.bounds hp).1
  have hboundq := (h.bounds hq).1
  have hapart := h.apart hp hq (Ne.symm hne)
  rw [headerSize] at hboundp hboundq hapart
  rw [wordSize]
  rcases hapart with hle | hle
  · exact Or.inr (by omega)
  · exact Or.inl (by omega)

end Write

theorem write (h : Refines s a) {byte : BitVec 8} (hp : p ∈ a.live) (hle : p ≤ q) (hlt : q < p + a.getSize p) :
    Refines { s with memory := Function.update s.memory q byte } a := by
  have hobject := h.inv.live p hp
  have hsame : ∀ x, x < q ∨ q + 1 ≤ x → Function.update s.memory q byte x = s.memory x := by
    intro x hx
    exact Function.update_of_ne (by omega) _ _
  refine { h with sizes := ?_, bins := ?_ }
  · intro ptr hptr
    exact (h.load_size hobject hle hlt hsame hptr).trans (h.sizes ptr hptr)
  · intro sizeClass
    apply (h.bins sizeClass).congr
    intro ptr hptr
    have hne : ptr ≠ p := by
      rintro rfl
      exact (h.freed sizeClass).2 ptr hptr hp
    exact h.load_word hobject hle hlt hsame (h.inv.bins sizeClass ptr hptr).1 hne (h.large sizeClass ptr hptr)

/-- `malloc` takes the first object of a list. -/
theorem reuse (h : Refines s a) {c : Int} (hptr : s.myFreeList c = ptr) (hne : ptr ≠ 0) :
    ∃ a', a.takeFrom c ptr = some a' ∧ ptr ∈ a.myLittleHeap c ∧ a'.headers = a.headers ∧
      a'.objects = a.objects ∧ Refines { s with
        myFreeList := Function.update s.myFreeList c (load s.memory wordSize ptr)
        live := ptr :: s.live } a' := by
  subst hptr
  obtain ⟨rest, hbin, hchain⟩ := (h.bins c).pop hne
  have hmem : s.myFreeList c ∈ a.myLittleHeap c := hbin ▸ List.mem_cons_self
  have herase : (a.myLittleHeap c).erase (s.myFreeList c) = rest := by rw [hbin, List.erase_cons_head]
  have htake : a.takeFrom c (s.myFreeList c) = some { a with
      myLittleHeap := Function.update a.myLittleHeap c rest
      live := s.myFreeList c :: a.live } := by
    rw [StrictSegHeap.takeFrom, if_pos hmem, herase]
  have hnotin := (h.freed c).2 _ hmem
  have hsub : ∀ d, ∀ q ∈ Function.update a.myLittleHeap c rest d, q ∈ a.myLittleHeap d := by
    intro d q hq
    by_cases hd : d = c
    · subst hd
      rw [Function.update_self] at hq
      exact hbin ▸ List.mem_cons_of_mem _ hq
    · rwa [Function.update_of_ne hd] at hq
  have hnodup := hbin ▸ (h.freed c).1
  refine ⟨_, htake, hmem, rfl, rfl, ?_⟩
  exact {
    inv := (h.inv.takeFrom htake).1
    live := congrArg _ h.live
    sizes := h.sizes
    bins := by
      intro d
      by_cases hd : d = c
      · subst hd
        simp only [Function.update_self]
        exact hchain
      · simp only [Function.update_of_ne hd]
        exact h.bins d
    large := fun d q hq => h.large d q (hsub d q hq)
    nodup := List.nodup_cons.mpr ⟨hnotin, h.nodup⟩
    freed := by
      intro d
      constructor
      · by_cases hd : d = c
        · subst hd
          simp only [Function.update_self]
          exact (List.nodup_cons.mp hnodup).2
        · simp only [Function.update_of_ne hd]
          exact (h.freed d).1
      · intro q hq hlive
        rcases List.mem_cons.mp hlive with rfl | hlive
        · by_cases hd : d = c
          · subst hd
            simp only [Function.update_self] at hq
            exact (List.nodup_cons.mp hnodup).1 hq
          · exact h.distinct d c hd (hsub d _ hq) hmem
        · exact (h.freed d).2 q (hsub d q hq) hlive
    distinct := fun d d' hne q hq hq' => h.distinct d d' hne (hsub d q hq) (hsub d' q hq')
    separated := h.separated
    within := h.within
    bound := h.bound }

/-- `free` puts an object in front of the list of its class. -/
theorem free (h : Refines s a) {c : Int} (hptr : ptr ∈ a.live) (hsize : 8 ≤ a.getSize ptr)
    (hclass : SegHeapConfig.kingsley.freeClass (a.getSize ptr) = some c) :
    ∃ a', a.free .kingsley ptr = some a' ∧ a'.headers = a.headers ∧ a'.objects = a.objects ∧
      Refines { s with
        memory := store s.memory wordSize ptr (s.myFreeList c)
        myFreeList := Function.update s.myFreeList c ptr
        memoryHeld := (s.memoryHeld + s.getSize ptr) % sizeRange
        live := s.live.erase ptr } a' := by
  have hobject := h.inv.live ptr hptr
  have hmax : ¬ SegHeapConfig.kingsley.maxObjectSize < a.getSize ptr :=
    Nat.not_lt.mpr (SegHeapConfig.le_maxObjectSize (h.inv.objects ptr hobject).2)
  have hfree : a.free .kingsley ptr = some { a with
      myLittleHeap := Function.update a.myLittleHeap c (ptr :: a.myLittleHeap c)
      memoryHeld := (a.memoryHeld + a.getSize ptr) % sizeRange
      live := a.live.erase ptr } := by
    simp only [StrictSegHeap.free, if_neg hmax, hclass, Option.map_some]
  have hsame : ∀ x, x < ptr ∨ ptr + wordSize ≤ x →
      store s.memory wordSize ptr (s.myFreeList c) x = s.memory x := fun x => store_of_apart
  have hend : ptr + wordSize ≤ ptr + a.getSize ptr := Nat.add_le_add_left hsize ptr
  have hnotfree : ∀ d, ptr ∉ a.myLittleHeap d := fun d hmem => (h.freed d).2 ptr hmem hptr
  have hword {d : Int} {q : Nat} (hq : q ∈ a.myLittleHeap d) :
      load (store s.memory wordSize ptr (s.myFreeList c)) wordSize q = load s.memory wordSize q := by
    apply h.load_word hobject (Nat.le_refl _) hend hsame (h.inv.bins d q hq).1 _ (h.large d q hq)
    rintro rfl
    exact hnotfree d hq
  have hmem : ∀ d, ∀ q ∈ Function.update a.myLittleHeap c (ptr :: a.myLittleHeap c) d,
      q = ptr ∧ d = c ∨ q ∈ a.myLittleHeap d := by
    intro d q hq
    by_cases hd : d = c
    · subst hd
      rw [Function.update_self] at hq
      rcases List.mem_cons.mp hq with hq | hq
      · exact Or.inl ⟨hq, rfl⟩
      · exact Or.inr hq
    · rw [Function.update_of_ne hd] at hq
      exact Or.inr hq
  refine ⟨_, hfree, rfl, rfl, ?_⟩
  exact {
    inv := h.inv.free hptr hfree
    live := by
      rw [h.live]
    sizes := fun q hq => (h.load_size hobject (Nat.le_refl _) hend hsame hq).trans (h.sizes q hq)
    bins := by
      intro d
      by_cases hd : d = c
      · subst hd
        simp only [Function.update_self]
        refine ⟨rfl, ?_, ?_⟩
        · have hbound := (h.bounds hobject).1
          rw [StrictSegHeap.headerSize] at hbound
          omega
        · have hhead : s.myFreeList d < 256 ^ wordSize := by
            have hrange : sizeRange = 256 ^ wordSize := by decide
            cases hbin : a.myLittleHeap d with
            | nil =>
              have hzero : s.myFreeList d = 0 := (h.bins d).eq_nil_iff.mp hbin
              rw [hzero]
              decide
            | cons q rest =>
              have hchain := h.bins d
              rw [hbin] at hchain
              have hq : q ∈ a.myLittleHeap d := hbin ▸ List.mem_cons_self
              have hbound := (h.bounds (h.inv.bins d q hq).1).2
              have hlarge : 0 < a.getSize q := Nat.lt_of_lt_of_le (by decide) (h.large d q hq)
              rw [hchain.1, ← hrange]
              exact Nat.lt_of_lt_of_le (Nat.lt_add_of_pos_right hlarge) hbound
          rw [load_store_of_lt hhead]
          exact (h.bins d).congr fun q hq => hword hq
      · simp only [Function.update_of_ne hd]
        exact (h.bins d).congr fun q hq => hword hq
    large := by
      intro d q hq
      rcases hmem d q hq with ⟨rfl, -⟩ | hq
      · exact hsize
      · exact h.large d q hq
    nodup := h.nodup.erase ptr
    freed := by
      intro d
      constructor
      · by_cases hd : d = c
        · subst hd
          simp only [Function.update_self]
          exact List.nodup_cons.mpr ⟨hnotfree d, (h.freed d).1⟩
        · simp only [Function.update_of_ne hd]
          exact (h.freed d).1
      · intro q hq hlive
        rcases hmem d q hq with ⟨rfl, -⟩ | hq
        · exact h.nodup.not_mem_erase hlive
        · exact (h.freed d).2 q hq (List.mem_of_mem_erase hlive)
    distinct := by
      intro d d' hne q hq hq'
      rcases hmem d q hq with ⟨rfl, rfl⟩ | hq
      · rcases hmem d' q hq' with ⟨-, rfl⟩ | hq'
        · exact hne rfl
        · exact hnotfree d' hq'
      · rcases hmem d' q hq' with ⟨heq, -⟩ | hq'
        · exact hnotfree d (heq ▸ hq)
        · exact h.distinct d d' hne hq hq'
    separated := h.separated
    within := h.within
    bound := h.bound }

/-- The chunk of a top heap after it has mapped another one where it had to. -/
theorem withRoom (h : Refines s a) (hmap : ∀ c ∈ s.mapping which sz chunk,
      c.1 ≠ 0 ∧ c.1 + c.2 ≤ sizeRange ∧ ∀ c' ∈ s.mapped, ApartOf c c') :
    let top := (s.top which).withRoom (sz + headerSize) chunk
    sz + headerSize ≤ top.remaining ∧ top.bump ≠ 0 ∧
      (∃ c ∈ (s.mapping which sz chunk).toList ++ s.mapped, Within top.range c) ∧
      Separated (Function.update (s.range a) (.inr which) top.range) (active a) := by
  rw [BumpAlloc.withRoom]
  by_cases hroom : (s.top which).remaining < sz + headerSize
  · have hmapping : s.mapping which sz chunk =
        some (chunk, BumpAlloc.chunkLength (sz + headerSize)) := if_pos hroom
    obtain ⟨hne, -, hapart⟩ := hmap _ hmapping
    rw [if_pos hroom, hmapping]
    refine ⟨?_, hne, ⟨_, List.mem_cons_self, Within.refl _⟩, ?_⟩
    · simp only [BumpAlloc.refill, BumpAlloc.chunkLength]
      split <;> omega
    · have hreplaced := h.separated.replace (i := .inr which)
        fun j hj _ => show ApartOf (BumpAlloc.refill (sz + headerSize) chunk).range (s.range a j) from ?_
      · rwa [Set.insert_eq_of_mem (inr_mem_active a which)] at hreplaced
      · rcases h.within j hj with hzero | ⟨c, hc, hwithin⟩
        · rw [hzero]
          exact Or.inr (Nat.zero_le _)
        · exact ApartOf.of_within (hapart c hc) (Within.refl _) hwithin
  · have hmapping : s.mapping which sz chunk = none := if_neg hroom
    have hlarge : 0 < (s.top which).remaining := by
      rw [headerSize] at hroom
      omega
    rw [if_neg hroom, hmapping]
    rcases h.within _ (inr_mem_active a which) with hzero | ⟨c, hc, hwithin⟩
    · have hremaining : (s.top which).remaining = 0 := congrArg Prod.snd hzero
      omega
    · refine ⟨Nat.not_lt.mp hroom, ?_, ⟨c, hc, hwithin⟩, ?_⟩
      · intro hnull
        have hle : c.1 ≤ (s.top which).bump := hwithin.1
        exact (h.bound c hc).1 (Nat.eq_zero_of_le_zero (hnull ▸ hle))
      · have hsame : Function.update (s.range a) (.inr which) (s.top which).range = s.range a :=
          Function.update_eq_self _ _
        rw [hsame]
        exact h.separated

theorem active_sizeMalloc (a : StrictSegHeap) (sz base : Nat) :
    active (a.sizeMalloc sz base) = insert (.inl (base + headerSize)) (active a) := by
  ext i
  cases i with
  | inl q => simp [active, StrictSegHeap.sizeMalloc]
  | inr w => simp [active]

theorem getSize_sizeMalloc (h : Refines s a) {base : Nat} (hfresh : base + headerSize ∉ a.objects)
    (hq : q ∈ a.objects) : (a.sizeMalloc sz base).getSize q = a.getSize q := by
  apply StrictSegHeap.getSize_sizeMalloc (h.inv.objects q hq).1
  rintro rfl
  exact hfresh hq

/-- The ranges after a new object has been cut off a chunk. -/
theorem range_sizeMalloc (h : Refines s a) {base : Nat} {rest : BumpAlloc} {memory : Memory}
    {mapped : List (Addr × Nat)} {live : List Addr} (hfresh : base + headerSize ∉ a.objects)
    {i : Addr ⊕ Option Int} (hi : i ∈ active a) :
    range { s with memory := memory, top := Function.update s.top which rest, mapped := mapped, live := live }
        (a.sizeMalloc sz base) i =
      Function.update (s.range a) (.inr which) rest.range i := by
  cases i with
  | inl q =>
    rw [Function.update_of_ne (by simp), range, range, h.getSize_sizeMalloc hfresh (hi q rfl)]
  | inr w =>
    rw [range]
    by_cases hw : w = which
    · subst hw
      simp only [Function.update_self]
    · rw [Function.update_of_ne (by simpa using hw), range]
      simp only [Function.update_of_ne hw]

theorem range_sizeMalloc_self (s : SourceHeap) (a : StrictSegHeap) (sz base : Nat) :
    s.range (a.sizeMalloc sz base) (.inl (base + headerSize)) = (base, headerSize + sz) := by
  rw [range, StrictSegHeap.getSize_sizeMalloc_self, Nat.add_sub_cancel]

/-- `malloc` cuts a new object off a chunk. -/
theorem fresh (h : Refines s a) (hsz : sz ≤ 2 ^ 31) (hmap : ∀ c ∈ s.mapping which sz chunk,
      c.1 ≠ 0 ∧ c.1 + c.2 ≤ sizeRange ∧ ∀ c' ∈ s.mapped, ApartOf c c') :
    ∃ base s', s.topMalloc which sz chunk = some (base + headerSize, s') ∧ base + headerSize ∉ a.objects ∧
      s'.live = (base + headerSize) :: s.live ∧ s'.memory = store s.memory wordSize base sz ∧
      (∀ q ∈ a.objects, ApartOf (s.range a (.inl q)) (base, headerSize + sz)) ∧
      Refines s' (a.sizeMalloc sz base) := by
  obtain ⟨hroom, hne, hwithin, hseparated⟩ := h.withRoom hmap
  obtain ⟨top, htop⟩ : ∃ top, (s.top which).withRoom (sz + headerSize) chunk = top := ⟨_, rfl⟩
  rw [htop] at hroom hne hwithin hseparated
  have hmalloc : s.topMalloc which sz chunk = some (top.bump + headerSize,
      { s with
        memory := store s.memory wordSize top.bump sz
        top := Function.update s.top which
          ⟨top.bump + (sz + headerSize), top.remaining - (sz + headerSize)⟩
        mapped := (s.mapping which sz chunk).toList ++ s.mapped
        live := (top.bump + headerSize) :: s.live }) := by
    simp only [topMalloc, BumpAlloc.malloc, htop, if_neg hne]
  have hself : Function.update (s.range a) (Sum.inr which) top.range (.inr which) = top.range :=
    Function.update_self _ _ _
  have hinl (q : Nat) : Function.update (s.range a) (Sum.inr which) top.range (.inl q) = s.range a (.inl q) :=
    Function.update_of_ne (by simp) _ _
  have hfront : Within (top.bump, headerSize + sz) top.range := by
    rw [Nat.add_comm headerSize]
    exact ⟨Nat.le_refl _, Nat.add_le_add_left hroom _⟩
  have hback : Within (top.bump + (sz + headerSize), top.remaining - (sz + headerSize)) top.range := by
    refine ⟨Nat.le_add_right _ _, ?_⟩
    rw [BumpAlloc.range, Nat.add_assoc, Nat.add_sub_cancel' hroom]
  have hfresh : top.bump + headerSize ∉ a.objects := by
    intro hmem
    have hapart := hseparated.apart (inr_mem_active a which) (inl_mem_active hmem) (by simp)
    rw [hself, hinl, range, Nat.add_sub_cancel] at hapart
    apply Blocks.not_apart_self _ _ hapart
    · have hpos : 0 < top.remaining := by
        rw [headerSize] at hroom
        omega
      exact hpos
    · simp [headerSize]
  have hsize {q : Nat} (hq : q ∈ a.objects) : (a.sizeMalloc sz top.bump).getSize q = a.getSize q :=
    h.getSize_sizeMalloc hfresh hq
  have hnew : (a.sizeMalloc sz top.bump).getSize (top.bump + headerSize) = sz :=
    StrictSegHeap.getSize_sizeMalloc_self a sz top.bump
  have hapart : ∀ q ∈ a.objects, ApartOf (s.range a (.inl q)) (top.bump, headerSize + sz) := by
    intro q hq
    have hq' := hseparated.apart (inl_mem_active hq) (inr_mem_active a which) (by simp)
    rw [hself, hinl] at hq'
    exact hq'.of_within (Within.refl _) hfront
  have hlow : ∀ q ∈ a.objects, headerSize ≤ q := fun q hq => (h.bounds hq).1
  have hfront' : Within (top.bump, wordSize) (top.bump, headerSize + sz) :=
    ⟨Nat.le_refl _, Nat.add_le_add_left (Nat.le_add_right _ _) _⟩
  refine ⟨top.bump, _, hmalloc, hfresh, rfl, rfl, hapart, ?_⟩
  exact {
    inv := h.inv.sizeMalloc hsz hfresh
    live := congrArg _ h.live
    sizes := by
      intro q hq
      rcases List.mem_cons.mp hq with rfl | hq
      · rw [hnew, getSize, Nat.add_sub_cancel]
        apply load_store_of_lt
        exact hsz.trans_lt (by decide)
      · rw [hsize hq, ← h.sizes q hq, getSize, getSize]
        apply load_store_of_apart
        have hheader : Within (q - headerSize, wordSize) (s.range a (.inl q)) :=
          ⟨Nat.le_refl _, Nat.add_le_add_left (Nat.le_add_right _ _) _⟩
        exact (hapart q hq).of_within hheader hfront'
    bins := by
      intro d
      apply (h.bins d).store_of_apart
      intro q hq
      have hobject := (h.inv.bins d q hq).1
      have hle : headerSize ≤ q := hlow q hobject
      have hlarge := h.large d q hq
      have hlink : Within (q, wordSize) (s.range a (.inl q)) := by
        refine ⟨Nat.sub_le _ _, ?_⟩
        simp only [range, wordSize]
        omega
      exact (hapart q hobject).of_within hlink hfront'
    large := by
      intro d q hq
      rw [hsize (h.inv.bins d q hq).1]
      exact h.large d q hq
    nodup := List.nodup_cons.mpr ⟨fun hmem => hfresh (h.inv.live _ hmem), h.nodup⟩
    freed := by
      intro d
      refine ⟨(h.freed d).1, ?_⟩
      intro q hq hlive
      rcases List.mem_cons.mp hlive with rfl | hlive
      · exact hfresh (h.inv.bins d _ hq).1
      · exact (h.freed d).2 q hq hlive
    distinct := h.distinct
    separated := by
      have hcarved := hseparated.carve (k := .inl (top.bump + headerSize)) (m := sz + headerSize)
        (inr_mem_active a which) (by rw [hself]; exact hroom)
      rw [hself, Function.update_idem] at hcarved
      rw [active_sizeMalloc]
      apply hcarved.congr
      intro i hi
      by_cases hnewest : i = .inl (top.bump + headerSize)
      · subst hnewest
        rw [Function.update_self, range_sizeMalloc_self, Nat.add_comm headerSize]
        rfl
      · rw [Function.update_of_ne hnewest]
        exact h.range_sizeMalloc hfresh (hi.resolve_left hnewest)
    within := by
      obtain ⟨c, hc, htopc⟩ := hwithin
      intro i hi
      rw [active_sizeMalloc] at hi
      rcases hi with rfl | hi
      · rw [range_sizeMalloc_self]
        exact Or.inr ⟨c, hc, hfront.trans htopc⟩
      · rw [h.range_sizeMalloc hfresh hi]
        by_cases hw : i = .inr which
        · subst hw
          rw [Function.update_self]
          exact Or.inr ⟨c, hc, hback.trans htopc⟩
        · rw [Function.update_of_ne hw]
          exact (h.within i hi).imp_right fun ⟨c, hc, hwithin⟩ =>
            ⟨c, List.mem_append_right _ hc, hwithin⟩
    bound := by
      intro c hc
      rcases List.mem_append.mp hc with hc | hc
      · obtain ⟨hne, hend, -⟩ := hmap c (Option.mem_toList.mp hc)
        exact ⟨hne, hend⟩
      · exact h.bound c hc }

end Refines

/-- A step refines one of the heap with lists, and leaves the sizes of all objects and the bytes of those that the
program holds as they are, except for what the program itself does. -/
structure Steps (s : SourceHeap) (a : StrictSegHeap) (action : Action) (s' : SourceHeap) (a' : StrictSegHeap) :
    Prop where
  refines : Refines s' a'
  abstract : a' = a ∨ ∃ action', StrictSegHeap.Proper .kingsley a action' ∧ a.next .kingsley action' = some a'
  sizes : ∀ q ∈ a.objects, q ∈ a'.objects ∧ a'.getSize q = a.getSize q
  memory : ∀ q ∈ a.live, action = .free q ∨ ∀ i < a.getSize q, (∃ byte, action = .write (q + i) byte) ∨
    s'.memory (q + i) = s.memory (q + i)

namespace Refines

theorem malloc_step (h : Refines s a) (hp : s.Permits (.malloc sz chunk)) : ∃ ptr s' a',
    s.malloc sz chunk = some (ptr, s') ∧ ptr ∉ a.live ∧ s'.live = ptr :: s.live ∧ ptr ∈ a'.objects ∧
      sz ≤ a'.getSize ptr ∧ Steps s a (.malloc sz chunk) s' a' := by
  obtain ⟨hpos, hsz, hmap⟩ := hp
  have hmax := SegHeapConfig.le_maxObjectSize hsz
  rw [maps] at hmap
  rw [malloc, if_pos hmax, littleMalloc]
  by_cases hempty : s.myFreeList (SegHeapConfig.kingsley.getSizeClass sz) = 0
  · rw [if_neg (by simp [hempty]), topOf, if_pos hmax] at hmap
    obtain ⟨base, s', hmalloc, hfresh, hlive, hmemory, hapart, hrefines⟩ := h.fresh hsz hmap
    rw [if_pos hempty]
    have hsize : ∀ q ∈ a.objects, (a.sizeMalloc sz base).getSize q = a.getSize q := by
      intro q hq
      apply StrictSegHeap.getSize_sizeMalloc (h.inv.objects q hq).1
      rintro rfl
      exact hfresh hq
    refine ⟨base + headerSize, s', a.sizeMalloc sz base, hmalloc, fun hmem => hfresh (h.inv.live _ hmem), hlive,
      List.mem_cons_self, (StrictSegHeap.getSize_sizeMalloc_self a sz base).ge, hrefines,
      Or.inr ⟨.malloc sz (.top base), ⟨hpos, hmax, ?_⟩, rfl⟩, fun q hq => ⟨List.mem_cons_of_mem _ hq, hsize q hq⟩, ?_⟩
    · intro b heq
      obtain rfl := Source.top.inj heq
      exact hfresh
    intro q hq
    refine Or.inr fun i hi => Or.inr ?_
    have hobject := h.inv.live q hq
    have hq' := hapart q hobject
    have hlow := (h.bounds hobject).1
    rw [hmemory]
    apply store_of_apart
    rw [ApartOf, range, headerSize] at hq'
    rw [headerSize] at hlow
    rw [wordSize]
    rcases hq' with hle | hle
    · exact Or.inl (by dsimp only at hle; omega)
    · exact Or.inr (by dsimp only at hle; omega)
  · obtain ⟨a', htake, hmem, hheaders, hobjects, hrefines⟩ :=
      h.reuse (c := SegHeapConfig.kingsley.getSizeClass sz) rfl hempty
    rw [if_neg hempty]
    have hsize (q : Nat) : a'.getSize q = a.getSize q := by rw [StrictSegHeap.getSize, hheaders, StrictSegHeap.getSize]
    obtain ⟨hobject, hfits⟩ := h.inv.bins _ _ hmem
    refine ⟨_, _, a', rfl, (h.freed _).2 _ hmem, rfl, hobjects ▸ hobject, ?_, hrefines,
      Or.inr ⟨.malloc sz (.bin _), ⟨hpos, hmax, fun _ heq => by cases heq⟩, (if_pos hmax).trans htake⟩,
      fun q hq => ⟨hobjects ▸ hq, hsize q⟩, fun q hq => Or.inr fun i hi => Or.inr rfl⟩
    rw [hsize]
    exact (Kingsley.le_class2Size hsz).trans hfits

theorem free_step (h : Refines s a) (hp : s.Permits (.free ptr)) :
    ∃ s' a', s.free ptr = some s' ∧ Steps s a (.free ptr) s' a' := by
  obtain ⟨hlive, hlarge⟩ := hp
  rw [h.live] at hlive
  have hobject := h.inv.live ptr hlive
  have hsame := h.sizes ptr hobject
  rw [hsame] at hlarge
  have hhigh := (h.inv.objects ptr hobject).2
  obtain ⟨c, hclass, -⟩ := SegHeapConfig.freeClass_of_le hlarge hhigh
  obtain ⟨a', hnext, hheaders, hobjects, hrefines⟩ := h.free hlive hlarge hclass
  have hfree := SourceHeap.free.eq_1 s ptr
  simp only [hsame, if_neg (Nat.not_lt.mpr (SegHeapConfig.le_maxObjectSize hhigh)), hclass,
    Option.map_some] at hfree
  rw [hsame] at hrefines
  refine ⟨_, a', hfree, hrefines, Or.inr ⟨.free ptr, hlive, hnext⟩, ?_, ?_⟩
  · intro q hq
    exact ⟨hobjects ▸ hq, by rw [StrictSegHeap.getSize, hheaders, StrictSegHeap.getSize]⟩
  · intro q hq
    by_cases hqp : q = ptr
    · exact Or.inl (by rw [hqp])
    · refine Or.inr fun i hi => Or.inr ?_
      have hapart := h.apart (h.inv.live q hq) hobject hqp
      have hlowq := (h.bounds (h.inv.live q hq)).1
      have hlowp := (h.bounds hobject).1
      apply store_of_apart
      rw [headerSize] at hapart hlowp hlowq
      rw [wordSize]
      rcases hapart with hle | hle
      · exact Or.inl (by omega)
      · exact Or.inr (by omega)

theorem write_step (h : Refines s a) {byte : BitVec 8} (hp : s.Permits (.write p byte)) :
    Steps s a (.write p byte) { s with memory := Function.update s.memory p byte } a := by
  obtain ⟨ptr, hlive, hle, hlt⟩ := hp
  rw [h.live] at hlive
  rw [h.sizes ptr (h.inv.live ptr hlive)] at hlt
  refine ⟨h.write hlive hle hlt, Or.inl rfl, fun q hq => ⟨hq, rfl⟩, ?_⟩
  intro q hq
  refine Or.inr fun i hi => ?_
  by_cases hqi : q + i = p
  · exact Or.inl ⟨byte, by rw [hqi]⟩
  · exact Or.inr (Function.update_of_ne hqi _ _)

theorem step (h : Refines s a) {action : Action} (hp : s.Permits action) :
    ∃ s' a', s.next action = some s' ∧ Steps s a action s' a' := by
  cases action with
  | malloc sz chunk =>
    obtain ⟨ptr, s', a', hmalloc, -, -, -, -, hsteps⟩ := h.malloc_step hp
    exact ⟨s', a', by rw [next, hmalloc]; rfl, hsteps⟩
  | free ptr =>
    obtain ⟨s', a', hfree, hsteps⟩ := h.free_step hp
    exact ⟨s', a', by rw [next, hfree], hsteps⟩
  | write p byte => exact ⟨_, a, rfl, h.write_step hp⟩

end Refines

theorem refines_initial : Refines initial StrictSegHeap.initial where
  inv := StrictSegHeap.inv_initial
  live := rfl
  sizes := by simp [StrictSegHeap.initial]
  bins _ := chain_nil _ _
  large := by simp [StrictSegHeap.initial]
  nodup := List.nodup_nil
  freed := by simp [StrictSegHeap.initial]
  distinct := by simp [StrictSegHeap.initial]
  separated := by
    intro i hi j hj hne
    cases i with
    | inl ptr => cases hi ptr rfl
    | inr which =>
      cases j with
      | inl ptr => cases hj ptr rfl
      | inr which' => exact Or.inl (Nat.zero_le _)
  within := by
    intro i hi
    cases i with
    | inl ptr => cases hi ptr rfl
    | inr which => exact Or.inl rfl
  bound := by simp [initial]

section Runs

variable (e : Execution next Permits initial)

theorem exists_refines {k : Nat} (hk : k ≤ e.length) :
    ∃ a, Reach (StrictSegHeap.next .kingsley) (StrictSegHeap.Proper .kingsley) .initial a ∧
      Refines (e.state k) a := by
  induction k with
  | zero =>
    refine ⟨_, .refl, ?_⟩
    rw [e.initial]
    exact refines_initial
  | succ k ih =>
    obtain ⟨a, hreach, ha⟩ := ih (Nat.le_of_succ_le hk)
    obtain ⟨s', a', hn, hsteps⟩ := ha.step (e.guarded k hk)
    obtain rfl := Option.some.inj (hn.symm.trans (e.step k hk))
    refine ⟨a', ?_, hsteps.refines⟩
    rcases hsteps.abstract with rfl | ⟨action', hproper, hnext⟩
    · exact hreach
    · exact hreach.step hproper hnext

/-- A run of the heap refines one of the heap with lists. Its objects are as large as they have been asked for and
apart, and keep what is written to them. -/
theorem isolated : Isolated e ∧ ∀ k ≤ e.length, ∃ a,
    Reach (StrictSegHeap.next .kingsley) (StrictSegHeap.Proper .kingsley) .initial a ∧
      Refines (e.state k) a := by
  refine ⟨⟨?_, ?_, ?_, ?_⟩, fun k hk => exists_refines e hk⟩
  · intro k hk sz chunk haction
    obtain ⟨a, -, ha⟩ := exists_refines e hk.le
    have hp := e.guarded k hk
    have hn := e.step k hk
    rw [haction] at hp hn ⊢
    obtain ⟨ptr, s', a', hmalloc, hnotin, hlive, hobject, hsize, hsteps⟩ := ha.malloc_step hp
    rw [next, hmalloc] at hn
    obtain rfl : s' = e.state (k + 1) := Option.some.inj hn
    refine ⟨ptr, by rw [result, hmalloc]; rfl, by rwa [ha.live], hlive, ?_⟩
    rwa [hsteps.refines.sizes ptr hobject]
  · intro k hk
    obtain ⟨a, -, ha⟩ := exists_refines e hk
    rw [ha.live]
    apply ha.nodup.imp_of_mem
    intro p q hp hq hne
    have hapart := ha.apart (ha.inv.live p hp) (ha.inv.live q hq) hne
    rwa [← ha.sizes p (ha.inv.live p hp), ← ha.sizes q (ha.inv.live q hq)] at hapart
  · intro k hk p hp
    obtain ⟨a, -, ha⟩ := exists_refines e hk
    rw [ha.live] at hp
    have hobject := ha.inv.live p hp
    refine ⟨(ha.bounds hobject).1, ?_⟩
    rw [space, ha.sizes p hobject]
    exact ha.range_within hobject
  · intro k hk p hp
    obtain ⟨a, -, ha⟩ := exists_refines e hk.le
    obtain ⟨s', a', hn, hsteps⟩ := ha.step (e.guarded k hk)
    obtain rfl := Option.some.inj (hn.symm.trans (e.step k hk))
    rw [ha.live] at hp
    have hobject := ha.inv.live p hp
    obtain ⟨hobject', hsize⟩ := hsteps.sizes p hobject
    rw [hsteps.refines.sizes p hobject', ha.sizes p hobject]
    exact ⟨hsize, hsteps.memory p hp⟩

end Runs

instance (s : SourceHeap) : DecidablePred s.Permits
  | .malloc sz chunk => inferInstanceAs (Decidable (1 ≤ sz ∧ sz ≤ 2 ^ 31 ∧ ∀ c ∈ s.maps sz chunk,
      c.1 ≠ 0 ∧ c.1 + c.2 ≤ sizeRange ∧ ∀ c' ∈ s.mapped, ApartOf c c'))
  | .free ptr => inferInstanceAs (Decidable (ptr ∈ s.live ∧ 8 ≤ s.getSize ptr))
  | .write p _ => inferInstanceAs (Decidable (∃ ptr ∈ s.live, ptr ≤ p ∧ p < ptr + s.getSize ptr))

def reusing : Execution next Permits initial :=
  .ofRun [.malloc 16 4096, .write 4104 1, .malloc 20 8192, .free 4104, .malloc 10 0, .write 4104 2] (by decide +kernel)
    (guarded_of_bool (by decide +kernel))

theorem isolated_reusing : (reusing.state 4).result (reusing.action 4) = some 4104 ∧ Isolated reusing ∧
    ∀ k ≤ reusing.length, ∃ a, Reach (StrictSegHeap.next .kingsley) (StrictSegHeap.Proper .kingsley) .initial a ∧
      Refines (reusing.state k) a :=
  ⟨by decide +kernel, isolated reusing⟩

end SourceHeap

end DieHard
