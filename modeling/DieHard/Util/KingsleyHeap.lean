import DieHard.Lib.Transition
import DieHard.Math.Log2
import DieHard.Util.Size

/-!
# The Kingsley heap

A `StrictSegHeap` keeps freed objects in bins. `malloc` rounds a size up to its class, and `free` walks
down from there to the largest class whose size the object has. With the Kingsley classes the walk of an
object of less than eight bytes leaves the bins, and so does a request beyond `2 ^ 31`.
-/

namespace DieHard

open Transition

/-- The template parameters of a `StrictSegHeap`. -/
structure SegHeapConfig where
  numBins : Nat
  getSizeClass : Nat → Int
  getClassMaxSize : Int → Nat

namespace SegHeapConfig

variable (cfg : SegHeapConfig)

def maxObjectSize : Nat := cfg.getClassMaxSize (cfg.numBins - 1)

/-- The loop of `free` on `objectSizeClass`. -/
def walkDown (objectSize : Nat) : Nat → Int → Option Int
  | 0, _ => none
  | fuel + 1, objectSizeClass =>
    if objectSize < cfg.getClassMaxSize objectSizeClass then
      walkDown objectSize fuel (objectSizeClass - 1)
    else some objectSizeClass

theorem walkDown_some {objectSize fuel : Nat} {c sizeClass : Int}
    (h : cfg.walkDown objectSize fuel c = some sizeClass) :
    sizeClass ≤ c ∧ cfg.getClassMaxSize sizeClass ≤ objectSize := by
  induction fuel generalizing c with
  | zero => cases h
  | succ fuel ih =>
    rw [walkDown] at h
    by_cases hlt : objectSize < cfg.getClassMaxSize c
    · rw [if_pos hlt] at h
      obtain ⟨hle, hfits⟩ := ih h
      exact ⟨by omega, hfits⟩
    · rw [if_neg hlt] at h
      obtain rfl := Option.some.inj h
      exact ⟨Int.le_refl _, Nat.not_lt.mp hlt⟩

theorem walkDown_eq {objectSize fuel n : Nat} {d : Int}
    (hfits : cfg.getClassMaxSize d ≤ objectSize) (hfuel : n < fuel) :
    ∃ sizeClass, cfg.walkDown objectSize fuel (d + n) = some sizeClass ∧ d ≤ sizeClass := by
  induction n generalizing fuel with
  | zero =>
    obtain ⟨fuel, rfl⟩ := Nat.exists_eq_succ_of_ne_zero hfuel.ne'
    have hzero : d + (0 : Nat) = d := Int.add_zero d
    exact ⟨d, by rw [walkDown, hzero, if_neg (Nat.not_lt.mpr hfits)], Int.le_refl d⟩
  | succ n ih =>
    obtain ⟨fuel, rfl⟩ := Nat.exists_eq_succ_of_ne_zero (Nat.ne_of_gt (Nat.zero_lt_of_lt hfuel))
    rw [walkDown]
    by_cases hlt : objectSize < cfg.getClassMaxSize (d + (n + 1 : Nat))
    · have hprev : d + (n + 1 : Nat) - 1 = d + n := by omega
      rw [if_pos hlt, hprev]
      exact ih (by omega)
    · rw [if_neg hlt]
      exact ⟨_, rfl, by omega⟩

/-- The class of a freed object. The loop cannot count an `int` down further than its range. -/
def freeClass (objectSize : Nat) : Option Int :=
  cfg.walkDown objectSize (2 ^ 32) (cfg.getSizeClass objectSize)

end SegHeapConfig

/-- Where a `malloc` gets its object: from a bin, from a top heap that answers with the memory at `base`,
or from nowhere. -/
inductive Source
  | bin (ptr : Addr)
  | top (base : Addr)
  | none
  deriving DecidableEq

/-- The heap with the headers of its objects, the objects that a top heap has ever returned and those that
the program holds. -/
structure StrictSegHeap where
  headers : Addr → Nat
  myLittleHeap : Int → List Addr
  memoryHeld : Nat
  objects : List Addr
  live : List Addr

namespace StrictSegHeap

/-- `sizeof(freeObject)` -/
def headerSize : Nat := 8

def initial : StrictSegHeap := ⟨fun _ => 0, fun _ => [], 0, [], []⟩

/-- `SizeHeap::getSize` -/
def getSize (s : StrictSegHeap) (ptr : Addr) : Nat := s.headers (ptr - headerSize)

inductive Action
  | malloc (sz : Nat) (source : Source)
  | free (ptr : Addr)
  deriving DecidableEq

instance : Inhabited Action := ⟨.free 0⟩

/-- The object that a `malloc` returns. -/
def Action.result : Action → Option Addr
  | .malloc _ (.bin ptr) => some ptr
  | .malloc _ (.top base) => some (base + headerSize)
  | _ => none

variable (cfg : SegHeapConfig)

/-- `SizeHeap::malloc` -/
def sizeMalloc (s : StrictSegHeap) (sz base : Nat) : StrictSegHeap :=
  { s with
    headers := Function.update s.headers base sz
    objects := (base + headerSize) :: s.objects
    live := (base + headerSize) :: s.live }

/-- A little heap takes an object out of its bin. -/
def takeFrom (s : StrictSegHeap) (sizeClass : Int) (ptr : Addr) : Option StrictSegHeap :=
  if ptr ∈ s.myLittleHeap sizeClass then
    some { s with
      myLittleHeap := Function.update s.myLittleHeap sizeClass ((s.myLittleHeap sizeClass).erase ptr)
      live := ptr :: s.live }
  else none

def malloc (s : StrictSegHeap) (sz : Nat) : Source → Option StrictSegHeap
  | .bin ptr => if sz ≤ cfg.maxObjectSize then s.takeFrom (cfg.getSizeClass sz) ptr else none
  | .top base => some (s.sizeMalloc sz base)
  | .none => some s

def free (s : StrictSegHeap) (ptr : Addr) : Option StrictSegHeap :=
  let objectSize := s.getSize ptr
  if cfg.maxObjectSize < objectSize then some { s with live := s.live.erase ptr }
  else (cfg.freeClass objectSize).map fun objectSizeClass =>
    { s with
      myLittleHeap := Function.update s.myLittleHeap objectSizeClass
        (ptr :: s.myLittleHeap objectSizeClass)
      memoryHeld := (s.memoryHeld + objectSize) % sizeRange
      live := s.live.erase ptr }

def next (s : StrictSegHeap) : Action → Option StrictSegHeap
  | .malloc sz source => s.malloc cfg sz source
  | .free ptr => s.free cfg ptr

/-- The program asks for sizes from one to the largest, frees what it holds, and the top heaps return
memory that they have not returned before. -/
def Proper (s : StrictSegHeap) : Action → Prop
  | .malloc sz source => 1 ≤ sz ∧ sz ≤ cfg.maxObjectSize ∧
    ∀ base, source = .top base → base + headerSize ∉ s.objects
  | .free ptr => ptr ∈ s.live

/-- The bin that the action turns to is one of the bins. -/
def InBins (s : StrictSegHeap) : Action → Prop
  | .malloc sz _ => sz ≤ cfg.maxObjectSize →
    0 ≤ cfg.getSizeClass sz ∧ cfg.getSizeClass sz < cfg.numBins
  | .free ptr => s.getSize ptr ≤ cfg.maxObjectSize → ∃ sizeClass,
    cfg.freeClass (s.getSize ptr) = some sizeClass ∧ 0 ≤ sizeClass ∧ sizeClass < cfg.numBins

/-- A run stays in the bins, bins hold objects that are large enough for them, and so are the objects that
`malloc` returns for the sizes asked for. -/
structure StaysInBins {ok : StrictSegHeap → Action → Prop} {init : StrictSegHeap}
    (e : Execution (next cfg) ok init) : Prop where
  inBins : ∀ k < e.length, InBins cfg (e.state k) (e.action k)
  placed : ∀ k ≤ e.length, ∀ sizeClass, ∀ ptr ∈ (e.state k).myLittleHeap sizeClass,
    cfg.getClassMaxSize sizeClass ≤ (e.state k).getSize ptr
  served : ∀ k < e.length, ∀ sz source ptr, e.action k = .malloc sz source →
    (e.action k).result = some ptr → sz ≤ (e.state (k + 1)).getSize ptr

end StrictSegHeap

namespace Kingsley

def cl : List Nat := [0, 1, 2, 2, 3, 3, 3, 3, 4, 4, 4, 4, 4, 4, 4, 4]

/-- The loop of `size2Class`; it halves `sz1`, so `sz1` bounds its turns. -/
def size2ClassLoop : Nat → Nat → Nat → Nat
  | 0, c, _ => c
  | fuel + 1, c, sz1 => if 7 < sz1 then size2ClassLoop fuel (c + 1) (sz1 >>> 1) else c

def size2Class (sz : Nat) : Nat :=
  if sz < 128 then cl.getD ((sz - 1) >>> 3) 0
  else size2ClassLoop ((sz - 1) >>> 5) 5 ((sz - 1) >>> 5)

def class2Size (i : Int) : Nat := oneShlSize (i + 3).toNat

theorem le_size2ClassLoop (fuel c sz1 : Nat) : c ≤ size2ClassLoop fuel c sz1 := by
  induction fuel generalizing c sz1 with
  | zero => exact Nat.le_refl c
  | succ fuel ih =>
    rw [size2ClassLoop]
    split
    · exact (Nat.le_succ c).trans (ih (c + 1) (sz1 >>> 1))
    · exact Nat.le_refl c

theorem size2ClassLoop_le_iff {fuel sz1 : Nat} (h : sz1 ≤ fuel) (c k : Nat) :
    size2ClassLoop fuel c sz1 ≤ c + k ↔ sz1 < 2 ^ (k + 3) := by
  induction fuel generalizing sz1 c k with
  | zero =>
    have hpos := Nat.two_pow_pos (k + 3)
    simp only [size2ClassLoop]
    omega
  | succ fuel ih =>
    rw [size2ClassLoop]
    by_cases hgo : 7 < sz1
    · have hhalf : sz1 >>> 1 = sz1 / 2 := Nat.shiftRight_eq_div_pow sz1 1
      rw [if_pos hgo, hhalf]
      cases k with
      | zero =>
        have hle := le_size2ClassLoop fuel (c + 1) (sz1 / 2)
        omega
      | succ k =>
        have hnext : c + (k + 1) = c + 1 + k := by omega
        have hpow : 2 ^ (k + 1 + 3) = 2 ^ (k + 3) * 2 := Nat.pow_succ 2 (k + 3)
        rw [hnext, ih (by omega), hpow]
        omega
    · have hpow : 2 ^ (k + 3) = 2 ^ k * 8 := Nat.pow_add 2 k 3
      have hpos := Nat.two_pow_pos k
      rw [if_neg hgo]
      omega

theorem size2Class_small {sz : Nat} (h : sz < 128) : size2Class sz ≤ 4 ∧ sz ≤ 2 ^ (size2Class sz + 3) := by
  revert sz
  decide

theorem size2Class_le_iff {sz : Nat} (h : 128 ≤ sz) (k : Nat) :
    size2Class sz ≤ 5 + k ↔ sz ≤ 2 ^ (k + 8) := by
  have hshift : (sz - 1) >>> 5 = (sz - 1) / 32 := Nat.shiftRight_eq_div_pow _ 5
  have hpow : 2 ^ (k + 8) = 2 ^ (k + 3) * 32 := Nat.pow_add 2 (k + 3) 5
  rw [size2Class, if_neg (Nat.not_lt.mpr h), size2ClassLoop_le_iff (Nat.le_refl _), hshift, hpow]
  omega

theorem le_two_pow_size2Class (sz : Nat) : sz ≤ 2 ^ (size2Class sz + 3) := by
  by_cases hsmall : sz < 128
  · exact (size2Class_small hsmall).2
  · have hle : 5 ≤ size2Class sz := by
      rw [size2Class, if_neg hsmall]
      exact le_size2ClassLoop _ _ _
    have hsplit : size2Class sz + 3 = (size2Class sz - 5) + 8 := by omega
    rw [hsplit, ← size2Class_le_iff (Nat.not_lt.mp hsmall)]
    omega

theorem size2Class_lt_iff (sz : Nat) : size2Class sz < 29 ↔ sz ≤ 2 ^ 31 := by
  by_cases hsmall : sz < 128
  · have hle := (size2Class_small hsmall).1
    omega
  · rw [← size2Class_le_iff (Nat.not_lt.mp hsmall) 23]
    omega

theorem class2Size_eq {c : Nat} (hc : c < 28) : class2Size c = 2 ^ (c + 3) :=
  oneShlSize_eq (by omega)

theorem le_class2Size {sz : Nat} (h : sz ≤ 2 ^ 31) : sz ≤ class2Size (size2Class sz) := by
  have hlt := (size2Class_lt_iff sz).mpr h
  by_cases hlast : size2Class sz < 28
  · rw [class2Size_eq hlast]
    exact le_two_pow_size2Class sz
  · have heq : size2Class sz = 28 := by omega
    rw [heq]
    exact h.trans (by decide)

end Kingsley

open Kingsley

def SegHeapConfig.kingsley : SegHeapConfig where
  numBins := 29
  getSizeClass sz := size2Class sz
  getClassMaxSize := class2Size

namespace SegHeapConfig

theorem freeClass_of_le {sz : Nat} (hlow : 8 ≤ sz) (hhigh : sz ≤ 2 ^ 31) :
    ∃ sizeClass, kingsley.freeClass sz = some sizeClass ∧ 0 ≤ sizeClass ∧ sizeClass < 29 := by
  have hlt := (size2Class_lt_iff sz).mpr hhigh
  have hfits : kingsley.getClassMaxSize 0 ≤ sz := hlow
  have hfuel : size2Class sz < 2 ^ 32 := by omega
  obtain ⟨sizeClass, hwalk, hpos⟩ := kingsley.walkDown_eq hfits hfuel
  rw [Int.zero_add] at hwalk
  have hle : sizeClass ≤ (size2Class sz : Int) := (kingsley.walkDown_some hwalk).1
  exact ⟨sizeClass, hwalk, hpos, by omega⟩

theorem freeClass_neg {sz : Nat} (hsmall : sz < 8) {sizeClass : Int}
    (h : kingsley.freeClass sz = some sizeClass) : sizeClass < 0 := by
  have hclass : ∀ n < 8, size2Class n = 0 := by decide
  have hstart : kingsley.getSizeClass sz = 0 := congrArg Int.ofNat (hclass sz hsmall)
  rw [freeClass, hstart] at h
  obtain ⟨hle, hfits⟩ := kingsley.walkDown_some h
  have hne : sizeClass ≠ 0 := by
    rintro rfl
    exact Nat.not_lt.mpr hfits hsmall
  omega

theorem le_maxObjectSize {sz : Nat} (h : sz ≤ 2 ^ 31) : sz ≤ kingsley.maxObjectSize := by
  have hmax : 2 ^ 31 ≤ kingsley.maxObjectSize := by decide
  exact h.trans hmax

end SegHeapConfig

namespace StrictSegHeap

variable {cfg : SegHeapConfig} {s s' : StrictSegHeap}

/-- The request is for at most `2 ^ 31` bytes, and a freed object has at least eight. -/
def Fits (s : StrictSegHeap) : Action → Prop
  | .malloc sz _ => sz ≤ 2 ^ 31
  | .free ptr => 8 ≤ s.getSize ptr

/-- The objects have the sizes that some `malloc` asked for, and bins hold objects that are large enough. -/
structure Inv (s : StrictSegHeap) : Prop where
  objects : ∀ ptr ∈ s.objects, headerSize ≤ ptr ∧ s.getSize ptr ≤ 2 ^ 31
  live : ∀ ptr ∈ s.live, ptr ∈ s.objects
  bins : ∀ sizeClass, ∀ ptr ∈ s.myLittleHeap sizeClass,
    ptr ∈ s.objects ∧ class2Size sizeClass ≤ s.getSize ptr

theorem inv_initial : Inv initial := by
  refine ⟨?_, ?_, ?_⟩ <;> simp [initial]

theorem getSize_sizeMalloc_self (s : StrictSegHeap) (sz base : Nat) :
    (s.sizeMalloc sz base).getSize (base + headerSize) = sz := by
  rw [getSize, Nat.add_sub_cancel]
  exact Function.update_self _ _ _

theorem getSize_sizeMalloc {sz base ptr : Nat} (hptr : headerSize ≤ ptr) (hne : ptr ≠ base + headerSize) :
    (s.sizeMalloc sz base).getSize ptr = s.getSize ptr := by
  apply Function.update_of_ne
  intro hbase
  exact hne ((Nat.sub_eq_iff_eq_add hptr).mp hbase)

theorem Inv.sizeMalloc (h : Inv s) {sz base : Nat} (hsz : sz ≤ 2 ^ 31)
    (hfresh : base + headerSize ∉ s.objects) : Inv (s.sizeMalloc sz base) := by
  have hold {ptr : Addr} (hptr : ptr ∈ s.objects) : (s.sizeMalloc sz base).getSize ptr = s.getSize ptr := by
    apply getSize_sizeMalloc (h.objects ptr hptr).1
    rintro rfl
    exact hfresh hptr
  constructor
  · intro ptr hptr
    rcases List.mem_cons.mp hptr with rfl | hptr
    · exact ⟨Nat.le_add_left _ _, (getSize_sizeMalloc_self s sz base).trans_le hsz⟩
    · rw [hold hptr]
      exact h.objects ptr hptr
  · intro ptr hptr
    rcases List.mem_cons.mp hptr with rfl | hptr
    · exact List.mem_cons_self
    · exact List.mem_cons_of_mem _ (h.live ptr hptr)
  · intro sizeClass ptr hptr
    obtain ⟨hobject, hfits⟩ := h.bins sizeClass ptr hptr
    rw [hold hobject]
    exact ⟨List.mem_cons_of_mem _ hobject, hfits⟩

theorem Inv.takeFrom (h : Inv s) {sizeClass : Int} {ptr : Addr}
    (hn : s.takeFrom sizeClass ptr = some s') :
    Inv s' ∧ s'.getSize ptr = s.getSize ptr ∧ class2Size sizeClass ≤ s.getSize ptr := by
  rw [StrictSegHeap.takeFrom] at hn
  by_cases hmem : ptr ∈ s.myLittleHeap sizeClass
  · rw [if_pos hmem] at hn
    obtain rfl := Option.some.inj hn
    refine ⟨⟨h.objects, ?_, ?_⟩, rfl, (h.bins sizeClass ptr hmem).2⟩
    · intro p hp
      rcases List.mem_cons.mp hp with rfl | hp
      · exact (h.bins sizeClass p hmem).1
      · exact h.live p hp
    · intro c p hp
      by_cases hc : c = sizeClass
      · subst hc
        simp only [Function.update_self] at hp
        exact h.bins c p (List.mem_of_mem_erase hp)
      · simp only [Function.update_of_ne hc] at hp
        exact h.bins c p hp
  · rw [if_neg hmem] at hn
    cases hn

theorem Inv.free (h : Inv s) {ptr : Addr} (hlive : ptr ∈ s.live)
    (hn : s.free .kingsley ptr = some s') : Inv s' := by
  have hobject := h.live ptr hlive
  have hmax : ¬ SegHeapConfig.kingsley.maxObjectSize < s.getSize ptr :=
    Nat.not_lt.mpr (SegHeapConfig.le_maxObjectSize (h.objects ptr hobject).2)
  simp only [StrictSegHeap.free, if_neg hmax, Option.map_eq_some_iff] at hn
  obtain ⟨sizeClass, hclass, rfl⟩ := hn
  refine ⟨h.objects, fun p hp => h.live p (List.mem_of_mem_erase hp), ?_⟩
  intro c p hp
  by_cases hc : c = sizeClass
  · subst hc
    simp only [Function.update_self] at hp
    rcases List.mem_cons.mp hp with rfl | hp
    · exact ⟨hobject, (SegHeapConfig.kingsley.walkDown_some hclass).2⟩
    · exact h.bins c p hp
  · simp only [Function.update_of_ne hc] at hp
    exact h.bins c p hp

theorem Inv.malloc (h : Inv s) {sz : Nat} {source : Source} (hp : Proper .kingsley s (.malloc sz source))
    (hsz : sz ≤ 2 ^ 31) (hn : s.malloc .kingsley sz source = some s') :
    Inv s' ∧ ∀ ptr, (Action.malloc sz source).result = some ptr → sz ≤ s'.getSize ptr := by
  cases source with
  | bin ptr =>
    rw [StrictSegHeap.malloc, if_pos hp.2.1] at hn
    obtain ⟨hinv, hsame, hfits⟩ := h.takeFrom hn
    refine ⟨hinv, ?_⟩
    intro p hresult
    obtain rfl : ptr = p := Option.some.inj hresult
    rw [hsame]
    exact (le_class2Size hsz).trans hfits
  | top base =>
    obtain rfl := Option.some.inj hn
    refine ⟨h.sizeMalloc hsz (hp.2.2 base rfl), ?_⟩
    intro p hresult
    obtain rfl : base + headerSize = p := Option.some.inj hresult
    exact (getSize_sizeMalloc_self s sz base).ge
  | none =>
    obtain rfl := Option.some.inj hn
    exact ⟨h, fun p hresult => by cases hresult⟩

theorem Inv.step (h : Inv s) {a : Action} (hp : Proper .kingsley s a) (hf : Fits s a)
    (hn : s.next .kingsley a = some s') : Inv s' := by
  cases a with
  | malloc sz source => exact (h.malloc hp hf hn).1
  | free ptr => exact h.free hp hn

theorem Inv.inBins_iff (h : Inv s) {a : Action} (hp : Proper .kingsley s a) :
    InBins .kingsley s a ↔ Fits s a := by
  cases a with
  | malloc sz source =>
    have hlt : (size2Class sz : Int) < 29 ↔ size2Class sz < 29 := Int.ofNat_lt
    simp only [InBins, Fits, hp.2.1, true_implies, ← size2Class_lt_iff]
    refine ⟨fun hin => hlt.mp hin.2, fun hin => ⟨Int.natCast_nonneg _, hlt.mpr hin⟩⟩
  | free ptr =>
    have hsize := (h.objects ptr (h.live ptr hp)).2
    simp only [InBins, Fits, SegHeapConfig.le_maxObjectSize hsize, true_implies]
    constructor
    · rintro ⟨sizeClass, hclass, hpos, -⟩
      by_contra hsmall
      have hneg := SegHeapConfig.freeClass_neg (Nat.lt_of_not_le hsmall) hclass
      omega
    · intro hlow
      exact SegHeapConfig.freeClass_of_le hlow hsize

section Runs

variable (e : Execution (next .kingsley) (Proper .kingsley) initial)

theorem inv_of_fits {k : Nat} (hk : k ≤ e.length) (hf : ∀ j < k, Fits (e.state j) (e.action j)) :
    Inv (e.state k) := by
  induction k with
  | zero =>
    rw [e.initial]
    exact inv_initial
  | succ k ih =>
    have hinv := ih (by omega) fun j hj => hf j (by omega)
    exact hinv.step (e.guarded k hk) (hf k (Nat.lt_succ_self k)) (e.step k hk)

/-- A run of the Kingsley heap stays in its bins and serves objects that are large enough exactly if it
asks for at most `2 ^ 31` bytes at a time and frees objects of at least eight bytes. -/
theorem staysInBins_iff : StaysInBins .kingsley e ↔ ∀ k < e.length, Fits (e.state k) (e.action k) := by
  constructor
  · intro h k
    induction k using Nat.strong_induction_on with
    | _ k ih =>
      intro hk
      have hinv := inv_of_fits e hk.le fun j hj => ih j hj (by omega)
      exact (hinv.inBins_iff (e.guarded k hk)).mp (h.inBins k hk)
  · intro hf
    have hinv {k : Nat} (hk : k ≤ e.length) : Inv (e.state k) :=
      inv_of_fits e hk fun j hj => hf j (by omega)
    constructor
    · intro k hk
      exact ((hinv hk.le).inBins_iff (e.guarded k hk)).mpr (hf k hk)
    · intro k hk sizeClass ptr hptr
      exact ((hinv hk).bins sizeClass ptr hptr).2
    · intro k hk sz source ptr hact hresult
      have hp := e.guarded k hk
      have hsz := hf k hk
      have hn := e.step k hk
      rw [hact] at hp hsz hn hresult
      exact ((hinv hk.le).malloc hp hsz hn).2 ptr hresult

end Runs

def oneByte : List Action := [.malloc 1 (.top 4096), .free 4104]

private theorem guarded_oneByte : Guarded (next .kingsley) (Proper .kingsley) initial oneByte := by
  refine ⟨⟨by decide, by decide, fun _ _ => List.not_mem_nil⟩, ?_⟩
  intro t ht
  obtain rfl := Option.some.inj ht
  exact ⟨List.mem_singleton_self _, fun _ _ => trivial⟩

def oneByteExecution : Execution (next .kingsley) (Proper .kingsley) initial :=
  .ofRun oneByte (by decide) guarded_oneByte

/-- The walk ends at class -3. -/
theorem not_staysInBins_oneByte : ¬ StaysInBins .kingsley oneByteExecution := by
  intro h
  obtain ⟨sizeClass, hclass, hpos, -⟩ := h.inBins 1 (by decide) (by decide)
  have hsize : (oneByteExecution.state 1).getSize 4104 < 8 := by decide
  have hneg := SegHeapConfig.freeClass_neg hsize hclass
  omega

end StrictSegHeap

end DieHard
