import DieHard.Lib.Runs
import DieHard.Lib.Transition
import DieHard.Math.Log2
import DieHard.Util.BitMap
import DieHard.Util.Size

/-!
# Randomly placed mappings

`RandomMmap` reserves one region of pages and hands out runs of them at random places, with one bit for
each page. A probe that meets a page that is taken clears what it has set and tries another place.
-/

namespace DieHard

open Transition

/-- The region that the constructor maps, and the pages that it consists of. -/
structure MmapRegion where
  pageSize : Nat
  pages : Nat
  pageSize_powerOfTwo : pageSize.isPowerOfTwo
  /-- `BITS` is not negative. -/
  pageSize_le : pageSize ≤ 2 ^ 31
  /-- The mapping begins at a page. -/
  pages_aligned : pages % pageSize = 0
  pages_fit : pages + 2 ^ 31 ≤ 2 ^ 64

namespace MmapRegion

variable (R : MmapRegion)

/-- `BITS`. -/
def bits : Nat := 31 - staticlog R.pageSize

/-- `PAGES`. -/
def pageCount : Nat := 1 <<< R.bits

/-- The number of pages required, with `size_t` arithmetic. -/
def npages (sz : Nat) : Nat := (sz + R.pageSize - 1) % sizeRange / R.pageSize

/-- Reset `n` bits from `index` on. -/
def resetRun (index : Nat) : Nat → BitMap → BitMap
  | 0, b => b
  | j + 1, b => ((resetRun index j b).reset (index + j)).1

/-- Try to set the bits from `index + i` on, of which `left` are left. On failure all the bits up to `i`
are reset. -/
def trySetRun (index : Nat) : (left i : Nat) → BitMap → BitMap × Bool
  | 0, _, b => (b, true)
  | left + 1, i, b =>
    let r := b.tryToSet (index + i)
    if r.2 then trySetRun index left (i + 1) r.1 else (resetRun index i r.1, false)

/-- "Randomly probe until we find a run of free pages", one word of the generator for each probe. -/
def search (npages : Nat) : List (BitVec 64) → BitMap → Option (Nat × BitMap)
  | [], _ => none
  | random :: randoms, b =>
    let index := random.toNat % sizeSucc (sizeSub R.pageCount npages)
    let r := trySetRun index npages 0 b
    if r.2 then some (index, r.1) else search npages randoms r.1

/-- `map`, unless its probes use up the words. -/
def map (sz : Nat) (randoms : List (BitVec 64)) (b : BitMap) : Option (Nat × BitMap) := do
  let (index, b') ← R.search (R.npages sz) randoms b
  return (R.pages + index * R.pageSize, b')

def normalize (ptr : Nat) : Nat :=
  (BitVec.ofNat 64 ptr &&& ~~~ (BitVec.ofNat 64 R.pageSize - 1)).toNat

/-- `unmap`, whose number of pages is an `unsigned int`. -/
def unmap (ptr : Nat) (sz : Nat) (b : BitMap) : BitMap :=
  resetRun (sizeSub (R.normalize ptr) R.pages / R.pageSize) (R.npages sz % 2 ^ 32) b

theorem isSet_resetRun (index n : Nat) (b : BitMap) (j : Nat) :
    (resetRun index n b).isSet j = (b.isSet j && !decide (index ≤ j ∧ j < index + n)) := by
  induction n with
  | zero =>
    have hempty : ¬ (index ≤ j ∧ j < index + 0) := by omega
    rw [resetRun, decide_eq_false hempty, Bool.not_false, Bool.and_true]
  | succ n ih =>
    rw [resetRun, BitMap.isSet_reset, ih, Bool.and_assoc]
    congr 1
    rw [Bool.eq_iff_iff]
    simp only [Bool.and_eq_true, Bool.not_eq_true', decide_eq_false_iff_not, decide_eq_true_eq]
    omega

/-- The bits that a loop has set before its turn `i` were clear. -/
structure Claimed (b₀ b : BitMap) (index i : Nat) : Prop where
  clear : ∀ j, index ≤ j ∧ j < index + i → b₀.isSet j = false
  isSet : ∀ j, b.isSet j = (b₀.isSet j || decide (index ≤ j ∧ j < index + i))

theorem claimed_zero (b : BitMap) (index : Nat) : Claimed b b index 0 := by
  constructor
  · intro j hj
    omega
  · intro j
    simp

variable {b₀ b : BitMap} {index i left n : Nat}

theorem Claimed.succ (h : Claimed b₀ b index i) (hset : (b.tryToSet (index + i)).2 = true) :
    Claimed b₀ (b.tryToSet (index + i)).1 index (i + 1) := by
  have hclear : b.isSet (index + i) = false := by simpa [BitMap.tryToSet_snd] using hset
  have hclear₀ : b₀.isSet (index + i) = false := by
    rw [h.isSet, Bool.or_eq_false_iff] at hclear
    exact hclear.1
  constructor
  · intro j hj
    rcases Nat.lt_or_ge j (index + i) with hlt | hge
    · exact h.clear j ⟨hj.1, hlt⟩
    · obtain rfl : j = index + i := by omega
      exact hclear₀
  · intro j
    rw [BitMap.isSet_tryToSet, h.isSet, Bool.or_assoc]
    congr 1
    rw [Bool.eq_iff_iff]
    simp only [Bool.or_eq_true, decide_eq_true_eq]
    omega

theorem Claimed.restore (h : Claimed b₀ b index i) (hset : (b.tryToSet (index + i)).2 = false) (j : Nat) :
    (resetRun index i (b.tryToSet (index + i)).1).isSet j = b₀.isSet j := by
  have hset : b.isSet (index + i) = true := by simpa [BitMap.tryToSet_snd] using hset
  rw [isSet_resetRun, BitMap.isSet_tryToSet]
  by_cases hj : j = index + i
  · have hpast : ¬ (index ≤ j ∧ j < index + i) := by omega
    have hset₀ := h.isSet j
    rw [hj, hset, ← hj] at hset₀
    simpa [hpast, hj] using hset₀
  · by_cases hrun : index ≤ j ∧ j < index + i
    · simp [hrun, h.clear j hrun]
    · simp [hrun, hj, h.isSet j]

theorem Claimed.trySetRun (h : Claimed b₀ b index i) :
    ((trySetRun index left i b).2 = true → Claimed b₀ (trySetRun index left i b).1 index (i + left)) ∧
    ((MmapRegion.trySetRun index left i b).2 = false →
      ∀ j, (MmapRegion.trySetRun index left i b).1.isSet j = b₀.isSet j) := by
  induction left generalizing i b with
  | zero =>
    constructor
    · intro _
      exact h
    · intro hfalse
      contradiction
  | succ left ih =>
    rw [MmapRegion.trySetRun]
    cases hset : (b.tryToSet (index + i)).2 with
    | true =>
      have hrest := ih (h.succ hset)
      rw [show i + 1 + left = i + (left + 1) by omega] at hrest
      simpa [hset] using hrest
    | false =>
      simp only [Bool.false_eq_true, if_false, false_implies, true_and]
      intro _
      exact h.restore hset

theorem isSet_trySetRun_failed (h : (trySetRun index n 0 b).2 = false) (j : Nat) :
    (trySetRun index n 0 b).1.isSet j = b.isSet j :=
  (claimed_zero b index).trySetRun.2 h j

variable {R} {randoms : List (BitVec 64)}

theorem pageCount_eq (R : MmapRegion) : R.pageCount = 2 ^ R.bits := by
  rw [pageCount, Nat.one_shiftLeft]

theorem pageCount_mul (R : MmapRegion) : R.pageCount * R.pageSize = 2 ^ 31 := by
  obtain ⟨k, hk⟩ := R.pageSize_powerOfTwo
  have hle : k ≤ 31 := (Nat.pow_le_pow_iff_right (by decide)).mp (hk ▸ R.pageSize_le)
  rw [pageCount_eq, bits, hk, staticlog_two_pow, ← Nat.pow_add, Nat.sub_add_cancel hle]

theorem pageSize_pos (R : MmapRegion) : 0 < R.pageSize := by
  obtain ⟨k, hk⟩ := R.pageSize_powerOfTwo
  rw [hk]
  exact Nat.two_pow_pos k

theorem pageCount_le (R : MmapRegion) : R.pageCount ≤ 2 ^ 31 := by
  rw [← R.pageCount_mul]
  exact Nat.le_mul_of_pos_right _ R.pageSize_pos

/-- A search that ends has found a run of clear bits inside the bitmap. -/
theorem search_spec {b' : BitMap} (hn : n ≤ R.pageCount)
    (h : R.search n randoms b = some (index, b')) :
    index + n ≤ R.pageCount ∧ Claimed b b' index n := by
  induction randoms generalizing b with
  | nil => contradiction
  | cons random randoms ih =>
    have hcount := R.pageCount_le
    have hmod : sizeSucc (sizeSub R.pageCount n) = R.pageCount - n + 1 := by
      rw [sizeSub_of_le hn (by rw [sizeRange]; omega), sizeSucc_of_lt (by rw [sizeRange]; omega)]
    have hindex : random.toNat % (R.pageCount - n + 1) < R.pageCount - n + 1 :=
      Nat.mod_lt _ (Nat.succ_pos _)
    simp only [search, hmod] at h
    split at h
    case isTrue hset =>
      cases h
      have hclaimed := (claimed_zero b _).trySetRun.1 hset
      rw [Nat.zero_add] at hclaimed
      exact ⟨by omega, hclaimed⟩
    case isFalse hset =>
      have hsame := isSet_trySetRun_failed (Bool.not_eq_true _ ▸ hset)
      obtain ⟨hle, hclaimed⟩ := ih h
      refine ⟨hle, ?_, ?_⟩
      · intro j hj
        rw [← hsame]
        exact hclaimed.clear j hj
      · intro j
        rw [← hsame]
        exact hclaimed.isSet j

theorem normalize_of_aligned {ptr : Nat} (hptr : ptr < 2 ^ 64) (h : ptr % R.pageSize = 0) :
    R.normalize ptr = ptr := by
  obtain ⟨k, hk⟩ := R.pageSize_powerOfTwo
  rw [hk] at h
  obtain ⟨i, rfl⟩ := Nat.dvd_of_mod_eq_zero h
  rw [normalize, hk, Nat.mul_comm, and_not_two_pow_sub_one (by decide), BitVec.toNat_ofNat,
    Nat.mod_eq_of_lt (Nat.mul_comm i _ ▸ hptr)]

end MmapRegion

structure Mapping where
  ptr : Nat
  sz : Nat
  deriving DecidableEq

structure RandomMmap where
  bitmap : BitMap
  live : List Mapping

inductive MmapAction
  | map (sz : Nat) (randoms : List (BitVec 64))
  | unmap (ptr : Nat) (sz : Nat)

namespace RandomMmap

variable (R : MmapRegion)

def new : RandomMmap := ⟨.reserve R.pageCount, []⟩

def next (s : RandomMmap) : MmapAction → Option RandomMmap
  | .map sz randoms =>
    (R.map sz randoms s.bitmap).map fun r => ⟨r.2, ⟨r.1, sz⟩ :: s.live⟩
  | .unmap ptr sz => some ⟨R.unmap ptr sz s.bitmap, s.live.erase ⟨ptr, sz⟩⟩

/-- The pages that `sz` bytes need. -/
def pagesOf (sz : Nat) : Nat := (sz + R.pageSize - 1) / R.pageSize

/-- A request needs one page at least and no more than there are; what is unmapped is a live mapping with
its size. -/
def ok (s : RandomMmap) : MmapAction → Prop
  | .map sz _ => 1 ≤ pagesOf R sz ∧ pagesOf R sz ≤ R.pageCount
  | .unmap ptr sz => ⟨ptr, sz⟩ ∈ s.live

def bytes (m : Mapping) : Nat := pagesOf R m.sz * R.pageSize

/-- The live mappings lie in the region and apart, and the set bits are their pages. -/
structure Disjoint (s : RandomMmap) : Prop where
  inside : ∀ m ∈ s.live,
    R.pages ≤ m.ptr ∧ m.ptr + bytes R m ≤ R.pages + R.pageCount * R.pageSize
  apart : s.live.Pairwise fun m m' => Blocks.Apart m.ptr (bytes R m) m'.ptr (bytes R m')
  bits : ∀ i, s.bitmap.isSet i = true ↔ ∃ m ∈ s.live,
    m.ptr ≤ R.pages + i * R.pageSize ∧ R.pages + i * R.pageSize < m.ptr + bytes R m

def start (m : Mapping) : Nat := (m.ptr - R.pages) / R.pageSize

def len (m : Mapping) : Nat := pagesOf R m.sz

structure Inv (s : RandomMmap) : Prop where
  placed : ∀ m ∈ s.live,
    m.ptr = R.pages + start R m * R.pageSize ∧ start R m + len R m ≤ R.pageCount
  packed : Runs.Packed (start R) (len R) s.live
  bits : ∀ i, s.bitmap.isSet i = true ↔ Runs.Covers (start R) (len R) s.live i

variable {R} {s s' : RandomMmap} {sz : Nat}

theorem inv_new : Inv R (new R) where
  placed m hm := by simp [new] at hm
  packed := Runs.packed_nil
  bits i := by simp [new, Runs.Covers]

theorem npages_eq (hsz : pagesOf R sz ≤ R.pageCount) : R.npages sz = pagesOf R sz := by
  have hle : (sz + R.pageSize - 1) / R.pageSize ≤ R.pageCount := hsz
  have hlt : sz + R.pageSize - 1 < (R.pageCount + 1) * R.pageSize :=
    Nat.lt_mul_of_div_lt (Nat.lt_succ_of_le hle) R.pageSize_pos
  rw [Nat.succ_mul, R.pageCount_mul] at hlt
  have hpage := R.pageSize_le
  rw [MmapRegion.npages, Nat.mod_eq_of_lt (by rw [sizeRange]; omega), pagesOf]

theorem start_add (index sz : Nat) : start R ⟨R.pages + index * R.pageSize, sz⟩ = index := by
  rw [start, Nat.add_sub_cancel_left, Nat.mul_div_cancel _ R.pageSize_pos]

theorem Inv.map (h : Inv R s) {randoms : List (BitVec 64)} {index : Nat} {b : BitMap}
    (hpos : 1 ≤ pagesOf R sz) (hle : pagesOf R sz ≤ R.pageCount)
    (hmap : R.search (R.npages sz) randoms s.bitmap = some (index, b)) :
    Inv R ⟨b, ⟨R.pages + index * R.pageSize, sz⟩ :: s.live⟩ := by
  rw [npages_eq hle] at hmap
  obtain ⟨hin, hclaimed⟩ := R.search_spec hle hmap
  have hlen : 0 < len R ⟨R.pages + index * R.pageSize, sz⟩ := hpos
  have hrun (i : Nat) : Runs.InRun (start R) (len R) ⟨R.pages + index * R.pageSize, sz⟩ i ↔
      index ≤ i ∧ i < index + pagesOf R sz := by
    rw [Runs.InRun, start_add]
    rfl
  constructor
  · intro m hm
    cases hm with
    | head =>
      rw [start_add]
      exact ⟨rfl, hin⟩
    | tail _ hm => exact h.placed m hm
  · apply h.packed.cons hlen
    intro i hi hcovers
    have hset := (h.bits i).mpr hcovers
    rw [hclaimed.clear i ((hrun i).mp hi)] at hset
    contradiction
  · intro i
    rw [Runs.covers_cons, hrun, ← h.bits, hclaimed.isSet, Bool.or_eq_true, decide_eq_true_eq]
    exact Or.comm

theorem Inv.unmap_eq (h : Inv R s) {m : Mapping} (hm : m ∈ s.live) (b : BitMap) :
    R.unmap m.ptr m.sz b = MmapRegion.resetRun (start R m) (len R m) b := by
  obtain ⟨hptr, hin⟩ := h.placed m hm
  have hlen := h.packed.pos m hm
  have hsize := R.pageCount_mul
  have hcount := R.pageCount_le
  have hfit := R.pages_fit
  have hlast : start R m * R.pageSize < R.pageCount * R.pageSize :=
    Nat.mul_lt_mul_of_pos_right (by omega) R.pageSize_pos
  have hlt : m.ptr < 2 ^ 64 := by omega
  have haligned : m.ptr % R.pageSize = 0 := by
    rw [hptr, Nat.add_mul_mod_self_right, R.pages_aligned]
  rw [MmapRegion.unmap, R.normalize_of_aligned hlt haligned, sizeSub_of_le (by omega) hlt,
    npages_eq (by simp only [len] at hin; omega), Nat.mod_eq_of_lt (by simp only [len] at hin; omega)]
  rfl

theorem Inv.unmap (h : Inv R s) {m : Mapping} (hm : m ∈ s.live) :
    Inv R ⟨R.unmap m.ptr m.sz s.bitmap, s.live.erase m⟩ := by
  constructor
  · intro m' hm'
    exact h.placed m' (List.mem_of_mem_erase hm')
  · exact h.packed.erase m
  · intro i
    rw [h.packed.covers_erase hm, h.unmap_eq hm, MmapRegion.isSet_resetRun, ← h.bits, Bool.and_eq_true,
      Bool.not_eq_true', decide_eq_false_iff_not]
    rfl

theorem Inv.next {a : MmapAction} (h : Inv R s) (hok : ok R s a) (hs : next R s a = some s') :
    Inv R s' := by
  cases a with
  | map sz randoms =>
    simp only [RandomMmap.next, Option.map_eq_some_iff] at hs
    obtain ⟨r, hr, rfl⟩ := hs
    simp only [MmapRegion.map, Option.bind_eq_bind, Option.bind_eq_some_iff] at hr
    obtain ⟨found, hfound, hr⟩ := hr
    cases hr
    exact h.map hok.1 hok.2 hfound
  | unmap ptr sz =>
    cases hs
    exact h.unmap (m := ⟨ptr, sz⟩) hok

theorem Inv.disjoint (h : Inv R s) : Disjoint R s := by
  have hpos := R.pageSize_pos
  have hbytes (m : Mapping) : bytes R m = len R m * R.pageSize := rfl
  refine ⟨?_, ?_, ?_⟩
  · intro m hm
    obtain ⟨hptr, hin⟩ := h.placed m hm
    have hmul := Nat.mul_le_mul_right R.pageSize hin
    rw [Nat.add_mul] at hmul
    rw [hbytes]
    omega
  · apply List.Pairwise.imp_of_mem _ h.packed.apart
    intro m m' hm hm' hapart
    obtain ⟨hptr, -⟩ := h.placed m hm
    obtain ⟨hptr', -⟩ := h.placed m' hm'
    rw [hbytes, hbytes, Blocks.Apart, hptr, hptr']
    rcases hapart with hle | hle
    · have hmul := Nat.mul_le_mul_right R.pageSize hle
      rw [Nat.add_mul] at hmul
      omega
    · have hmul := Nat.mul_le_mul_right R.pageSize hle
      rw [Nat.add_mul] at hmul
      omega
  · intro i
    rw [h.bits]
    constructor
    · intro hi
      obtain ⟨m, hm, hlo, hhi⟩ := hi
      obtain ⟨hptr, -⟩ := h.placed m hm
      have hmul := Nat.mul_le_mul_right R.pageSize hlo
      have hmul' := (Nat.mul_lt_mul_right hpos).mpr hhi
      rw [Nat.add_mul] at hmul'
      refine ⟨m, hm, ?_⟩
      rw [hbytes]
      omega
    · intro hi
      obtain ⟨m, hm, hlo, hhi⟩ := hi
      obtain ⟨hptr, -⟩ := h.placed m hm
      rw [hptr] at hlo hhi
      rw [hbytes, Nat.add_assoc, ← Nat.add_mul] at hhi
      exact ⟨m, hm, Nat.le_of_mul_le_mul_right (Nat.le_of_add_le_add_left hlo) hpos,
        Nat.lt_of_mul_lt_mul_right (Nat.lt_of_add_lt_add_left hhi)⟩

/-- In every state that calls reach, the live mappings are apart, and the set bits are their pages; every
probe that is abandoned there leaves the bits as they are. -/
theorem reach_disjoint (h : Reach (next R) (ok R) (new R) s) : Disjoint R s ∧
    ∀ index n, (MmapRegion.trySetRun index n 0 s.bitmap).2 = false →
      ∀ i, (MmapRegion.trySetRun index n 0 s.bitmap).1.isSet i = s.bitmap.isSet i := by
  constructor
  · exact (h.invariant inv_new fun _ _ _ hinv hok hs => hinv.next hok hs).disjoint
  · intro index n hfailed
    exact MmapRegion.isSet_trySetRun_failed hfailed

/-- The region at 2 ^ 32 in pages of 4096 bytes. -/
def region : MmapRegion where
  pageSize := 4096
  pages := 4294967296
  pageSize_powerOfTwo := isPowerOfTwo_4096
  pageSize_le := by decide
  pages_aligned := by decide
  pages_fit := by decide

instance (s : RandomMmap) : (a : MmapAction) → Decidable (ok R s a)
  | .map _ _ => inferInstanceAs (Decidable (_ ∧ _))
  | .unmap _ _ => inferInstanceAs (Decidable (_ ∈ _))

/-- The second request meets the first twice, at its last page and at its first one, and the third comes
after the first has been unmapped. -/
def threeMappings : List MmapAction :=
  [.map 8193 [10], .map 5000 [9, 12, 20], .unmap 4295008256 8193, .map 4096 [11]]

private theorem reach_threeMappings : Reach (next region) (ok region) (new region)
    (final (next region) (new region) threeMappings) :=
  reach_final (guarded_of_bool (by decide)) (by decide)

theorem disjoint_threeMappings :
    Disjoint region (final (next region) (new region) threeMappings) ∧
    (final (next region) (new region) threeMappings).live =
      [⟨4295012352, 4096⟩, ⟨4295049216, 5000⟩] :=
  ⟨(reach_disjoint reach_threeMappings).1, by decide⟩

end RandomMmap

end DieHard
