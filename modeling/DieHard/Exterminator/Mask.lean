import DieHard.Exterminator.PartitionBounds

/-!
# Corruption masks

A mask has a bit for each byte of an object, for the bytes in which a replica differs from the sentinel or
from the other replicas. The loops over the bytes of a word shift by `sizeof(unsigned long)` bits, which
are four, and look at eight bits each time.
-/

namespace DieHard.Exterminator

/-- `sizeof(unsigned long)` -/
def sizeofLong : Nat := 4

/-- The loop over the bytes of word `i`, of which `left` are left, from byte `j` on. -/
def markBytes (i : Nat) : (left j : Nat) → Word → List Bool → List Bool
  | 0, _, _, mask => mask
  | left + 1, j, bitmask, mask =>
    markBytes i left (j + 1) (bitmask >>> sizeofLong)
      (if bitmask &&& 0xff ≠ 0 then mask.set (4 * i + j) true else mask)

/-- The loop of `create_mask_sentinel` over the first `n` words. -/
def maskSentinel (p : PinfoPtr) (dx : Nat) : Nat → List Bool
  | 0 => List.replicate p.info.size.toNat false
  | n + 1 =>
    if p.isSentinel (p.dxToPointer dx n) then maskSentinel p dx n
    else markBytes n sizeofLong 0 (p.load (p.dxToPointer dx n) ^^^ p.rep.file.sentinelValue)
      (maskSentinel p dx n)

/-- `create_mask_sentinel(p, dx)` -/
def createMaskSentinel (p : PinfoPtr) (dx : Nat) : List Bool :=
  maskSentinel p dx p.info.sizeInWords.toNat

/-- The loop of `create_mask` over the good replicas, for word `i`, which is at `verr`. -/
def maskGood (perr : PinfoPtr) (verr : Nat) (oid : Word) (i : Nat) :
    List PinfoPtr → List Bool → Option (List Bool)
  | [], mask => some mask
  | good :: pgroup, mask => do
    let dx ← good.pmap oid
    let vgood := good.dxToPointer dx i
    let allocated ← perr.idAllocated oid
    let status ← compareWords perr good verr vgood allocated
    maskGood perr verr oid i pgroup
      (if status ≠ statusOk then markBytes i sizeofLong 0 (perr.load verr ^^^ good.load vgood) mask
      else mask)

/-- The loop of `create_mask` over the first `n` words. -/
def maskWords (perr : PinfoPtr) (pgroup : List PinfoPtr) (oid : Word) : Nat → Option (List Bool)
  | 0 => some (List.replicate perr.info.size.toNat false)
  | n + 1 => do
    let mask ← maskWords perr pgroup oid n
    let dxErr ← perr.pmap oid
    maskGood perr (perr.dxToPointer dxErr n) oid n pgroup mask

/-- `create_mask(perr, pgroup, oid)`. There is no answer where a replica has lost the object, and where
`compare_words` has none. -/
def createMask (perr : PinfoPtr) (pgroup : List PinfoPtr) (oid : Word) : Option (List Bool) :=
  maskWords perr pgroup oid perr.info.sizeInWords.toNat

namespace PinfoPtr

def slot (p : PinfoPtr) (oid : Word) : Nat := (p.pmap oid).getD 0

/-- Word `i` of an object. -/
def objectWord (p : PinfoPtr) (oid : Word) (i : Nat) : Word := p.load (p.dxToPointer (p.slot oid) i)

end PinfoPtr

/-- What `compare_words` says to word `i` of an object in two replicas. -/
def compareAt (perr good : PinfoPtr) (oid : Word) (i : Nat) : Option Nat :=
  compareWords perr good (perr.dxToPointer (perr.slot oid) i) (good.dxToPointer (good.slot oid) i)
    (perr.info.dxAllocated (perr.slot oid))

/-- Word `i` of an object can be compared: the good replica has it, and no assertion fails. -/
def Comparable (perr good : PinfoPtr) (oid : Word) (i : Nat) : Prop :=
  (good.pmap oid).isSome ∧ (perr.idAllocated oid).isSome ∧
    Answered perr good (perr.dxToPointer (perr.slot oid) i) (good.dxToPointer (good.slot oid) i)
      (perr.info.dxAllocated (perr.slot oid))

instance (perr good : PinfoPtr) (oid : Word) (i : Nat) : Decidable (Comparable perr good oid i) :=
  inferInstanceAs (Decidable (_ ∧ _ ∧ _))

def SentinelMaskExact (p : PinfoPtr) (dx : Nat) (mask : List Bool) : Prop :=
  ∀ i < p.info.sizeInWords.toNat, ∀ j < sizeofLong, mask.getD (4 * i + j) false = true ↔
    byteAt (p.load (p.dxToPointer dx i)) j ≠ byteAt p.rep.file.sentinelValue j

/-- The mask has the bytes in which a word differs from one that `compare_words` does not accept. -/
def MaskExact (perr : PinfoPtr) (pgroup : List PinfoPtr) (oid : Word) (mask : List Bool) : Prop :=
  ∀ i < perr.info.sizeInWords.toNat, ∀ k < sizeofLong, mask.getD (4 * i + k) false = true ↔
    ∃ good ∈ pgroup, compareAt perr good oid i ≠ some statusOk ∧
      byteAt (perr.objectWord oid i) k ≠ byteAt (good.objectWord oid i) k

/-- The bits in which word `i` differs from one of those that `compare_words` does not accept. -/
def damage (perr : PinfoPtr) (pgroup : List PinfoPtr) (oid : Word) (i : Nat) : Word :=
  pgroup.foldr (fun good x => if compareAt perr good oid i = some statusOk then x
    else (perr.objectWord oid i ^^^ good.objectWord oid i) ||| x) 0

/-- The eight bits of `x` from bit `b` on. -/
def window (b : Nat) (x : Word) : Word := (x >>> b) &&& 0xff

/-- Only the lowest four bits differ; or bytes 1 and 2 do and bits 4 to 11, and byte 3 does where bits 12 to
19 do. -/
def BytesShown (x : Word) : Prop :=
  x < 16 ∨ window 4 x ≠ 0 ∧ window 8 x ≠ 0 ∧ window 16 x ≠ 0 ∧ (window 24 x ≠ 0 ↔ window 12 x ≠ 0)

instance (x : Word) : Decidable (BytesShown x) :=
  inferInstanceAs (Decidable (_ ∨ _ ∧ _ ∧ _ ∧ (_ ↔ _)))

section Windows

variable {x y w w' : Word} {b k : Nat}

theorem window_eq_zero_iff : window b x = 0 ↔ x.toNat / 2 ^ b % 256 = 0 := by
  have htoNat : (window b x).toNat = x.toNat / 2 ^ b % 256 := by
    rw [window, BitVec.toNat_and, BitVec.toNat_ushiftRight, Nat.shiftRight_eq_div_pow]
    exact Nat.and_two_pow_sub_one_eq_mod _ 8
  rw [← htoNat]
  exact BitVec.toNat_inj.symm

theorem window_zero (b : Nat) : window b 0 = 0 := window_eq_zero_iff.mpr (by simp)

theorem window_or_ne_zero : window b (x ||| y) ≠ 0 ↔ window b x ≠ 0 ∨ window b y ≠ 0 := by
  have hor : window b (x ||| y) = window b x ||| window b y := by
    rw [window, window, window, BitVec.ushiftRight_or_distrib]
    exact BitVec.and_or_distrib_right
  rw [hor, ← not_and_or, not_iff_not]
  exact BitVec.or_eq_zero_iff

theorem window_eight (x : Word) (k : Nat) : window (8 * k) x = 0 ↔ byteAt x k = 0 := by
  rw [window_eq_zero_iff, ← BitVec.toNat_inj, byteAt, BitVec.extractLsb'_toNat, Nat.shiftRight_eq_div_pow]
  rfl

theorem byteAt_ne_iff : byteAt w k ≠ byteAt w' k ↔ window (8 * k) (w ^^^ w') ≠ 0 := by
  rw [not_iff_not, window_eight]
  have hxor : byteAt (w ^^^ w') k = byteAt w k ^^^ byteAt w' k := BitVec.extractLsb'_xor
  rw [hxor]
  exact BitVec.xor_eq_zero_iff.symm

/-- The four windows of the loop show the four bytes. -/
theorem bytesShown_iff :
    (∀ k < sizeofLong, window (4 * k) x ≠ 0 ↔ window (8 * k) x ≠ 0) ↔ BytesShown x := by
  have hall : (∀ k < sizeofLong, window (4 * k) x ≠ 0 ↔ window (8 * k) x ≠ 0) ↔
      (window 4 x ≠ 0 ↔ window 8 x ≠ 0) ∧ (window 8 x ≠ 0 ↔ window 16 x ≠ 0) ∧
        (window 12 x ≠ 0 ↔ window 24 x ≠ 0) := by
    constructor
    · intro h
      exact ⟨h 1 (by decide), h 2 (by decide), h 3 (by decide)⟩
    · rintro ⟨h1, h2, h3⟩ k hk
      match k, hk with
      | 0, _ => exact Iff.rfl
      | 1, _ => exact h1
      | 2, _ => exact h2
      | 3, _ => exact h3
  have hlow : x < 16 ↔ x.toNat < 16 := BitVec.lt_def
  have hlt := x.isLt
  rw [hall, BytesShown, hlow]
  simp only [ne_eq, window_eq_zero_iff]
  generalize x.toNat = n at hlt ⊢
  -- two neighbouring nibbles make a window
  have h4 : n / 2 ^ 4 % 256 = n / 16 % 16 + 16 * (n / 256 % 16) := by omega
  have h8 : n / 2 ^ 8 % 256 = n / 256 % 16 + 16 * (n / 4096 % 16) := by omega
  have h12 : n / 2 ^ 12 % 256 = n / 4096 % 16 + 16 * (n / 65536 % 16) := by omega
  have h16 : n / 2 ^ 16 % 256 = n / 65536 % 16 + 16 * (n / 1048576 % 16) := by omega
  have h24 : n / 2 ^ 24 % 256 = n / 16777216 % 16 + 16 * (n / 268435456 % 16) := by omega
  have hsum : n < 16 ↔ n / 16 % 16 = 0 ∧ n / 256 % 16 = 0 ∧ n / 4096 % 16 = 0 ∧ n / 65536 % 16 = 0 ∧
      n / 1048576 % 16 = 0 ∧ n / 16777216 % 16 = 0 ∧ n / 268435456 % 16 = 0 := by omega
  rw [h4, h8, h12, h16, h24, hsum]
  generalize n / 16 % 16 = n1, n / 256 % 16 = n2, n / 4096 % 16 = n3, n / 65536 % 16 = n4,
    n / 1048576 % 16 = n5, n / 16777216 % 16 = n6, n / 268435456 % 16 = n7
  omega

end Windows

section Loops

variable {mask mask' : List Bool} {i j k left n : Nat} {x : Word}

theorem length_markBytes : (markBytes i left j x mask).length = mask.length := by
  induction left generalizing j x mask with
  | zero => rfl
  | succ left ih =>
    rw [markBytes, ih]
    split
    · exact List.length_set
    · rfl

theorem getD_set_true {a : Nat} (hk : k < mask.length) :
    (mask.set a true).getD k false = true ↔ mask.getD k false = true ∨ k = a := by
  rw [List.getD_eq_getElem?_getD, List.getD_eq_getElem?_getD, List.getElem?_set]
  by_cases ha : a = k
  · simp [ha, hk]
  · simp [ha, Ne.symm ha]

/-- The turns that are left mark the bytes whose windows are not zero. -/
theorem getD_markBytes (hk : k < mask.length) : (markBytes i left j x mask).getD k false = true ↔
    mask.getD k false = true ∨ ∃ d < left, k = 4 * i + (j + d) ∧ window (4 * d) x ≠ 0 := by
  induction left generalizing j x mask with
  | zero => simp [markBytes]
  | succ left ih =>
    have hshift (d : Nat) : window (4 * d) (x >>> sizeofLong) = window (4 * (d + 1)) x := by
      rw [window, window, sizeofLong, ← BitVec.shiftRight_add, Nat.mul_succ, Nat.add_comm]
    have hfirst : x &&& 0xff ≠ 0 ↔ window (4 * 0) x ≠ 0 := by
      rw [window, Nat.mul_zero, BitVec.ushiftRight_zero]
    have hrest : (∃ d < left, k = 4 * i + (j + 1 + d) ∧ window (4 * d) (x >>> sizeofLong) ≠ 0) ↔
        ∃ d < left, k = 4 * i + (j + (d + 1)) ∧ window (4 * (d + 1)) x ≠ 0 := by
      simp only [hshift, Nat.add_assoc, Nat.add_comm 1]
    have hset : (if x &&& 0xff ≠ 0 then mask.set (4 * i + j) true else mask).getD k false = true ↔
        mask.getD k false = true ∨ k = 4 * i + j ∧ window (4 * 0) x ≠ 0 := by
      split
      case isTrue hne => rw [getD_set_true hk, and_iff_left (hfirst.mp hne)]
      case isFalse hzero =>
        rw [or_iff_left]
        intro hturn
        exact hzero (hfirst.mpr hturn.2)
    have hlength : k < (if x &&& 0xff ≠ 0 then mask.set (4 * i + j) true else mask).length := by
      split
      · rwa [List.length_set]
      · exact hk
    rw [markBytes, ih hlength, hset, hrest, or_assoc]
    apply or_congr_right
    constructor
    · intro h
      rcases h with h | ⟨d, hd, h⟩
      · exact ⟨0, Nat.succ_pos _, h⟩
      · exact ⟨d + 1, Nat.succ_lt_succ hd, h⟩
    · rintro ⟨d, hd, h⟩
      cases d with
      | zero => exact Or.inl h
      | succ d => exact Or.inr ⟨d, Nat.lt_of_succ_lt_succ hd, h⟩

theorem getD_markBytes_word (hk : k < sizeofLong) (hlength : 4 * i + k < mask.length) :
    (markBytes n sizeofLong 0 x mask).getD (4 * i + k) false = true ↔
      mask.getD (4 * i + k) false = true ∨ i = n ∧ window (4 * k) x ≠ 0 := by
  rw [getD_markBytes hlength]
  apply or_congr_right
  simp only [sizeofLong] at hk ⊢
  constructor
  · rintro ⟨d, hd, heq, hwindow⟩
    have hin : i = n := by omega
    have hkd : k = d := by omega
    exact ⟨hin, hkd ▸ hwindow⟩
  · rintro ⟨rfl, hwindow⟩
    exact ⟨k, hk, by omega, hwindow⟩

end Loops

section Exact

variable {p perr : PinfoPtr} {pgroup : List PinfoPtr} {oid : Word} {mask mask' : List Bool}
variable {dx i k n : Nat}

theorem PinfoPtr.lt_size (p : PinfoPtr) (hi : i < p.info.sizeInWords.toNat) (hk : k < sizeofLong) :
    4 * i + k < p.info.size.toNat := by
  have hdiv : p.info.sizeInWords.toNat = p.info.size.toNat / 4 := by
    rw [p.sizeInWords_eq]
    exact BitVec.toNat_udiv
  simp only [sizeofLong] at hk
  omega

theorem length_maskSentinel : (maskSentinel p dx n).length = p.info.size.toNat := by
  induction n with
  | zero => exact List.length_replicate
  | succ n ih =>
    rw [maskSentinel]
    split
    · exact ih
    · rw [length_markBytes, ih]

theorem getD_replicate_false (m k : Nat) : (List.replicate m false).getD k false = false := by
  rw [List.getD_eq_getElem?_getD, List.getElem?_replicate]
  split <;> rfl

theorem getD_maskSentinel (hk : k < sizeofLong) (hlength : 4 * i + k < p.info.size.toNat) :
    (maskSentinel p dx n).getD (4 * i + k) false = true ↔ i < n ∧
      window (4 * k) (p.load (p.dxToPointer dx i) ^^^ p.rep.file.sentinelValue) ≠ 0 := by
  induction n with
  | zero =>
    rw [maskSentinel, getD_replicate_false]
    simp
  | succ n ih =>
    have hsucc : i < n + 1 ↔ i < n ∨ i = n := Nat.lt_succ_iff_lt_or_eq
    rw [maskSentinel]
    split
    case isTrue hsentinel =>
      have hzero : p.load (p.dxToPointer dx n) ^^^ p.rep.file.sentinelValue = 0 :=
        BitVec.xor_eq_zero_iff.mpr (of_decide_eq_true hsentinel).symm
      rw [ih, hsucc, or_and_right, or_iff_left]
      rintro ⟨rfl, hwindow⟩
      rw [hzero] at hwindow
      exact hwindow (window_zero _)
    case isFalse =>
      rw [getD_markBytes_word hk (length_maskSentinel.symm ▸ hlength), ih, hsucc, or_and_right]
      apply or_congr_right
      apply and_congr_right
      rintro rfl
      exact Iff.rfl

/-- A good replica marks the bytes of word `i` that the windows of its difference show. -/
def Marks (perr good : PinfoPtr) (oid : Word) (i k : Nat) : Prop :=
  compareAt perr good oid i ≠ some statusOk ∧
    window (4 * k) (perr.objectWord oid i ^^^ good.objectWord oid i) ≠ 0

theorem length_maskGood {verr : Nat} (h : maskGood perr verr oid n pgroup mask = some mask') :
    mask'.length = mask.length := by
  induction pgroup generalizing mask with
  | nil =>
    cases h
    rfl
  | cons good pgroup ih =>
    simp only [maskGood, Option.bind_eq_bind, Option.bind_eq_some_iff] at h
    obtain ⟨dxGood, -, allocated, -, status, -, h⟩ := h
    rw [ih h]
    split
    · exact length_markBytes
    · rfl

theorem slot_eq (h : p.pmap oid = some dx) : p.slot oid = dx := by
  rw [PinfoPtr.slot, h, Option.getD_some]

theorem idAllocated_eq {allocated : Bool} (h : p.idAllocated oid = some allocated) :
    allocated = p.info.dxAllocated (p.slot oid) := by
  rw [PinfoPtr.idAllocated, PinfoPtr.idToDx] at h
  split at h
  case isFalse => cases h
  case isTrue =>
    cases hdx : p.pmap oid with
    | none =>
      rw [hdx] at h
      cases h
    | some dx =>
      rw [hdx, Option.map_some, Option.bind_eq_bind, Option.bind_some, if_pos (by simp),
        PinfoPtr.dxAllocated] at h
      split at h
      case isFalse => cases h
      case isTrue =>
        rw [slot_eq hdx]
        exact (Option.some.inj h).symm

theorem getD_maskGood (hdx : perr.pmap oid = some dx) (hk : k < sizeofLong)
    (hlength : 4 * i + k < mask.length)
    (h : maskGood perr (perr.dxToPointer dx n) oid n pgroup mask = some mask') :
    mask'.getD (4 * i + k) false = true ↔ mask.getD (4 * i + k) false = true ∨
      i = n ∧ ∃ good ∈ pgroup, Marks perr good oid i k := by
  induction pgroup generalizing mask with
  | nil =>
    cases h
    simp
  | cons good pgroup ih =>
    simp only [maskGood, Option.bind_eq_bind, Option.bind_eq_some_iff] at h
    obtain ⟨dxGood, hgood, allocated, hallocated, status, hstatus, h⟩ := h
    have hcompare : compareAt perr good oid n = some status := by
      rw [compareAt, ← idAllocated_eq hallocated, slot_eq hdx, slot_eq hgood]
      exact hstatus
    have hmarks : Marks perr good oid n k ↔ status ≠ statusOk ∧ window (4 * k)
        (perr.load (perr.dxToPointer dx n) ^^^ good.load (good.dxToPointer dxGood n)) ≠ 0 := by
      rw [Marks, hcompare, PinfoPtr.objectWord, PinfoPtr.objectWord, slot_eq hdx, slot_eq hgood, ne_eq,
        Option.some_inj]
    have hfirst : (if status ≠ statusOk then markBytes n sizeofLong 0
        (perr.load (perr.dxToPointer dx n) ^^^ good.load (good.dxToPointer dxGood n)) mask
        else mask).getD (4 * i + k) false = true ↔
          mask.getD (4 * i + k) false = true ∨ i = n ∧ Marks perr good oid i k := by
      split
      case isTrue hne =>
        rw [getD_markBytes_word hk hlength]
        apply or_congr_right
        apply and_congr_right
        rintro rfl
        rw [hmarks, and_iff_right hne]
      case isFalse heq =>
        rw [or_iff_left]
        rintro ⟨rfl, hmark⟩
        exact heq (hmarks.mp hmark).1
    have hlength' : 4 * i + k < (if status ≠ statusOk then markBytes n sizeofLong 0
        (perr.load (perr.dxToPointer dx n) ^^^ good.load (good.dxToPointer dxGood n)) mask
        else mask).length := by
      split
      · rwa [length_markBytes]
      · exact hlength
    refine (ih hlength' h).trans ?_
    rw [hfirst, or_assoc, List.exists_mem_cons_iff, and_or_left]

theorem maskGood_isSome_iff (hdx : perr.pmap oid = some dx) :
    (maskGood perr (perr.dxToPointer dx n) oid n pgroup mask).isSome ↔
      ∀ good ∈ pgroup, Comparable perr good oid n := by
  induction pgroup generalizing mask with
  | nil => simp [maskGood]
  | cons good pgroup ih =>
    rw [List.forall_mem_cons, maskGood, Comparable]
    cases hgood : good.pmap oid with
    | none => simp
    | some dxGood =>
      cases hallocated : perr.idAllocated oid with
      | none => simp
      | some allocated =>
        have hanswered : Answered perr good (perr.dxToPointer (perr.slot oid) n)
            (good.dxToPointer (good.slot oid) n) (perr.info.dxAllocated (perr.slot oid)) ↔
              (compareWords perr good (perr.dxToPointer dx n) (good.dxToPointer dxGood n) allocated).isSome := by
          rw [← idAllocated_eq hallocated, slot_eq hdx, slot_eq hgood, compareWords_isSome_iff]
        rw [hanswered]
        cases hstatus : compareWords perr good (perr.dxToPointer dx n) (good.dxToPointer dxGood n) allocated with
        | none => simp [hstatus]
        | some status => simp [hstatus, ih]

theorem length_maskWords (h : maskWords perr pgroup oid n = some mask) :
    mask.length = perr.info.size.toNat := by
  induction n generalizing mask with
  | zero =>
    cases h
    exact List.length_replicate
  | succ n ih =>
    simp only [maskWords, Option.bind_eq_bind, Option.bind_eq_some_iff] at h
    obtain ⟨before, hbefore, dx, -, h⟩ := h
    rw [length_maskGood h, ih hbefore]

theorem getD_maskWords (hk : k < sizeofLong) (hlength : 4 * i + k < perr.info.size.toNat)
    (h : maskWords perr pgroup oid n = some mask) :
    mask.getD (4 * i + k) false = true ↔ i < n ∧ ∃ good ∈ pgroup, Marks perr good oid i k := by
  induction n generalizing mask with
  | zero =>
    cases h
    rw [getD_replicate_false]
    simp
  | succ n ih =>
    simp only [maskWords, Option.bind_eq_bind, Option.bind_eq_some_iff] at h
    obtain ⟨before, hbefore, dx, hdx, h⟩ := h
    have hsucc : i < n + 1 ↔ i < n ∨ i = n := Nat.lt_succ_iff_lt_or_eq
    rw [getD_maskGood hdx hk (length_maskWords hbefore ▸ hlength) h, ih hbefore, hsucc, or_and_right]

theorem maskWords_isSome_iff : (maskWords perr pgroup oid n).isSome ↔
    ∀ i < n, (perr.pmap oid).isSome ∧ ∀ good ∈ pgroup, Comparable perr good oid i := by
  induction n with
  | zero => simp [maskWords]
  | succ n ih =>
    rw [Nat.forall_lt_succ_right, ← ih, maskWords]
    cases maskWords perr pgroup oid n with
    | none => simp
    | some mask =>
      cases hdx : perr.pmap oid with
      | none => simp
      | some dx => simp [maskGood_isSome_iff hdx]

theorem window_damage {b : Nat} : window b (damage perr pgroup oid i) ≠ 0 ↔ ∃ good ∈ pgroup,
    compareAt perr good oid i ≠ some statusOk ∧
      window b (perr.objectWord oid i ^^^ good.objectWord oid i) ≠ 0 := by
  induction pgroup with
  | nil => simpa [damage] using window_zero b
  | cons good pgroup ih =>
    rw [List.exists_mem_cons_iff, ← ih]
    simp only [damage, List.foldr_cons]
    split
    case isTrue hok => simp [hok]
    case isFalse hnot => rw [window_or_ne_zero, and_iff_right hnot]

theorem sentinelMaskExact_iff (p : PinfoPtr) (dx : Nat) :
    SentinelMaskExact p dx (createMaskSentinel p dx) ↔ ∀ i < p.info.sizeInWords.toNat,
      BytesShown (p.load (p.dxToPointer dx i) ^^^ p.rep.file.sentinelValue) := by
  apply forall₂_congr
  intro i hi
  rw [← bytesShown_iff]
  apply forall₂_congr
  intro j hj
  rw [createMaskSentinel, getD_maskSentinel hj (p.lt_size hi hj), and_iff_right hi, byteAt_ne_iff]

theorem maskExact_iff (h : createMask perr pgroup oid = some mask) :
    MaskExact perr pgroup oid mask ↔
      ∀ i < perr.info.sizeInWords.toNat, BytesShown (damage perr pgroup oid i) := by
  apply forall₂_congr
  intro i hi
  rw [← bytesShown_iff]
  apply forall₂_congr
  intro k hk
  rw [getD_maskWords hk (perr.lt_size hi hk) h, and_iff_right hi, window_damage, window_damage]
  simp only [Marks, byteAt_ne_iff]

end Exact

/-- The masks have the right bytes exactly where the four windows of the loop, which begin four bits apart,
show the same as the four bytes, and each word can be compared. -/
theorem masksExact_iff (p : PinfoPtr) (dx : Nat) (perr : PinfoPtr) (pgroup : List PinfoPtr) (oid : Word) :
    (SentinelMaskExact p dx (createMaskSentinel p dx) ↔ ∀ i < p.info.sizeInWords.toNat,
        BytesShown (p.load (p.dxToPointer dx i) ^^^ p.rep.file.sentinelValue)) ∧
      ((∃ mask, createMask perr pgroup oid = some mask ∧ MaskExact perr pgroup oid mask) ↔
        ∀ i < perr.info.sizeInWords.toNat, ((perr.pmap oid).isSome ∧
          ∀ good ∈ pgroup, Comparable perr good oid i) ∧ BytesShown (damage perr pgroup oid i)) := by
  refine ⟨sentinelMaskExact_iff p dx, ?_⟩
  rw [forall₂_and, ← maskWords_isSome_iff, Option.isSome_iff_exists]
  constructor
  · intro ⟨mask, hmask, hexact⟩
    exact ⟨⟨mask, hmask⟩, (maskExact_iff hmask).mp hexact⟩
  · intro ⟨⟨mask, hmask⟩, hshown⟩
    exact ⟨mask, hmask, (maskExact_iff hmask).mpr hshown⟩

/-- A partition of 32 free slots of two words, of which the first has a sentinel whose lowest bits are `low`, and
allocation 1 in slot 0. -/
def freedPartition (low : Word) : Pinfo :=
  ⟨8, 2, 32, 0x40000000#32, 0x40000100#32, [0], [0], ⟨1, 0, 0, 0⟩ :: List.replicate 31 ⟨0, 0, 0, 0⟩,
    (0x9efbdbb3#32 ^^^ low) :: List.replicate 63 0x9efbdbb3#32⟩

def freedSlot (low : Word) : LoadedReplica where
  file := ⟨2, 0x9efbdbb3#32, 0xb0000000#32, 0xbf000000#32, if low = 0 then 0 else badReplica, [freedPartition low],
    fun _ => none, fun _ => none⟩
  pmap := fill (slotEntries [freedPartition low] 0) fun _ => none
  losKeys := []
  mem_losKeys := by simp

def firstPartition (low : Word) : PinfoPtr :=
  ⟨freedSlot low, 0, freedPartition low, rfl, PinfoPtr.two_eq_eight_div⟩

/-- Where only the lowest bits differ, the mask has byte 0. -/
example : createMask (firstPartition 5) [firstPartition 0] 1 =
    some [true, false, false, false, false, false, false, false] := by decide

/-- A difference in byte 1 alone puts byte 2 into both masks too. -/
theorem not_masksExact :
    ¬ SentinelMaskExact (firstPartition 0x100#32) 0 (createMaskSentinel (firstPartition 0x100#32) 0) ∧
    ∃ mask, createMask (firstPartition 0x100#32) [firstPartition 0] 1 = some mask ∧
      ¬ MaskExact (firstPartition 0x100#32) [firstPartition 0] 1 mask := by
  constructor
  · intro h
    have hbyte := (h 0 (by decide) 2 (by decide)).mp (by decide)
    revert hbyte
    decide
  · refine ⟨[false, true, true, false, false, false, false, false], by decide, ?_⟩
    intro h
    obtain ⟨good, hgood, -, hbyte⟩ := (h 0 (by decide) 2 (by decide)).mp (by decide)
    obtain rfl := List.mem_singleton.mp hgood
    revert hbyte
    decide

end DieHard.Exterminator
