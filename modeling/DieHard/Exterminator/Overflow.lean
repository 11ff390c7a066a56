import DieHard.Exterminator.EqPartition
import DieHard.Exterminator.Mask
import DieHard.Exterminator.PatchReports

/-!
# Searching for the object that overflowed

A slot of one replica is corrupt. `check_overflow` takes the objects in the slots before it, the nearest first. For
each one it counts the corrupt bytes that other replicas have at the same distance behind their copies, and how far
the corruption goes. The allocation site of the best object is to pad its allocations up to the end of the
corruption.
-/

namespace DieHard.Exterminator

namespace PinfoPtr

variable (p : PinfoPtr)

/-- `DXtoID(idx)` -/
def dxToId (dx : Nat) : Word := (p.info.slotInfo.getD dx ⟨0, 0, 0, 0⟩).id

/-- `DXtoAllocSite(idx)` -/
def dxToAllocSite (dx : Nat) : Word := (p.info.slotInfo.getD dx ⟨0, 0, 0, 0⟩).allocCallsite

/-- Byte `k` of a slot. -/
def slotByte (dx k : Nat) : Byte := byteAt (p.load (p.dxToPointer dx (k / 4))) (k % 4)

end PinfoPtr

/-- A `worklist_item`, without the number of the object, which is not used. The pointers of `pgroup` are other ones
than `perr`, as `correlation` asserts. -/
structure WorklistItem where
  pgroup : List PinfoPtr
  perr : PinfoPtr
  dx : Nat
  mask : List Bool

/-- The loop of `correlation` over the bytes from `k` on: the bytes under the mask that are the same, where whole
words that are sentinels are passed over. -/
def matchBytes (perr p : PinfoPtr) (dxErr dx : Nat) (mask : List Bool) : (fuel k : Nat) → Nat
  | 0, _ => 0
  | fuel + 1, k =>
    if perr.info.size.toNat ≤ k then 0
    else if k % 4 = 0 ∧ p.isSentinel (p.dxToPointer dx (k / 4)) = true then
      matchBytes perr p dxErr dx mask fuel (k + 4)
    else
      (decide (mask.getD k false = true ∧ perr.slotByte dxErr k = p.slotByte dx k)).toNat +
        matchBytes perr p dxErr dx mask fuel (k + 1)

/-- The bytes that match in one replica, which must have the object and nothing in the slot at the offset. -/
def matchesIn (perr : PinfoPtr) (dxErr : Nat) (oid : Word) (offset : Nat) (mask : List Bool) (p : PinfoPtr) :
    Option Nat :=
  if p.rep.file.globalAllocs ≤ oid then some 0
  else do
    let dx := (← p.idToDx oid) + offset
    if (p.info.elements.toNat : Int) ≤ dx then some 0
    else if dx - offset < 0 then some 0
    else if ← p.dxHasData dx then some 0
    else some (matchBytes perr p dxErr dx.toNat mask perr.info.size.toNat 0)

/-- The number of factors 1/256 in `correlation(pgroup, perr, oid, offset, mask)`. -/
def matchedBytes (pgroup : List PinfoPtr) (perr : PinfoPtr) (oid : Word) (offset : Nat) (mask : List Bool) :
    Option Nat := do
  let dxErr ← perr.idToDx oid
  pgroup.foldlM (fun n p => (matchesIn perr (dxErr + offset).toNat oid offset mask p).map (n + ·)) 0

/-- The rank of `correlation` among the numbers 1 - 256 ^ (-n) as a `double`, where seven factors give one. -/
def correlation (pgroup : List PinfoPtr) (perr : PinfoPtr) (oid : Word) (offset : Nat) (mask : List Bool) :
    Option Nat :=
  (matchedBytes pgroup perr oid offset mask).map (min 7)

/-- Byte `k` is corrupt, and the other replica has the same one. -/
def Matches (perr p : PinfoPtr) (dxErr dx : Nat) (mask : List Bool) (k : Nat) : Prop :=
  p.isSentinel (p.dxToPointer dx (k / 4)) = false ∧ mask.getD k false = true ∧
    perr.slotByte dxErr k = p.slotByte dx k

instance (perr p : PinfoPtr) (dxErr dx : Nat) (mask : List Bool) : DecidablePred (Matches perr p dxErr dx mask) :=
  fun _ => inferInstanceAs (Decidable (_ ∧ _))

/-- The loop counts the bytes from `k` on that match. It is at the start of a word, or in a word that is not a
sentinel. -/
theorem matchBytes_add_count {perr p : PinfoPtr} {dxErr dx fuel k : Nat} {mask : List Bool}
    (hfuel : perr.info.size.toNat ≤ k + fuel)
    (hk : k % 4 = 0 ∨ p.isSentinel (p.dxToPointer dx (k / 4)) = false) :
    Nat.count (Matches perr p dxErr dx mask) (min k perr.info.size.toNat) +
      matchBytes perr p dxErr dx mask fuel k = Nat.count (Matches perr p dxErr dx mask) perr.info.size.toNat := by
  induction fuel generalizing k with
  | zero => rw [matchBytes, Nat.min_eq_right (by omega), Nat.add_zero]
  | succ fuel ih =>
    rw [matchBytes]
    split
    case isTrue hend => rw [Nat.min_eq_right hend, Nat.add_zero]
    case isFalse hlt =>
      split
      case isTrue hsentinel =>
        -- the four bytes of the word do not match
        have hword : ∀ i, k ≤ i → i < k + 4 → ¬ Matches perr p dxErr dx mask i := by
          intro i hki hi hmatch
          have hdiv : i / 4 = k / 4 := by omega
          rw [Matches, hdiv, hsentinel.2] at hmatch
          exact absurd hmatch.1 (by decide)
        have hcount : ∀ m, k ≤ m → m ≤ k + 4 →
            Nat.count (Matches perr p dxErr dx mask) m = Nat.count (Matches perr p dxErr dx mask) k := by
          intro m hkm
          induction m, hkm using Nat.le_induction with
          | base => exact fun _ => rfl
          | succ m hkm ih' =>
            intro hm
            rw [Nat.count_succ, if_neg (hword m hkm (by omega)), Nat.add_zero]
            exact ih' (by omega)
        rw [← ih (k := k + 4) (by omega) (Or.inl (by omega)), Nat.min_eq_left (by omega),
          hcount _ (by omega) (Nat.min_le_left _ _)]
      case isFalse hword =>
        have hsentinel : p.isSentinel (p.dxToPointer dx (k / 4)) = false := by
          rcases hk with hk | hk
          · simpa [hk] using hword
          · exact hk
        have hnext : (k + 1) % 4 = 0 ∨ p.isSentinel (p.dxToPointer dx ((k + 1) / 4)) = false := by
          by_cases hmod : (k + 1) % 4 = 0
          · exact Or.inl hmod
          · exact Or.inr (by rwa [show (k + 1) / 4 = k / 4 by omega])
        have hstep := Nat.count_succ (Matches perr p dxErr dx mask) k
        rw [← ih (k := k + 1) (by omega) hnext, Nat.min_eq_left (by omega), Nat.min_eq_left (by omega), hstep]
        simp only [Matches, hsentinel, true_and]
        by_cases hmatch : mask.getD k false = true ∧ perr.slotByte dxErr k = p.slotByte dx k
        · rw [if_pos hmatch, decide_eq_true hmatch]
          simp only [Bool.toNat_true]
          omega
        · rw [if_neg hmatch, decide_eq_false hmatch]
          simp only [Bool.toNat_false]
          omega

theorem matchBytes_eq_count (perr p : PinfoPtr) (dxErr dx : Nat) (mask : List Bool) :
    matchBytes perr p dxErr dx mask perr.info.size.toNat 0 =
      Nat.count (Matches perr p dxErr dx mask) perr.info.size.toNat := by
  have h : Nat.count (Matches perr p dxErr dx mask) (min 0 perr.info.size.toNat) +
      matchBytes perr p dxErr dx mask perr.info.size.toNat 0 =
        Nat.count (Matches perr p dxErr dx mask) perr.info.size.toNat :=
    matchBytes_add_count (Nat.le_of_eq (Nat.zero_add _).symm) (Or.inl rfl)
  rwa [Nat.zero_min, Nat.count_zero, Nat.zero_add] at h

/-- The loop over the lowest bits of a status that are set; a status is an `int`. -/
def lowBits : (fuel st : Nat) → Nat
  | 0, _ => 0
  | fuel + 1, st => if st % 2 = 1 then lowBits fuel (st / 2) + 1 else 0

/-- `if(st == PTR_DIFF_ID) st = 0` -/
def offsetStatus (st : Nat) : Nat := if st = ptrDiffId then 0 else st

/-- The loop of `overflow_offset` over the words from `k` on, which ends at a word that is not the same. -/
def offsetWords (perr p : PinfoPtr) (dxErr dx : Nat) (mask : List Bool) (allocated : Bool) :
    (left k acc : Nat) → Option Nat
  | 0, _, acc => some acc
  | left + 1, k, acc =>
    if mask.getD (4 * k) false = false then offsetWords perr p dxErr dx mask allocated left (k + 1) acc
    else if p.dxToId dx = 0 ∧ p.isSentinel (p.dxToPointer dx k) = true then
      offsetWords perr p dxErr dx mask allocated left (k + 1) acc
    else do
      let st ← compareWords perr p (perr.dxToPointer dxErr k) (p.dxToPointer dx k) allocated
      if offsetStatus st = statusOk then offsetWords perr p dxErr dx mask allocated left (k + 1) (acc + 4)
      else some (acc + lowBits 32 (offsetStatus st))

/-- The offset in one replica, unless it has nothing to say. -/
def offsetIn (perr : PinfoPtr) (dxErr : Nat) (oid : Word) (offset : Nat) (mask : List Bool) (p : PinfoPtr) :
    Option (Option Nat) :=
  if p.rep.file.globalAllocs ≤ oid then some none
  else do
    let dx₀ ← p.idToDx oid
    if dx₀ = -1 then some none
    else
      let dx := dx₀ + offset
      if (p.info.elements.toNat : Int) ≤ dx then some none
      else if oid.toInt < (p.dxToId dx.toNat).toInt then some none
      else do
        let allocated ← p.dxAllocated dx
        (offsetWords perr p dxErr dx.toNat mask allocated perr.info.sizeInWords.toNat 0 0).map some

/-- `if(acc < ct) ct = acc`, where `none` is the largest `int`. -/
def lower (ct acc : Option Nat) : Option Nat :=
  match ct, acc with
  | some c, some a => some (min c a)
  | none, some a => some a
  | ct, none => ct

/-- `overflow_offset(pgroup, perr, oid, offset, mask)` -/
def overflowOffset (pgroup : List PinfoPtr) (perr : PinfoPtr) (oid : Word) (offset : Nat) (mask : List Bool) :
    Option Nat := do
  let dxErr ← perr.idToDx oid
  let ct ← pgroup.foldlM
    (fun ct p => (offsetIn perr (dxErr + offset).toNat oid offset mask p).map (lower ct)) none
  some (ct.getD 0)

/-- `best_c`, `best_j` and `best_d` -/
structure Best where
  correlation : Nat
  slot : Nat
  offset : Nat

namespace WorklistItem

variable (item : WorklistItem)

/-- The object in slot `j` is one that the other replicas agree on. -/
def agreed (j : Nat) : Option Bool :=
  (compareSlot item.pgroup (item.perr.dxToId j)).map fun st => st = statusOk ∨ st = allocOnlyOne ∨ st = dne

/-- The body of the loop of `check_overflow`. -/
def consider (best : Option Best) (j : Nat) : Option (Option Best) :=
  if item.perr.dxToId j = 0 then some best
  else do
    if ← item.agreed j then
      let c ← correlation item.pgroup item.perr (item.perr.dxToId j) (item.dx - j) item.mask
      if (best.map Best.correlation).getD 0 < c then
        let d ← overflowOffset item.pgroup item.perr (item.perr.dxToId j) (item.dx - j) item.mask
        if 0 < d then some (some ⟨c, j, d⟩) else some best
      else some best
    else some best

/-- The loop over the slots below `j`. -/
def search : (j : Nat) → Option Best → Option (Option Best)
  | 0, best => some best
  | j + 1, best => (item.consider best j).bind (search j)

/-- The padding for the object in slot `j`. -/
def padding (j d : Nat) : Nat := (item.dx - j - 1) * item.perr.info.size.toNat + d

/-- `check_overflow(item)`, with what it reports. -/
def checkOverflow : Option (Option PatchDatabase.Report) :=
  if item.pgroup.length < 2 then some none
  else (item.search item.dx none).map fun best => best.map fun b =>
    .overflow (item.perr.dxToAllocSite b.slot) (BitVec.ofNat 32 (item.padding b.slot b.offset))

/-- The object in slot `j` may have overflowed: bytes match, and the offset is not zero. -/
structure Candidate (b : Best) : Prop where
  lt : b.slot < item.dx
  used : item.perr.dxToId b.slot ≠ 0
  agreed : item.agreed b.slot = some true
  correlation : Exterminator.correlation item.pgroup item.perr (item.perr.dxToId b.slot) (item.dx - b.slot)
    item.mask = some b.correlation
  matched : 0 < b.correlation
  offset : overflowOffset item.pgroup item.perr (item.perr.dxToId b.slot) (item.dx - b.slot) item.mask =
    some b.offset
  reached : 0 < b.offset

/-- The first candidate is not better than the second one: its correlation is lower, or it is the same and the slot
is not nearer. -/
def NotBetter (b' b : Best) : Prop :=
  b'.correlation < b.correlation ∨ b'.correlation = b.correlation ∧ b'.slot ≤ b.slot

/-- The best candidate from slot `first` on. -/
structure IsBest (first : Nat) (b : Best) : Prop where
  candidate : item.Candidate b
  first_le : first ≤ b.slot
  notBetter : ∀ b', item.Candidate b' → first ≤ b'.slot → NotBetter b' b

/-- What the loop knows when it has gone down to slot `first`. -/
def Searched (first : Nat) : Option Best → Prop
  | none => ∀ b, item.Candidate b → b.slot < first
  | some b => item.IsBest first b

variable {item} {j : Nat} {best best' : Option Best} {b b' : Best}

theorem Candidate.unique (h : item.Candidate b) (h' : item.Candidate b') (hslot : b.slot = b'.slot) :
    b.correlation = b'.correlation ∧ b.offset = b'.offset := by
  have hc := h.correlation
  have hd := h.offset
  rw [hslot] at hc hd
  exact ⟨Option.some.inj (hc.symm.trans h'.correlation), Option.some.inj (hd.symm.trans h'.offset)⟩

theorem Searched.skip (h : item.Searched (j + 1) best)
    (hslot : ∀ b', item.Candidate b' → b'.slot = j → ∃ b, best = some b ∧ b'.correlation ≤ b.correlation) :
    item.Searched j best := by
  cases best with
  | none =>
    intro b' hb'
    have hlt := h b' hb'
    rcases Nat.lt_succ_iff_lt_or_eq.mp hlt with hlt | heq
    · exact hlt
    · obtain ⟨b, hb, -⟩ := hslot b' hb' heq
      cases hb
  | some b =>
    have hle := h.first_le
    refine ⟨h.candidate, by omega, ?_⟩
    intro b' hb' hj
    rcases Nat.eq_or_lt_of_le hj with heq | hlt
    · obtain ⟨_, hb, hc⟩ := hslot b' hb' heq.symm
      cases hb
      rcases Nat.lt_or_eq_of_le hc with hc | hc
      · exact Or.inl hc
      · exact Or.inr ⟨hc, by omega⟩
    · exact h.notBetter b' hb' hlt

theorem Searched.replace (h : item.Searched (j + 1) best) (hb : item.Candidate b) (hj : b.slot = j)
    (hc : (best.map Best.correlation).getD 0 < b.correlation) : item.Searched j (some b) := by
  refine ⟨hb, Nat.le_of_eq hj.symm, ?_⟩
  intro b' hb' hle
  rcases Nat.eq_or_lt_of_le hle with heq | hlt
  · have hsame := hb'.unique hb (heq.symm.trans hj.symm)
    exact Or.inr ⟨hsame.1, by omega⟩
  · cases best with
    | none =>
      have hlt' := h b' hb'
      omega
    | some b₀ =>
      have hc : b₀.correlation < b.correlation := hc
      rcases h.notBetter b' hb' hlt with hlt' | ⟨heq, -⟩
      · exact Or.inl (hlt'.trans hc)
      · exact Or.inl (heq ▸ hc)

theorem Searched.consider (h : item.Searched (j + 1) best) (hj : j < item.dx)
    (hconsider : item.consider best j = some best') : item.Searched j best' := by
  rw [WorklistItem.consider] at hconsider
  split at hconsider
  case isTrue hfree =>
    cases hconsider
    exact h.skip fun b' hb' hslot => absurd (hslot ▸ hfree) hb'.used
  case isFalse hused =>
    obtain ⟨agreed, hagreed, hconsider⟩ := Option.bind_eq_some_iff.mp hconsider
    cases agreed with
    | false =>
      cases hconsider
      refine h.skip fun b' hb' hslot => ?_
      have hagreed' := hb'.agreed
      rw [hslot, hagreed] at hagreed'
      cases hagreed'
    | true =>
      rw [if_pos rfl] at hconsider
      obtain ⟨c, hc, hconsider⟩ := Option.bind_eq_some_iff.mp hconsider
      have hsame : ∀ b', item.Candidate b' → b'.slot = j → b'.correlation = c := by
        intro b' hb' hslot
        have hc' := hb'.correlation
        rw [hslot, hc] at hc'
        exact (Option.some.inj hc').symm
      split at hconsider
      case isFalse hle =>
        cases hconsider
        refine h.skip fun b' hb' hslot => ?_
        cases best with
        | none => exact absurd (hsame b' hb' hslot ▸ hb'.matched) hle
        | some b => exact ⟨b, rfl, hsame b' hb' hslot ▸ Nat.le_of_not_lt hle⟩
      case isTrue hlt =>
        obtain ⟨d, hd, hconsider⟩ := Option.bind_eq_some_iff.mp hconsider
        split at hconsider
        case isFalse hzero =>
          cases hconsider
          refine h.skip fun b' hb' hslot => ?_
          have hd' := hb'.offset
          rw [hslot, hd] at hd'
          exact absurd (Option.some.inj hd' ▸ hb'.reached) hzero
        case isTrue hpos =>
          cases hconsider
          exact h.replace ⟨hj, hused, hagreed, hc, Nat.zero_lt_of_lt hlt, hd, hpos⟩ rfl hlt

theorem searched_search (h : item.Searched j best) (hj : j ≤ item.dx) (hs : item.search j best = some best') :
    item.Searched 0 best' := by
  induction j generalizing best with
  | zero =>
    cases hs
    exact h
  | succ j ih =>
    obtain ⟨next, hnext, hs⟩ := Option.bind_eq_some_iff.mp hs
    exact ih (h.consider hj hnext) (Nat.le_of_succ_le hj) hs

theorem lowBits_le {fuel st k : Nat} (h : st + 1 < 2 ^ (k + 1)) : lowBits fuel st ≤ k := by
  induction fuel generalizing st k with
  | zero => exact Nat.zero_le _
  | succ fuel ih =>
    rw [lowBits]
    split
    case isTrue hodd =>
      cases k with
      | zero => omega
      | succ k =>
        have hhalf : st / 2 + 1 < 2 ^ (k + 1) := by
          rw [pow_succ] at h
          omega
        exact Nat.succ_le_succ (ih hhalf)
    case isFalse => exact Nat.zero_le _

theorem equalBytes_lt (w₁ w₂ : Word) : equalBytes w₁ w₂ < 2 ^ 4 := by
  have hbit : ∀ k, (decide (byteAt w₁ k = byteAt w₂ k)).toNat ≤ 1 := fun k => Bool.toNat_le _
  have h₀ := hbit 0
  have h₁ := hbit 1
  have h₂ := hbit 2
  have h₃ := hbit 3
  simp only [equalBytes, List.foldl_cons, List.foldl_nil]
  omega

theorem compareWords_cases {p₁ p₂ : PinfoPtr} {v₁ v₂ st : Nat} {allocated : Bool}
    (h : compareWords p₁ p₂ v₁ v₂ allocated = some st) : st = ptrDiffId ∨ st < 2 ^ 4 := by
  have hok : statusOk < 2 ^ 4 := by decide
  have hbytes := equalBytes_lt (p₁.load v₁) (p₂.load v₂)
  rw [compareWords] at h
  split at h
  · cases h
    exact Or.inr hok
  split at h
  · cases h
    exact Or.inr hok
  split at h
  · by_cases hsame : SameObject p₁ p₂ v₁ v₂
    · rw [comparePointers_of_sameObject hsame] at h
      split at h
      · cases h
        exact Or.inr hok
      · cases h
    · rw [comparePointers_of_not hsame] at h
      obtain ⟨va₁, -, h⟩ := Option.bind_eq_some_iff.mp h
      obtain ⟨va₂, -, h⟩ := Option.bind_eq_some_iff.mp h
      obtain ⟨q, -, h⟩ := Option.bind_eq_some_iff.mp h
      split at h
      · cases h
        exact Or.inr hok
      split at h
      · cases h
        exact Or.inl rfl
      · cases h
        exact Or.inr hbytes
  split at h
  · cases h
    exact Or.inr hok
  · cases h
    exact Or.inr hbytes

theorem offsetWords_le {perr p : PinfoPtr} {dxErr dx left k acc d : Nat} {mask : List Bool} {allocated : Bool}
    (h : offsetWords perr p dxErr dx mask allocated left k acc = some d) : d ≤ acc + 4 * left := by
  induction left generalizing k acc with
  | zero =>
    cases h
    exact Nat.le_refl _
  | succ left ih =>
    rw [offsetWords] at h
    split at h
    · have hle := ih h
      omega
    split at h
    · have hle := ih h
      omega
    · obtain ⟨st, hst, h⟩ := Option.bind_eq_some_iff.mp h
      split at h
      · have hle := ih h
        omega
      · rename_i hnot
        have hle : lowBits 32 (offsetStatus st) ≤ 3 := by
          apply lowBits_le
          have hok : statusOk = 15 := rfl
          rw [offsetStatus] at hnot ⊢
          rcases compareWords_cases hst with rfl | hlt
          · rw [if_pos rfl]
            decide
          · rw [if_neg (by rw [ptrDiffId, hok]; omega)] at hnot ⊢
            omega
        cases h
        omega

theorem offsetIn_le {perr p : PinfoPtr} {dxErr offset d : Nat} {oid : Word} {mask : List Bool}
    (h : offsetIn perr dxErr oid offset mask p = some (some d)) : d ≤ perr.info.size.toNat := by
  rw [offsetIn] at h
  split at h
  · cases h
  obtain ⟨dx₀, -, h⟩ := Option.bind_eq_some_iff.mp h
  split at h
  · cases h
  dsimp only at h
  split at h
  · cases h
  split at h
  · cases h
  obtain ⟨allocated, -, h⟩ := Option.bind_eq_some_iff.mp h
  obtain ⟨d', hd, heq⟩ := Option.map_eq_some_iff.mp h
  cases heq
  have hle := offsetWords_le hd
  have hwords : perr.info.sizeInWords.toNat = perr.info.size.toNat / 4 := by
    rw [perr.sizeInWords_eq, BitVec.toNat_udiv]
    rfl
  omega

theorem overflowOffset_le {pgroup : List PinfoPtr} {perr : PinfoPtr} {oid : Word} {offset d : Nat}
    {mask : List Bool} (h : overflowOffset pgroup perr oid offset mask = some d) : d ≤ perr.info.size.toNat := by
  obtain ⟨dxErr, -, h⟩ := Option.bind_eq_some_iff.mp h
  obtain ⟨ct, hct, h⟩ := Option.bind_eq_some_iff.mp h
  cases h
  have hfold : ∀ (ps : List PinfoPtr) (ct₀ : Option Nat), (∀ a ∈ ct₀, a ≤ perr.info.size.toNat) →
      ps.foldlM (fun ct p => (offsetIn perr (dxErr + offset).toNat oid offset mask p).map (lower ct)) ct₀ = some ct →
      ∀ a ∈ ct, a ≤ perr.info.size.toNat := by
    intro ps
    induction ps with
    | nil =>
      intro ct₀ h₀ hfold
      cases hfold
      exact h₀
    | cons p ps ih =>
      intro ct₀ h₀ hfold
      rw [List.foldlM_cons] at hfold
      obtain ⟨ct₁, hct₁, hfold⟩ := Option.bind_eq_some_iff.mp hfold
      obtain ⟨acc, hacc, rfl⟩ := Option.map_eq_some_iff.mp hct₁
      refine ih _ ?_ hfold
      intro a ha
      cases acc with
      | none =>
        cases ct₀ with
        | none => cases ha
        | some c => exact h₀ a ha
      | some b =>
        have hb := offsetIn_le hacc
        cases ct₀ with
        | none =>
          cases ha
          exact hb
        | some c =>
          cases ha
          exact (Nat.min_le_right c b).trans hb
  cases ct with
  | none => exact Nat.zero_le _
  | some a => exact hfold pgroup none (by simp) hct a rfl

/-- Padding of `v` bytes for the object in slot `j` ends in slot `dx`. -/
def EndsIn (size j dx v : Nat) : Prop := j * size + size + v ∈ Set.Ioc (dx * size) ((dx + 1) * size)

theorem Candidate.endsIn (h : item.Candidate b) :
    EndsIn item.perr.info.size.toNat b.slot item.dx (item.padding b.slot b.offset) := by
  have hle := overflowOffset_le h.offset
  have hpos := h.reached
  have hlt := h.lt
  obtain ⟨n, hn⟩ := Nat.exists_eq_add_of_lt hlt
  rw [EndsIn, WorklistItem.padding, hn, show b.slot + n + 1 - b.slot - 1 = n by omega, Set.mem_Ioc]
  constructor <;> nlinarith

theorem checkOverflow_iff {report : Option PatchDatabase.Report} (h : item.checkOverflow = some report)
    (r : PatchDatabase.Report) : report = some r ↔ 2 ≤ item.pgroup.length ∧ ∃ b, item.IsBest 0 b ∧
      r = .overflow (item.perr.dxToAllocSite b.slot) (BitVec.ofNat 32 (item.padding b.slot b.offset)) := by
  rw [checkOverflow] at h
  split at h
  case isTrue hfew =>
    cases h
    constructor
    · intro hr
      cases hr
    · intro hr
      omega
  case isFalse henough =>
    obtain ⟨best, hbest, rfl⟩ := Option.map_eq_some_iff.mp h
    have hnone : item.Searched item.dx none := fun b hb => hb.lt
    have hsearched := searched_search hnone (Nat.le_refl _) hbest
    constructor
    · intro hr
      obtain ⟨b, rfl, rfl⟩ := Option.map_eq_some_iff.mp hr
      exact ⟨Nat.le_of_not_lt henough, b, hsearched, rfl⟩
    · rintro ⟨-, b, hb, rfl⟩
      cases best with
      | none => exact absurd (hsearched b hb.candidate) (Nat.not_lt_zero _)
      | some b' =>
        have h₁ := hsearched.notBetter b hb.candidate (Nat.zero_le _)
        have h₂ := hb.notBetter b' hsearched.candidate (Nat.zero_le _)
        have hslot : b'.slot = b.slot := by
          simp only [NotBetter] at h₁ h₂
          omega
        have hsame := hsearched.candidate.unique hb.candidate hslot
        rw [Option.map_some, hslot, hsame.2]

/-- `check_overflow` reports the best of the objects that may have overflowed, if there are two replicas to compare
with, and such an object. The padding ends in the corrupt slot. -/
theorem checkOverflow_best {report : Option PatchDatabase.Report} (h : item.checkOverflow = some report) :
    (∀ r, report = some r ↔ 2 ≤ item.pgroup.length ∧ ∃ b, item.IsBest 0 b ∧
      r = .overflow (item.perr.dxToAllocSite b.slot) (BitVec.ofNat 32 (item.padding b.slot b.offset))) ∧
    ∀ b, item.IsBest 0 b →
      EndsIn item.perr.info.size.toNat b.slot item.dx (item.padding b.slot b.offset) :=
  ⟨checkOverflow_iff h, fun _ hb => hb.candidate.endsIn⟩

def overflowedPartition : Pinfo :=
  ⟨8, 2, 32, 0x40000000#32, 0x40000100#32, [1], [1], ⟨1, 0x77#32, 0, 0⟩ :: List.replicate 31 ⟨0, 0, 0, 0⟩,
    5 :: 6 :: 0x41414141#32 :: List.replicate 61 0x9efbdbb3#32⟩

def overflowedReplica : LoadedReplica where
  file := ⟨2, 0x9efbdbb3#32, 0xb0000000#32, 0xbf000000#32, badReplica, [overflowedPartition], fun _ => none,
    fun _ => none⟩
  pmap := fill (slotEntries [overflowedPartition] 0) fun _ => none
  losKeys := []
  mem_losKeys := by simp

def overflowed : PinfoPtr := ⟨overflowedReplica, 0, overflowedPartition, rfl, PinfoPtr.two_eq_eight_div⟩

def overflowedItem : WorklistItem where
  pgroup := [overflowed, overflowed]
  perr := overflowed
  dx := 1
  mask := createMaskSentinel overflowed 1

set_option maxRecDepth 10000 in
theorem checkOverflow_overflowedItem : overflowedItem.checkOverflow = some (some (.overflow 0x77#32 4)) := rfl

theorem checkOverflow_best_overflowedItem :
    (∀ r, some (PatchDatabase.Report.overflow 0x77#32 4) = some r ↔ 2 ≤ overflowedItem.pgroup.length ∧
      ∃ b, overflowedItem.IsBest 0 b ∧ r = .overflow (overflowedItem.perr.dxToAllocSite b.slot)
        (BitVec.ofNat 32 (overflowedItem.padding b.slot b.offset))) ∧
    ∀ b, overflowedItem.IsBest 0 b → EndsIn overflowedItem.perr.info.size.toNat b.slot overflowedItem.dx
      (overflowedItem.padding b.slot b.offset) :=
  checkOverflow_best checkOverflow_overflowedItem

end WorklistItem

end DieHard.Exterminator
