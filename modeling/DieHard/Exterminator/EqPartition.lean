import DieHard.Exterminator.CompareSlot
import DieHard.Lib.Classes

/-!
# Classes of copies

`eq_partition` sorts the copies of an object into classes and compares each one with the first member of a
class. The comparison is reflexive and symmetric. It accepts words for five reasons, and two reasons need not
chain: equal words may point to different objects in two replicas. Where an assertion of `compare_words` fails
there is no answer, and there are no classes.
-/

namespace DieHard.Exterminator

/-- `compare_range(...) == OK` for the copies of an object. -/
def sameCopy (oid : Word) (numWords : Nat) (allocated : Bool) (p q : PinfoPtr) : Option Bool := do
  let v ← (p.idToPointer oid).join
  let v' ← (q.idToPointer oid).join
  let st ← compareRange p q v v' numWords allocated
  some (st = statusOk)

/-- The flag that `eq_partition` takes from the first copy. -/
def PinfoPtr.allocatedWithData (p : PinfoPtr) (oid : Word) : Option Bool := do
  if ← p.idAllocated oid then p.idHasData oid else some false

/-- The loop of `eq_partition` over the replicas behind the first copy. -/
def eqRest (oid : Word) (numWords : Nat) (allocated : Bool) (eq : List (List PinfoPtr)) :
    List PinfoPtr → Option (List (List PinfoPtr))
  | [] => some eq
  | p :: ps => do
    if ← p.leftOut oid then eqRest oid numWords allocated eq ps
    else do
      let eq ← Classes.place (sameCopy oid numWords allocated) p eq
      eqRest oid numWords allocated eq ps

/-- The classes of `eq_partition(partitions, oid)` before they are sorted. Without a copy it looks into an
empty vector. -/
def eqClasses (partitions : List PinfoPtr) (oid : Word) : Option (List (List PinfoPtr)) := do
  match partitions, ← firstComparable oid partitions with
  | first :: _, some (p₀, rest) => do
    let allocated ← p₀.allocatedWithData oid
    eqRest oid first.info.sizeInWords.toNat allocated [[p₀]] rest
  | _, _ => none

/-- `eq_partition(partitions, oid)`. Classes of one size may come in any order. -/
def eqPartition (partitions : List PinfoPtr) (oid : Word) (eq : List (List PinfoPtr)) : Prop :=
  ∃ classes, eqClasses partitions oid = some classes ∧ eq.Perm classes ∧
    eq.Pairwise fun c d => c.length ≤ d.length

/-- Why `compare_words` accepts two words. -/
inductive Reason
  | bits
  | sentinel
  | object
  | place
  | canonical

def PinfoPtr.distance (p : PinfoPtr) (v : Nat) : Option Word :=
  (p.rep.pointerToVA (p.rep.allocDesc (p.load v)).1 (p.address v)).map fun va => va - p.load v

def Reason.Holds (p₁ p₂ : PinfoPtr) (v₁ v₂ : Nat) (allocated : Bool) : Reason → Prop
  | bits => p₁.load v₁ = p₂.load v₂
  | sentinel => allocated = false ∧ p₁.isSentinel v₁ = true ∧ p₂.isSentinel v₂ = true
  | object => BothValid p₁ p₂ v₁ v₂ ∧ SameObject p₁ p₂ v₁ v₂ ∧ Asserted p₁ p₂ v₁ v₂ allocated
  | place => BothValid p₁ p₂ v₁ v₂ ∧ (p₁.distance v₁ = p₂.distance v₂ ∧ (p₁.distance v₁).isSome) ∧
    Asserted p₁ p₂ v₁ v₂ allocated
  | canonical => ¬ BothValid p₁ p₂ v₁ v₂ ∧
    p₁.rep.canonicalPtr (p₁.load v₁) = p₂.rep.canonicalPtr (p₂.load v₂)

variable {p q r p₁ p₂ p₃ : PinfoPtr} {v₁ v₂ v₃ n : Nat} {allocated : Bool} {oid : Word}

theorem equalBytes_eq_statusOk_iff {w₁ w₂ : Word} : equalBytes w₁ w₂ = statusOk ↔ w₁ = w₂ := by
  constructor
  · intro h
    have hbit : ∀ k, (decide (byteAt w₁ k = byteAt w₂ k)).toNat ≤ 1 := fun k => Bool.toNat_le _
    have h₀ := hbit 0
    have h₁ := hbit 1
    have h₂ := hbit 2
    have h₃ := hbit 3
    simp only [equalBytes, List.foldl_cons, List.foldl_nil, statusOk] at h
    have hbytes : ∀ k < 4, byteAt w₁ k = byteAt w₂ k := by
      intro k hk
      apply of_decide_eq_true
      rw [← Bool.toNat_eq_one]
      interval_cases k <;> omega
    apply BitVec.eq_of_getLsbD_eq
    intro i hi
    have hbyte := congrArg (fun b => b.getLsbD (i % 8)) (hbytes (i / 8) (by omega))
    have hmod : i % 8 < 8 := Nat.mod_lt i (by decide)
    simpa only [byteAt, BitVec.getLsbD_extractLsb', hmod, decide_true, Bool.true_and, Nat.div_add_mod] using hbyte
  · intro h
    subst h
    simp [equalBytes, statusOk]

theorem comparePointers_ok_iff (hne : p₁.load v₁ ≠ p₂.load v₂) :
    comparePointers p₁ p₂ v₁ v₂ allocated = some statusOk ↔
      (SameObject p₁ p₂ v₁ v₂ ∨ p₁.distance v₁ = p₂.distance v₂ ∧ (p₁.distance v₁).isSome) ∧
        Asserted p₁ p₂ v₁ v₂ allocated := by
  by_cases hsame : SameObject p₁ p₂ v₁ v₂
  · rw [comparePointers_of_sameObject hsame, and_iff_right (Or.inl hsame)]
    split <;> simp [*]
  · have hasserted : Asserted p₁ p₂ v₁ v₂ allocated := fun _ h => absurd h hsame
    rw [comparePointers_of_not hsame, or_iff_right hsame, and_iff_left hasserted, PinfoPtr.distance,
      PinfoPtr.distance]
    have hbytes : equalBytes (p₁.load v₁) (p₂.load v₂) ≠ statusOk := fun h => hne (equalBytes_eq_statusOk_iff.mp h)
    have hother := statusOk_ne_ptrDiffId.symm
    rw [LoadedReplica.pointerToVA, LoadedReplica.pointerToVA]
    cases p₁.rep.partition (p₁.rep.allocDesc (p₁.load v₁)).1 with
    | none => simp
    | some q₁ =>
      cases p₂.rep.partition (p₂.rep.allocDesc (p₂.load v₂)).1 with
      | none => simp
      | some q₂ =>
        simp only [Option.map_some, Option.bind_eq_bind, Option.bind_some, Option.some.injEq, Option.isSome_some,
          and_true]
        split
        case isTrue hplace => exact iff_of_true rfl hplace
        case isFalse hplace =>
          apply iff_of_false _ hplace
          split <;> simp [hbytes, hother]

/-- `compare_words` accepts two words for one of the reasons. -/
theorem compareWords_ok_iff : compareWords p₁ p₂ v₁ v₂ allocated = some statusOk ↔
    ∃ reason : Reason, reason.Holds p₁ p₂ v₁ v₂ allocated := by
  rw [compareWords]
  by_cases heq : p₁.load v₁ = p₂.load v₂
  · rw [if_pos heq]
    exact iff_of_true rfl ⟨.bits, heq⟩
  by_cases hsentinel : (!allocated && p₁.isSentinel v₁ && p₂.isSentinel v₂) = true
  · rw [if_neg heq, if_pos hsentinel]
    simp only [Bool.and_eq_true, Bool.not_eq_true'] at hsentinel
    exact iff_of_true rfl ⟨.sentinel, hsentinel.1.1, hsentinel.1.2, hsentinel.2⟩
  rw [if_neg heq, if_neg hsentinel]
  have hnot : ¬ (allocated = false ∧ p₁.isSentinel v₁ = true ∧ p₂.isSentinel v₂ = true) := by
    intro h
    exact hsentinel (by simp [h.1, h.2.1, h.2.2])
  by_cases hvalid : BothValid p₁ p₂ v₁ v₂
  · rw [if_pos (by simpa [BothValid] using hvalid), comparePointers_ok_iff heq]
    constructor
    · rintro ⟨hobject | hplace, hasserted⟩
      · exact ⟨.object, hvalid, hobject, hasserted⟩
      · exact ⟨.place, hvalid, hplace, hasserted⟩
    · intro hreason
      obtain ⟨reason, hholds⟩ := hreason
      cases reason with
      | bits => exact absurd hholds heq
      | sentinel => exact absurd hholds hnot
      | object => exact ⟨Or.inl hholds.2.1, hholds.2.2⟩
      | place => exact ⟨Or.inr hholds.2.1, hholds.2.2⟩
      | canonical => exact absurd hvalid hholds.1
  · rw [if_neg (by simpa [BothValid] using hvalid)]
    constructor
    · intro hok
      split at hok
      case isTrue hcanonical => exact ⟨.canonical, hvalid, hcanonical⟩
      case isFalse => exact absurd (equalBytes_eq_statusOk_iff.mp (Option.some.inj hok)) heq
    · intro hreason
      obtain ⟨reason, hholds⟩ := hreason
      cases reason with
      | bits => exact absurd hholds heq
      | sentinel => exact absurd hholds hnot
      | object => exact absurd hholds.1 hvalid
      | place => exact absurd hholds.1 hvalid
      | canonical => exact if_pos hholds.2

theorem Reason.Holds.symm {reason : Reason} (h : reason.Holds p₁ p₂ v₁ v₂ allocated) :
    reason.Holds p₂ p₁ v₂ v₁ allocated := by
  cases reason with
  | bits => exact Eq.symm h
  | sentinel => exact ⟨h.1, h.2.2, h.2.1⟩
  | object =>
    obtain ⟨hvalid, hsame, hasserted⟩ := h
    exact ⟨hvalid.symm, hsame.symm, hasserted.symm⟩
  | place =>
    obtain ⟨hvalid, ⟨heq, hsome⟩, hasserted⟩ := h
    exact ⟨hvalid.symm, ⟨heq.symm, heq ▸ hsome⟩, hasserted.symm⟩
  | canonical => exact ⟨fun hvalid => h.1 hvalid.symm, h.2.symm⟩

theorem Reason.Holds.trans {reason : Reason} (h : reason.Holds p₁ p₂ v₁ v₂ allocated)
    (h' : reason.Holds p₂ p₃ v₂ v₃ allocated) (hcanonical : reason = .canonical → ¬ BothValid p₁ p₃ v₁ v₃)
    (hplace : reason = .place → Asserted p₁ p₃ v₁ v₃ allocated) : reason.Holds p₁ p₃ v₁ v₃ allocated := by
  cases reason with
  | bits => exact Eq.trans h h'
  | sentinel => exact ⟨h.1, h.2.1, h'.2.2⟩
  | object =>
    obtain ⟨hvalid, ⟨heq, hpos⟩, hasserted⟩ := h
    obtain ⟨hvalid', hsame', hasserted'⟩ := h'
    refine ⟨⟨hvalid.1, hvalid'.2⟩, ⟨heq.trans hsame'.1, hpos⟩, ?_⟩
    intro hallocated _ hne
    exact ⟨(hasserted hallocated ⟨heq, hpos⟩ hne).1, (hasserted' hallocated hsame' (heq ▸ hne)).2⟩
  | place =>
    obtain ⟨hvalid, ⟨heq, hsome⟩, -⟩ := h
    exact ⟨⟨hvalid.1, h'.1.2⟩, ⟨heq.trans h'.2.1.1, hsome⟩, hplace rfl⟩
  | canonical => exact ⟨hcanonical rfl, h.2.trans h'.2⟩

def SameCopy (oid : Word) (numWords : Nat) (allocated : Bool) : PinfoPtr → PinfoPtr → Prop :=
  Classes.Accepts (sameCopy oid numWords allocated)

/-- In each word both ends are related to the middle for the same reason. Canonical addresses do not count between
two pointers, nor distances where the comparison of the ends does not return. -/
def Chains (oid : Word) (numWords : Nat) (allocated : Bool) (p q r : PinfoPtr) : Prop :=
  ∀ v₁ v₂ v₃, p.idToPointer oid = some (some v₁) → q.idToPointer oid = some (some v₂) →
    r.idToPointer oid = some (some v₃) → ∀ k < numWords, ∃ reason : Reason,
      reason.Holds p q (v₁ + k) (v₂ + k) allocated ∧ reason.Holds q r (v₂ + k) (v₃ + k) allocated ∧
        (reason = .canonical → ¬ BothValid p r (v₁ + k) (v₃ + k)) ∧
        (reason = .place → Asserted p r (v₁ + k) (v₃ + k) allocated)

theorem sameCopy_iff : SameCopy oid n allocated p q ↔
    ∃ v v', p.idToPointer oid = some (some v) ∧ q.idToPointer oid = some (some v') ∧
      ∀ k < n, ∃ reason : Reason, reason.Holds p q (v + k) (v' + k) allocated := by
  simp only [SameCopy, Classes.Accepts, sameCopy, Option.bind_eq_bind, Option.bind_eq_some_iff,
    Option.join_eq_some_iff, Option.some.injEq, decide_eq_true_iff]
  constructor
  · intro hsame
    obtain ⟨v, hv, v', hv', st, hst, hok⟩ := hsame
    subst hok
    refine ⟨v, v', hv, hv', ?_⟩
    intro k hk
    exact compareWords_ok_iff.mp (rangeStatus_ok_iff.mp hst k hk)
  · intro hsame
    obtain ⟨v, v', hv, hv', hall⟩ := hsame
    exact ⟨v, hv, v', hv', statusOk, rangeStatus_ok_iff.mpr fun k hk => compareWords_ok_iff.mpr (hall k hk), rfl⟩

theorem idToPointer_of_leftOut (h : p.leftOut oid = some false) : ∃ v, p.idToPointer oid = some (some v) := by
  rw [PinfoPtr.leftOut] at h
  split at h
  case isTrue => cases h
  case isFalse =>
    simp only [Option.bind_eq_bind, Option.bind_eq_some_iff] at h
    obtain ⟨dx, hdx, -⟩ := h
    rw [PinfoPtr.idToDx] at hdx
    split at hdx
    case isFalse => cases hdx
    case isTrue =>
      obtain ⟨j, hj, -⟩ := Option.map_eq_some_iff.mp hdx
      exact ⟨p.dxToPointer j 0, by simp [PinfoPtr.idToPointer, hj]⟩

theorem sameCopy_refl (h : p.leftOut oid = some false) : SameCopy oid n allocated p p := by
  obtain ⟨v, hv⟩ := idToPointer_of_leftOut h
  exact sameCopy_iff.mpr ⟨v, v, hv, hv, fun k _ => ⟨.bits, rfl⟩⟩

theorem sameCopy_symm (h : SameCopy oid n allocated p q) : SameCopy oid n allocated q p := by
  obtain ⟨v, v', hv, hv', hall⟩ := sameCopy_iff.mp h
  refine sameCopy_iff.mpr ⟨v', v, hv', hv, ?_⟩
  intro k hk
  obtain ⟨reason, hholds⟩ := hall k hk
  exact ⟨reason, hholds.symm⟩

theorem sameCopy_trans (h : SameCopy oid n allocated p q) (h' : SameCopy oid n allocated q r)
    (hchains : Chains oid n allocated p q r) : SameCopy oid n allocated p r := by
  obtain ⟨v₁, v₂, hv₁, hv₂, -⟩ := sameCopy_iff.mp h
  obtain ⟨-, v₃, -, hv₃, -⟩ := sameCopy_iff.mp h'
  refine sameCopy_iff.mpr ⟨v₁, v₃, hv₁, hv₃, ?_⟩
  intro k hk
  obtain ⟨reason, hholds, hholds', hcanonical, hplace⟩ := hchains v₁ v₂ v₃ hv₁ hv₂ hv₃ k hk
  exact ⟨reason, hholds.trans hholds' hcanonical hplace⟩

def compared (oid : Word) (partitions : List PinfoPtr) : List PinfoPtr :=
  partitions.filter fun p => p.leftOut oid = some false

theorem mem_compared {ps : List PinfoPtr} : p ∈ compared oid ps ↔ p ∈ ps ∧ p.leftOut oid = some false := by
  rw [compared, List.mem_filter, decide_eq_true_iff]

theorem compared_cons {ps : List PinfoPtr} (h : p.leftOut oid = some false) :
    compared oid (p :: ps) = p :: compared oid ps := List.filter_cons_of_pos (by simp [h])

theorem firstComparable_spec {ps rest : List PinfoPtr} (h : firstComparable oid ps = some (some (p, rest))) :
    compared oid ps = p :: compared oid rest := by
  induction ps with
  | nil => cases h
  | cons first ps ih =>
    simp only [firstComparable, Option.bind_eq_bind, Option.bind_eq_some_iff] at h
    obtain ⟨leftOut, hleft, h⟩ := h
    cases leftOut with
    | true =>
      rw [compared, List.filter_cons_of_neg (by simp [hleft])]
      exact ih h
    | false =>
      cases h
      exact compared_cons hleft

theorem eqRest_spec {ps : List PinfoPtr} {eq eq' : List (List PinfoPtr)}
    (h : eqRest oid n allocated eq ps = some eq') :
    Classes.split (sameCopy oid n allocated) eq (compared oid ps) = some eq' := by
  induction ps generalizing eq with
  | nil => exact h
  | cons p ps ih =>
    simp only [eqRest, Option.bind_eq_bind, Option.bind_eq_some_iff] at h
    obtain ⟨leftOut, hleft, h⟩ := h
    cases leftOut with
    | true =>
      rw [compared, List.filter_cons_of_neg (by simp [hleft])]
      exact ih h
    | false =>
      obtain ⟨next, hplace, h⟩ := Option.bind_eq_some_iff.mp h
      rw [compared_cons hleft, Classes.split_cons, hplace]
      exact ih h

/-- With the replicas in this order, `numWords` words are compared, under this flag. -/
def Begins (oid : Word) (numWords : Nat) (allocated : Bool) (ps : List PinfoPtr) : Prop :=
  ps.head?.map (fun p => p.info.sizeInWords.toNat) = some numWords ∧
    ∃ p₀ rest, firstComparable oid ps = some (some (p₀, rest)) ∧ p₀.allocatedWithData oid = some allocated

theorem eqClasses_spec {ps : List PinfoPtr} {cs : List (List PinfoPtr)} (hbegins : Begins oid n allocated ps)
    (h : eqClasses ps oid = some cs) : ∃ p₀ rest, compared oid ps = p₀ :: rest ∧
      Classes.split (sameCopy oid n allocated) [[p₀]] rest = some cs := by
  obtain ⟨hn, p₀, rest, hfirst, hallocated⟩ := hbegins
  refine ⟨p₀, compared oid rest, firstComparable_spec hfirst, ?_⟩
  cases ps with
  | nil => cases hfirst
  | cons first ps =>
    simp only [List.head?_cons, Option.map_some, Option.some.injEq] at hn
    simp only [eqClasses, hfirst, hallocated, Option.bind_eq_bind, Option.bind_some, hn] at h
    exact eqRest_spec h

theorem equivalenceOn_compared {ps : List PinfoPtr} (htrans : ∀ p ∈ compared oid ps, ∀ q ∈ compared oid ps,
    ∀ r ∈ compared oid ps, SameCopy oid n allocated p q → SameCopy oid n allocated q r →
      SameCopy oid n allocated p r) :
    Classes.EquivalenceOn (SameCopy oid n allocated) (compared oid ps) where
  refl _ hp := sameCopy_refl (mem_compared.mp hp).2
  symm _ _ _ _ h := sameCopy_symm h
  trans := htrans

/-- What holds of the comparison of the copies of an object and of the classes it leads to. -/
structure CopyClasses (oid : Word) (ps : List PinfoPtr) : Prop where
  refl : ∀ n allocated, ∀ p ∈ compared oid ps, SameCopy oid n allocated p p
  symm : ∀ n allocated p q, SameCopy oid n allocated p q → SameCopy oid n allocated q p
  chain : ∀ n allocated p q r, SameCopy oid n allocated p q → SameCopy oid n allocated q r →
    Chains oid n allocated p q r → SameCopy oid n allocated p r
  same : ∀ n allocated, (∀ p ∈ compared oid ps, ∀ q ∈ compared oid ps, ∀ r ∈ compared oid ps,
      SameCopy oid n allocated p q → SameCopy oid n allocated q r → SameCopy oid n allocated p r) →
    ∀ qs rs, qs.Perm ps → rs.Perm ps → Begins oid n allocated qs → Begins oid n allocated rs →
      ∀ cs ds, eqPartition qs oid cs → eqPartition rs oid ds → Classes.Same cs ds
  differ : ∀ n allocated, ∀ p ∈ compared oid ps, ∀ q ∈ compared oid ps, ∀ r ∈ compared oid ps,
    SameCopy oid n allocated p q → SameCopy oid n allocated q r → ¬ SameCopy oid n allocated p r →
      ∀ qs rs, (q :: qs).Perm ps → (p :: rs).Perm ps → Begins oid n allocated (q :: qs) →
        Begins oid n allocated (p :: rs) → ∀ cs ds, eqPartition (q :: qs) oid cs → eqPartition (p :: rs) oid ds →
          ¬ Classes.Same cs ds

theorem same_of_trans {ps qs rs : List PinfoPtr} {cs ds : List (List PinfoPtr)}
    (htrans : ∀ p ∈ compared oid ps, ∀ q ∈ compared oid ps, ∀ r ∈ compared oid ps,
      SameCopy oid n allocated p q → SameCopy oid n allocated q r → SameCopy oid n allocated p r)
    (hqs : qs.Perm ps) (hrs : rs.Perm ps) (hbegins : Begins oid n allocated qs)
    (hbegins' : Begins oid n allocated rs) (h : eqPartition qs oid cs) (h' : eqPartition rs oid ds) :
    Classes.Same cs ds := by
  obtain ⟨classes, heq, hsorted, -⟩ := h
  obtain ⟨classes', heq', hsorted', -⟩ := h'
  obtain ⟨p₀, rest, hp₀, hsplit⟩ := eqClasses_spec hbegins heq
  obtain ⟨p₀', rest', hp₀', hsplit'⟩ := eqClasses_spec hbegins' heq'
  have hmem : ∀ z, z ∈ compared oid qs ↔ z ∈ compared oid ps := fun z => (hqs.filter _).mem_iff
  have hmem' : ∀ z, z ∈ compared oid rs ↔ z ∈ compared oid ps := fun z => (hrs.filter _).mem_iff
  have hequiv := (equivalenceOn_compared htrans).mono fun z hz => (hmem z).mp hz
  have hboth : ∀ z, z ∈ p₀ :: rest ↔ z ∈ p₀' :: rest' := by
    intro z
    rw [← hp₀, ← hp₀', hmem, hmem']
  rw [hp₀] at hequiv
  have hsame := Classes.same_of_equivalence hequiv hboth hsplit hsplit'
  exact ((Classes.Same.of_perm hsorted).trans hsame).trans (Classes.Same.of_perm hsorted').symm

theorem not_same_of_not_trans {ps qs rs : List PinfoPtr} {cs ds : List (List PinfoPtr)}
    (hp : p ∈ compared oid ps) (hq : q ∈ compared oid ps) (hr : r ∈ compared oid ps)
    (hpq : SameCopy oid n allocated p q) (hqr : SameCopy oid n allocated q r)
    (hpr : ¬ SameCopy oid n allocated p r) (hqs : (q :: qs).Perm ps)
    (hbegins : Begins oid n allocated (q :: qs)) (hbegins' : Begins oid n allocated (p :: rs))
    (h : eqPartition (q :: qs) oid cs) (h' : eqPartition (p :: rs) oid ds) : ¬ Classes.Same cs ds := by
  obtain ⟨classes, heq, hsorted, -⟩ := h
  obtain ⟨classes', heq', hsorted', -⟩ := h'
  have hp := mem_compared.mp hp
  have hq := mem_compared.mp hq
  obtain ⟨q₀, rest, hq₀, hsplit⟩ := eqClasses_spec hbegins heq
  obtain ⟨p₀, rest', hp₀, hsplit'⟩ := eqClasses_spec hbegins' heq'
  rw [compared_cons hq.2] at hq₀
  rw [compared_cons hp.2] at hp₀
  obtain ⟨rfl, rfl⟩ := List.cons.inj hq₀
  obtain ⟨rfl, rfl⟩ := List.cons.inj hp₀
  have hrp : r ≠ p := by
    intro heq
    rw [heq] at hpr
    exact hpr (sameCopy_refl hp.2)
  have hrq : r ≠ q := by
    intro heq
    rw [heq] at hpr
    exact hpr hpq
  have hmem : r ∈ compared oid (q :: qs) := (hqs.filter _).mem_iff.mpr hr
  rw [compared_cons hq.2] at hmem
  have hrest := (List.mem_cons.mp hmem).resolve_left hrq
  intro hsame
  apply Classes.not_same hpq hqr hpr hrp hrest hsplit hsplit'
  exact ((Classes.Same.of_perm hsorted).symm.trans hsame).trans (Classes.Same.of_perm hsorted')

theorem copyClasses (oid : Word) (ps : List PinfoPtr) : CopyClasses oid ps where
  refl _ _ _ hp := sameCopy_refl (mem_compared.mp hp).2
  symm _ _ _ _ h := sameCopy_symm h
  chain _ _ _ _ _ h h' hchains := sameCopy_trans h h' hchains
  same _ _ htrans _ _ hqs hrs hbegins hbegins' _ _ h h' := same_of_trans htrans hqs hrs hbegins hbegins' h h'
  differ _ _ _ hp _ hq _ hr hpq hqr hpr _ _ hqs _ hbegins hbegins' _ _ h h' :=
    not_same_of_not_trans hp hq hr hpq hqr hpr hqs hbegins hbegins' h h'

/-- The replica of `deadCore 0x40000008` with allocations 2 and 3 in each other's slots. -/
def swappedCore : List Byte :=
  ([4, 0x9efbdbb3#32, 0xb0000000#32, 0xbf000000#32, 0, 1, 8, 32, 0x40000000#32, 6, 1, 1, 0, 0, 0, 3, 0, 0, 0,
    2, 0, 0, 0] ++ List.replicate 116 0 ++ 0x40000008#32 :: List.replicate 63 0x9efbdbb3#32 ++ [0]).flatMap bytes

def swappedPartition : Pinfo :=
  ⟨8, 2, 32, 0x40000000#32, 0x40000100#32, [6], [1],
    ⟨1, 0, 0, 0⟩ :: ⟨3, 0, 0, 0⟩ :: ⟨2, 0, 0, 0⟩ :: List.replicate 29 ⟨0, 0, 0, 0⟩,
    0x40000008#32 :: List.replicate 63 0x9efbdbb3#32⟩

def swappedReplica : LoadedReplica where
  file := ⟨4, 0x9efbdbb3#32, 0xb0000000#32, 0xbf000000#32, 0, [swappedPartition], fun _ => none, fun _ => none⟩
  pmap := fill (slotEntries [swappedPartition] 0) fun _ => none
  losKeys := []
  mem_losKeys := by simp

def swapped : PinfoPtr := ⟨swappedReplica, 0, swappedPartition, rfl, PinfoPtr.two_eq_eight_div⟩

set_option maxRecDepth 10000 in
theorem readCore_swapped : readCore swappedCore = some (swapped.rep.file, swapped.rep.pmap) := by
  rw [readCore, swappedCore, words_bytes]
  rfl

theorem sameCopy_swapped : sameCopy 1 2 false (dead 0x40000008#32) swapped = some true ∧
    sameCopy 1 2 false swapped (dead 0x40000010#32) = some true ∧
    sameCopy 1 2 false (dead 0x40000008#32) (dead 0x40000010#32) = some false := by
  decide

def threeCopies : List PinfoPtr := [dead 0x40000008#32, swapped, dead 0x40000010#32]

theorem compared_threeCopies : compared 1 threeCopies = threeCopies := by
  rw [compared, List.filter_eq_self]
  simp only [threeCopies, List.forall_mem_cons]
  exact ⟨by decide, by decide, by decide, List.forall_mem_nil _⟩

theorem eqClasses_swapped : eqClasses [swapped, dead 0x40000008#32, dead 0x40000010#32] 1 =
    some [[swapped, dead 0x40000008#32, dead 0x40000010#32]] := by
  rfl

theorem eqClasses_dead : eqClasses [dead 0x40000008#32, swapped, dead 0x40000010#32] 1 =
    some [[dead 0x40000008#32, swapped], [dead 0x40000010#32]] := by
  rfl

/-- The comparison of three replicas is no equivalence, and the classes depend on their order. -/
theorem not_equivalence_swapped :
    (∀ p ∈ threeCopies, ∃ core, readCore core = some (p.rep.file, p.rep.pmap)) ∧
      ¬ Classes.EquivalenceOn (SameCopy 1 2 false) (compared 1 threeCopies) ∧
      ¬ ∀ qs rs cs ds, qs.Perm threeCopies → rs.Perm threeCopies → eqPartition qs 1 cs → eqPartition rs 1 ds →
        Classes.Same cs ds := by
  obtain ⟨hpq, hqr, hpr⟩ := sameCopy_swapped
  have hpr : ¬ SameCopy 1 2 false (dead 0x40000008#32) (dead 0x40000010#32) := by
    rw [SameCopy, Classes.Accepts, hpr]
    decide
  have hp : dead 0x40000008#32 ∈ compared 1 threeCopies := by
    rw [compared_threeCopies]
    simp [threeCopies]
  have hq : swapped ∈ compared 1 threeCopies := by
    rw [compared_threeCopies]
    simp [threeCopies]
  have hr : dead 0x40000010#32 ∈ compared 1 threeCopies := by
    rw [compared_threeCopies]
    simp [threeCopies]
  refine ⟨?_, ?_, ?_⟩
  · simp only [threeCopies, List.forall_mem_cons]
    exact ⟨⟨_, readCore_dead (Or.inl rfl)⟩, ⟨_, readCore_swapped⟩, ⟨_, readCore_dead (Or.inr rfl)⟩,
      List.forall_mem_nil _⟩
  · intro hequiv
    exact hpr (hequiv.trans _ hp _ hq _ hr hpq hqr)
  · intro hsame
    have hperm : [swapped, dead 0x40000008#32, dead 0x40000010#32].Perm threeCopies := .swap _ _ _
    have hone : eqPartition [swapped, dead 0x40000008#32, dead 0x40000010#32] 1
        [[swapped, dead 0x40000008#32, dead 0x40000010#32]] :=
      ⟨_, eqClasses_swapped, .refl _, List.pairwise_singleton _ _⟩
    have htwo : eqPartition threeCopies 1 [[dead 0x40000010#32], [dead 0x40000008#32, swapped]] := by
      refine ⟨_, eqClasses_dead, .swap _ _ _, ?_⟩
      simp
    have hbegins : Begins 1 2 false [swapped, dead 0x40000008#32, dead 0x40000010#32] :=
      ⟨rfl, _, _, rfl, by decide⟩
    have hbegins' : Begins 1 2 false threeCopies := ⟨rfl, _, _, rfl, by decide⟩
    apply not_same_of_not_trans hp hq hr hpq hqr hpr hperm hbegins hbegins' hone htwo
    exact hsame _ _ _ _ hperm (.refl _) hone htwo

end DieHard.Exterminator
