import DieHard.Exterminator.CanaryScore

/-!
# From heaps to patches

What `compare_heaps` does to the patches: it adds padding where the damage of an outlier shows which object overflowed,
and longer lives for objects that have been damaged in the same way in two replicas or have unlikely scores. Where the
heaps agree, only the scores count.
-/

namespace DieHard.Exterminator

open PatchDatabase

namespace Member

variable {oid : Word} {n : Nat} {allocated : Bool} {m : Member} {members ms : List Member}
  {eq eq' : List (List Member)}

def copies (oid : Word) (members : List Member) : List Member :=
  members.filter fun m => m.ptr.leftOut oid = some false

theorem copies_cons (h : m.ptr.leftOut oid = some false) : copies oid (m :: ms) = m :: copies oid ms :=
  List.filter_cons_of_pos (by simp [h])

theorem copies_cons_of_leftOut (h : m.ptr.leftOut oid = some true) : copies oid (m :: ms) = copies oid ms :=
  List.filter_cons_of_neg (by simp [h])

theorem first_spec (h : first oid members = some (some (m, ms))) : copies oid members = m :: copies oid ms := by
  induction members with
  | nil => cases h
  | cons m' members ih =>
    obtain ⟨leftOut, hleft, h⟩ := Option.bind_eq_some_iff.mp h
    cases leftOut with
    | true =>
      rw [copies_cons_of_leftOut hleft]
      exact ih h
    | false =>
      cases h
      exact copies_cons hleft

theorem rest_spec (h : rest oid n allocated eq members = some eq') :
    Classes.split (same oid n allocated) eq (copies oid members) = some eq' := by
  induction members generalizing eq with
  | nil => exact h
  | cons m members ih =>
    obtain ⟨leftOut, hleft, h⟩ := Option.bind_eq_some_iff.mp h
    cases leftOut with
    | true =>
      rw [copies_cons_of_leftOut hleft]
      exact ih h
    | false =>
      obtain ⟨next, hplace, h⟩ := Option.bind_eq_some_iff.mp h
      rw [copies_cons hleft, Classes.split_cons, hplace]
      exact ih h

theorem classes_spec (h : classes members oid = some eq) : ∃ m₀ ms n allocated,
    copies oid members = m₀ :: ms ∧ members.head?.map (fun m => m.ptr.info.sizeInWords.toNat) = some n ∧
      Classes.split (same oid n allocated) [[m₀]] ms = some eq := by
  obtain ⟨found, hfound, h⟩ := Option.bind_eq_some_iff.mp h
  cases members with
  | nil => cases h
  | cons m members =>
    cases found with
    | none => cases h
    | some r =>
      obtain ⟨allocated, -, h⟩ := Option.bind_eq_some_iff.mp h
      exact ⟨r.1, copies oid r.2, _, allocated, first_spec hfound, rfl, rest_spec h⟩

theorem headed_classes {m₀ : Member} (h : Classes.split (same oid n allocated) [[m₀]] ms = some eq) :
    Classes.Headed (same oid n allocated) eq := by
  apply Classes.Headed.split _ h
  intro d hd
  exact ⟨m₀, [], List.mem_singleton.mp hd, by simp⟩

/-- A copy that is not alone is found equal to that of another replica. -/
theorem exists_same (h : classes members oid = some eq') (hperm : eq.Perm eq')
    (hids : (members.map replicaId).Nodup) (hm : m ∈ copies oid members) (hnot : m.isOutlier eq = false) :
    ∃ n, members.head?.map (fun m => m.ptr.info.sizeInWords.toNat) = some n ∧
      ∃ m' ∈ members, m'.replicaId ≠ m.replicaId ∧
        ∃ allocated, SameCopy oid n allocated m.ptr m'.ptr := by
  obtain ⟨m₀, ms, n, allocated, hcopies, hn, hsplit⟩ := classes_spec h
  refine ⟨n, hn, ?_⟩
  have hflatten : eq.flatten.Perm (copies oid members) := by
    rw [hcopies]
    exact hperm.flatten.trans (Classes.split_perm hsplit)
  have hnodup : (eq.flatten.map replicaId).Nodup := by
    rw [(hflatten.map replicaId).nodup_iff]
    exact hids.sublist (List.filter_sublist.map replicaId)
  obtain ⟨d, hd, hmd⟩ := List.mem_flatten.mp (hflatten.mem_iff.mpr hm)
  obtain ⟨first, others, rfl, hothers⟩ := headed_classes hsplit d (hperm.mem_iff.mp hd)
  have hmem : ∀ x ∈ first :: others, x ∈ members := by
    intro x hx
    have hx : x ∈ copies oid members := hflatten.mem_iff.mp (List.mem_flatten.mpr ⟨_, hd, hx⟩)
    exact List.mem_of_mem_filter hx
  have hclass : ((first :: others).map replicaId).Nodup := by
    rw [List.map_flatten] at hnodup
    exact (List.nodup_flatten.mp hnodup).1 _ (List.mem_map_of_mem hd)
  rw [List.map_cons, List.nodup_cons] at hclass
  rcases List.mem_cons.mp hmd with rfl | hmo
  · -- the first member of its class has another one behind it
    cases others with
    | nil =>
      have houtlier : m.isOutlier eq = true := List.any_eq_true.mpr ⟨[m], hd, by simp⟩
      rw [hnot] at houtlier
      cases houtlier
    | cons m' others =>
      refine ⟨m', hmem m' (by simp), ?_, allocated, hothers m' List.mem_cons_self⟩
      intro heq
      exact hclass.1 (heq ▸ List.mem_map_of_mem List.mem_cons_self)
  · refine ⟨first, hmem first List.mem_cons_self, ?_, allocated, sameCopy_symm (hothers m hmo)⟩
    intro heq
    exact hclass.1 (heq ▸ List.mem_map_of_mem hmo)

end Member

theorem PinfoPtr.leftOut_of_deadCanary {p : PinfoPtr} {oid : Word} {k : Nat} (hdead : p.deadCanary k = true)
    (hlt : oid < p.rep.file.globalAllocs) (hk : k < p.info.elements.toNat) (hplace : p.pmap oid = some k) :
    p.leftOut oid = some false := by
  have hdx : p.idToDx oid = some (k : Int) := by
    rw [idToDx, if_pos hlt, hplace]
    rfl
  simp only [deadCanary, Bool.and_eq_true, Bool.not_eq_true'] at hdead
  have hdata : p.idHasData oid = some false := by
    rw [idHasData, hdx, Option.bind_eq_bind, Option.bind_some, if_pos (by omega), dxHasData, if_pos (by omega),
      Int.toNat_natCast, hdead.1]
  rw [leftOut, if_neg (BitVec.not_le.mpr hlt), hdx, Option.bind_eq_bind, Option.bind_some, if_neg (by omega), hdata,
    Option.bind_eq_bind, Option.bind_some, hdead.2]
  rfl

namespace HeapComparison

variable {c : HeapComparison} {i : Nat} {members : List Member} {reports : List Report}
  {evalProbability : Int → Int → ℚ} {db db' : PatchDatabase}

theorem nodup_group (h : c.group i = some members) : (members.map Member.replicaId).Nodup := by
  obtain ⟨ps, -, rfl⟩ := Option.map_eq_some_iff.mp h
  have hids : (ps.mapIdx Member.mk).map Member.replicaId = List.range ps.length := by
    apply List.ext_getElem
    · simp
    · intro j hj hj'
      simp
  rw [hids]
  exact List.nodup_range

def Pads (c : HeapComparison) (site : Word) (v : Nat) : Prop :=
  ∃ item b, c.Suspect item ∧ 2 ≤ item.pgroup.length ∧ item.IsBest 0 b ∧
    item.perr.dxToAllocSite b.slot = site ∧ item.padding b.slot b.offset % 2 ^ 32 = v

/-- The copy in slot `k` is not compared: the replica has not had the object, or its map leads to another slot. -/
def Uncompared (m : Member) (k : Nat) : Prop :=
  m.ptr.rep.file.globalAllocs ≤ m.ptr.dxToId k ∨ m.ptr.pmap (m.ptr.dxToId k) ≠ some k

/-- A freed object of the sites has a corrupt canary, and another replica has a copy with the same damage, unless
this copy is not compared. -/
def SameDamage (c : HeapComparison) (key : Sites) : Prop :=
  ∃ i members m k, c.group i = some members ∧ m ∈ members ∧ k < m.ptr.info.elements.toNat ∧
    m.ptr.deadCanary k = true ∧ m.ptr.idToAllocSite (m.ptr.dxToId k) = some key.1 ∧
    m.ptr.idToFreeSite (m.ptr.dxToId k) = some key.2 ∧
    (Uncompared m k ∨ ∃ n, members.head?.map (fun m => m.ptr.info.sizeInWords.toNat) = some n ∧
      ∃ m' ∈ members, m'.replicaId ≠ m.replicaId ∧
        ∃ allocated, SameCopy (m.ptr.dxToId k) n allocated m.ptr m'.ptr)

theorem deltas_heapReports (h : c.heapReports = some reports) (db : PatchDatabase) (site : Word) :
    db.deltas reports site = {v | db.deltaOf site = some v} ∪ {v | c.Pads site v} := by
  ext v
  apply or_congr Iff.rfl
  constructor
  · rintro ⟨delta, hdelta, rfl⟩
    rcases (mem_heapReports h).mp hdelta with ⟨item, hsuspect, hreport⟩ | hdangling
    · obtain ⟨henough, b, hb, heq⟩ := (WorklistItem.checkOverflow_iff hreport _).mp rfl
      obtain ⟨rfl, rfl⟩ := Report.overflow.inj heq
      exact ⟨item, b, hsuspect, henough, hb, rfl, (BitVec.toNat_ofNat _ _).symm⟩
    · cases hdangling
  · rintro ⟨item, b, hsuspect, henough, hb, rfl, rfl⟩
    refine ⟨BitVec.ofNat 32 (item.padding b.slot b.offset), ?_, BitVec.toNat_ofNat _ _⟩
    obtain ⟨report, hreport⟩ := hsuspect.checked h
    have hsome := (WorklistItem.checkOverflow_iff hreport _).mpr ⟨henough, b, hb, rfl⟩
    exact (mem_heapReports h).mpr (Or.inl ⟨item, hsuspect, hsome ▸ hreport⟩)

theorem Dangling.sameDamage {allocSite freeSite td : Word} (h : c.Dangling (.dangPtr allocSite freeSite td)) :
    c.SameDamage (allocSite, freeSite) := by
  cases h with
  | @canary i k n members m r₀ eq _ _ freeTime replica partition group member slot dead used classes together
      several ne allocated freed time =>
    refine ⟨i, members, m, k, group, member, slot, dead, allocated, freed, or_iff_not_imp_left.mpr ?_⟩
    intro hcompared
    rw [Uncompared, not_or, not_not, BitVec.not_le] at hcompared
    obtain ⟨eq', hclasses, rfl⟩ := Option.map_eq_some_iff.mp classes
    have hcopy : m ∈ Member.copies (m.ptr.dxToId k) members :=
      List.mem_filter.mpr
        ⟨member, by simp [PinfoPtr.leftOut_of_deadCanary dead hcompared.1 slot hcompared.2]⟩
    exact Member.exists_same hclasses (c.sort_perm eq') (nodup_group group) hcopy together

theorem sameDamage_of_ne (h : c.heapReports = some reports) {key : Sites}
    (hne : (db.reportAll reports).danglePatches[key]? ≠ db.danglePatches[key]?) : c.SameDamage key := by
  have hreported : ∀ rs : List Report, (∀ r ∈ rs, r ∈ reports) → ∀ db : PatchDatabase,
      (db.reportAll rs).danglePatches[key]? ≠ db.danglePatches[key]? →
        ∃ td, .dangPtr key.1 key.2 td ∈ reports := by
    intro rs
    induction rs with
    | nil => exact fun _ db hne => absurd rfl hne
    | cons r rs ih =>
      intro hrs db hne
      obtain ⟨hr, hrs⟩ := List.forall_mem_cons.mp hrs
      by_cases hsame : (db.report r).danglePatches[key]? = db.danglePatches[key]?
      · exact ih hrs (db.report r) (hsame.symm ▸ hne)
      · cases r with
        | overflow callsite delta => exact absurd (by rw [report, danglePatches_doOverflow]) hsame
        | dangPtr allocSite freeSite td =>
          obtain rfl := (onlyDangles_doDangPtr db allocSite freeSite td).dangle key hsame
          exact ⟨td, hr⟩
  obtain ⟨td, hmem⟩ := hreported reports (fun _ hr => hr) db hne
  rcases (mem_heapReports h).mp hmem with ⟨item, -, hreport⟩ | hdangling
  · obtain ⟨-, b, -, heq⟩ := (WorklistItem.checkOverflow_iff hreport _).mp rfl
    cases heq
  · exact hdangling.sameDamage

/-- A site gets the largest padding among what it has and what the suspects lead to. Objects live longer only where
two replicas show the same damage, or where a score or the counts of the sites are unlikely. -/
theorem compareHeaps_patches (h : c.compareHeaps evalProbability db = some db') :
    (∀ site v, db'.deltaOf site = some v ↔
      IsGreatest ({v | db.deltaOf site = some v} ∪ {v | c.Pads site v}) v) ∧
    ∀ key, db'.danglePatches[key]? ≠ db.danglePatches[key]? →
      c.SameDamage key ∨ c.Unlikely evalProbability key ∨ UnlikelySites evalProbability db' key := by
  obtain ⟨reports, hreports, h⟩ := Option.bind_eq_some_iff.mp h
  obtain ⟨score, hscore, h⟩ := Option.bind_eq_some_iff.mp h
  have hsearch := onlyDangles_dangPtrReadSearch hscore h
  constructor
  · intro site v
    rw [deltaOf, hsearch.overflow, ← deltaOf, deltaOf_reportAll, MaxTable.raiseAll_eq_some_iff, reported_deltas,
      deltas_heapReports hreports]
  · intro key hne
    by_cases hsame : (db.reportAll reports).danglePatches[key]? = db.danglePatches[key]?
    · exact Or.inr (hsearch.dangle key (hsame.symm ▸ hne))
    · exact Or.inl (sameDamage_of_ne hreports hsame)

/-- Three replicas with the same overflow. -/
def overflowedHeaps : HeapComparison where
  replicas := [WorklistItem.overflowedReplica, WorklistItem.overflowedReplica, WorklistItem.overflowedReplica]
  sort := List.insertionSort fun d e => d.length ≤ e.length
  sort_perm eq := List.perm_insertionSort _ eq
  sort_sorted eq := List.pairwise_insertionSort _ eq

set_option maxRecDepth 20000 in
theorem heapReports_overflowedHeaps : overflowedHeaps.heapReports =
    some [.overflow 0x77#32 4, .overflow 0x77#32 4, .overflow 0x77#32 4] := rfl

def tosses (h t : Int) : ℚ := 1 / 2 ^ (h + t).toNat

theorem compareHeaps_patches_overflowedHeaps : ∃ db', overflowedHeaps.compareHeaps tosses empty = some db' ∧
    (∀ site v, db'.deltaOf site = some v ↔
      IsGreatest ({v | empty.deltaOf site = some v} ∪ {v | overflowedHeaps.Pads site v}) v) ∧
    ∀ key, db'.danglePatches[key]? ≠ empty.danglePatches[key]? → overflowedHeaps.SameDamage key ∨
      overflowedHeaps.Unlikely tosses key ∨ UnlikelySites tosses db' key := by
  have hends : (overflowedHeaps.compareHeaps tosses empty).isSome := by decide +kernel
  obtain ⟨db', h⟩ := Option.isSome_iff_exists.mp hends
  exact ⟨db', h, compareHeaps_patches h⟩

theorem rep_mem_of_mapM {rs : List LoadedReplica} {ps : List PinfoPtr} {p : PinfoPtr}
    (h : rs.mapM (LoadedReplica.pinfoPtr · i) = some ps) (hp : p ∈ ps) : p.rep ∈ rs := by
  induction rs generalizing ps with
  | nil =>
    cases h
    cases hp
  | cons r rs ih =>
    rw [List.mapM_cons] at h
    obtain ⟨q, hq, h⟩ := Option.bind_eq_some_iff.mp h
    obtain ⟨rest, hrest, h⟩ := Option.bind_eq_some_iff.mp h
    cases h
    rcases List.mem_cons.mp hp with rfl | hp
    · rw [LoadedReplica.pinfoPtr] at hq
      split at hq
      · cases hq
      split at hq
      · cases hq
        exact List.mem_cons_self
      · cases hq
    · exact List.mem_cons_of_mem _ (ih hrest hp)

theorem mem_group (h : c.group i = some members) {m : Member} (hm : m ∈ members) : m.ptr.rep ∈ c.replicas := by
  obtain ⟨ps, hps, rfl⟩ := Option.map_eq_some_iff.mp h
  obtain ⟨j, hj, rfl⟩ := List.mem_mapIdx.mp hm
  exact rep_mem_of_mapM hps (List.getElem_mem hj)

theorem mem_groupOf {oid : Word} (h : c.groupOf oid = some members) {m : Member} (hm : m ∈ members) :
    m.ptr.rep ∈ c.replicas := by
  obtain ⟨r₀, -, h⟩ := Option.bind_eq_some_iff.mp h
  obtain ⟨place, -, h⟩ := Option.bind_eq_some_iff.mp h
  obtain ⟨members', hmembers, h⟩ := Option.bind_eq_some_iff.mp h
  obtain ⟨m₀, -, h⟩ := Option.bind_eq_some_iff.mp h
  split at h
  · cases h
    exact mem_group hmembers hm
  · cases h

theorem foldl_globalAllocs_le (rs : List LoadedReplica) (n : Word) :
    rs.foldl (fun m r => if r.file.globalAllocs < m then r.file.globalAllocs else m) n ≤ n ∧
      ∀ r ∈ rs, rs.foldl (fun m r => if r.file.globalAllocs < m then r.file.globalAllocs else m) n ≤
        r.file.globalAllocs := by
  induction rs generalizing n with
  | nil => exact ⟨BitVec.le_refl n, by simp⟩
  | cons r rs ih =>
    obtain ⟨hle, hall⟩ := ih (if r.file.globalAllocs < n then r.file.globalAllocs else n)
    rw [List.foldl_cons]
    have hfirst : (if r.file.globalAllocs < n then r.file.globalAllocs else n) ≤ n ∧
        (if r.file.globalAllocs < n then r.file.globalAllocs else n) ≤ r.file.globalAllocs := by
      split
      case isTrue hlt => exact ⟨BitVec.le_of_lt hlt, BitVec.le_refl _⟩
      case isFalse hge => exact ⟨BitVec.le_refl _, BitVec.not_lt.mp hge⟩
    exact ⟨BitVec.le_trans hle hfirst.1, List.forall_mem_cons.mpr ⟨BitVec.le_trans hle hfirst.2, hall⟩⟩

/-- Each replica has had the objects that are compared. -/
theorem lt_globalAllocs {a : Int} {oid : Word} {r : LoadedReplica} (ha : c.minAllocated = some a)
    (hpos : 0 < oid.toInt) (hlt : oid.toInt < a) (hr : r ∈ c.replicas) : oid < r.file.globalAllocs := by
  rw [minAllocated] at ha
  split at ha
  · cases ha
  rename_i r₀ rs hreplicas
  split at ha
  · obtain rfl := Option.some.inj ha
    have hle := foldl_globalAllocs_le rs r₀.file.globalAllocs
    generalize rs.foldl (fun m r => if r.file.globalAllocs < m then r.file.globalAllocs else m)
      r₀.file.globalAllocs = least at hle hlt
    have hleast : least ≤ r.file.globalAllocs := by
      rw [hreplicas] at hr
      rcases List.mem_cons.mp hr with rfl | hr
      · exact hle.1
      · exact hle.2 r hr
    have hoid : oid < least := by
      rw [BitVec.lt_def]
      rw [BitVec.toInt_eq_toNat_cond] at hpos hlt
      rw [BitVec.toInt_eq_toNat_cond] at hlt
      have := oid.isLt
      have := least.isLt
      split at hlt <;> split at hlt <;> omega
    rw [BitVec.lt_def] at hoid ⊢
    rw [BitVec.le_def] at hleast
    omega
  · cases ha

/-- The copies of the object agree: each replica has it at the same partition, and those that are compared with the
first copy come from the same call site and have words that are accepted for some reason. -/
structure Agree (members : List Member) (oid : Word) : Prop where
  place : ∀ m ∈ members, ∃ k, m.ptr.pmap oid = some k ∧ k < m.ptr.info.elements.toNat
  site : ∀ m ∈ members, ∀ m' ∈ members, m.ptr.leftOut oid = some false → m'.ptr.skipped oid = some false →
    m.ptr.idToAllocSite oid = m'.ptr.idToAllocSite oid
  words : ∀ m ∈ members, ∀ m' ∈ members, m.ptr.leftOut oid = some false → m'.ptr.skipped oid = some false →
    ∀ allocated v v', m.ptr.idAllocated oid = some allocated → m.ptr.idToPointer oid = some (some v) →
      m'.ptr.idToPointer oid = some (some v') → ∀ k < m.ptr.info.sizeInWords.toNat,
        ∃ reason : Reason, reason.Holds m.ptr m'.ptr (v + k) (v' + k) allocated

section Lookup

variable {p : PinfoPtr} {oid : Word} {k : Nat}

theorem lookups (hlt : oid < p.rep.file.globalAllocs) (hplace : p.pmap oid = some k)
    (hk : k < p.info.elements.toNat) : (p.leftOut oid).isSome ∧ (p.skipped oid).isSome ∧
      (p.idAllocated oid).isSome ∧ (p.idToAllocSite oid).isSome ∧ ∃ v, p.idToPointer oid = some (some v) := by
  have hdx : p.idToDx oid = some (k : Int) := by
    rw [PinfoPtr.idToDx, if_pos hlt, hplace]
    rfl
  have hdata : p.idHasData oid = some (p.info.dxHasData k) := by
    simp [PinfoPtr.idHasData, hdx, PinfoPtr.dxHasData, hk]
  have hallocated : p.idAllocated oid = some (p.info.dxAllocated k) := by
    simp [PinfoPtr.idAllocated, hdx, PinfoPtr.dxAllocated, hk]
  have hpointer : p.idToPointer oid = some (some (p.dxToPointer k 0)) := by
    simp [PinfoPtr.idToPointer, hplace]
  refine ⟨?_, ?_, by simp [hallocated], by simp [PinfoPtr.idToAllocSite, hplace], _, hpointer⟩
  · simp only [PinfoPtr.leftOut, BitVec.not_le.mpr hlt, hdx, hdata, Option.bind_eq_bind, Option.bind_some, if_false]
    split <;> rfl
  · simp only [PinfoPtr.skipped, BitVec.not_le.mpr hlt, hdx, hallocated, Option.bind_eq_bind, Option.bind_some,
      if_false]
    split <;> rfl

end Lookup

section Agree

variable {oid : Word} {p₀ : PinfoPtr} {ps rest : List PinfoPtr} {a₀ : Word} {allocated : Bool}

theorem firstComparable_cases (h : ∀ p ∈ ps, (p.leftOut oid).isSome) :
    firstComparable oid ps = some none ∨ ∃ p₀ rest, firstComparable oid ps = some (some (p₀, rest)) ∧
      p₀ ∈ ps ∧ p₀.leftOut oid = some false ∧ ∀ p ∈ rest, p ∈ ps := by
  induction ps with
  | nil => exact Or.inl rfl
  | cons p ps ih =>
    obtain ⟨hp, hps⟩ := List.forall_mem_cons.mp h
    obtain ⟨leftOut, hleft⟩ := Option.isSome_iff_exists.mp hp
    rw [firstComparable, hleft, Option.bind_eq_bind, Option.bind_some]
    cases leftOut with
    | true =>
      rcases ih hps with hnone | ⟨p₀, rest, hfirst, hmem, hleft, hrest⟩
      · exact Or.inl hnone
      · exact Or.inr ⟨p₀, rest, hfirst, List.mem_cons_of_mem _ hmem, hleft,
          fun q hq => List.mem_cons_of_mem _ (hrest q hq)⟩
    | false => exact Or.inr ⟨p, ps, rfl, List.mem_cons_self, hleft, fun q hq => List.mem_cons_of_mem _ hq⟩

theorem compareRest_ok (h : ∀ p ∈ rest, p.skipped oid = some true ∨
      p.skipped oid = some false ∧ p.idToAllocSite oid = some a₀ ∧
        ∃ v v', p₀.idToPointer oid = some (some v) ∧ p.idToPointer oid = some (some v') ∧
          ∀ k < p₀.info.sizeInWords.toNat, ∃ reason : Reason,
            reason.Holds p₀ p (v + k) (v' + k) allocated) :
    compareRest compareRange p₀ oid a₀ allocated rest = some statusOk := by
  induction rest with
  | nil => rfl
  | cons p rest ih =>
    obtain ⟨hp, hrest⟩ := List.forall_mem_cons.mp h
    rcases hp with hskipped | ⟨hskipped, hsite, v, v', hv, hv', hwords⟩
    · rw [compareRest, hskipped]
      exact ih hrest
    · have hrange : compareRange p₀ p v v' p₀.info.sizeInWords.toNat allocated = some statusOk :=
        rangeStatus_ok_iff.mpr fun k hk => compareWords_ok_iff.mpr (hwords k hk)
      simp only [compareRest, hskipped, hsite, hv, hv', Option.bind_eq_bind, Option.bind_some, Option.join_some,
        hrange]
      simpa using ih hrest

theorem Agree.compareSlot_eq (h : Agree members oid) (hpos : 0 < oid.toInt)
    (hlt : ∀ m ∈ members, oid < m.ptr.rep.file.globalAllocs) :
    ∃ st, compareSlot (members.map Member.ptr) oid = some st ∧ (st = statusOk ∨ st = allocOnlyOne ∨ st = dne) := by
  have hlookups : ∀ m ∈ members, (m.ptr.leftOut oid).isSome ∧ (m.ptr.skipped oid).isSome ∧
      (m.ptr.idAllocated oid).isSome ∧ (m.ptr.idToAllocSite oid).isSome ∧
        ∃ v, m.ptr.idToPointer oid = some (some v) := by
    intro m hm
    obtain ⟨k, hplace, hk⟩ := h.place m hm
    exact lookups (hlt m hm) hplace hk
  rw [compareSlot, compareSlotWith, if_pos hpos]
  have hleft : ∀ p ∈ members.map Member.ptr, (p.leftOut oid).isSome :=
    List.forall_mem_map.mpr fun m hm => (hlookups m hm).1
  rcases firstComparable_cases hleft with hnone | ⟨p₀, rest, hfirst, hmem, hcompared, hrest⟩
  · rw [hnone]
    exact ⟨dne, rfl, Or.inr (Or.inr rfl)⟩
  · obtain ⟨m₀, hm₀, rfl⟩ := List.mem_map.mp hmem
    obtain ⟨-, -, hallocated, hsite, v, hv⟩ := hlookups m₀ hm₀
    obtain ⟨allocated, hallocated⟩ := Option.isSome_iff_exists.mp hallocated
    obtain ⟨a₀, hsite⟩ := Option.isSome_iff_exists.mp hsite
    simp only [hfirst, hsite, Option.bind_eq_bind, Option.bind_some]
    split
    · exact ⟨allocOnlyOne, rfl, Or.inr (Or.inl rfl)⟩
    · rw [hallocated, Option.bind_some]
      refine ⟨statusOk, compareRest_ok ?_, Or.inl rfl⟩
      intro p hp
      obtain ⟨m, hm, rfl⟩ := List.mem_map.mp (hrest p hp)
      obtain ⟨-, hskipped, -, -, v', hv'⟩ := hlookups m hm
      obtain ⟨skipped, hskipped⟩ := Option.isSome_iff_exists.mp hskipped
      cases skipped with
      | true => exact Or.inl hskipped
      | false =>
        exact Or.inr ⟨hskipped, (h.site m₀ hm₀ m hm hcompared hskipped).symm.trans hsite, v, v', hv, hv',
          h.words m₀ hm₀ m hm hcompared hskipped allocated v v' hallocated hv hv'⟩

end Agree

/-- The loops report nothing about heaps whose objects agree and whose canaries are intact. -/
theorem heapReports_eq_nil {a : Int} (ha : c.minAllocated = some a)
    (hobjects : ∀ oid : Word, 0 < oid.toInt → oid.toInt < a →
      ∃ members, c.groupOf oid = some members ∧ Agree members oid)
    (hcanaries : ∀ r₀ i, c.replicas.head? = some r₀ → i < r₀.file.partitions.length →
      ∃ members, c.group i = some members ∧
        ∀ m ∈ members, ∀ k < m.ptr.info.elements.toNat, m.ptr.deadCanary k = false) :
    c.heapReports = some [] := by
  have hfirst : ∀ oids : List Word, (∀ oid ∈ oids, 0 < oid.toInt ∧ oid.toInt < a) →
      c.objectLoop oids = some [] := by
    intro oids
    induction oids with
    | nil => exact fun _ => rfl
    | cons oid oids ih =>
      intro hoids
      obtain ⟨⟨hpos, hlt⟩, hrest⟩ := List.forall_mem_cons.mp hoids
      obtain ⟨members, hmembers, hagree⟩ := hobjects oid hpos hlt
      obtain ⟨st, hst, hok⟩ := hagree.compareSlot_eq hpos fun m hm =>
        lt_globalAllocs ha hpos hlt (mem_groupOf hmembers hm)
      have hobject : c.compareObject oid = some (some []) := by
        rw [compareObject, hmembers, Option.bind_eq_bind, Option.bind_some, hst, Option.bind_eq_bind,
          Option.bind_some, if_pos hok]
      rw [objectLoop, hobject, Option.bind_eq_bind, Option.bind_some]
      simp only [ih hrest, Option.map_some, List.append_nil]
  have hsecond : c.canaryLoop = some [] := by
    cases hreplicas : c.replicas with
    | nil =>
      rw [minAllocated, hreplicas] at ha
      cases ha
    | cons r₀ rs =>
      have hhead : c.replicas.head? = some r₀ := by rw [hreplicas, List.head?_cons]
      rw [canaryLoop, hhead, Option.bind_eq_bind, Option.bind_some]
      apply collect_eq_nil
      intro i hi
      obtain ⟨members, hmembers, hintact⟩ := hcanaries r₀ i hhead (List.mem_range.mp hi)
      rw [hmembers, Option.bind_eq_bind, Option.bind_some]
      apply collect_eq_nil
      intro m hm
      apply collect_eq_nil
      intro k hk
      rw [compareCanary, if_pos (hintact m hm k (List.mem_range.mp hk))]
  have hoids : ∀ oid ∈ objects a, 0 < oid.toInt ∧ oid.toInt < a := by
    intro oid hoid
    obtain ⟨j, hj⟩ := List.mem_iff_getElem?.mp hoid
    have hspec := (getElem?_objects (minAllocated_lt ha)).mp hj
    exact ⟨by omega, hspec.2⟩
  rw [heapReports, ha, Option.bind_eq_bind, Option.bind_some, hfirst _ hoids, Option.bind_eq_bind,
    Option.bind_some, hsecond]
  rfl

/-- Where the heaps agree and the search finds the objects of all slots, the comparison ends, and all that it changes
are patches for dangling pointers where a score or the counts of the sites are unlikely. -/
theorem compareHeaps_of_agree (evalProbability : Int → Int → ℚ) (db : PatchDatabase) {a : Int}
    (ha : c.minAllocated = some a)
    (hobjects : ∀ oid : Word, 0 < oid.toInt → oid.toInt < a →
      ∃ members, c.groupOf oid = some members ∧ Agree members oid)
    (hcanaries : ∀ r₀ i, c.replicas.head? = some r₀ → i < r₀.file.partitions.length →
      ∃ members, c.group i = some members ∧
        ∀ m ∈ members, ∀ k < m.ptr.info.elements.toNat, m.ptr.deadCanary k = false)
    (hfound : ∀ i members, c.group i = some members → ∀ m ∈ members, ∀ k < m.ptr.info.elements.toNat,
      m.ptr.dxToId k ≠ 0 → c.Found i (m.ptr.dxToId k)) :
    ∃ db', c.compareHeaps evalProbability db = some db' ∧ db'.overflowPatches = db.overflowPatches ∧
      ∀ key, db'.danglePatches[key]? ≠ db.danglePatches[key]? →
        c.Unlikely evalProbability key ∨ UnlikelySites evalProbability db' key := by
  obtain ⟨r₀, hr₀⟩ : ∃ r₀, c.replicas.head? = some r₀ := by
    cases hreplicas : c.replicas with
    | nil =>
      rw [minAllocated, hreplicas] at ha
      cases ha
    | cons r₀ rs => exact ⟨r₀, rfl⟩
  obtain ⟨score, hscore⟩ : ∃ score, c.canaryScore = some score := by
    obtain ⟨l, hl⟩ := exists_collect (f := fun i => (c.group i).map (groupObservations i))
      (l := List.range r₀.file.partitions.length) fun i hi => by
        obtain ⟨members, hmembers, -⟩ := hcanaries r₀ i hr₀ (List.mem_range.mp hi)
        exact ⟨_, by rw [hmembers, Option.map_some]⟩
    exact ⟨tally l, by rw [canaryScore, observations, hr₀, Option.bind_eq_bind, Option.bind_some, hl, Option.map_some]⟩
  obtain ⟨db', hsearch⟩ :=
    Option.isSome_iff_exists.mp (dangPtrReadSearch_isSome evalProbability hscore hfound db)
  have hends : c.compareHeaps evalProbability db = some db' := by
    rw [compareHeaps, heapReports_eq_nil ha hobjects hcanaries, Option.bind_eq_bind, Option.bind_some, hscore]
    exact hsearch
  have honly := onlyDangles_dangPtrReadSearch hscore hsearch
  exact ⟨db', hends, honly.overflow, honly.dangle⟩

def cleanPartition : Pinfo :=
  ⟨8, 2, 32, 0x40000000#32, 0x40000100#32, [1], [1], ⟨1, 0x77#32, 0, 0⟩ :: List.replicate 31 ⟨0, 0, 0, 0⟩,
    5 :: 6 :: List.replicate 62 0x9efbdbb3#32⟩

def cleanReplica : LoadedReplica where
  file := ⟨2, 0x9efbdbb3#32, 0xb0000000#32, 0xbf000000#32, 0, [cleanPartition], fun _ => none, fun _ => none⟩
  pmap := fill (slotEntries [cleanPartition] 0) fun _ => none
  losKeys := []
  mem_losKeys := by simp

def clean : PinfoPtr := ⟨cleanReplica, 0, cleanPartition, rfl, PinfoPtr.two_eq_eight_div⟩

def cleanHeaps : HeapComparison where
  replicas := [cleanReplica, cleanReplica]
  sort := List.insertionSort fun d e => d.length ≤ e.length
  sort_perm eq := List.perm_insertionSort _ eq
  sort_sorted eq := List.pairwise_insertionSort _ eq

theorem compareHeaps_of_agree_cleanHeaps : ∃ db', cleanHeaps.compareHeaps tosses empty = some db' ∧
    db'.overflowPatches = empty.overflowPatches ∧
    ∀ key, db'.danglePatches[key]? ≠ empty.danglePatches[key]? →
      cleanHeaps.Unlikely tosses key ∨ UnlikelySites tosses db' key := by
  have hgroup : cleanHeaps.group 0 = some [⟨0, clean⟩, ⟨1, clean⟩] := rfl
  have hmember : ∀ m ∈ [Member.mk 0 clean, ⟨1, clean⟩], m.ptr = clean := by simp
  have hone : ∀ oid : Word, 0 < oid.toInt → oid.toInt < 2 → oid = 1 := by
    intro oid hpos hlt
    apply BitVec.eq_of_toInt_eq
    have hint : (1 : Word).toInt = 1 := by decide
    omega
  apply compareHeaps_of_agree tosses empty (a := 2) rfl
  · intro oid hpos hlt
    obtain rfl := hone oid hpos hlt
    refine ⟨[⟨0, clean⟩, ⟨1, clean⟩], rfl, ?_, ?_, ?_⟩
    · intro m hm
      rw [hmember m hm]
      exact ⟨0, by decide⟩
    · intro m hm m' hm' _ _
      rw [hmember m hm, hmember m' hm']
    · intro m hm m' hm' _ _ allocated v v' _ hv hv' k _
      rw [hmember m hm] at hv ⊢
      rw [hmember m' hm'] at hv' ⊢
      obtain rfl := Option.some.inj (Option.some.inj (hv.symm.trans hv'))
      exact ⟨.bits, rfl⟩
  · intro r₀ i hr₀ hi
    obtain rfl := Option.some.inj hr₀
    obtain rfl : i = 0 := Nat.lt_one_iff.mp hi
    refine ⟨_, hgroup, ?_⟩
    intro m hm
    rw [hmember m hm]
    decide
  · intro i members hmembers m hm k hk hid
    obtain rfl : i = 0 := Nat.lt_one_iff.mp (lt_of_group hmembers rfl)
    obtain rfl := Option.some.inj (hgroup.symm.trans hmembers)
    rw [hmember m hm] at hk hid ⊢
    have hfirst : ∀ k < clean.info.elements.toNat, clean.dxToId k ≠ 0 → clean.dxToId k = 1 := by decide
    rw [hfirst k hk hid]
    exact ⟨⟨cleanReplica, clean, rfl, rfl, by decide⟩, cleanReplica, clean, rfl, rfl, by decide⟩

end HeapComparison

end DieHard.Exterminator
