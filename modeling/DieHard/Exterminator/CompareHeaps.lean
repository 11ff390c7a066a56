import DieHard.Exterminator.Overflow

/-!
# Comparing the heaps

`compare_heaps` goes through the objects, and then through the canaries. An object whose copies differ, and a canary
that is corrupt, are looked at further: an outlier may have been overwritten by an object in front of it, and a
freed object with the same damage in several replicas has been written to through a dangling pointer.
-/

namespace DieHard.Exterminator

section Collect

variable {α β : Type}

def collect (f : α → Option (List β)) (l : List α) : Option (List β) := (l.mapM f).map List.flatten

variable {f : α → Option (List β)} {l : List α} {bs : List β}

theorem collect_cons (f : α → Option (List β)) (a : α) (l : List α) :
    collect f (a :: l) = (f a).bind fun cs => (collect f l).map (cs ++ ·) := by
  simp only [collect, List.mapM_cons, Option.pure_def, Option.bind_eq_bind]
  cases f a with
  | none => rfl
  | some cs => cases List.mapM f l <;> rfl

theorem collect_some (h : collect f l = some bs) : ∀ a ∈ l, ∃ cs, f a = some cs := by
  induction l generalizing bs with
  | nil => simp
  | cons a l ih =>
    rw [collect_cons] at h
    obtain ⟨cs, hcs, h⟩ := Option.bind_eq_some_iff.mp h
    obtain ⟨rest, hrest, -⟩ := Option.map_eq_some_iff.mp h
    exact List.forall_mem_cons.mpr ⟨⟨cs, hcs⟩, ih hrest⟩

theorem exists_collect (h : ∀ a ∈ l, ∃ cs, f a = some cs) : ∃ bs, collect f l = some bs := by
  induction l with
  | nil => exact ⟨[], rfl⟩
  | cons a l ih =>
    obtain ⟨⟨cs, hcs⟩, hrest⟩ := List.forall_mem_cons.mp h
    obtain ⟨bs, hbs⟩ := ih hrest
    exact ⟨cs ++ bs, by rw [collect_cons, hcs, Option.bind_some, hbs, Option.map_some]⟩

theorem mem_collect (h : collect f l = some bs) (b : β) : b ∈ bs ↔ ∃ a ∈ l, ∃ cs, f a = some cs ∧ b ∈ cs := by
  induction l generalizing bs with
  | nil =>
    cases h
    simp
  | cons a l ih =>
    rw [collect_cons] at h
    obtain ⟨cs, hcs, h⟩ := Option.bind_eq_some_iff.mp h
    obtain ⟨rest, hrest, rfl⟩ := Option.map_eq_some_iff.mp h
    rw [List.mem_append, List.exists_mem_cons_iff, ih hrest, hcs]
    apply or_congr_left
    constructor
    · intro hb
      exact ⟨cs, rfl, hb⟩
    · rintro ⟨_, heq, hb⟩
      exact Option.some.inj heq ▸ hb

theorem collect_eq_nil (h : ∀ a ∈ l, f a = some []) : collect f l = some [] := by
  induction l with
  | nil => rfl
  | cons a l ih =>
    rw [collect_cons, h a List.mem_cons_self, ih fun b hb => h b (List.mem_cons_of_mem _ hb)]
    rfl

/-- Where the other turns report nothing of a kind, only those of one turn count. -/
theorem filter_collect {P : β → Bool} {a : α} {cs : List β} (h : collect f l = some bs) (hl : l.Nodup) (ha : a ∈ l)
    (hcs : f a = some cs) (hother : ∀ a' ∈ l, a' ≠ a → ∀ cs', f a' = some cs' → ∀ b ∈ cs', P b = false) :
    bs.filter P = cs.filter P := by
  induction l generalizing bs with
  | nil => cases ha
  | cons first l ih =>
    rw [collect_cons] at h
    obtain ⟨ds, hds, h⟩ := Option.bind_eq_some_iff.mp h
    obtain ⟨rest, hrest, rfl⟩ := Option.map_eq_some_iff.mp h
    obtain ⟨hfirst, hl⟩ := List.nodup_cons.mp hl
    rw [List.filter_append]
    rcases List.mem_cons.mp ha with rfl | ha
    · obtain rfl := Option.some.inj (hcs.symm.trans hds)
      have hnone : rest.filter P = [] := by
        rw [List.filter_eq_nil_iff]
        intro b hb
        obtain ⟨a', ha', cs', hcs', hb⟩ := (mem_collect hrest b).mp hb
        rw [hother a' (List.mem_cons_of_mem _ ha') (fun heq => hfirst (heq ▸ ha')) cs' hcs' b hb]
        decide
      rw [hnone, List.append_nil]
    · have hnone : ds.filter P = [] := by
        rw [List.filter_eq_nil_iff]
        intro b hb
        rw [hother first List.mem_cons_self (fun heq => hfirst (heq ▸ ha)) ds hds b hb]
        decide
      rw [hnone, List.nil_append]
      exact ih hrest hl ha fun a' ha' => hother a' (List.mem_cons_of_mem _ ha')

end Collect

/-- A `pinfo *` of a group, with its `replica_id`. -/
structure Member where
  replicaId : Nat
  ptr : PinfoPtr

namespace Member

/-- `compare_range(...) == OK` for the copies of two members. -/
def same (oid : Word) (numWords : Nat) (allocated : Bool) (m m' : Member) : Option Bool :=
  sameCopy oid numWords allocated m.ptr m'.ptr

/-- The first member that `eq_partition` does not leave out, and those behind it. -/
def first (oid : Word) : List Member → Option (Option (Member × List Member))
  | [] => some none
  | m :: ms => do
    if ← m.ptr.leftOut oid then first oid ms else some (some (m, ms))

/-- The loop of `eq_partition` over the members behind the first copy. -/
def rest (oid : Word) (numWords : Nat) (allocated : Bool) (eq : List (List Member)) :
    List Member → Option (List (List Member))
  | [] => some eq
  | m :: ms => do
    if ← m.ptr.leftOut oid then rest oid numWords allocated eq ms
    else do
      let eq ← Classes.place (same oid numWords allocated) m eq
      rest oid numWords allocated eq ms

/-- The classes of `eq_partition` with their members, before they are sorted. -/
def classes (members : List Member) (oid : Word) : Option (List (List Member)) := do
  match members, ← first oid members with
  | m :: _, some (m₀, ms) => do
    let allocated ← m₀.ptr.allocatedWithData oid
    rest oid m.ptr.info.sizeInWords.toNat allocated [[m₀]] ms
  | _, _ => none

/-- `is_outlier(p, eq)` -/
def isOutlier (m : Member) (eq : List (List Member)) : Bool :=
  eq.any fun c => c.length = 1 && c.head?.any fun m' => m'.replicaId = m.replicaId

end Member

namespace PinfoPtr

variable (p : PinfoPtr)

/-- `IDtoFreeSite(idx)` -/
def idToFreeSite (idx : Word) : Option Word :=
  (p.pmap idx).map fun dx => (p.info.slotInfo.getD dx ⟨0, 0, 0, 0⟩).freeCallsite

/-- `IDtoFreeTime(idx)` -/
def idToFreeTime (idx : Word) : Option Word :=
  (p.pmap idx).map fun dx => (p.info.slotInfo.getD dx ⟨0, 0, 0, 0⟩).freeTime

def deadCanary (k : Nat) : Bool := !p.info.dxHasData k && !p.checkSentinel k

end PinfoPtr

/-- `&partitions[i]`; `read_partition` has set the size in words. -/
def LoadedReplica.pinfoPtr (r : LoadedReplica) (i : Nat) : Option PinfoPtr :=
  match h : r.file.partitions[i]? with
  | none => none
  | some info =>
    if hsize : info.sizeInWords = info.size / 4 then some ⟨r, i, info, h, hsize⟩ else none

/-- The core files that are compared, and the order in which `sort` puts classes of one size. -/
structure HeapComparison where
  replicas : List LoadedReplica
  sort : List (List Member) → List (List Member)
  sort_perm : ∀ eq, (sort eq).Perm eq
  sort_sorted : ∀ eq, (sort eq).Pairwise fun c d => c.length ≤ d.length

namespace HeapComparison

variable (c : HeapComparison)

/-- `min_allocated`, an `int`; all replicas must have the same number of partitions. -/
def minAllocated : Option Int :=
  match c.replicas with
  | [] => none
  | r₀ :: rs =>
    if ∀ r ∈ rs, r₀.file.partitions.length = r.file.partitions.length then
      some (rs.foldl (fun m r => if r.file.globalAllocs < m then r.file.globalAllocs else m)
        r₀.file.globalAllocs).toInt
    else none

/-- The partitions with number `i`. -/
def group (i : Nat) : Option (List Member) :=
  (c.replicas.mapM (LoadedReplica.pinfoPtr · i)).map fun ps => ps.mapIdx Member.mk

/-- The partitions with the number of the one where the first replica has the object. -/
def groupOf (oid : Word) : Option (List Member) := do
  let place ← (← c.replicas.head?).pmap oid
  let members ← c.group place.1
  let m₀ ← members.head?
  if ∀ m ∈ members, m₀.ptr.info.size = m.ptr.info.size ∧ m₀.ptr.info.elements = m.ptr.info.elements then
    some members
  else none

/-- `eq_partition(partitions, oid)` -/
def eqPartition (members : List Member) (oid : Word) : Option (List (List Member)) :=
  (Member.classes members oid).map c.sort

/-- The items of `handle_discrepancy`: the copies that are alone, against the last class. -/
def outliers (eq : List (List Member)) : List (Member × List Member) :=
  if (eq.head?.any fun d => d.length = 1) = false then []
  else if 2 < c.replicas.length ∧ eq.length = c.replicas.length then []
  else (eq.dropLast.takeWhile fun d => d.length = 1).flatten.map fun m => (m, eq.getLastD [])

/-- The item that `handle_discrepancy` makes of an outlier. -/
def outlierItem (oid : Word) (m : Member) (good : List Member) : Option WorklistItem := do
  let dx ← m.ptr.idToDx oid
  let mask ← createMask m.ptr (good.map Member.ptr) oid
  some ⟨good.map Member.ptr, m.ptr, dx.toNat, mask⟩

/-- `handle_discrepancy(partitions, oid)` -/
def handleDiscrepancy (members : List Member) (oid : Word) : Option (List PatchDatabase.Report) := do
  let eq ← c.eqPartition members oid
  collect (fun o => do
    let item ← outlierItem oid o.1 o.2
    item.checkOverflow.map Option.toList) (c.outliers eq)

/-- `st == PTR_DIFF_ID && !p0->IDallocated(j)` -/
def deadPointers (members : List Member) (oid : Word) (st : Nat) : Option Bool :=
  if st = ptrDiffId then members.head?.bind fun m₀ => (m₀.ptr.idAllocated oid).map not else some false

/-- A turn of the first loop of `compare_heaps`; after a mismatch of call sites there is no further one. -/
def compareObject (oid : Word) : Option (Option (List PatchDatabase.Report)) := do
  let members ← c.groupOf oid
  let st ← compareSlot (members.map Member.ptr) oid
  if st = statusOk ∨ st = allocOnlyOne ∨ st = dne then some (some [])
  else if st = callsiteMismatch then some none
  else do
    if ← deadPointers members oid st then some (some [])
    else (c.handleDiscrepancy members oid).map some

/-- The first loop of `compare_heaps`. -/
def objectLoop : List Word → Option (List PatchDatabase.Report)
  | [] => some []
  | oid :: oids => do
    match ← c.compareObject oid with
    | none => some []
    | some reports => (objectLoop oids).map (reports ++ ·)

/-- The replicas that have had the object and do not say that it has data. -/
def canaries (members : List Member) (oid : Word) : Option Nat :=
  members.foldlM (fun n m =>
    if m.ptr.rep.file.globalAllocs ≤ oid then some n
    else (m.ptr.idHasData oid).map fun hasData => n + (!hasData).toNat) 0

/-- The item that `compare_heaps` makes of a corrupt canary. -/
def canaryItem (members : List Member) (m : Member) (k : Nat) : WorklistItem where
  pgroup := (members.filter fun m' => m'.replicaId ≠ m.replicaId).map Member.ptr
  perr := m.ptr
  dx := k
  mask := createMaskSentinel m.ptr k

/-- A turn of the second loop of `compare_heaps`, for slot `k` of a member. -/
def compareCanary (members : List Member) (m : Member) (k : Nat) : Option (List PatchDatabase.Report) :=
  if m.ptr.deadCanary k = false then some []
  else if m.ptr.dxToId k = 0 then (canaryItem members m k).checkOverflow.map Option.toList
  else do
    let oid := m.ptr.dxToId k
    let _ ← compareSlot (members.map Member.ptr) oid
    let eq ← c.eqPartition members oid
    let canaries ← canaries members oid
    if m.isOutlier eq then (canaryItem members m k).checkOverflow.map Option.toList
    else if canaries = 1 then none
    else do
      let allocSite ← m.ptr.idToAllocSite oid
      let freeSite ← m.ptr.idToFreeSite oid
      let freeTime ← m.ptr.idToFreeTime oid
      some [.dangPtr allocSite freeSite (m.ptr.rep.file.globalAllocs - freeTime)]

/-- The second loop of `compare_heaps`. -/
def canaryLoop : Option (List PatchDatabase.Report) := do
  let r₀ ← c.replicas.head?
  collect (fun i => do
    let members ← c.group i
    collect (fun m => collect (c.compareCanary members m) (List.range m.ptr.info.elements.toNat)) members)
    (List.range r₀.file.partitions.length)

def objects (minAllocated : Int) : List Word :=
  (List.range (minAllocated.toNat - 1)).map fun j => BitVec.ofNat 32 (j + 1)

/-- What the two loops of `compare_heaps` report. -/
def heapReports : Option (List PatchDatabase.Report) := do
  let minAllocated ← c.minAllocated
  let discrepancies ← c.objectLoop (objects minAllocated)
  let corruptions ← c.canaryLoop
  some (discrepancies ++ corruptions)

/-- The first loop comes to the object. -/
structure Reached (oid : Word) : Prop where
  pos : 0 < oid.toInt
  lt : ∃ a, c.minAllocated = some a ∧ oid.toInt < a
  before : ∀ o members, 0 < o.toInt → o.toInt < oid.toInt → c.groupOf o = some members →
    compareSlot (members.map Member.ptr) o ≠ some callsiteMismatch

def IsDiscrepancy (members : List Member) (oid : Word) (st : Nat) : Prop :=
  st ∉ [statusOk, allocOnlyOne, dne, callsiteMismatch] ∧
    (st = ptrDiffId → members.head?.bind (fun m₀ => m₀.ptr.idAllocated oid) = some true)

/-- The corrupt canary in slot `k` is not that of an object with the same copies in other replicas. -/
def Alone (members : List Member) (m : Member) (k : Nat) : Prop :=
  m.ptr.dxToId k = 0 ∨ ∃ eq, c.eqPartition members (m.ptr.dxToId k) = some eq ∧ m.isOutlier eq = true

/-- What is searched for the object that overflowed into it. -/
inductive Suspect : WorklistItem → Prop
  | outlier {oid : Word} {members good : List Member} {eq : List (List Member)} {m : Member} {st : Nat}
      {item : WorklistItem} (reached : c.Reached oid) (group : c.groupOf oid = some members)
      (status : compareSlot (members.map Member.ptr) oid = some st) (differ : IsDiscrepancy members oid st)
      (classes : c.eqPartition members oid = some eq) (alone : (m, good) ∈ c.outliers eq)
      (made : outlierItem oid m good = some item) : Suspect item
  | canary {i k : Nat} {members : List Member} {m : Member} {r₀ : LoadedReplica}
      (replica : c.replicas.head? = some r₀) (partition : i < r₀.file.partitions.length)
      (group : c.group i = some members) (member : m ∈ members) (slot : k < m.ptr.info.elements.toNat)
      (dead : m.ptr.deadCanary k = true) (alone : c.Alone members m k) : Suspect (canaryItem members m k)

/-- What is taken for an error of a dangling pointer: the canary of a freed object that is corrupt in its replica
and is not alone with that. -/
inductive Dangling : PatchDatabase.Report → Prop
  | canary {i k n : Nat} {members : List Member} {m : Member} {r₀ : LoadedReplica} {eq : List (List Member)}
      {allocSite freeSite freeTime : Word}
      (replica : c.replicas.head? = some r₀) (partition : i < r₀.file.partitions.length)
      (group : c.group i = some members) (member : m ∈ members) (slot : k < m.ptr.info.elements.toNat)
      (dead : m.ptr.deadCanary k = true) (used : m.ptr.dxToId k ≠ 0)
      (classes : c.eqPartition members (m.ptr.dxToId k) = some eq) (together : m.isOutlier eq = false)
      (several : canaries members (m.ptr.dxToId k) = some n) (ne : n ≠ 1)
      (allocated : m.ptr.idToAllocSite (m.ptr.dxToId k) = some allocSite)
      (freed : m.ptr.idToFreeSite (m.ptr.dxToId k) = some freeSite)
      (time : m.ptr.idToFreeTime (m.ptr.dxToId k) = some freeTime) :
      Dangling (.dangPtr allocSite freeSite (m.ptr.rep.file.globalAllocs - freeTime))

variable {c} {oid : Word} {oids : List Word} {members : List Member} {r : PatchDatabase.Report}
  {reports : List PatchDatabase.Report} {a : Int}

theorem isDiscrepancy_iff {st : Nat} : IsDiscrepancy members oid st ↔
    ¬ (st = statusOk ∨ st = allocOnlyOne ∨ st = dne) ∧ st ≠ callsiteMismatch ∧
      deadPointers members oid st = some false := by
  rw [IsDiscrepancy, deadPointers]
  simp only [List.mem_cons, List.not_mem_nil, or_false, not_or, and_assoc]
  constructor
  · rintro ⟨hok, hone, hdne, hmismatch, hptr⟩
    refine ⟨hok, hone, hdne, hmismatch, ?_⟩
    split
    case isTrue heq =>
      obtain ⟨m₀, hm₀, hallocated⟩ := Option.bind_eq_some_iff.mp (hptr heq)
      rw [hm₀, Option.bind_some, hallocated]
      rfl
    case isFalse => rfl
  · rintro ⟨hok, hone, hdne, hmismatch, hdead⟩
    refine ⟨hok, hone, hdne, hmismatch, ?_⟩
    intro heq
    rw [if_pos heq] at hdead
    obtain ⟨m₀, hm₀, hdead⟩ := Option.bind_eq_some_iff.mp hdead
    obtain ⟨allocated, hallocated, hnot⟩ := Option.map_eq_some_iff.mp hdead
    cases allocated with
    | true => rw [hm₀, Option.bind_some, hallocated]
    | false => cases hnot

theorem compareObject_eq_none_iff : c.compareObject oid = some none ↔
    ∃ members, c.groupOf oid = some members ∧
      compareSlot (members.map Member.ptr) oid = some callsiteMismatch := by
  constructor
  · intro h
    obtain ⟨members, hmembers, h⟩ := Option.bind_eq_some_iff.mp h
    obtain ⟨st, hst, h⟩ := Option.bind_eq_some_iff.mp h
    refine ⟨members, hmembers, ?_⟩
    split at h
    · cases h
    split at h
    case isTrue hmismatch => rw [hst, hmismatch]
    case isFalse =>
      obtain ⟨dead, -, h⟩ := Option.bind_eq_some_iff.mp h
      split at h
      · cases h
      · obtain ⟨reports, -, h⟩ := Option.map_eq_some_iff.mp h
        cases h
  · intro ⟨members, hmembers, hst⟩
    rw [compareObject, hmembers, Option.bind_eq_bind, Option.bind_some, hst]
    rfl

/-- What a turn of the first loop reports is what the outliers are searched for. -/
theorem mem_compareObject (h : c.compareObject oid = some (some reports)) : r ∈ reports ↔
    ∃ members st eq m good item, c.groupOf oid = some members ∧
      compareSlot (members.map Member.ptr) oid = some st ∧ IsDiscrepancy members oid st ∧
      c.eqPartition members oid = some eq ∧ (m, good) ∈ c.outliers eq ∧
      outlierItem oid m good = some item ∧ item.checkOverflow = some (some r) := by
  obtain ⟨members, hmembers, h⟩ := Option.bind_eq_some_iff.mp h
  obtain ⟨st, hst, h⟩ := Option.bind_eq_some_iff.mp h
  have hnone (hnot : ¬ IsDiscrepancy members oid st) : ¬ ∃ members st eq m good item,
      c.groupOf oid = some members ∧ compareSlot (members.map Member.ptr) oid = some st ∧
      IsDiscrepancy members oid st ∧ c.eqPartition members oid = some eq ∧ (m, good) ∈ c.outliers eq ∧
      outlierItem oid m good = some item ∧ item.checkOverflow = some (some r) := by
    rintro ⟨members', st', -, -, -, -, hmembers', hst', hdiffer, -⟩
    obtain rfl := Option.some.inj (hmembers.symm.trans hmembers')
    obtain rfl := Option.some.inj (hst.symm.trans hst')
    exact hnot hdiffer
  split at h
  case isTrue hok =>
    cases h
    apply iff_of_false List.not_mem_nil
    apply hnone
    intro hdiffer
    apply hdiffer.1
    rcases hok with rfl | rfl | rfl <;> simp
  case isFalse hok =>
    split at h
    case isTrue => cases h
    case isFalse hmismatch =>
      obtain ⟨dead, hdead, h⟩ := Option.bind_eq_some_iff.mp h
      cases dead with
      | true =>
        cases h
        apply iff_of_false List.not_mem_nil
        apply hnone
        intro hdiffer
        rw [isDiscrepancy_iff, hdead] at hdiffer
        cases hdiffer.2.2
      | false =>
        obtain ⟨reports', hreports, h⟩ := Option.map_eq_some_iff.mp h
        obtain rfl := Option.some.inj h
        obtain ⟨eq, heq, hcollect⟩ := Option.bind_eq_some_iff.mp hreports
        have hdiffer : IsDiscrepancy members oid st := isDiscrepancy_iff.mpr ⟨hok, hmismatch, hdead⟩
        rw [mem_collect hcollect]
        constructor
        · rintro ⟨⟨m, good⟩, hmem, rs, hrs, hr⟩
          obtain ⟨item, hitem, hrs⟩ := Option.bind_eq_some_iff.mp hrs
          obtain ⟨report, hreport, rfl⟩ := Option.map_eq_some_iff.mp hrs
          rw [Option.mem_toList] at hr
          exact ⟨members, st, eq, m, good, item, hmembers, hst, hdiffer, heq, hmem, hitem, hr ▸ hreport⟩
        · rintro ⟨members', st', eq', m, good, item, hmembers', -, -, heq', hmem, hitem, hr⟩
          obtain rfl := Option.some.inj (hmembers.symm.trans hmembers')
          obtain rfl := Option.some.inj (heq.symm.trans heq')
          refine ⟨(m, good), hmem, [r], ?_, List.mem_singleton_self r⟩
          rw [hitem, Option.bind_eq_bind, Option.bind_some, hr]
          rfl

/-- The first loop ends where the call sites do not match. -/
theorem mem_objectLoop (h : c.objectLoop oids = some reports) : r ∈ reports ↔
    ∃ (j : Nat) (oid : Word), oids[j]? = some oid ∧ (∀ i < j, ∀ o, oids[i]? = some o → c.compareObject o ≠ some none) ∧
      ∃ rs, c.compareObject oid = some (some rs) ∧ r ∈ rs := by
  induction oids generalizing reports with
  | nil =>
    cases h
    simp
  | cons oid oids ih =>
    obtain ⟨result, hresult, h⟩ := Option.bind_eq_some_iff.mp h
    cases result with
    | none =>
      cases h
      apply iff_of_false List.not_mem_nil
      rintro ⟨j, o, hj, hbefore, rs, hrs, -⟩
      cases j with
      | zero =>
        obtain rfl := Option.some.inj hj
        rw [hresult] at hrs
        cases hrs
      | succ j => exact hbefore 0 (Nat.succ_pos j) oid rfl hresult
    | some rs =>
      obtain ⟨later, hlater, rfl⟩ := Option.map_eq_some_iff.mp h
      rw [List.mem_append, ih hlater]
      constructor
      · rintro (hr | ⟨j, o, hj, hbefore, hrs⟩)
        · exact ⟨0, oid, rfl, by simp, rs, hresult, hr⟩
        · refine ⟨j + 1, o, hj, ?_, hrs⟩
          intro i hi o' ho'
          cases i with
          | zero =>
            obtain rfl := Option.some.inj ho'
            rw [hresult]
            simp
          | succ i => exact hbefore i (Nat.lt_of_succ_lt_succ hi) o' ho'
      · rintro ⟨j, o, hj, hbefore, rs', hrs', hr⟩
        cases j with
        | zero =>
          obtain rfl := Option.some.inj hj
          obtain rfl := Option.some.inj (Option.some.inj (hresult.symm.trans hrs'))
          exact Or.inl hr
        | succ j =>
          exact Or.inr ⟨j, o, hj, fun i hi o' ho' => hbefore (i + 1) (Nat.succ_lt_succ hi) o' ho', rs', hrs', hr⟩

theorem objectLoop_some (h : c.objectLoop oids = some reports) {j : Nat} (hj : oids[j]? = some oid)
    (hbefore : ∀ i < j, ∀ o, oids[i]? = some o → c.compareObject o ≠ some none) :
    ∃ result, c.compareObject oid = some result := by
  induction oids generalizing j reports with
  | nil => cases hj
  | cons first oids ih =>
    obtain ⟨result, hresult, h⟩ := Option.bind_eq_some_iff.mp h
    cases j with
    | zero =>
      obtain rfl := Option.some.inj hj
      exact ⟨result, hresult⟩
    | succ j =>
      cases result with
      | none => exact absurd hresult (hbefore 0 (Nat.succ_pos j) first rfl)
      | some rs =>
        obtain ⟨later, hlater, -⟩ := Option.map_eq_some_iff.mp h
        exact ih hlater hj fun i hi o ho => hbefore (i + 1) (Nat.succ_lt_succ hi) o ho

theorem minAllocated_lt (ha : c.minAllocated = some a) : a < 2 ^ 31 := by
  rw [minAllocated] at ha
  split at ha
  · cases ha
  split at ha
  · cases ha
    exact BitVec.toInt_lt
  · cases ha

theorem getElem?_objects {j : Nat} (ha : a < 2 ^ 31) :
    (objects a)[j]? = some oid ↔ oid.toInt = j + 1 ∧ oid.toInt < a := by
  rw [objects, List.getElem?_map, Option.map_eq_some_iff]
  constructor
  · rintro ⟨i, hi, rfl⟩
    obtain ⟨hlt, hi⟩ := List.getElem?_eq_some_iff.mp hi
    rw [List.getElem_range] at hi
    rw [List.length_range] at hlt
    subst hi
    have hint : (BitVec.ofNat 32 (j + 1)).toInt = j + 1 := by
      rw [BitVec.toInt_ofNat', Int.bmod_eq_of_le] <;> omega
    rw [hint]
    omega
  · intro ⟨hj, hlt⟩
    refine ⟨j, ?_, ?_⟩
    · rw [List.getElem?_range]
      omega
    · apply BitVec.eq_of_toInt_eq
      rw [hj, BitVec.toInt_ofNat', Int.bmod_eq_of_le] <;> omega

theorem reached_iff (ha : c.minAllocated = some a) : c.Reached oid ↔
    ∃ j : Nat, (objects a)[j]? = some oid ∧
      ∀ i < j, ∀ o, (objects a)[i]? = some o → c.compareObject o ≠ some none := by
  have hlt := minAllocated_lt ha
  simp only [getElem?_objects hlt]
  constructor
  · intro h
    have hpos := h.pos
    obtain ⟨a', ha', hoid⟩ := h.lt
    obtain rfl := Option.some.inj (ha.symm.trans ha')
    refine ⟨oid.toInt.toNat - 1, ⟨by omega, hoid⟩, ?_⟩
    intro i hi o ho hnone
    obtain ⟨members, hmembers, hst⟩ := compareObject_eq_none_iff.mp hnone
    exact h.before o members (by omega) (by omega) hmembers hst
  · intro ⟨j, hj, hbefore⟩
    refine ⟨by omega, ⟨a, ha, hj.2⟩, ?_⟩
    intro o members hpos ho hmembers hst
    exact hbefore (o.toInt.toNat - 1) (by omega) o ⟨by omega, by omega⟩
      (compareObject_eq_none_iff.mpr ⟨members, hmembers, hst⟩)

variable {i k : Nat} {m : Member} {r₀ : LoadedReplica}

theorem mem_canaryLoop (h : c.canaryLoop = some reports) : r ∈ reports ↔ ∃ r₀ i members m k rs,
    c.replicas.head? = some r₀ ∧ i < r₀.file.partitions.length ∧ c.group i = some members ∧ m ∈ members ∧
      k < m.ptr.info.elements.toNat ∧ c.compareCanary members m k = some rs ∧ r ∈ rs := by
  obtain ⟨r₀, hr₀, h⟩ := Option.bind_eq_some_iff.mp h
  rw [mem_collect h]
  constructor
  · rintro ⟨i, hi, rs, hrs, hr⟩
    obtain ⟨members, hmembers, hrs⟩ := Option.bind_eq_some_iff.mp hrs
    obtain ⟨m, hm, rs, hrs, hr⟩ := (mem_collect hrs r).mp hr
    obtain ⟨k, hk, rs, hrs, hr⟩ := (mem_collect hrs r).mp hr
    exact ⟨r₀, i, members, m, k, rs, hr₀, List.mem_range.mp hi, hmembers, hm, List.mem_range.mp hk, hrs, hr⟩
  · rintro ⟨r₁, i, members, m, k, rs, hr₁, hi, hmembers, hm, hk, hrs, hr⟩
    obtain rfl := Option.some.inj (hr₀.symm.trans hr₁)
    obtain ⟨rs', hrs'⟩ := collect_some h i (List.mem_range.mpr hi)
    refine ⟨i, List.mem_range.mpr hi, rs', hrs', ?_⟩
    rw [hmembers, Option.bind_eq_bind, Option.bind_some] at hrs'
    obtain ⟨rs'', hrs''⟩ := collect_some hrs' m hm
    exact (mem_collect hrs' r).mpr ⟨m, hm, rs'', hrs'',
      (mem_collect hrs'' r).mpr ⟨k, List.mem_range.mpr hk, rs, hrs, hr⟩⟩

theorem canaryLoop_some (h : c.canaryLoop = some reports) (hr₀ : c.replicas.head? = some r₀)
    (hi : i < r₀.file.partitions.length) (hmembers : c.group i = some members) (hm : m ∈ members)
    (hk : k < m.ptr.info.elements.toNat) : ∃ rs, c.compareCanary members m k = some rs := by
  obtain ⟨r₁, hr₁, h⟩ := Option.bind_eq_some_iff.mp h
  obtain rfl := Option.some.inj (hr₀.symm.trans hr₁)
  obtain ⟨rs, hrs⟩ := collect_some h i (List.mem_range.mpr hi)
  rw [hmembers, Option.bind_eq_bind, Option.bind_some] at hrs
  obtain ⟨rs', hrs'⟩ := collect_some hrs m hm
  exact collect_some hrs' k (List.mem_range.mpr hk)

/-- What the second loop does with a corrupt canary. -/
theorem compareCanary_cases (h : c.compareCanary members m k = some reports)
    (hdead : m.ptr.deadCanary k = true) :
    (c.Alone members m k ∧ ∃ report, (canaryItem members m k).checkOverflow = some report ∧
      reports = report.toList) ∨
    ¬ c.Alone members m k ∧ m.ptr.dxToId k ≠ 0 ∧ ∃ eq n allocSite freeSite freeTime,
      c.eqPartition members (m.ptr.dxToId k) = some eq ∧ m.isOutlier eq = false ∧
      canaries members (m.ptr.dxToId k) = some n ∧ n ≠ 1 ∧
      m.ptr.idToAllocSite (m.ptr.dxToId k) = some allocSite ∧
      m.ptr.idToFreeSite (m.ptr.dxToId k) = some freeSite ∧
      m.ptr.idToFreeTime (m.ptr.dxToId k) = some freeTime ∧
      reports = [.dangPtr allocSite freeSite (m.ptr.rep.file.globalAllocs - freeTime)] := by
  rw [compareCanary, if_neg (by simp [hdead])] at h
  split at h
  case isTrue hfree =>
    obtain ⟨report, hreport, rfl⟩ := Option.map_eq_some_iff.mp h
    exact Or.inl ⟨Or.inl hfree, report, hreport, rfl⟩
  case isFalse hused =>
    obtain ⟨st, -, h⟩ := Option.bind_eq_some_iff.mp h
    obtain ⟨eq, heq, h⟩ := Option.bind_eq_some_iff.mp h
    obtain ⟨n, hn, h⟩ := Option.bind_eq_some_iff.mp h
    split at h
    case isTrue houtlier =>
      obtain ⟨report, hreport, rfl⟩ := Option.map_eq_some_iff.mp h
      exact Or.inl ⟨Or.inr ⟨eq, heq, houtlier⟩, report, hreport, rfl⟩
    case isFalse houtlier =>
      split at h
      case isTrue => cases h
      case isFalse hne =>
        obtain ⟨allocSite, hallocSite, h⟩ := Option.bind_eq_some_iff.mp h
        obtain ⟨freeSite, hfreeSite, h⟩ := Option.bind_eq_some_iff.mp h
        obtain ⟨freeTime, hfreeTime, h⟩ := Option.bind_eq_some_iff.mp h
        cases h
        refine Or.inr ⟨?_, hused, eq, n, allocSite, freeSite, freeTime, heq, Bool.not_eq_true _ ▸ houtlier, hn, hne,
          hallocSite, hfreeSite, hfreeTime, rfl⟩
        rintro (hfree | ⟨eq', heq', houtlier'⟩)
        · exact hused hfree
        · obtain rfl := Option.some.inj (heq.symm.trans heq')
          exact houtlier houtlier'

theorem Suspect.checked {item : WorklistItem} (hsuspect : c.Suspect item) (h : c.heapReports = some reports) :
    ∃ report, item.checkOverflow = some report := by
  obtain ⟨a, ha, h⟩ := Option.bind_eq_some_iff.mp h
  obtain ⟨discrepancies, hfirst, h⟩ := Option.bind_eq_some_iff.mp h
  obtain ⟨corruptions, hsecond, -⟩ := Option.bind_eq_some_iff.mp h
  cases hsuspect with
  | @outlier oid members good eq m st item reached group status differ classes alone made =>
    obtain ⟨j, hj, hbefore⟩ := (reached_iff ha).mp reached
    obtain ⟨result, hresult⟩ := objectLoop_some hfirst hj hbefore
    obtain ⟨hok, hmismatch, hdead⟩ := isDiscrepancy_iff.mp differ
    rw [compareObject, group, Option.bind_eq_bind, Option.bind_some, status, Option.bind_eq_bind,
      Option.bind_some, if_neg hok, if_neg hmismatch, hdead] at hresult
    obtain ⟨rs, hrs, -⟩ := Option.map_eq_some_iff.mp hresult
    rw [handleDiscrepancy, classes, Option.bind_eq_bind, Option.bind_some] at hrs
    obtain ⟨rs', hrs'⟩ := collect_some hrs (m, good) alone
    rw [made, Option.bind_eq_bind, Option.bind_some] at hrs'
    obtain ⟨report, hreport, -⟩ := Option.map_eq_some_iff.mp hrs'
    exact ⟨report, hreport⟩
  | canary replica partition group member slot dead alone =>
    obtain ⟨rs, hrs⟩ := canaryLoop_some hsecond replica partition group member slot
    rcases compareCanary_cases hrs dead with ⟨-, report, hreport, -⟩ | ⟨hnot, -⟩
    · exact ⟨report, hreport⟩
    · exact absurd alone hnot

/-- What is reported is what the suspects are searched for, and the dangling pointers. -/
theorem mem_heapReports (h : c.heapReports = some reports) : r ∈ reports ↔
    (∃ item, c.Suspect item ∧ item.checkOverflow = some (some r)) ∨ c.Dangling r := by
  obtain ⟨a, ha, h⟩ := Option.bind_eq_some_iff.mp h
  obtain ⟨discrepancies, hfirst, h⟩ := Option.bind_eq_some_iff.mp h
  obtain ⟨corruptions, hsecond, h⟩ := Option.bind_eq_some_iff.mp h
  obtain rfl := Option.some.inj h
  rw [List.mem_append, mem_objectLoop hfirst, mem_canaryLoop hsecond]
  constructor
  · rintro (⟨j, oid, hj, hbefore, rs, hrs, hr⟩ | ⟨r₀, i, members, m, k, rs, hr₀, hi, hmembers, hm, hk, hrs, hr⟩)
    · obtain ⟨members, st, eq, m, good, item, hmembers, hst, hdiffer, heq, halone, hitem, hr⟩ :=
        (mem_compareObject hrs).mp hr
      exact Or.inl ⟨item, .outlier ((reached_iff ha).mpr ⟨j, hj, hbefore⟩) hmembers hst hdiffer heq halone hitem, hr⟩
    · by_cases hdead : m.ptr.deadCanary k = true
      · rcases compareCanary_cases hrs hdead with ⟨halone, report, hreport, rfl⟩ |
          ⟨-, hused, eq, n, allocSite, freeSite, freeTime, heq, houtlier, hn, hne, halloc, hfree, htime, rfl⟩
        · rw [Option.mem_toList] at hr
          exact Or.inl ⟨_, .canary hr₀ hi hmembers hm hk hdead halone, hr ▸ hreport⟩
        · obtain rfl := List.mem_singleton.mp hr
          exact Or.inr (.canary hr₀ hi hmembers hm hk hdead hused heq houtlier hn hne halloc hfree htime)
      · rw [compareCanary, if_pos (Bool.not_eq_true _ ▸ hdead)] at hrs
        cases hrs
        cases hr
  · rintro (⟨item, hsuspect, hr⟩ | hdangling)
    · cases hsuspect with
      | @outlier oid members good eq m st item reached group status differ classes alone made =>
        obtain ⟨j, hj, hbefore⟩ := (reached_iff ha).mp reached
        obtain ⟨result, hresult⟩ := objectLoop_some hfirst hj hbefore
        cases result with
        | none =>
          obtain ⟨members', hmembers', hst'⟩ := compareObject_eq_none_iff.mp hresult
          obtain rfl := Option.some.inj (group.symm.trans hmembers')
          exact absurd (Option.some.inj (status.symm.trans hst')) (isDiscrepancy_iff.mp differ).2.1
        | some rs =>
          exact Or.inl ⟨j, oid, hj, hbefore, rs, hresult, (mem_compareObject hresult).mpr
            ⟨members, st, eq, m, good, item, group, status, differ, classes, alone, made, hr⟩⟩
      | canary replica partition group member slot dead alone =>
        obtain ⟨rs, hrs⟩ := canaryLoop_some hsecond replica partition group member slot
        rcases compareCanary_cases hrs dead with ⟨-, report, hreport, rfl⟩ | ⟨hnot, -⟩
        · obtain rfl := Option.some.inj (hr.symm.trans hreport)
          exact Or.inr ⟨_, _, _, _, _, _, replica, partition, group, member, slot, hrs, by simp⟩
        · exact absurd alone hnot
    · cases hdangling with
      | @canary i k n members m r₀ eq allocSite freeSite freeTime replica partition group member slot dead used
          classes together several ne allocated freed time =>
        obtain ⟨rs, hrs⟩ := canaryLoop_some hsecond replica partition group member slot
        have hnot : ¬ c.Alone members m k := by
          rintro (hfree | ⟨eq', heq', houtlier⟩)
          · exact used hfree
          · obtain rfl := Option.some.inj (classes.symm.trans heq')
            rw [together] at houtlier
            cases houtlier
        rcases compareCanary_cases hrs dead with ⟨halone, -⟩ |
          ⟨-, -, eq', n', a', f', t', -, -, -, -, halloc, hfree, htime, rfl⟩
        · exact absurd halone hnot
        · obtain rfl := Option.some.inj (allocated.symm.trans halloc)
          obtain rfl := Option.some.inj (freed.symm.trans hfree)
          obtain rfl := Option.some.inj (time.symm.trans htime)
          exact Or.inr ⟨_, _, _, _, _, _, replica, partition, group, member, slot, hrs, List.mem_singleton_self _⟩

end HeapComparison

end DieHard.Exterminator
