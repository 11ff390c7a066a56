import DieHard.Exterminator.CompareHeaps

/-!
# Scores of canaries

While `compare_heaps` goes through the slots, it counts for each object how often a slot has it, and how often with
data in a good replica or without data in a bad one. `dang_ptr_read_search` makes a patch for an object whose counts
are unlikely, and one for sites whose counts, which the patch file keeps, have become unlikely. How likely counts are
is for `eval_probability` to say, which is in a file that is missing.
-/

namespace DieHard.Exterminator

open Std (ExtTreeMap TransCmp LawfulEqCmp)

section Tally

variable {κ : Type} {cmp : κ → κ → Ordering} [TransCmp cmp]

def observe (score : ExtTreeMap κ (Nat × Nat) cmp) (seen : κ × Bool) : ExtTreeMap κ (Nat × Nat) cmp :=
  let old := score.getD seen.1 (0, 0)
  score.insert seen.1 (old.1 + 1, old.2 + seen.2.toNat)

def tally (l : List (κ × Bool)) : ExtTreeMap κ (Nat × Nat) cmp := l.foldl observe ∅

def ofKey [DecidableEq κ] (key : κ) (l : List (κ × Bool)) : List (κ × Bool) := l.filter fun seen => seen.1 = key

theorem getElem?_tally [DecidableEq κ] [LawfulEqCmp cmp] (l : List (κ × Bool)) (key : κ) :
    (tally l : ExtTreeMap κ (Nat × Nat) cmp)[key]? =
      if ofKey key l = [] then none else some ((ofKey key l).length, (ofKey key l).countP Prod.snd) := by
  induction l using List.reverseRecOn with
  | nil => simp [tally, ofKey]
  | append_singleton l seen ih =>
    have happend : ofKey key (l ++ [seen]) = ofKey key l ++ if seen.1 = key then [seen] else [] := by
      simp [ofKey, List.filter_append, List.filter_singleton]
    rw [tally, List.foldl_append, List.foldl_cons, List.foldl_nil, ← tally, observe, ExtTreeMap.getElem?_insert,
      happend]
    by_cases hkey : seen.1 = key
    · have hold : (tally l : ExtTreeMap κ (Nat × Nat) cmp).getD seen.1 (0, 0) =
          ((ofKey key l).length, (ofKey key l).countP Prod.snd) := by
        rw [ExtTreeMap.getD_eq_getD_getElem?, hkey, ih]
        split
        case isTrue hnil => simp [hnil]
        case isFalse => rfl
      rw [if_pos (LawfulEqCmp.compare_eq_iff_eq.mpr hkey), hold, if_pos hkey, if_neg (by simp), List.length_append,
        List.countP_append, List.length_singleton, List.countP_singleton]
      cases seen.2 <;> rfl
    · rw [if_neg (fun h => hkey (LawfulEqCmp.compare_eq_iff_eq.mp h)), if_neg hkey, List.append_nil, ih]

end Tally

/-- The order of `pair<int,int>`. -/
def scoreOrder : Nat × Word → Nat × Word → Ordering :=
  compareLex (compareOn Prod.fst) (compareOn fun key => key.2.toInt)

instance : TransCmp scoreOrder := inferInstanceAs (TransCmp (compareLex _ _))

instance : LawfulEqCmp scoreOrder where
  eq_of_compare := by
    intro a b h
    obtain ⟨hfst, hsnd⟩ := Ordering.then_eq_eq.mp h
    exact Prod.ext (LawfulEqCmp.eq_of_compare hfst) (BitVec.eq_of_toInt_eq (LawfulEqCmp.eq_of_compare hsnd))

/-- `canary_score`: how often an object of a partition was seen, and its points. -/
abbrev CanaryScore := ExtTreeMap (Nat × Word) (Nat × Nat) scoreOrder

namespace PinfoPtr

variable (p : PinfoPtr)

/-- `isBadReplica()` of the replica -/
def isBadReplica : Bool := p.rep.file.heapConfigFlags &&& badReplica ≠ 0

/-- Slot `k` is a point for its object. -/
def point (k : Nat) : Bool := p.info.dxHasData k != p.isBadReplica

/-- `IDtoVA(idx)` -/
def idToVa (idx : Word) : Option Word := do
  let dx ← p.pmap idx
  let ret := p.info.vaddrStart + p.info.size * BitVec.ofNat 32 dx
  if ret < p.info.vaddrEnd then some ret else none

end PinfoPtr

/-- The `double` 0.0001, below which a score is printed. -/
def printedBelow : ℚ := 7378697629483821 / 2 ^ 66

/-- The `double` 0.0000005, below which an object is taken for a dangled one. -/
def dangledBelow : ℚ := 4722366482869645 / 2 ^ 73

/-- The `double` 0.000001, the threshold of `inspect_static_info`. -/
def staticBelow : ℚ := 4722366482869645 / 2 ^ 72

/-- `inspect_static_info()` -/
def PatchDatabase.inspectStaticInfo (evalProbability : Int → Int → ℚ) (db : PatchDatabase) : PatchDatabase :=
  db.staticInfo.toList.foldl (fun db entry =>
    if evalProbability entry.2.1.toInt entry.2.2.toInt < staticBelow then
      db.doDangPtr entry.1.1 entry.1.2 (db.dragMap entry.1)
    else db) db

namespace HeapComparison

variable (c : HeapComparison) (evalProbability : Int → Int → ℚ)

/-- What slot `k` of partition `i` adds to the scores. -/
def observation (i : Nat) (p : PinfoPtr) (k : Nat) : Option ((Nat × Word) × Bool) :=
  if p.dxToId k = 0 then none else some ((i, p.dxToId k), p.point k)

def groupObservations (i : Nat) (members : List Member) : List ((Nat × Word) × Bool) :=
  members.flatMap fun m => (List.range m.ptr.info.elements.toNat).filterMap (observation i m.ptr)

/-- What the second loop of `compare_heaps` sees, in its order. -/
def observations : Option (List ((Nat × Word) × Bool)) := do
  let r₀ ← c.replicas.head?
  collect (fun i => (c.group i).map (groupObservations i)) (List.range r₀.file.partitions.length)

/-- `canary_score` behind the second loop of `compare_heaps` -/
def canaryScore : Option CanaryScore := c.observations.map tally

/-- An unlikely score is printed with the address of the object in the last replica. -/
def printScore (i : Nat) (oid : Word) (h t : Int) : Option Unit :=
  if evalProbability h t < printedBelow then do
    let p ← (← c.replicas.getLast?).pinfoPtr i
    let _ ← p.idToVa oid
    some ()
  else some ()

/-- A turn of the loop of `dang_ptr_read_search`, for an object that was seen `obs` times and has `h` points. -/
def searchObject (db : PatchDatabase) (i : Nat) (oid : Word) (obs h : Nat) : Option PatchDatabase := do
  let t : Int := obs - h
  c.printScore evalProbability i oid h t
  let p ← (← c.replicas.head?).pinfoPtr i
  let aSite ← p.idToAllocSite oid
  let dSite ← p.idToFreeSite oid
  let drag := p.rep.file.globalAllocs - oid
  let db := if dSite ≠ 0 then db.updateStaticInfo (aSite, dSite) (.ofNat 32 h) (.ofInt 32 t) drag else db
  some (if evalProbability h t < dangledBelow then db.doDangPtr aSite dSite drag else db)

/-- `dang_ptr_read_search(canary_score)` -/
def dangPtrReadSearch (score : CanaryScore) (db : PatchDatabase) : Option PatchDatabase :=
  (score.toList.foldlM (fun db entry => c.searchObject evalProbability db entry.1.1 entry.1.2 entry.2.1 entry.2.2)
    db).map (·.inspectStaticInfo evalProbability)

/-- `compare_heaps()` -/
def compareHeaps (db : PatchDatabase) : Option PatchDatabase := do
  let reports ← c.heapReports
  let score ← c.canaryScore
  c.dangPtrReadSearch evalProbability score (db.reportAll reports)

def holders (members : List Member) (oid : Word) : List (Member × Nat) :=
  members.flatMap fun m =>
    ((List.range m.ptr.info.elements.toNat).filter fun k => m.ptr.dxToId k = oid).map (m, ·)

def points (members : List Member) (oid : Word) : Nat := (holders members oid).countP fun s => s.1.ptr.point s.2

/-- An object with an unlikely score was allocated and freed at the sites. -/
def Unlikely (key : Sites) : Prop :=
  ∃ i members oid r₀ p, c.group i = some members ∧ c.replicas.head? = some r₀ ∧ r₀.pinfoPtr i = some p ∧
    (oid ≠ 0 ∧ holders members oid ≠ []) ∧ p.idToAllocSite oid = some key.1 ∧ p.idToFreeSite oid = some key.2 ∧
    evalProbability (points members oid) ((holders members oid).length - points members oid) < dangledBelow

def UnlikelySites (db : PatchDatabase) (key : Sites) : Prop :=
  ∃ heads, db.staticInfo[key]? = some heads ∧ evalProbability heads.1.toInt heads.2.toInt < staticBelow

variable {c} {evalProbability} {i k : Nat} {m : Member} {members : List Member} {oid : Word}

theorem mem_holders : (m, k) ∈ holders members oid ↔
    m ∈ members ∧ k < m.ptr.info.elements.toNat ∧ m.ptr.dxToId k = oid := by
  simp only [holders, List.mem_flatMap, List.mem_map, List.mem_filter, List.mem_range, decide_eq_true_eq,
    Prod.mk.injEq]
  constructor
  · rintro ⟨m', hm', k', ⟨hk, hid⟩, rfl, rfl⟩
    exact ⟨hm', hk, hid⟩
  · intro ⟨hm, hk, hid⟩
    exact ⟨m, hm, k, ⟨hk, hid⟩, rfl, rfl⟩

theorem ofKey_groupObservations (hoid : oid ≠ 0) :
    ofKey (i, oid) (groupObservations i members) =
      (holders members oid).map fun s => ((i, oid), s.1.ptr.point s.2) := by
  rw [ofKey, groupObservations, holders, List.filter_flatMap, List.map_flatMap]
  apply List.flatMap_congr
  intro m _
  induction List.range m.ptr.info.elements.toNat with
  | nil => rfl
  | cons k ks ih =>
    by_cases hk : m.ptr.dxToId k = oid
    · have hseen : observation i m.ptr k = some ((i, oid), m.ptr.point k) := by
        rw [observation, hk, if_neg hoid]
      rw [List.filterMap_cons_some hseen, List.filter_cons_of_pos (by simp), ih,
        List.filter_cons_of_pos (by simpa using hk)]
      rfl
    · rw [List.filter_cons_of_neg (by simpa using hk), ← ih]
      by_cases hzero : m.ptr.dxToId k = 0
      · rw [List.filterMap_cons_none (by rw [observation, if_pos hzero])]
      · have hseen : observation i m.ptr k = some ((i, m.ptr.dxToId k), m.ptr.point k) := by
          rw [observation, if_neg hzero]
        rw [List.filterMap_cons_some hseen, List.filter_cons_of_neg (by simpa using hk)]

theorem eq_of_mem_groupObservations {seen : (Nat × Word) × Bool} (h : seen ∈ groupObservations i members) :
    seen.1.1 = i ∧ seen.1.2 ≠ 0 := by
  obtain ⟨m, -, h⟩ := List.mem_flatMap.mp h
  obtain ⟨k, -, h⟩ := List.mem_filterMap.mp h
  rw [observation] at h
  split at h
  case isTrue => cases h
  case isFalse hne =>
    cases h
    exact ⟨rfl, hne⟩

variable {r₀ : LoadedReplica} {l : List ((Nat × Word) × Bool)} {score : CanaryScore} {obs h : Nat}

theorem lt_of_group (hgroup : c.group i = some members) (hr₀ : c.replicas.head? = some r₀) :
    i < r₀.file.partitions.length := by
  obtain ⟨ps, hps, -⟩ := Option.map_eq_some_iff.mp hgroup
  cases hreplicas : c.replicas with
  | nil =>
    rw [hreplicas] at hr₀
    cases hr₀
  | cons r rs =>
    rw [hreplicas, List.head?_cons] at hr₀
    obtain rfl := Option.some.inj hr₀
    rw [hreplicas, List.mapM_cons] at hps
    obtain ⟨p, hp, -⟩ := Option.bind_eq_some_iff.mp hps
    rw [LoadedReplica.pinfoPtr] at hp
    split at hp
    case h_1 => cases hp
    case h_2 info hinfo => exact (List.getElem?_eq_some_iff.mp hinfo).1

theorem ofKey_observations (hl : c.observations = some l) (hgroup : c.group i = some members) (hoid : oid ≠ 0) :
    ofKey (i, oid) l = (holders members oid).map fun s => ((i, oid), s.1.ptr.point s.2) := by
  obtain ⟨r₀, hr₀, hl⟩ := Option.bind_eq_some_iff.mp hl
  rw [← ofKey_groupObservations hoid]
  refine filter_collect hl List.nodup_range (List.mem_range.mpr (lt_of_group hgroup hr₀))
    (by rw [hgroup, Option.map_some]) ?_
  intro j _ hj seenThere hthere seen hseen
  obtain ⟨members', -, rfl⟩ := Option.map_eq_some_iff.mp hthere
  rw [decide_eq_false_iff_not]
  intro heq
  exact hj ((eq_of_mem_groupObservations hseen).1.symm.trans (congrArg Prod.fst heq))

/-- The scores are those of the objects that some slot has, with the number of these slots. -/
theorem mem_canaryScore (hscore : c.canaryScore = some score) : ((i, oid), obs, h) ∈ score.toList ↔
    ∃ members, c.group i = some members ∧ (oid ≠ 0 ∧ holders members oid ≠ []) ∧
      obs = (holders members oid).length ∧ h = points members oid := by
  obtain ⟨l, hl, rfl⟩ := Option.map_eq_some_iff.mp hscore
  rw [ExtTreeMap.mem_toList_iff_getElem?_eq_some, getElem?_tally]
  constructor
  · intro hentry
    split at hentry
    case isTrue => cases hentry
    case isFalse hne =>
      obtain ⟨seen, hseen⟩ := List.exists_mem_of_ne_nil _ hne
      obtain ⟨hseen, hkey⟩ := List.mem_filter.mp hseen
      obtain ⟨r₀, -, hcollect⟩ := Option.bind_eq_some_iff.mp hl
      obtain ⟨j, -, there, hthere, hmem⟩ := (mem_collect hcollect seen).mp hseen
      obtain ⟨members, hgroup, rfl⟩ := Option.map_eq_some_iff.mp hthere
      obtain ⟨hj, hoid⟩ := eq_of_mem_groupObservations hmem
      rw [of_decide_eq_true hkey] at hj hoid
      obtain rfl : i = j := hj
      rw [ofKey_observations hl hgroup hoid] at hne hentry
      obtain ⟨rfl, rfl⟩ := Prod.mk.inj (Option.some.inj hentry)
      refine ⟨members, hgroup, ⟨hoid, fun hnil => hne (by rw [hnil, List.map_nil])⟩, List.length_map _, ?_⟩
      exact List.countP_map
  · rintro ⟨members, hgroup, ⟨hoid, hne⟩, rfl, rfl⟩
    rw [ofKey_observations hl hgroup hoid, if_neg fun hnil => hne (List.map_eq_nil_iff.mp hnil), List.length_map,
      List.countP_map]
    rfl

end HeapComparison

namespace PatchDatabase

variable {db db' db'' : PatchDatabase} {sites sites' : Sites → Prop} {key : Sites}

/-- The padding stays as it is, and the patches for dangling pointers of other sites. -/
structure OnlyDangles (db db' : PatchDatabase) (sites : Sites → Prop) : Prop where
  overflow : db'.overflowPatches = db.overflowPatches
  dangle : ∀ key, db'.danglePatches[key]? ≠ db.danglePatches[key]? → sites key

theorem OnlyDangles.refl (db : PatchDatabase) (sites : Sites → Prop) : OnlyDangles db db sites :=
  ⟨rfl, fun _ hne => absurd rfl hne⟩

theorem OnlyDangles.trans (h : OnlyDangles db db' sites) (h' : OnlyDangles db' db'' sites) :
    OnlyDangles db db'' sites := by
  refine ⟨h'.overflow.trans h.overflow, ?_⟩
  intro key hne
  by_cases hsame : db''.danglePatches[key]? = db'.danglePatches[key]?
  · exact h.dangle key (hsame ▸ hne)
  · exact h'.dangle key hsame

theorem OnlyDangles.mono (h : OnlyDangles db db' sites) (himp : ∀ key, sites key → sites' key) :
    OnlyDangles db db' sites' :=
  ⟨h.overflow, fun key hne => himp key (h.dangle key hne)⟩

theorem onlyDangles_doDangPtr (db : PatchDatabase) (allocSite freeSite td : Word) :
    OnlyDangles db (db.doDangPtr allocSite freeSite td) (· = (allocSite, freeSite)) := by
  refine ⟨overflowPatches_doDangPtr db allocSite freeSite td, ?_⟩
  intro key hne
  by_contra hkey
  apply hne
  rw [doDangPtr]
  generalize (if td = 0 then 1 else td) * 2 = doubled
  split
  · rfl
  · rw [getElem?_addDanglePatch, if_neg fun heq => hkey heq.symm]

theorem staticInfo_doDangPtr (db : PatchDatabase) (allocSite freeSite td : Word) :
    (db.doDangPtr allocSite freeSite td).staticInfo = db.staticInfo := by
  rw [doDangPtr]
  generalize (if td = 0 then 1 else td) * 2 = doubled
  split <;> rfl

theorem OnlyDangles.foldlM {α : Type} {f : PatchDatabase → α → Option PatchDatabase} {l : List α}
    (hstep : ∀ a ∈ l, ∀ db db', f db a = some db' → OnlyDangles db db' sites)
    (h : l.foldlM f db = some db') : OnlyDangles db db' sites := by
  induction l generalizing db with
  | nil =>
    cases h
    exact OnlyDangles.refl _ sites
  | cons a l ih =>
    rw [List.foldlM_cons] at h
    obtain ⟨next, hnext, h⟩ := Option.bind_eq_some_iff.mp h
    exact (hstep a List.mem_cons_self db next hnext).trans
      (ih (fun b hb => hstep b (List.mem_cons_of_mem _ hb)) h)

/-- A pair of sites gets a patch from the counts only where they are unlikely; the counts stay. -/
theorem onlyDangles_inspectStaticInfo (evalProbability : Int → Int → ℚ) (db : PatchDatabase) :
    OnlyDangles db (db.inspectStaticInfo evalProbability)
        (HeapComparison.UnlikelySites evalProbability (db.inspectStaticInfo evalProbability)) ∧
      (db.inspectStaticInfo evalProbability).staticInfo = db.staticInfo := by
  have hturns : ∀ (entries : List (Sites × Sites)) (before : PatchDatabase),
      (∀ entry ∈ entries, db.staticInfo[entry.1]? = some entry.2) → before.staticInfo = db.staticInfo →
        let after := entries.foldl (fun db entry =>
          if evalProbability entry.2.1.toInt entry.2.2.toInt < staticBelow then
            db.doDangPtr entry.1.1 entry.1.2 (db.dragMap entry.1)
          else db) before
        OnlyDangles before after (HeapComparison.UnlikelySites evalProbability db) ∧
          after.staticInfo = db.staticInfo := by
    intro entries
    induction entries with
    | nil => exact fun before _ hbefore => ⟨OnlyDangles.refl before _, hbefore⟩
    | cons entry entries ih =>
      intro before hentries hbefore
      obtain ⟨hentry, hrest⟩ := List.forall_mem_cons.mp hentries
      rw [List.foldl_cons]
      split
      case isTrue hunlikely =>
        obtain ⟨honly, hafter⟩ := ih (before.doDangPtr entry.1.1 entry.1.2 (before.dragMap entry.1)) hrest
          (by rw [staticInfo_doDangPtr, hbefore])
        refine ⟨OnlyDangles.trans ((onlyDangles_doDangPtr before _ _ _).mono ?_) honly, hafter⟩
        rintro key rfl
        exact ⟨entry.2, hentry, hunlikely⟩
      case isFalse => exact ih before hrest hbefore
  obtain ⟨honly, hafter⟩ := hturns db.staticInfo.toList db
    (fun entry hentry => ExtTreeMap.mem_toList_iff_getElem?_eq_some.mp hentry) rfl
  refine ⟨honly.mono ?_, hafter⟩
  intro key hkey
  rw [HeapComparison.UnlikelySites, inspectStaticInfo, hafter]
  exact hkey

end PatchDatabase

namespace HeapComparison

open PatchDatabase

variable {c : HeapComparison} {evalProbability : Int → Int → ℚ} {db db' : PatchDatabase} {score : CanaryScore}

/-- The search finds the object in the first replica, and its address in the last one. -/
structure Found (c : HeapComparison) (i : Nat) (oid : Word) : Prop where
  first : ∃ r p, c.replicas.head? = some r ∧ r.pinfoPtr i = some p ∧ (p.pmap oid).isSome
  last : ∃ r p, c.replicas.getLast? = some r ∧ r.pinfoPtr i = some p ∧ (p.idToVa oid).isSome

theorem onlyDangles_searchObject {i : Nat} {oid : Word} {members : List Member} (hgroup : c.group i = some members)
    (hobject : oid ≠ 0 ∧ holders members oid ≠ [])
    (h : c.searchObject evalProbability db i oid (holders members oid).length (points members oid) = some db') :
    OnlyDangles db db' (c.Unlikely evalProbability) := by
  simp only [searchObject, Option.bind_eq_bind, Option.bind_eq_some_iff] at h
  obtain ⟨-, -, r₀, hr₀, p, hp, aSite, haSite, dSite, hdSite, h⟩ := h
  generalize hcounted : (if dSite ≠ 0 then db.updateStaticInfo (aSite, dSite) _ _ _ else db) = counted at h
  have hupdate : OnlyDangles db counted (c.Unlikely evalProbability) := by
    rw [← hcounted]
    split
    · exact ⟨rfl, fun _ hne => absurd rfl hne⟩
    · exact OnlyDangles.refl db _
  obtain rfl := Option.some.inj h
  split
  case isTrue hunlikely =>
    refine hupdate.trans ((onlyDangles_doDangPtr _ _ _ _).mono ?_)
    rintro key rfl
    exact ⟨i, members, oid, r₀, p, hgroup, hr₀, hp, hobject, haSite, hdSite, hunlikely⟩
  case isFalse => exact hupdate

theorem onlyDangles_dangPtrReadSearch (hscore : c.canaryScore = some score)
    (h : c.dangPtrReadSearch evalProbability score db = some db') : OnlyDangles db db' fun key =>
      c.Unlikely evalProbability key ∨ UnlikelySites evalProbability db' key := by
  obtain ⟨searched, hsearched, rfl⟩ := Option.map_eq_some_iff.mp h
  have hobjects : OnlyDangles db searched (c.Unlikely evalProbability) := by
    refine OnlyDangles.foldlM ?_ hsearched
    rintro ⟨⟨i, oid⟩, obs, h⟩ hentry before after hafter
    obtain ⟨members, hgroup, hobject, rfl, rfl⟩ := (mem_canaryScore hscore).mp hentry
    exact onlyDangles_searchObject hgroup hobject hafter
  exact (hobjects.mono fun _ => Or.inl).trans
    ((onlyDangles_inspectStaticInfo evalProbability searched).1.mono fun _ => Or.inr)

theorem searchObject_isSome (evalProbability : Int → Int → ℚ) {i obs h : Nat} {oid : Word} (hfound : c.Found i oid)
    (db : PatchDatabase) :
    (c.searchObject evalProbability db i oid obs h).isSome := by
  obtain ⟨⟨r₀, p, hr₀, hp, hplace⟩, rₗ, q, hrₗ, hq, haddress⟩ := hfound
  obtain ⟨dx, hdx⟩ := Option.isSome_iff_exists.mp hplace
  obtain ⟨va, hva⟩ := Option.isSome_iff_exists.mp haddress
  have hprint : c.printScore evalProbability i oid h (obs - h) = some () := by
    rw [printScore, hrₗ]
    simp [hq, hva]
  simp [searchObject, hprint, hr₀, hp, PinfoPtr.idToAllocSite, PinfoPtr.idToFreeSite, hdx]

theorem dangPtrReadSearch_isSome (evalProbability : Int → Int → ℚ) (hscore : c.canaryScore = some score)
    (hfound : ∀ i members, c.group i = some members → ∀ m ∈ members, ∀ k < m.ptr.info.elements.toNat,
      m.ptr.dxToId k ≠ 0 → c.Found i (m.ptr.dxToId k)) (db : PatchDatabase) :
    (c.dangPtrReadSearch evalProbability score db).isSome := by
  have hturns : ∀ entries : List ((Nat × Word) × Nat × Nat), (∀ entry ∈ entries, entry ∈ score.toList) →
      ∀ db, (entries.foldlM (fun db entry =>
        c.searchObject evalProbability db entry.1.1 entry.1.2 entry.2.1 entry.2.2) db).isSome := by
    intro entries
    induction entries with
    | nil => exact fun _ _ => rfl
    | cons entry entries ih =>
      intro hentries db
      obtain ⟨hentry, hrest⟩ := List.forall_mem_cons.mp hentries
      obtain ⟨members, hgroup, ⟨hoid, hne⟩, -, -⟩ := (mem_canaryScore hscore).mp hentry
      obtain ⟨⟨m, k⟩, hholder⟩ := List.exists_mem_of_ne_nil _ hne
      obtain ⟨hm, hk, hid⟩ := mem_holders.mp hholder
      have hobject := hfound _ members hgroup m hm k hk (hid ▸ hoid)
      rw [hid] at hobject
      obtain ⟨next, hnext⟩ := Option.isSome_iff_exists.mp (searchObject_isSome evalProbability hobject db)
      rw [List.foldlM_cons, hnext]
      exact ih hrest next
  rw [dangPtrReadSearch, Option.isSome_map]
  exact hturns score.toList (fun _ hentry => hentry) db

end HeapComparison

end DieHard.Exterminator
