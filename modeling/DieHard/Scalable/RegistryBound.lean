import DieHard.Lib.Transition
import DieHard.Scalable.Registry

/-!
# The bound of the registry

Any number of threads register heaps and look for owners. The bound on the IDs only grows, never beyond
the registered IDs, and covers each ID whose registration has returned. The loop that
raises it tests a copy that a successful exchange does not refresh; the exchange after it fails.
-/

namespace DieHard

open Transition HeapRegistry

/-- A thread registers a heap, with the attempts of its loop that did not fail spuriously, or looks for
an owner, with the entries that it has examined and the IDs whose registration had returned before. -/
inductive RegistryPlace
  | idle
  | registering (heap threadId : Nat) (pc : RegisterPc) (attempts : Nat)
  | finding (ptr : Addr) (excludeThreadId : Nat) (pc : FindPc) (examined since : List Nat)

/-- A `findOwner` that has returned. -/
structure Search where
  excludeThreadId : Nat
  examined : List Nat
  result : Option Nat
  since : List Nat

def Search.Examines (search : Search) (id : Nat) : Prop := id ∈ search.examined

def Search.ExaminesUnlessDone (search : Search) (id : Nat) : Prop :=
  id ∈ search.examined ∨ id = search.excludeThreadId ∨ ∃ j < id, search.result = some j

/-- The registry, the threads, the registrations that have returned with their attempts, and the searches
that have returned. -/
structure RegistryThreads where
  registry : HeapRegistry
  place : Nat → RegistryPlace
  returned : List (Nat × Nat)
  searches : List Search

/-- What a step meets: a spurious failure, and the heaps that a search asks. -/
structure RegistryChoice where
  spurious : Bool
  large : LargeHeap
  process : Process

inductive RegistryStep
  | register (thread heap threadId : Nat)
  | find (thread : Nat) (ptr : Addr) (excludeThreadId : Nat)
  | step (thread : Nat) (choice : RegistryChoice)

namespace RegistryThreads

def new : RegistryThreads := ⟨.empty, fun _ => .idle, [], []⟩

variable (cfg : HeapConfig) (pool : PoolConfig)

def goTo (s : RegistryThreads) (t : Nat) (p : RegistryPlace) : RegistryThreads :=
  { s with place := Function.update s.place t p }

/-- The attempts after an access: an exchange counts unless it fails with the value that it expects. -/
def count (maxThreadId : Nat) (spurious : Bool) (attempts : Nat) : RegisterPc → Nat
  | .publish => attempts
  | .loadMax => attempts
  | .casMax oldMax => if maxThreadId = oldMax ∧ spurious = true then attempts else attempts + 1

def examine (excludeThreadId : Nat) (examined : List Nat) : FindPc → List Nat
  | .entry i maxId => if i < maxId ∧ i ≠ excludeThreadId then i :: examined else examined
  | _ => examined

/-- A `registerHeap` goes on or returns. -/
def registerNext (s : RegistryThreads) (t heap threadId attempts : Nat)
    (r : HeapRegistry × (RegisterPc ⊕ Unit)) : RegistryThreads :=
  match r.2 with
  | .inl pc => { s with registry := r.1 }.goTo t (.registering heap threadId pc attempts)
  | .inr _ => { s with
      registry := r.1
      returned := (threadId, attempts) :: s.returned }.goTo t .idle

/-- A `findOwner` goes on or returns. -/
def findNext (s : RegistryThreads) (t : Nat) (ptr : Addr) (excludeThreadId : Nat)
    (examined since : List Nat) : FindPc ⊕ Option Nat → RegistryThreads
  | .inl pc => s.goTo t (.finding ptr excludeThreadId pc examined since)
  | .inr result =>
    { s with searches := ⟨excludeThreadId, examined, result, since⟩ :: s.searches }.goTo t .idle

def next (s : RegistryThreads) : RegistryStep → Option RegistryThreads
  | .register t heap threadId =>
    match s.place t with
    | .idle => some (s.goTo t (.registering heap threadId .publish 0))
    | _ => none
  | .find t ptr excludeThreadId =>
    match s.place t with
    | .idle =>
      some (s.goTo t (.finding ptr excludeThreadId .loadMax [] (s.returned.map Prod.fst)))
    | _ => none
  | .step t choice =>
    match s.place t with
    | .idle => none
    | .registering heap threadId pc attempts => some (s.registerNext t heap threadId
        (count s.registry.maxThreadId choice.spurious attempts pc)
        (registerStep pool s.registry heap threadId choice.spurious pc))
    | .finding ptr excludeThreadId pc examined since =>
      some (s.findNext t ptr excludeThreadId (examine excludeThreadId examined pc) since
        (findStep cfg s.registry choice.large choice.process ptr excludeThreadId pc).2)

/-- The IDs are below `MAX_THREADS`. -/
def ok (_ : RegistryThreads) : RegistryStep → Prop
  | .register _ _ threadId => threadId < pool.maxThreads
  | .find _ _ _ => True
  | .step _ _ => True

/-- The bound is one more than a registered ID at most, and covers each registration that has returned,
which has left its loop after `threadId + 2` attempts at most, as no running one has made more. A search
looks at each ID whose registration had returned before it began. -/
structure Bounded (looks : Search → Nat → Prop) (s : RegistryThreads) : Prop where
  max_le : s.registry.maxThreadId = 0 ∨
    ∃ id, s.registry.entries id ≠ none ∧ s.registry.maxThreadId ≤ id + 1
  covers : ∀ id n, (id, n) ∈ s.returned → id + 1 ≤ s.registry.maxThreadId ∧ n ≤ id + 2
  attempts : ∀ t heap id pc n, s.place t = .registering heap id pc n → n ≤ id + 1
  examines : ∀ search ∈ s.searches, ∀ id ∈ search.since, looks search id

/-- The loop's copy is behind the bound, and each attempt but a successful one has raised it. -/
def RegisterOk (maxThreadId threadId attempts : Nat) : RegisterPc → Prop
  | .publish => attempts = 0
  | .loadMax => attempts = 0
  | .casMax oldMax => oldMax ≤ maxThreadId ∧ oldMax < threadId + 1 ∧
    (attempts ≤ oldMax ∨ attempts ≤ oldMax + 1 ∧ threadId + 1 ≤ maxThreadId)

/-- A search that has come to entry `i` has examined what it had to before. -/
structure Examined (excludeThreadId i maxId : Nat) (examined since : List Nat) : Prop where
  lt_max : ∀ id ∈ since, id < maxId
  before : ∀ id ∈ since, id < i → id ∈ examined ∨ id = excludeThreadId

def FindOk (excludeThreadId : Nat) (examined since : List Nat) : FindPc → Prop
  | .loadMax => True
  | .entry i maxId => Examined excludeThreadId i maxId examined since
  | .ask i maxId _ => Examined excludeThreadId (i + 1) maxId examined since
  | .askClass i maxId _ _ _ => Examined excludeThreadId (i + 1) maxId examined since
  | .askBig i maxId => Examined excludeThreadId (i + 1) maxId examined since

def PlaceOk (r : HeapRegistry) : RegistryPlace → Prop
  | .idle => True
  | .registering _ threadId pc attempts => threadId < pool.maxThreads ∧
    (pc ≠ .publish → r.entries threadId ≠ none) ∧ RegisterOk r.maxThreadId threadId attempts pc
  | .finding _ excludeThreadId pc examined since =>
    (∀ id ∈ since, id + 1 ≤ r.maxThreadId) ∧ FindOk excludeThreadId examined since pc

structure Inv (s : RegistryThreads) : Prop where
  max_le : s.registry.maxThreadId = 0 ∨
    ∃ id, s.registry.entries id ≠ none ∧ s.registry.maxThreadId ≤ id + 1
  covers : ∀ id n, (id, n) ∈ s.returned → id + 1 ≤ s.registry.maxThreadId ∧ n ≤ id + 2
  places : ∀ t, PlaceOk pool s.registry (s.place t)
  searches : ∀ search ∈ s.searches, ∀ id ∈ search.since, search.ExaminesUnlessDone id

variable {cfg pool} {s s' : RegistryThreads} {t : Nat}

theorem inv_new : Inv pool new where
  max_le := Or.inl rfl
  covers _ _ h := by simp [new] at h
  places _ := trivial
  searches _ h := by simp [new] at h

/-- A registry has all the entries of another and no lower bound. -/
structure Grows (r r' : HeapRegistry) : Prop where
  entries : ∀ id, r.entries id ≠ none → r'.entries id ≠ none
  max : r.maxThreadId ≤ r'.maxThreadId

theorem Grows.refl (r : HeapRegistry) : Grows r r := ⟨fun _ h => h, Nat.le_refl _⟩

theorem RegisterOk.mono {m m' id n : Nat} {pc : RegisterPc} (h : RegisterOk m id n pc) (hm : m ≤ m') :
    RegisterOk m' id n pc := by
  cases pc with
  | casMax oldMax =>
    obtain ⟨hold, hlt, hattempts⟩ := h
    exact ⟨by omega, hlt, by omega⟩
  | _ => exact h

theorem PlaceOk.mono {r r' : HeapRegistry} {p : RegistryPlace} (h : PlaceOk pool r p)
    (hr : Grows r r') : PlaceOk pool r' p := by
  cases p with
  | idle => trivial
  | registering heap id pc n => exact ⟨h.1, fun hpc => hr.entries id (h.2.1 hpc), h.2.2.mono hr.max⟩
  | finding ptr excludeThreadId pc examined since =>
    exact ⟨fun id hid => Nat.le_trans (h.1 id hid) hr.max, h.2⟩

def RaisedOk (maxThreadId threadId attempts : Nat) : RegisterPc ⊕ Unit → Prop
  | .inl pc => pc ≠ .publish ∧ RegisterOk maxThreadId threadId attempts pc
  | .inr _ => threadId + 1 ≤ maxThreadId ∧ attempts ≤ threadId + 2

theorem raisedOk_raise {m id n : Nat} (h : n ≤ m ∨ n ≤ id + 2 ∧ id + 1 ≤ m) (hn : n ≤ id + 2) :
    RaisedOk m id n (raise id m) := by
  unfold raise
  split
  case isTrue hlt => exact ⟨RegisterPc.noConfusion, Nat.le_refl m, hlt, by omega⟩
  case isFalse hge => exact ⟨by omega, hn⟩

/-- An access of `registerHeap` lowers nothing, raises the bound to its own ID only, and leaves the loop
when the bound has come to it. -/
structure RegisterSpec (r : HeapRegistry) (id attempts : Nat)
    (x : HeapRegistry × (RegisterPc ⊕ Unit)) : Prop where
  grows : Grows r x.1
  entry : x.1.entries id ≠ none
  max_eq : x.1.maxThreadId = r.maxThreadId ∨ x.1.maxThreadId = id + 1
  raised : RaisedOk x.1.maxThreadId id attempts x.2

section Register

variable {r : HeapRegistry} {heap id n : Nat} {spurious : Bool}

theorem registerSpec_publish (hid : id < pool.maxThreads) (h : RegisterOk r.maxThreadId id n .publish) :
    RegisterSpec r id n (registerStep pool r heap id spurious .publish) := by
  rw [registerStep, if_neg (Nat.not_le.mpr hid)]
  constructor
  · constructor
    · intro k hk
      simp only [Function.update_apply]
      split
      · exact Option.some_ne_none heap
      · exact hk
    · exact Nat.le_refl _
  · simp only [Function.update_self]
    exact Option.some_ne_none heap
  · exact Or.inl rfl
  · exact ⟨RegisterPc.noConfusion, h⟩

theorem registerSpec_loadMax (hentry : r.entries id ≠ none)
    (h : RegisterOk r.maxThreadId id n .loadMax) :
    RegisterSpec r id n (registerStep pool r heap id spurious .loadMax) := by
  have hn : n = 0 := h
  constructor
  · exact Grows.refl r
  · exact hentry
  · exact Or.inl rfl
  · exact raisedOk_raise (m := r.maxThreadId) (by omega) (by omega)

/-- A successful exchange leaves the copy below the new bound, so the next one fails. -/
theorem registerSpec_casMax {oldMax : Nat} (hentry : r.entries id ≠ none)
    (h : RegisterOk r.maxThreadId id n (.casMax oldMax)) :
    RegisterSpec r id (count r.maxThreadId spurious n (.casMax oldMax))
      (registerStep pool r heap id spurious (.casMax oldMax)) := by
  obtain ⟨hold, hlt, hn⟩ := h
  rw [registerStep, count]
  by_cases hmax : r.maxThreadId = oldMax
  · cases spurious with
    | false =>
      rw [if_neg (by simp), if_pos ⟨hmax, rfl⟩]
      constructor
      · have hle : r.maxThreadId ≤ id + 1 := by omega
        exact ⟨fun _ hk => hk, hle⟩
      · exact hentry
      · exact Or.inr rfl
      · have hbehind : oldMax ≤ id + 1 := by omega
        exact ⟨RegisterPc.noConfusion, hbehind, hlt, Or.inr ⟨by omega, Nat.le_refl _⟩⟩
    | true =>
      rw [if_pos ⟨hmax, rfl⟩, if_neg (by simp)]
      constructor
      · exact Grows.refl r
      · exact hentry
      · exact Or.inl rfl
      · exact raisedOk_raise (m := r.maxThreadId) (by omega) (by omega)
  · rw [if_neg fun hspurious => hmax hspurious.1, if_neg fun hsucc => hmax hsucc.1]
    constructor
    · exact Grows.refl r
    · exact hentry
    · exact Or.inl rfl
    · exact raisedOk_raise (m := r.maxThreadId) (by omega) (by omega)

theorem registerSpec {pc : RegisterPc} (h : PlaceOk pool r (.registering heap id pc n)) :
    RegisterSpec r id (count r.maxThreadId spurious n pc)
      (registerStep pool r heap id spurious pc) := by
  obtain ⟨hid, hentry, hok⟩ := h
  cases pc with
  | publish => exact registerSpec_publish hid hok
  | loadMax => exact registerSpec_loadMax (hentry RegisterPc.noConfusion) hok
  | casMax oldMax => exact registerSpec_casMax (hentry RegisterPc.noConfusion) hok

end Register

/-- A search goes on to an entry it may come to, or has examined what it had to. -/
def FoundOk (excludeThreadId : Nat) (examined since : List Nat) : FindPc ⊕ Option Nat → Prop
  | .inl pc => FindOk excludeThreadId examined since pc
  | .inr result =>
    ∀ id ∈ since, (Search.mk excludeThreadId examined result since).ExaminesUnlessDone id

section Find

variable {cfg : HeapConfig} {r : HeapRegistry} {large : LargeHeap} {process : Process} {ptr : Addr}
variable {excludeThreadId i maxId heap : Nat} {examined since : List Nat}

theorem foundOk_some (h : Examined excludeThreadId (i + 1) maxId examined since) :
    FoundOk excludeThreadId examined since (.inr (some i)) := by
  intro id hid
  rcases Nat.lt_or_ge i id with hlt | hge
  · exact Or.inr (Or.inr ⟨i, hlt, rfl⟩)
  · rcases h.before id hid (Nat.lt_succ_of_le hge) with hex | heq
    · exact Or.inl hex
    · exact Or.inr (Or.inl heq)

theorem foundOk_askStep (h : Examined excludeThreadId (i + 1) maxId examined since) :
    FoundOk excludeThreadId examined since (askStep cfg process ptr i maxId heap) := by
  unfold askStep
  dsimp only
  split
  · split
    · exact foundOk_some h
    · exact h
  · split
    · exact foundOk_some h
    · exact h

theorem Examined.succ (h : Examined excludeThreadId i maxId examined since)
    (hexamined : i ∈ examined ∨ i = excludeThreadId) :
    Examined excludeThreadId (i + 1) maxId examined since := by
  refine ⟨h.lt_max, ?_⟩
  intro id hid hlt
  rcases Nat.lt_succ_iff_lt_or_eq.mp hlt with hlt | rfl
  · exact h.before id hid hlt
  · exact hexamined

theorem Examined.examine (h : Examined excludeThreadId i maxId examined since) :
    Examined excludeThreadId i maxId (examine excludeThreadId examined (.entry i maxId)) since := by
  refine ⟨h.lt_max, ?_⟩
  intro id hid hlt
  rw [RegistryThreads.examine]
  split
  · exact (h.before id hid hlt).imp_left (List.mem_cons_of_mem i)
  · exact h.before id hid hlt

theorem foundOk_entry (h : Examined excludeThreadId i maxId examined since) :
    FoundOk excludeThreadId (examine excludeThreadId examined (.entry i maxId)) since
      (findStep cfg r large process ptr excludeThreadId (.entry i maxId)).2 := by
  have hnext := h.examine
  rw [findStep]
  split
  case isTrue hle =>
    intro id hid
    exact (hnext.before id hid (Nat.lt_of_lt_of_le (h.lt_max id hid) hle)).imp_right Or.inl
  case isFalse hlt =>
    split
    case isTrue heq => exact hnext.succ (Or.inr heq)
    case isFalse hne =>
      have hexamined : i ∈ examine excludeThreadId examined (.entry i maxId) := by
        rw [examine, if_pos ⟨by omega, hne⟩]
        exact List.mem_cons_self
      cases r.entries i with
      | none => exact hnext.succ (Or.inl hexamined)
      | some heap => exact hnext.succ (Or.inl hexamined)

theorem foundOk {pc : FindPc} (hsince : ∀ id ∈ since, id + 1 ≤ r.maxThreadId)
    (h : FindOk excludeThreadId examined since pc) :
    FoundOk excludeThreadId (examine excludeThreadId examined pc) since
      (findStep cfg r large process ptr excludeThreadId pc).2 := by
  cases pc with
  | loadMax => exact ⟨hsince, fun _ _ hlt => absurd hlt (Nat.not_lt_zero _)⟩
  | entry i maxId => exact foundOk_entry h
  | ask i maxId heap => exact foundOk_askStep h
  | askClass i maxId heap cached c =>
    rw [findStep]
    split
    · exact h
    · split
      · exact h
      · split
        · exact foundOk_some h
        · exact h
  | askBig i maxId =>
    rw [findStep]
    split
    · exact foundOk_some h
    · exact h

end Find

theorem places_goTo {s : RegistryThreads} {p : RegistryPlace} (h : PlaceOk pool s.registry p)
    (hothers : ∀ u, PlaceOk pool s.registry (s.place u)) (u : Nat) :
    PlaceOk pool s.registry ((s.goTo t p).place u) := by
  simp only [goTo, Function.update_apply]
  split
  · exact h
  · exact hothers u

theorem Inv.goTo (h : Inv pool s) {p : RegistryPlace} (hp : PlaceOk pool s.registry p) :
    Inv pool (s.goTo t p) := ⟨h.max_le, h.covers, places_goTo hp h.places, h.searches⟩

theorem Inv.grow (h : Inv pool s) {r : HeapRegistry} {id : Nat} (hr : Grows s.registry r)
    (hentry : r.entries id ≠ none)
    (hmax : r.maxThreadId = s.registry.maxThreadId ∨ r.maxThreadId = id + 1) :
    Inv pool { s with registry := r } := by
  constructor
  · rcases hmax with hsame | hraised
    · rcases h.max_le with hzero | ⟨k, hk, hle⟩
      · exact Or.inl (hsame.trans hzero)
      · exact Or.inr ⟨k, hr.entries k hk, hsame.trans_le hle⟩
    · exact Or.inr ⟨id, hentry, hraised.le⟩
  · intro k n hk
    exact ⟨Nat.le_trans (h.covers k n hk).1 hr.max, (h.covers k n hk).2⟩
  · intro u
    exact (h.places u).mono hr
  · exact h.searches

theorem Inv.return (h : Inv pool s) {id n : Nat} (hid : id + 1 ≤ s.registry.maxThreadId)
    (hn : n ≤ id + 2) : Inv pool { s with returned := (id, n) :: s.returned } := by
  refine ⟨h.max_le, ?_, h.places, h.searches⟩
  intro k m hk
  rcases List.mem_cons.mp hk with heq | hk
  · cases heq
    exact ⟨hid, hn⟩
  · exact h.covers k m hk

theorem Inv.answer (h : Inv pool s) (search : Search)
    (hsearch : ∀ id ∈ search.since, search.ExaminesUnlessDone id) :
    Inv pool { s with searches := search :: s.searches } := by
  refine ⟨h.max_le, h.covers, h.places, ?_⟩
  intro other hother
  rcases List.mem_cons.mp hother with rfl | hother
  · exact hsearch
  · exact h.searches other hother

theorem Inv.registerNext (h : Inv pool s) {heap id n : Nat} {x : HeapRegistry × (RegisterPc ⊕ Unit)}
    (hid : id < pool.maxThreads) (hx : RegisterSpec s.registry id n x) :
    Inv pool (s.registerNext t heap id n x) := by
  have hgrown : Inv pool { s with registry := x.1 } := h.grow hx.grows hx.entry hx.max_eq
  have hraised := hx.raised
  rw [RegistryThreads.registerNext]
  cases hpc : x.2 with
  | inl pc =>
    rw [hpc] at hraised
    exact hgrown.goTo ⟨hid, fun _ => hx.entry, hraised.2⟩
  | inr _ =>
    rw [hpc] at hraised
    exact (hgrown.return hraised.1 hraised.2).goTo trivial

theorem Inv.findNext (h : Inv pool s) {ptr : Addr} {excludeThreadId : Nat} {examined since : List Nat}
    {x : FindPc ⊕ Option Nat} (hsince : ∀ id ∈ since, id + 1 ≤ s.registry.maxThreadId)
    (hx : FoundOk excludeThreadId examined since x) :
    Inv pool (s.findNext t ptr excludeThreadId examined since x) := by
  cases x with
  | inl pc => exact h.goTo ⟨hsince, hx⟩
  | inr result =>
    exact (h.answer ⟨excludeThreadId, examined, result, since⟩ hx).goTo trivial

theorem Inv.next {a : RegistryStep} (h : Inv pool s) (hok : ok pool s a)
    (hs : next cfg pool s a = some s') : Inv pool s' := by
  cases a with
  | register t heap id =>
    simp only [RegistryThreads.next] at hs
    split at hs
    case h_1 =>
      cases hs
      exact h.goTo ⟨hok, fun hpc => absurd rfl hpc, rfl⟩
    case h_2 => contradiction
  | find t ptr excludeThreadId =>
    simp only [RegistryThreads.next] at hs
    split at hs
    case h_1 =>
      cases hs
      refine h.goTo ⟨?_, trivial⟩
      intro id hid
      obtain ⟨⟨k, n⟩, hk, rfl⟩ := List.mem_map.mp hid
      exact (h.covers k n hk).1
    case h_2 => contradiction
  | step t choice =>
    have hplace := h.places t
    simp only [RegistryThreads.next] at hs
    cases hp : s.place t with
    | idle =>
      rw [hp] at hs
      contradiction
    | registering heap id pc n =>
      rw [hp] at hs hplace
      cases hs
      exact h.registerNext hplace.1 (registerSpec hplace)
    | finding ptr excludeThreadId pc examined since =>
      rw [hp] at hs hplace
      cases hs
      exact h.findNext hplace.1 (foundOk hplace.1 hplace.2)

/-- No step lowers the bound. -/
theorem Inv.max_le_next {a : RegistryStep} (h : Inv pool s)
    (hs : RegistryThreads.next cfg pool s a = some s') :
    s.registry.maxThreadId ≤ s'.registry.maxThreadId := by
  cases a with
  | register t heap id =>
    simp only [RegistryThreads.next] at hs
    split at hs
    case h_1 =>
      cases hs
      exact Nat.le_refl _
    case h_2 => contradiction
  | find t ptr excludeThreadId =>
    simp only [RegistryThreads.next] at hs
    split at hs
    case h_1 =>
      cases hs
      exact Nat.le_refl _
    case h_2 => contradiction
  | step t choice =>
    have hplace := h.places t
    simp only [RegistryThreads.next] at hs
    cases hp : s.place t with
    | idle =>
      rw [hp] at hs
      contradiction
    | registering heap id pc n =>
      rw [hp] at hs hplace
      cases hs
      have hmax : s.registry.maxThreadId ≤
          (registerStep pool s.registry heap id choice.spurious pc).1.maxThreadId :=
        (registerSpec hplace).grows.max
      rw [RegistryThreads.registerNext]
      cases (registerStep pool s.registry heap id choice.spurious pc).2 with
      | inl pc => exact hmax
      | inr _ => exact hmax
    | finding ptr excludeThreadId pc examined since =>
      rw [hp] at hs
      cases hs
      cases (findStep cfg s.registry choice.large choice.process ptr excludeThreadId pc).2 with
      | inl pc => exact Nat.le_refl _
      | inr result => exact Nat.le_refl _

theorem Inv.bounded (h : Inv pool s) : Bounded Search.ExaminesUnlessDone s := by
  refine ⟨h.max_le, h.covers, ?_, h.searches⟩
  intro t heap id pc n hp
  have hplace := h.places t
  rw [hp] at hplace
  have hok := hplace.2.2
  cases pc with
  | publish => exact (Nat.le_of_eq hok).trans (Nat.zero_le _)
  | loadMax => exact (Nat.le_of_eq hok).trans (Nat.zero_le _)
  | casMax oldMax =>
    obtain ⟨_, hlt, hn⟩ := hok
    omega

theorem reach_inv (h : Reach (next cfg pool) (ok pool) new s) : Inv pool s :=
  h.invariant (I := Inv pool) inv_new fun _ _ _ hinv hok hs => hinv.next hok hs

/-- In every state that threads reach the bound is tight enough and covers what has been registered, and
it is no lower in any later state. -/
theorem reach_bounded (h : Reach (next cfg pool) (ok pool) new s) :
    Bounded Search.ExaminesUnlessDone s ∧ ∀ s', Reach (next cfg pool) (ok pool) s s' →
      s.registry.maxThreadId ≤ s'.registry.maxThreadId := by
  refine ⟨(reach_inv h).bounded, ?_⟩
  intro s' h'
  induction h' with
  | refl => exact Nat.le_refl _
  | step hprev _ hs ih => exact Nat.le_trans ih ((reach_inv (h.trans hprev)).max_le_next hs)

instance (s : RegistryThreads) : (a : RegistryStep) → Decidable (ok pool s a)
  | .register _ _ threadId => inferInstanceAs (Decidable (threadId < pool.maxThreads))
  | .find _ _ _ => instDecidableTrue
  | .step _ _ => instDecidableTrue

def quiet : RegistryChoice := ⟨false, .empty, .initial (fun _ => 0) (fun _ _ _ => 0) (fun _ => 0) []⟩

/-- Threads 0 and 1 register with IDs 3 and 1, and the first to raise the bound wins; thread 1 then looks
for an owner other than itself. -/
def twoRegistrations : List RegistryStep :=
  [.register 0 0 3, .register 1 1 1, .step 0 quiet, .step 0 quiet, .step 1 quiet, .step 1 quiet,
    .step 0 quiet, .step 1 quiet, .step 0 quiet, .find 1 4096 1] ++ List.replicate 8 (.step 1 quiet)

private theorem reach_twoRegistrations :
    Reach (next (.libdieharder true true) .default) (ok .default) new
      (final (next (.libdieharder true true) .default) new twoRegistrations) :=
  reach_final (guarded_of_bool (by decide)) (by decide)

theorem bounded_twoRegistrations :
    Bounded Search.ExaminesUnlessDone
      (final (next (.libdieharder true true) .default) new twoRegistrations) ∧
    (final (next (.libdieharder true true) .default) new twoRegistrations).registry.maxThreadId = 4 ∧
    (3, 2) ∈ (final (next (.libdieharder true true) .default) new twoRegistrations).returned :=
  ⟨(reach_bounded reach_twoRegistrations).1, by decide, by decide⟩

/-- The search of thread 1 does not examine entry 1, which it was to exclude. -/
theorem not_examined : ∃ s, Reach (next (.libdieharder true true) .default) (ok .default) new s ∧
    ¬ Bounded Search.Examines s := by
  refine ⟨_, reach_twoRegistrations, ?_⟩
  intro h
  have hsearch : (⟨1, [3, 2, 0], none, [3, 1]⟩ : Search) ∈
      (final (next (.libdieharder true true) .default) new twoRegistrations).searches :=
    List.mem_singleton_self _
  have hexamined : 1 ∈ [3, 2, 0] := h.examines _ hsearch 1 (by decide)
  revert hexamined
  decide

end RegistryThreads

end DieHard
