import Mathlib.Tactic
import Mathlib.Data.List.Perm.Basic

/-!
# Classes found by comparing with first members

Each element goes into the first class whose first member it compares equal to, or starts a class of its
own. When the comparison is an equivalence on the elements, the classes are those of the equivalence, in
whatever order the elements come. A comparison that is reflexive and symmetric only gives other classes in
another order.
-/

namespace Classes

variable {α : Type*}

/-- Put an element into a class; the comparison may fail to have a result. -/
def place (compare : α → α → Option Bool) (x : α) : List (List α) → Option (List (List α))
  | [] => some [[x]]
  | [] :: classes => (place compare x classes).map ([] :: ·)
  | (first :: members) :: classes =>
    (compare first x).bind fun same =>
      if same then some ((first :: members ++ [x]) :: classes)
      else (place compare x classes).map ((first :: members) :: ·)

def split (compare : α → α → Option Bool) (classes : List (List α)) (rest : List α) :
    Option (List (List α)) :=
  rest.foldlM (fun classes x => place compare x classes) classes

def Accepts (compare : α → α → Option Bool) (x y : α) : Prop := compare x y = some true

def Same (cs ds : List (List α)) : Prop :=
  (∀ c ∈ cs, ∃ d ∈ ds, ∀ x, x ∈ c ↔ x ∈ d) ∧ ∀ d ∈ ds, ∃ c ∈ cs, ∀ x, x ∈ c ↔ x ∈ d

/-- The relation is an equivalence among the elements of the list. -/
structure EquivalenceOn (R : α → α → Prop) (xs : List α) : Prop where
  refl : ∀ x ∈ xs, R x x
  symm : ∀ x ∈ xs, ∀ y ∈ xs, R x y → R y x
  trans : ∀ x ∈ xs, ∀ y ∈ xs, ∀ z ∈ xs, R x y → R y z → R x z

/-- The lists are the classes of the relation among the elements. -/
structure Of (R : α → α → Prop) (xs : List α) (classes : List (List α)) : Prop where
  mem : ∀ c ∈ classes, ∀ x ∈ c, x ∈ xs ∧ ∀ y ∈ xs, y ∈ c ↔ R x y
  covers : ∀ x ∈ xs, ∃ c ∈ classes, x ∈ c
  nonempty : ∀ c ∈ classes, c ≠ []
  disjoint : classes.Pairwise List.Disjoint

variable {R : α → α → Prop} {xs ys : List α} {cs ds classes classes' : List (List α)} {c : List α} {x : α}
  {compare : α → α → Option Bool}

theorem Same.symm (h : Same cs ds) : Same ds cs := by
  constructor
  · intro d hd
    obtain ⟨c, hc, hiff⟩ := h.2 d hd
    exact ⟨c, hc, fun x => (hiff x).symm⟩
  · intro c hc
    obtain ⟨d, hd, hiff⟩ := h.1 c hc
    exact ⟨d, hd, fun x => (hiff x).symm⟩

theorem Same.trans {es : List (List α)} (h : Same cs ds) (h' : Same ds es) : Same cs es := by
  constructor
  · intro c hc
    obtain ⟨d, hd, hiff⟩ := h.1 c hc
    obtain ⟨e, he, hiff'⟩ := h'.1 d hd
    exact ⟨e, he, fun x => (hiff x).trans (hiff' x)⟩
  · intro e he
    obtain ⟨d, hd, hiff⟩ := h'.2 e he
    obtain ⟨c, hc, hiff'⟩ := h.2 d hd
    exact ⟨c, hc, fun x => (hiff' x).trans (hiff x)⟩

theorem Same.of_perm (h : cs.Perm ds) : Same cs ds :=
  ⟨fun c hc => ⟨c, h.mem_iff.mp hc, fun _ => Iff.rfl⟩, fun d hd => ⟨d, h.mem_iff.mpr hd, fun _ => Iff.rfl⟩⟩

theorem EquivalenceOn.mono (h : EquivalenceOn R xs) (hsub : ∀ y ∈ ys, y ∈ xs) : EquivalenceOn R ys where
  refl y hy := h.refl y (hsub y hy)
  symm y hy z hz := h.symm y (hsub y hy) z (hsub z hz)
  trans y hy z hz w hw := h.trans y (hsub y hy) z (hsub z hz) w (hsub w hw)

private theorem Of.le (h : Of R xs cs) (h' : Of R ys ds) (hmem : ∀ x, x ∈ xs ↔ x ∈ ys) :
    ∀ c ∈ cs, ∃ d ∈ ds, ∀ x, x ∈ c ↔ x ∈ d := by
  intro c hc
  obtain ⟨x, hx⟩ := List.exists_mem_of_ne_nil c (h.nonempty c hc)
  obtain ⟨hxs, hiff⟩ := h.mem c hc x hx
  obtain ⟨d, hd, hxd⟩ := h'.covers x ((hmem x).mp hxs)
  refine ⟨d, hd, ?_⟩
  intro y
  obtain ⟨-, hiff'⟩ := h'.mem d hd x hxd
  constructor
  · intro hy
    have hys := (h.mem c hc y hy).1
    exact (hiff' y ((hmem y).mp hys)).mpr ((hiff y hys).mp hy)
  · intro hy
    have hys := (hmem y).mpr (h'.mem d hd y hy).1
    exact (hiff y hys).mpr ((hiff' y ((hmem y).mp hys)).mp hy)

theorem Of.same (h : Of R xs cs) (h' : Of R ys ds) (hmem : ∀ x, x ∈ xs ↔ x ∈ ys) : Same cs ds := by
  constructor
  · exact h.le h' hmem
  · intro d hd
    obtain ⟨c, hc, hiff⟩ := h'.le h (fun x => (hmem x).symm) d hd
    exact ⟨c, hc, fun x => (hiff x).symm⟩

/-- Where an element goes. -/
theorem place_cases (hne : ∀ c ∈ classes, c ≠ []) (hplace : place compare x classes = some classes') :
    (∃ before c after, classes = before ++ c :: after ∧ (∀ d ∈ before, ∃ y ∈ d, ¬ Accepts compare y x) ∧
      (∃ y ∈ c, Accepts compare y x) ∧ classes' = before ++ (c ++ [x]) :: after) ∨
    (∀ d ∈ classes, ∃ y ∈ d, ¬ Accepts compare y x) ∧ classes' = classes ++ [[x]] := by
  induction classes generalizing classes' with
  | nil =>
    cases hplace
    exact Or.inr ⟨by simp, rfl⟩
  | cons c classes ih =>
    cases c with
    | nil => exact absurd rfl (hne [] List.mem_cons_self)
    | cons first members =>
      rw [place] at hplace
      obtain ⟨same, hsame, hplace⟩ := Option.bind_eq_some_iff.mp hplace
      cases same with
      | true =>
        cases hplace
        exact Or.inl ⟨[], first :: members, classes, rfl, by simp, ⟨first, List.mem_cons_self, hsame⟩, rfl⟩
      | false =>
        have hout : ∃ y ∈ first :: members, ¬ Accepts compare y x :=
          ⟨first, List.mem_cons_self, by simp [Accepts, hsame]⟩
        obtain ⟨rest, hrest, rfl⟩ := Option.map_eq_some_iff.mp hplace
        rcases ih (fun d hd => hne d (List.mem_cons_of_mem _ hd)) hrest with
          ⟨before, c, after, rfl, hbefore, hc, rfl⟩ | ⟨hall, rfl⟩
        · exact Or.inl ⟨(first :: members) :: before, c, after, rfl, List.forall_mem_cons.mpr ⟨hout, hbefore⟩,
            hc, rfl⟩
        · exact Or.inr ⟨List.forall_mem_cons.mpr ⟨hout, hall⟩, rfl⟩

theorem mem_of_place (hplace : place compare x classes = some classes') :
    ∀ c ∈ classes', ∀ y ∈ c, y = x ∨ ∃ d ∈ classes, y ∈ d := by
  induction classes generalizing classes' with
  | nil =>
    cases hplace
    simp
  | cons d classes ih =>
    have hrest {rest : List (List α)} (hrest : place compare x classes = some rest) :
        ∀ c ∈ d :: rest, ∀ y ∈ c, y = x ∨ ∃ e ∈ d :: classes, y ∈ e := by
      intro c hc y hy
      rcases List.mem_cons.mp hc with rfl | hc
      · exact Or.inr ⟨c, List.mem_cons_self, hy⟩
      · apply (ih hrest c hc y hy).imp_right
        intro ⟨e, he, hye⟩
        exact ⟨e, List.mem_cons_of_mem _ he, hye⟩
    cases d with
    | nil =>
      obtain ⟨rest, hplaced, rfl⟩ := Option.map_eq_some_iff.mp hplace
      exact hrest hplaced
    | cons first members =>
      rw [place] at hplace
      obtain ⟨same, -, hplace⟩ := Option.bind_eq_some_iff.mp hplace
      cases same with
      | true =>
        cases hplace
        intro c hc y hy
        rcases List.mem_cons.mp hc with rfl | hc
        · rcases List.mem_append.mp hy with hy | hy
          · exact Or.inr ⟨_, List.mem_cons_self, hy⟩
          · exact Or.inl (List.mem_singleton.mp hy)
        · exact Or.inr ⟨c, List.mem_cons_of_mem _ hc, hy⟩
      | false =>
        obtain ⟨rest, hplaced, rfl⟩ := Option.map_eq_some_iff.mp hplace
        exact hrest hplaced

section Place

variable (heq : EquivalenceOn (Accepts compare) (xs ++ [x]))
include heq

theorem Of.not_accepts (h : Of (Accepts compare) xs classes) (hc : c ∈ classes)
    (hout : ∃ y ∈ c, ¬ Accepts compare y x) :
    ∀ y ∈ c, ¬ Accepts compare y x := by
  obtain ⟨z, hz, hnot⟩ := hout
  intro y hy haccepts
  have hzs := (h.mem c hc z hz).1
  have hys := (h.mem c hc y hy).1
  have hzy := ((h.mem c hc z hz).2 y hys).mp hy
  apply hnot
  exact heq.trans z (List.mem_append_left _ hzs) y (List.mem_append_left _ hys) x (by simp) hzy haccepts

theorem Of.accepts (h : Of (Accepts compare) xs classes) (hc : c ∈ classes)
    (hin : ∃ y ∈ c, Accepts compare y x) :
    ∀ y ∈ c, Accepts compare y x := by
  by_contra hnot
  push Not at hnot
  obtain ⟨y, hy, haccepts⟩ := hin
  exact h.not_accepts heq hc hnot y hy haccepts

/-- A class with a member that is rejected stays a class. -/
theorem Of.mem_of_not_accepts (h : Of (Accepts compare) xs classes) (hc : c ∈ classes)
    (hout : ∀ y ∈ c, ¬ Accepts compare y x) :
    ∀ y ∈ c, y ∈ xs ++ [x] ∧ ∀ z ∈ xs ++ [x], z ∈ c ↔ Accepts compare y z := by
  intro y hy
  obtain ⟨hys, hiff⟩ := h.mem c hc y hy
  refine ⟨List.mem_append_left _ hys, ?_⟩
  intro z hz
  rcases List.mem_append.mp hz with hz | hz
  · exact hiff z hz
  · obtain rfl := List.mem_singleton.mp hz
    apply iff_of_false _ (hout y hy)
    intro hzc
    exact hout y hy ((hiff z (h.mem c hc z hzc).1).mp hzc)

/-- A class that accepts the element is a class with it. -/
theorem Of.mem_of_accepts (h : Of (Accepts compare) xs classes) (hc : c ∈ classes)
    (hin : ∃ y ∈ c, Accepts compare y x) :
    ∀ y ∈ c ++ [x], y ∈ xs ++ [x] ∧ ∀ z ∈ xs ++ [x], z ∈ c ++ [x] ↔ Accepts compare y z := by
  have hall := h.accepts heq hc hin
  have hx : x ∈ xs ++ [x] := List.mem_append_right _ (List.mem_singleton_self x)
  obtain ⟨first, hfirst, haccepts⟩ := hin
  obtain ⟨hfs, hiff⟩ := h.mem c hc first hfirst
  have hfs : first ∈ xs ++ [x] := List.mem_append_left _ hfs
  intro y hy
  rcases List.mem_append.mp hy with hyc | hyx
  · obtain ⟨hys, hiff'⟩ := h.mem c hc y hyc
    refine ⟨List.mem_append_left _ hys, ?_⟩
    intro z hz
    rw [List.mem_append]
    by_cases hzx : z = x
    · subst hzx
      exact iff_of_true (Or.inr (List.mem_singleton_self z)) (hall y hyc)
    · rw [List.mem_singleton, or_iff_left hzx]
      exact hiff' z ((List.mem_append.mp hz).resolve_right fun hz => hzx (List.mem_singleton.mp hz))
  · obtain rfl := List.mem_singleton.mp hyx
    refine ⟨hx, ?_⟩
    intro z hz
    rw [List.mem_append]
    constructor
    · intro hor
      rcases hor with hzc | hzy
      · exact heq.symm z hz y hx (hall z hzc)
      · obtain rfl := List.mem_singleton.mp hzy
        exact heq.refl z hx
    · intro hyz
      by_cases hzy : z = y
      · exact Or.inr (List.mem_singleton.mpr hzy)
      · have hzs := (List.mem_append.mp hz).resolve_right fun hz => hzy (List.mem_singleton.mp hz)
        exact Or.inl ((hiff z hzs).mpr (heq.trans first hfs y hx z hz haccepts hyz))

/-- Classes that share no element with one that accepts the element reject it. -/
theorem Of.not_accepts_of_disjoint {d : List α} (h : Of (Accepts compare) xs classes) (hc : c ∈ classes)
    (hin : ∃ y ∈ c, Accepts compare y x) (hd : d ∈ classes) (hdisjoint : List.Disjoint c d) :
    ∀ y ∈ d, ¬ Accepts compare y x := by
  obtain ⟨first, hfirst, haccepts⟩ := hin
  have hfs := (h.mem c hc first hfirst).1
  intro y hy hyx
  obtain ⟨hys, hiff⟩ := h.mem d hd y hy
  have hx : x ∈ xs ++ [x] := List.mem_append_right _ (List.mem_singleton_self x)
  have hfs' : first ∈ xs ++ [x] := List.mem_append_left _ hfs
  have hys' : y ∈ xs ++ [x] := List.mem_append_left _ hys
  have hxf := heq.symm first hfs' x hx haccepts
  exact hdisjoint hfirst ((hiff first hfs).mpr (heq.trans y hys' x hx first hfs' hyx hxf))

/-- The element joins a class. -/
theorem Of.join {before after : List (List α)} (h : Of (Accepts compare) xs (before ++ c :: after))
    (hin : ∃ y ∈ c, Accepts compare y x) :
    Of (Accepts compare) (xs ++ [x]) (before ++ (c ++ [x]) :: after) := by
  have hx : x ∈ xs ++ [x] := List.mem_append_right _ (List.mem_singleton_self x)
  have hc : c ∈ before ++ c :: after := List.mem_append_right _ List.mem_cons_self
  have hpairwise := h.disjoint
  rw [List.pairwise_append, List.pairwise_cons] at hpairwise
  obtain ⟨hbefore, ⟨hafter, hafters⟩, hbetween⟩ := hpairwise
  have hdisjoint : ∀ d ∈ before ++ after, d ∈ before ++ c :: after ∧ List.Disjoint c d := by
    intro d hd
    rcases List.mem_append.mp hd with hd | hd
    · exact ⟨List.mem_append_left _ hd, (hbetween d hd c List.mem_cons_self).symm⟩
    · exact ⟨List.mem_append_right _ (List.mem_cons_of_mem _ hd), hafter d hd⟩
  have hmem := h.mem_of_accepts heq hc hin
  have hother : ∀ d ∈ before ++ after, ∀ y ∈ d, y ∈ xs ++ [x] ∧
      ∀ z ∈ xs ++ [x], z ∈ d ↔ Accepts compare y z := by
    intro d hd
    have hout := h.not_accepts_of_disjoint heq hc hin (hdisjoint d hd).1 (hdisjoint d hd).2
    exact h.mem_of_not_accepts heq (hdisjoint d hd).1 hout
  have hnotin : ∀ d ∈ before ++ after, x ∉ d := by
    intro d hd hxd
    have hxx := heq.refl x hx
    exact h.not_accepts_of_disjoint heq hc hin (hdisjoint d hd).1 (hdisjoint d hd).2 x hxd hxx
  refine ⟨?_, ?_, ?_, ?_⟩
  · intro d hd
    rcases List.mem_append.mp hd with hd | hd
    · exact hother d (List.mem_append_left _ hd)
    · rcases List.mem_cons.mp hd with rfl | hd
      · exact hmem
      · exact hother d (List.mem_append_right _ hd)
  · intro y hy
    rcases List.mem_append.mp hy with hy | hy
    · obtain ⟨d, hd, hyd⟩ := h.covers y hy
      rcases List.mem_append.mp hd with hd | hd
      · exact ⟨d, List.mem_append_left _ hd, hyd⟩
      · rcases List.mem_cons.mp hd with rfl | hd
        · exact ⟨d ++ [x], List.mem_append_right _ List.mem_cons_self, List.mem_append_left _ hyd⟩
        · exact ⟨d, List.mem_append_right _ (List.mem_cons_of_mem _ hd), hyd⟩
    · exact ⟨c ++ [x], List.mem_append_right _ List.mem_cons_self, List.mem_append_right _ hy⟩
  · intro d hd
    rcases List.mem_append.mp hd with hd | hd
    · exact h.nonempty d (List.mem_append_left _ hd)
    · rcases List.mem_cons.mp hd with rfl | hd
      · simp
      · exact h.nonempty d (List.mem_append_right _ (List.mem_cons_of_mem _ hd))
  · rw [List.pairwise_append, List.pairwise_cons]
    have hjoined : ∀ d ∈ before ++ after, List.Disjoint (c ++ [x]) d := by
      intro d hd
      rw [List.disjoint_append_left, List.singleton_disjoint]
      exact ⟨(hdisjoint d hd).2, hnotin d hd⟩
    refine ⟨hbefore, ⟨fun d hd => hjoined d (List.mem_append_right _ hd), hafters⟩, ?_⟩
    intro d hd e he
    rcases List.mem_cons.mp he with rfl | he
    · exact (hjoined d (List.mem_append_left _ hd)).symm
    · exact hbetween d hd e (List.mem_cons_of_mem _ he)

/-- The element starts a class. -/
theorem Of.start (h : Of (Accepts compare) xs classes) (hall : ∀ d ∈ classes, ∃ y ∈ d, ¬ Accepts compare y x) :
    Of (Accepts compare) (xs ++ [x]) (classes ++ [[x]]) := by
  have hx : x ∈ xs ++ [x] := List.mem_append_right _ (List.mem_singleton_self x)
  have hreject : ∀ d ∈ classes, ∀ y ∈ d, ¬ Accepts compare y x :=
    fun d hd => h.not_accepts heq hd (hall d hd)
  have hnotin : ∀ d ∈ classes, x ∉ d := fun d hd hxd => hreject d hd x hxd (heq.refl x hx)
  refine ⟨?_, ?_, ?_, ?_⟩
  · intro d hd
    rcases List.mem_append.mp hd with hd | hd
    · exact h.mem_of_not_accepts heq hd (hreject d hd)
    · obtain rfl := List.mem_singleton.mp hd
      intro y hy
      obtain rfl := List.mem_singleton.mp hy
      refine ⟨hx, ?_⟩
      intro z hz
      rw [List.mem_singleton]
      constructor
      · intro hzy
        rw [hzy]
        exact heq.refl y hx
      · intro hyz
        by_contra hne
        have hzs := (List.mem_append.mp hz).resolve_right fun hz => hne (List.mem_singleton.mp hz)
        obtain ⟨d, hd, hzd⟩ := h.covers z hzs
        exact hreject d hd z hzd (heq.symm y hx z hz hyz)
  · intro y hy
    rcases List.mem_append.mp hy with hy | hy
    · obtain ⟨d, hd, hyd⟩ := h.covers y hy
      exact ⟨d, List.mem_append_left _ hd, hyd⟩
    · exact ⟨[x], List.mem_append_right _ (List.mem_singleton_self _), hy⟩
  · intro d hd
    rcases List.mem_append.mp hd with hd | hd
    · exact h.nonempty d hd
    · obtain rfl := List.mem_singleton.mp hd
      simp
  · rw [List.pairwise_append]
    refine ⟨h.disjoint, List.pairwise_singleton _ _, ?_⟩
    intro d hd e he
    obtain rfl := List.mem_singleton.mp he
    rw [List.disjoint_singleton]
    exact hnotin d hd

theorem Of.place (h : Of (Accepts compare) xs classes) (hplace : place compare x classes = some classes') :
    Of (Accepts compare) (xs ++ [x]) classes' := by
  rcases place_cases h.nonempty hplace with ⟨before, c, after, rfl, -, hin, rfl⟩ | ⟨hall, rfl⟩
  · exact h.join heq hin
  · exact h.start heq hall

end Place

theorem split_cons (classes : List (List α)) (x : α) (rest : List α) : split compare classes (x :: rest) =
    (place compare x classes).bind fun classes => split compare classes rest := rfl

/-- When the comparison is an equivalence, the classes are those of the equivalence. -/
theorem Of.split (h : Of (Accepts compare) xs classes) (heq : EquivalenceOn (Accepts compare) (xs ++ ys))
    (hsplit : split compare classes ys = some classes') : Of (Accepts compare) (xs ++ ys) classes' := by
  induction ys generalizing xs classes with
  | nil =>
    cases hsplit
    rw [List.append_nil]
    exact h
  | cons y ys ih =>
    rw [split_cons] at hsplit
    obtain ⟨next, hplace, hsplit⟩ := Option.bind_eq_some_iff.mp hsplit
    rw [List.append_cons] at heq ⊢
    have hfirst : EquivalenceOn (Accepts compare) (xs ++ [y]) :=
      heq.mono fun z hz => List.mem_append_left _ hz
    exact ih (h.place hfirst hplace) heq hsplit

theorem Of.singleton (hrefl : Accepts compare x x) : Of (Accepts compare) [x] [[x]] where
  mem := by
    intro c hc y hy
    obtain rfl := List.mem_singleton.mp hc
    obtain rfl := List.mem_singleton.mp hy
    refine ⟨hy, ?_⟩
    intro z hz
    obtain rfl := List.mem_singleton.mp hz
    exact iff_of_true hz hrefl
  covers y hy := ⟨[x], List.mem_singleton_self _, hy⟩
  nonempty := by simp
  disjoint := List.pairwise_singleton _ _

theorem same_of_equivalence {y : α} (heq : EquivalenceOn (Accepts compare) (x :: xs))
    (hmem : ∀ z, z ∈ x :: xs ↔ z ∈ y :: ys) (hsplit : split compare [[x]] xs = some cs)
    (hsplit' : split compare [[y]] ys = some ds) : Same cs ds := by
  have heq' : EquivalenceOn (Accepts compare) (y :: ys) := heq.mono fun z hz => (hmem z).mpr hz
  have hof : Of (Accepts compare) ([x] ++ xs) cs :=
    (Of.singleton (heq.refl x List.mem_cons_self)).split heq hsplit
  have hof' : Of (Accepts compare) ([y] ++ ys) ds :=
    (Of.singleton (heq'.refl y List.mem_cons_self)).split heq' hsplit'
  exact hof.same hof' hmem

def Headed (compare : α → α → Option Bool) (classes : List (List α)) : Prop :=
  ∀ c ∈ classes, ∃ first members, c = first :: members ∧ ∀ y ∈ members, Accepts compare first y

theorem Headed.place (h : Headed compare classes) (hplace : place compare x classes = some classes') :
    Headed compare classes' := by
  induction classes generalizing classes' with
  | nil =>
    cases hplace
    intro c hc
    exact ⟨x, [], List.mem_singleton.mp hc, by simp⟩
  | cons c classes ih =>
    obtain ⟨hc, hrest⟩ := List.forall_mem_cons.mp h
    obtain ⟨first, members, rfl, hmembers⟩ := hc
    obtain ⟨same, hsame, hplace⟩ := Option.bind_eq_some_iff.mp hplace
    cases same with
    | true =>
      cases hplace
      refine List.forall_mem_cons.mpr ⟨⟨first, members ++ [x], rfl, ?_⟩, hrest⟩
      intro y hy
      rcases List.mem_append.mp hy with hy | hy
      · exact hmembers y hy
      · exact List.mem_singleton.mp hy ▸ hsame
    | false =>
      obtain ⟨rest, hplaced, rfl⟩ := Option.map_eq_some_iff.mp hplace
      exact List.forall_mem_cons.mpr ⟨⟨first, members, rfl, hmembers⟩, ih hrest hplaced⟩

theorem Headed.split (h : Headed compare classes) (hsplit : split compare classes xs = some classes') :
    Headed compare classes' := by
  induction xs generalizing classes with
  | nil =>
    cases hsplit
    exact h
  | cons x xs ih =>
    rw [split_cons] at hsplit
    obtain ⟨next, hplace, hsplit⟩ := Option.bind_eq_some_iff.mp hsplit
    exact ih (h.place hplace) hsplit

/-- No element is lost, and none is put into two classes. -/
theorem place_perm (hplace : place compare x classes = some classes') :
    classes'.flatten.Perm (x :: classes.flatten) := by
  induction classes generalizing classes' with
  | nil =>
    cases hplace
    exact List.Perm.refl _
  | cons c classes ih =>
    have hrest {rest : List (List α)} (hrest : Classes.place compare x classes = some rest) :
        (c :: rest).flatten.Perm (x :: (c :: classes).flatten) := by
      rw [List.flatten_cons, List.flatten_cons]
      exact ((ih hrest).append_left c).trans List.perm_middle
    cases c with
    | nil =>
      obtain ⟨rest, hplaced, rfl⟩ := Option.map_eq_some_iff.mp hplace
      exact hrest hplaced
    | cons first members =>
      obtain ⟨same, -, hplace⟩ := Option.bind_eq_some_iff.mp hplace
      cases same with
      | true =>
        cases hplace
        rw [List.flatten_cons, List.flatten_cons, List.append_assoc]
        exact List.perm_middle
      | false =>
        obtain ⟨rest, hplaced, rfl⟩ := Option.map_eq_some_iff.mp hplace
        exact hrest hplaced

theorem split_perm (hsplit : split compare classes xs = some classes') :
    classes'.flatten.Perm (classes.flatten ++ xs) := by
  induction xs generalizing classes with
  | nil =>
    cases hsplit
    rw [List.append_nil]
  | cons x xs ih =>
    rw [split_cons] at hsplit
    obtain ⟨next, hplace, hsplit⟩ := Option.bind_eq_some_iff.mp hsplit
    exact ((ih hsplit).trans ((place_perm hplace).append_right xs)).trans List.perm_middle.symm

/-- An element that the first member of the first class accepts joins it. -/
theorem mem_first {first y : α} {members : List α} (haccepts : Accepts compare first y)
    (hy : y ∈ members ∨ y ∈ ys) (hsplit : split compare ((first :: members) :: classes) ys = some cs) :
    ∃ c ∈ cs, first ∈ c ∧ y ∈ c := by
  induction ys generalizing members classes with
  | nil =>
    cases hsplit
    exact ⟨_, List.mem_cons_self, List.mem_cons_self,
      List.mem_cons_of_mem _ (hy.resolve_right List.not_mem_nil)⟩
  | cons z ys ih =>
    rw [split_cons] at hsplit
    obtain ⟨next, hplace, hsplit⟩ := Option.bind_eq_some_iff.mp hsplit
    rw [Classes.place] at hplace
    obtain ⟨same, hsame, hplace⟩ := Option.bind_eq_some_iff.mp hplace
    cases same with
    | true =>
      cases hplace
      apply ih _ hsplit
      rcases hy with hy | hy
      · exact Or.inl (List.mem_append_left _ hy)
      · rcases List.mem_cons.mp hy with rfl | hy
        · exact Or.inl (by simp)
        · exact Or.inr hy
    | false =>
      obtain ⟨rest, -, rfl⟩ := Option.map_eq_some_iff.mp hplace
      apply ih _ hsplit
      apply hy.imp_right
      intro hy
      rcases List.mem_cons.mp hy with rfl | hy
      · rw [haccepts] at hsame
        cases hsame
      · exact hy

/-- The first class has what its first member accepts, and nothing else. -/
theorem not_mem_common {first y z : α} {members : List α} (haccepts : Accepts compare first y)
    (hrejects : ¬ Accepts compare first z) (hne : z ≠ first) (hmembers : ∀ m ∈ members, Accepts compare first m)
    (hclasses : ∀ c ∈ classes, y ∉ c) (hsplit : split compare ((first :: members) :: classes) ys = some cs) :
    ∀ c ∈ cs, ¬ (y ∈ c ∧ z ∈ c) := by
  induction ys generalizing members classes with
  | nil =>
    cases hsplit
    intro c hc ⟨hyc, hzc⟩
    rcases List.mem_cons.mp hc with rfl | hc
    · rcases List.mem_cons.mp hzc with heq | hzc
      · exact hne heq
      · exact hrejects (hmembers z hzc)
    · exact hclasses c hc hyc
  | cons x ys ih =>
    rw [split_cons] at hsplit
    obtain ⟨next, hplace, hsplit⟩ := Option.bind_eq_some_iff.mp hsplit
    rw [Classes.place] at hplace
    obtain ⟨same, hsame, hplace⟩ := Option.bind_eq_some_iff.mp hplace
    cases same with
    | true =>
      cases hplace
      apply ih _ hclasses hsplit
      intro m hm
      rcases List.mem_append.mp hm with hm | hm
      · exact hmembers m hm
      · rw [List.mem_singleton.mp hm]
        exact hsame
    | false =>
      obtain ⟨rest, hrest, rfl⟩ := Option.map_eq_some_iff.mp hplace
      apply ih hmembers _ hsplit
      intro c hc hyc
      rcases mem_of_place hrest c hc y hyc with rfl | ⟨d, hd, hyd⟩
      · rw [haccepts] at hsame
        cases hsame
      · exact hclasses d hd hyd

theorem not_same {y z : α} {zs : List α} (hxy : Accepts compare x y) (hyz : Accepts compare y z)
    (hxz : ¬ Accepts compare x z) (hne : z ≠ x) (hz : z ∈ ys) (hsplit : split compare [[y]] ys = some cs)
    (hsplit' : split compare [[x]] zs = some ds) : ¬ Same cs ds := by
  intro hsame
  obtain ⟨c, hc, hyc, hzc⟩ := mem_first hyz (Or.inr hz) hsplit
  obtain ⟨d, hd, hiff⟩ := hsame.1 c hc
  exact not_mem_common hxy hxz hne (by simp) (by simp) hsplit' d hd ⟨(hiff y).mp hyc, (hiff z).mp hzc⟩

end Classes
