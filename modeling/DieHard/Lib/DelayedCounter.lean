import DieHard.Lib.Counting

/-!
# A check against a counter that is raised later

Threads take items. Before it takes one, a thread reads a counter of the items taken and compares what it
has read with the room there is; only afterwards it counts the item. Items are given back in the same
way. So the counter lags behind by the threads that have an item to count, and of `threads` many
threads at most so many can pass a check against the same value.

The threads between their read and their taking are ordered by the moments of their reads. Up to the last
of them that has passed the check, the bound of that check holds for all together; each later one keeps the
bound that its own read gives.
-/

namespace DelayedCounter

open Counting

/-- Where a thread stands: it has read the counter, has passed the check, has to count an item that it
has taken, or has to count one that it has given back. -/
inductive Role
  | outside
  | waiting (read : Nat)
  | passed
  | adding
  | removing
  deriving DecidableEq

def Role.checked : Role → Bool
  | waiting _ | passed => true
  | _ => false

/-! The check is `numerator * read < room * denominator`; `capacity` bounds the items taken. -/

section Bounds

variable (numerator denominator threads capacity : Nat)

/-- The threads that may still take an item and have read the counter at moment `k` or before. -/
def ahead (role : Nat → Role) (moment : Nat → Nat) (k : Nat) : Nat :=
  Nat.count (fun t => (role t).checked = true ∧ moment t ≤ k) threads

/-- The bounds that the reads give, in the order of their moments. -/
structure Bounds (role : Nat → Role) (taken room : Nat) (moment : Nat → Nat) (cut clock : Nat) :
    Prop where
  moment_lt : ∀ t, (role t).checked = true → moment t < clock
  cut_lt : cut < clock
  passed_le : ∀ t, role t = .passed → moment t ≤ cut
  early : (∃ t, (role t).checked = true ∧ moment t ≤ cut) → ∃ read : Nat,
    numerator * read < room * denominator ∧ taken + ahead threads role moment cut ≤ read + threads
  late : ∀ t read, role t = .waiting read → cut < moment t → ∃ actual : Int,
    (read : Int) = actual % 2 ^ 64 ∧ actual ≤ capacity + threads ∧
      (taken + ahead threads role moment (moment t) : Int) ≤ actual + threads

variable {numerator denominator threads capacity}
variable {role role' : Nat → Role} {taken taken' room room' cut clock t read : Nat} {moment : Nat → Nat}

theorem ahead_mono (threads : Nat) (moment : Nat → Nat)
    (h : ∀ t, (role' t).checked = true → (role t).checked = true) (k : Nat) :
    ahead threads role' moment k ≤ ahead threads role moment k :=
  Nat.count_mono_left fun t _ ht => ⟨h t ht.1, ht.2⟩

/-- Nothing is lost when threads give up, items are given back and room is added. -/
theorem Bounds.mono (h : Bounds numerator denominator threads capacity role taken room moment cut clock)
    (hpassed : ∀ t, role' t = .passed → role t = .passed)
    (hwaiting : ∀ t read, role' t = .waiting read → role t = .waiting read)
    (htaken : taken' ≤ taken) (hroom : room ≤ room') :
    Bounds numerator denominator threads capacity role' taken' room' moment cut clock := by
  have hchecked (t : Nat) (ht : (role' t).checked = true) : (role t).checked = true := by
    cases hr : role' t with
    | waiting read => rw [hwaiting t read hr]; rfl
    | passed => rw [hpassed t hr]; rfl
    | _ => rw [hr] at ht; cases ht
  refine ⟨fun t ht => h.moment_lt t (hchecked t ht), h.cut_lt,
    fun t ht => h.passed_le t (hpassed t ht), ?_, ?_⟩
  · rintro ⟨t, ht, hcut⟩
    obtain ⟨read, hread, hle⟩ := h.early ⟨t, hchecked t ht, hcut⟩
    have hahead := ahead_mono threads moment hchecked cut
    exact ⟨read, hread.trans_le (Nat.mul_le_mul_right _ hroom), by omega⟩
  · intro t read ht hcut
    obtain ⟨actual, hread, hcap, hle⟩ := h.late t read (hwaiting t read ht) hcut
    have hahead := ahead_mono threads moment hchecked (moment t)
    exact ⟨actual, hread, hcap, by omega⟩

/-- A thread reads the counter, which lags behind by the threads that have an item to count. -/
theorem Bounds.load (h : Bounds numerator denominator threads capacity role taken room moment cut clock)
    (hrole : role t = .outside) (hcap : taken ≤ capacity)
    (hread : (read : Int) = (taken + Nat.count (fun t => role t = .removing) threads -
      Nat.count (fun t => role t = .adding) threads) % 2 ^ 64) :
    Bounds numerator denominator threads capacity (Function.update role t (.waiting read)) taken room
      (Function.update moment t clock) cut (clock + 1) := by
  have hother {u : Nat} (hu : u ≠ t) :
      Function.update role t (.waiting read) u = role u ∧ Function.update moment t clock u = moment u :=
    ⟨Function.update_of_ne hu _ _, Function.update_of_ne hu _ _⟩
  -- below the new moment nothing has changed
  have hbelow {k : Nat} (hk : k < clock) (u : Nat) :
      ((Function.update role t (.waiting read) u).checked = true ∧ Function.update moment t clock u ≤ k) ↔
        ((role u).checked = true ∧ moment u ≤ k) := by
    by_cases hu : u = t
    · subst hu
      rw [Function.update_self, Function.update_self, hrole]
      simp only [Role.checked, Bool.false_eq_true, false_and, iff_false, not_and, Nat.not_le]
      exact fun _ => hk
    · rw [(hother hu).1, (hother hu).2]
  have hahead {k : Nat} (hk : k < clock) :
      ahead threads (Function.update role t (.waiting read)) (Function.update moment t clock) k =
        ahead threads role moment k :=
    count_congr fun u _ => hbelow hk u
  refine ⟨?_, Nat.lt_succ_of_lt h.cut_lt, ?_, ?_, ?_⟩
  · intro u hu
    by_cases he : u = t
    · rw [he, Function.update_self]
      exact Nat.lt_succ_self clock
    · rw [(hother he).1] at hu
      rw [(hother he).2]
      exact Nat.lt_succ_of_lt (h.moment_lt u hu)
  · intro u hu
    by_cases he : u = t
    · rw [he, Function.update_self] at hu
      cases hu
    · rw [(hother he).1] at hu
      rw [(hother he).2]
      exact h.passed_le u hu
  · rintro ⟨u, hu⟩
    rw [hahead h.cut_lt]
    exact h.early ⟨u, (hbelow h.cut_lt u).mp hu⟩
  · intro u value hu hcut
    by_cases he : u = t
    · subst he
      rw [Function.update_self] at hu ⊢
      cases hu
      have hremoving := Nat.count_le (p := fun t => role t = .removing) (n := threads)
      refine ⟨_, hread, by omega, ?_⟩
      have hsplit : ahead threads (Function.update role u (.waiting read)) (Function.update moment u clock)
          clock + Nat.count (fun t => role t = .adding) threads ≤ threads := by
        apply count_add_count_le
        rintro v ⟨hv, -⟩ hadd
        by_cases hvu : v = u
        · rw [hvu, hrole] at hadd
          cases hadd
        · rw [(hother hvu).1, hadd] at hv
          cases hv
      omega
    · rw [(hother he).1] at hu
      rw [(hother he).2] at hcut ⊢
      have hlt := h.moment_lt u (by rw [hu]; rfl)
      rw [hahead hlt]
      exact h.late u value hu hcut

/-- A thread that has passed takes an item. -/
theorem Bounds.take (h : Bounds numerator denominator threads capacity role taken room moment cut clock)
    (ht : t < threads) (hrole : role t = .passed) :
    Bounds numerator denominator threads capacity (Function.update role t .adding) (taken + 1) room
      moment cut clock := by
  have hother {u : Nat} (hu : u ≠ t) : Function.update role t .adding u = role u :=
    Function.update_of_ne hu _ _
  have hne {u : Nat} (hu : (Function.update role t .adding u).checked = true) : u ≠ t := by
    rintro rfl
    rw [Function.update_self] at hu
    cases hu
  have hcut := h.passed_le t hrole
  have hahead {k : Nat} (hk : cut ≤ k) :
      ahead threads (Function.update role t .adding) moment k + 1 = ahead threads role moment k := by
    have hcount := count_update (p := fun u => (role u).checked = true ∧ moment u ≤ k)
      (q := fun u => (Function.update role t .adding u).checked = true ∧ moment u ≤ k) ht
      fun u hu => by rw [hother hu]
    have hbefore : (role t).checked = true ∧ moment t ≤ k := ⟨by rw [hrole]; rfl, hcut.trans hk⟩
    have hafter : ¬ ((Function.update role t .adding t).checked = true ∧ moment t ≤ k) := by
      rw [Function.update_self]
      simp [Role.checked]
    rw [if_pos hbefore, if_neg hafter] at hcount
    exact hcount
  refine ⟨?_, h.cut_lt, ?_, ?_, ?_⟩
  · intro u hu
    have hu' := hu
    rw [hother (hne hu)] at hu'
    exact h.moment_lt u hu'
  · intro u hu
    have hne' : u ≠ t := hne (by rw [hu]; rfl)
    rw [hother hne'] at hu
    exact h.passed_le u hu
  · intro _
    obtain ⟨value, hlt, hle⟩ := h.early ⟨t, by rw [hrole]; rfl, hcut⟩
    have hcount := hahead (Nat.le_refl cut)
    exact ⟨value, hlt, by omega⟩
  · intro u value hu hlate
    have hne' : u ≠ t := hne (by rw [hu]; rfl)
    rw [hother hne'] at hu
    obtain ⟨actual, hvalue, hcap, hle⟩ := h.late u value hu hlate
    have hcount := hahead (Nat.le_of_lt hlate)
    exact ⟨actual, hvalue, hcap, by omega⟩

/-- A value read that is out of date by a wrap does not pass the check. -/
theorem passes_actual {actual : Int} (hread : (read : Int) = actual % 2 ^ 64)
    (hcap : actual ≤ capacity + threads) (hlow : -(threads : Int) ≤ actual)
    (hfit : numerator * (capacity + threads) < 2 ^ 64) (hroom : room ≤ capacity)
    (hden : denominator ≤ numerator)
    (hcheck : numerator * read % 2 ^ 64 < room * denominator % 2 ^ 64) :
    actual = read ∧ numerator * read < room * denominator := by
  have hright : room * denominator ≤ numerator * capacity := by
    rw [Nat.mul_comm numerator]
    exact Nat.mul_le_mul hroom hden
  rw [Nat.mul_add] at hfit
  rw [Nat.mod_eq_of_lt (a := room * denominator) (by omega)] at hcheck
  rcases Nat.eq_zero_or_pos numerator with h0 | hpos
  · rw [h0, Nat.zero_mul] at hright
    omega
  have hthreads : capacity + threads ≤ numerator * (capacity + threads) := Nat.le_mul_of_pos_left _ hpos
  rw [Nat.mul_add] at hthreads
  rcases Int.lt_or_le actual 0 with hneg | hnonneg
  · -- the counter has wrapped, so the product is close to the top
    obtain ⟨below, hbelow⟩ : ∃ below : Nat, actual = -(below : Int) := ⟨actual.natAbs, by omega⟩
    have hle : numerator * below ≤ numerator * threads := Nat.mul_le_mul_left _ (by omega)
    have hsum : read + below = 2 ^ 64 := by omega
    have hpos' : 0 < numerator * below := Nat.mul_pos hpos (by omega)
    have hprod : numerator * read % 2 ^ 64 = 2 ^ 64 - numerator * below := by
      have hmul : numerator * read + numerator * below = numerator * 2 ^ 64 := by
        rw [← Nat.mul_add, hsum]
      have hsplit : numerator * read = (numerator - 1) * 2 ^ 64 + (2 ^ 64 - numerator * below) := by
        have hone : numerator * 2 ^ 64 = (numerator - 1) * 2 ^ 64 + 2 ^ 64 := by
          rw [Nat.sub_mul, Nat.one_mul, Nat.sub_add_cancel (Nat.le_mul_of_pos_left _ hpos)]
        omega
      rw [hsplit, Nat.mul_add_mod_self_right, Nat.mod_eq_of_lt (by omega)]
    omega
  · have hactual : actual = read := by omega
    have hle : numerator * read ≤ numerator * (capacity + threads) := Nat.mul_le_mul_left _ (by omega)
    rw [Nat.mul_add] at hle
    rw [Nat.mod_eq_of_lt (by omega)] at hcheck
    exact ⟨hactual, hcheck⟩

/-- A thread passes the check. -/
theorem Bounds.pass (h : Bounds numerator denominator threads capacity role taken room moment cut clock)
    (hrole : role t = .waiting read) (hfit : numerator * (capacity + threads) < 2 ^ 64)
    (hroom : room ≤ capacity) (hden : denominator ≤ numerator)
    (hcheck : numerator * read % 2 ^ 64 < room * denominator % 2 ^ 64) :
    ∃ cut', Bounds numerator denominator threads capacity (Function.update role t .passed) taken room
      moment cut' clock := by
  have hother {u : Nat} (hu : u ≠ t) : Function.update role t .passed u = role u :=
    Function.update_of_ne hu _ _
  have hchecked (u : Nat) : (Function.update role t .passed u).checked = (role u).checked := by
    by_cases hu : u = t
    · rw [hu, Function.update_self, hrole]
      rfl
    · rw [hother hu]
  have hahead (k : Nat) : ahead threads (Function.update role t .passed) moment k =
      ahead threads role moment k :=
    count_congr fun u _ => by rw [hchecked]
  have hwaiting {u value : Nat} (hu : Function.update role t .passed u = .waiting value) :
      role u = .waiting value := by
    by_cases he : u = t
    · rw [he, Function.update_self] at hu
      cases hu
    · rwa [hother he] at hu
  by_cases hcut : moment t ≤ cut
  · -- a later thread has passed already
    refine ⟨cut, fun u hu => h.moment_lt u (hchecked u ▸ hu), h.cut_lt, ?_, ?_, ?_⟩
    · intro u hu
      by_cases he : u = t
      · rwa [he]
      · rw [hother he] at hu
        exact h.passed_le u hu
    · rintro ⟨u, hu, hle⟩
      rw [hahead]
      exact h.early ⟨u, hchecked u ▸ hu, hle⟩
    · intro u value hu hlate
      rw [hahead]
      exact h.late u value (hwaiting hu) hlate
  · obtain ⟨actual, hread, hcap, hle⟩ := h.late t read hrole (by omega)
    obtain ⟨rfl, hpass⟩ := passes_actual hread hcap (by omega) hfit hroom hden hcheck
    refine ⟨moment t, fun u hu => h.moment_lt u (hchecked u ▸ hu),
      h.moment_lt t (by rw [hrole]; rfl), ?_, ?_, ?_⟩
    · intro u hu
      by_cases he : u = t
      · rw [he]
      · rw [hother he] at hu
        have hle := h.passed_le u hu
        omega
    · intro _
      rw [hahead]
      exact ⟨read, hpass, by omega⟩
    · intro u value hu hlate
      rw [hahead]
      exact h.late u value (hwaiting hu) (by omega)

theorem Bounds.room_pos (h : Bounds numerator denominator threads capacity role taken room moment cut clock)
    (hrole : role t = .passed) : 0 < room := by
  obtain ⟨value, hlt, -⟩ := h.early ⟨t, by rw [hrole]; rfl, h.passed_le t hrole⟩
  exact Nat.pos_of_mul_pos_right ((Nat.zero_le _).trans_lt hlt)

/-- When the room left over by the check covers all threads, a thread that has passed finds a free item. -/
theorem Bounds.taken_lt {least : Nat}
    (h : Bounds numerator denominator threads capacity role taken room moment cut clock)
    (ht : t < threads) (hrole : role t = .passed) (hleast : least ≤ room) (hden : denominator ≤ numerator)
    (hthreads : threads ≤ least * (numerator - denominator) / numerator + 1) : taken < room := by
  have hchecked : (role t).checked = true ∧ moment t ≤ cut := by
    refine ⟨?_, h.passed_le t hrole⟩
    rw [hrole]
    rfl
  obtain ⟨value, hlt, hle⟩ := h.early ⟨t, hchecked⟩
  have hahead : 0 < ahead threads role moment cut := (Nat.zero_le _).trans_lt (Nat.count_strict_mono hchecked ht)
  have hmargin : least * (numerator - denominator) ≤ room * (numerator - denominator) :=
    Nat.mul_le_mul_right _ hleast
  have hdiv := Nat.mul_div_le (least * (numerator - denominator)) numerator
  have hsplit : room * denominator + room * (numerator - denominator) = numerator * room := by
    rw [← Nat.mul_add, Nat.add_sub_cancel' hden, Nat.mul_comm]
  have hbound : numerator * taken ≤ numerator * (value + least * (numerator - denominator) / numerator) :=
    Nat.mul_le_mul_left _ (by omega)
  rw [Nat.mul_add] at hbound
  exact Nat.lt_of_mul_lt_mul_left (a := numerator) (by omega)

theorem count_role (role : Nat → Role) {k : Nat} (r value : Role) (hk : k < threads) :
    Nat.count (fun u => Function.update role k r u = value) threads + (if role k = value then 1 else 0) =
      Nat.count (fun u => role u = value) threads + if r = value then 1 else 0 := by
  have hcount := count_update (p := fun u => role u = value)
    (q := fun u => Function.update role k r u = value) hk fun u hu => by rw [Function.update_of_ne hu]
  rw [Function.update_self] at hcount
  exact hcount

end Bounds

end DelayedCounter
