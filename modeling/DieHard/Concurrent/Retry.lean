import DieHard.Lib.DelayedCounter
import DieHard.Concurrent.Growth
import Mathlib.Algebra.BigOperators.Intervals

/-!
# The retry loop of `malloc`

`malloc` compares `_inUse` with `_available`, then takes a slot, then raises `_inUse`. Threads that have
passed the check have room for one slot each only as far as the check leaves slots over: the margin of the
smallest miniheap has to cover the threads.
-/

namespace DieHard

open Transition DelayedCounter

/-- What a thread is about to do with `_inUse`. -/
def HeapPc.role : HeapPc → Role
  | loadAvailable inUse | growAvailable inUse => .waiting inUse
  | getObject _ | tryToSet _ _ => .passed
  | addInUse _ => .adding
  | storeCached _ | subInUse => .removing
  | _ => .outside

variable {cfg : HeapConfig} {cls : Nat} {arena : Arena cfg cls}

/-- The thread is in the loop of `malloc`: `getObject` has returned `nullptr` to it. -/
def HeapPc.retrying : HeapPc → Bool
  | getObject again => again
  | tryToSet again _ => again
  | _ => false

def SharedHeap.slotsTaken (cfg : HeapConfig) (cls : Nat) (h : SharedHeap) : Nat :=
  ∑ i ∈ Finset.range cfg.maxMiniHeaps,
    Nat.count (fun j => h.bits i j = true) (cfg.nObjects ⟨0, cls, i⟩)

theorem HeapConfig.sum_nObjects (cls n : Nat) :
    ∑ i ∈ Finset.range n, cfg.nObjects ⟨0, cls, i⟩ = cfg.availableIn cls n := by
  induction n with
  | zero => rfl
  | succ n ih => rw [Finset.sum_range_succ, ih, availableIn_add_nObjects]

namespace SharedHeap

variable {h h' : SharedHeap} {i j : Nat}

theorem slotsTaken_congr (hb : h'.bits = h.bits) : h'.slotsTaken cfg cls = h.slotsTaken cfg cls := by
  rw [slotsTaken, slotsTaken, hb]

theorem slotsTaken_le (h : SharedHeap) :
    h.slotsTaken cfg cls ≤ cfg.availableIn cls cfg.maxMiniHeaps := by
  rw [← HeapConfig.sum_nObjects]
  exact Finset.sum_le_sum fun i _ => Nat.count_le _

theorem slotsTaken_setBit (hi : i < cfg.maxMiniHeaps) (hj : j < cfg.nObjects ⟨0, cls, i⟩)
    (value : Bool) :
    (h.setBit i j value).slotsTaken cfg cls + (if h.bits i j = true then 1 else 0) =
      h.slotsTaken cfg cls + if value = true then 1 else 0 := by
  have hrow := Counting.count_update (p := fun l => h.bits i l = true)
    (q := fun l => (h.setBit i j value).bits i l = true) hj fun l hl => by
      rw [setBit_of_ne _ _ (by simpa using hl)]
  rw [setBit_self] at hrow
  have hothers : ∑ k ∈ (Finset.range cfg.maxMiniHeaps).erase i,
      Nat.count (fun l => (h.setBit i j value).bits k l = true) (cfg.nObjects ⟨0, cls, k⟩) =
      ∑ k ∈ (Finset.range cfg.maxMiniHeaps).erase i,
        Nat.count (fun l => h.bits k l = true) (cfg.nObjects ⟨0, cls, k⟩) := by
    refine Finset.sum_congr rfl fun k hk => Counting.count_congr fun l _ => ?_
    rw [setBit_of_ne]
    simp [Finset.ne_of_mem_erase hk]
  rw [slotsTaken, slotsTaken, ← Finset.add_sum_erase _ _ (Finset.mem_range.mpr hi), hothers,
    ← Finset.add_sum_erase _ (fun k => Nat.count (fun l => h.bits k l = true) (cfg.nObjects ⟨0, cls, k⟩))
      (Finset.mem_range.mpr hi)]
  omega

theorem le_slotsTaken {n : Nat} (hn : n ≤ cfg.maxMiniHeaps)
    (hfull : ∀ i < n, ∀ j < cfg.nObjects ⟨0, cls, i⟩, h.bits i j = true) :
    cfg.availableIn cls n ≤ h.slotsTaken cfg cls := by
  rw [← HeapConfig.sum_nObjects]
  calc ∑ i ∈ Finset.range n, cfg.nObjects ⟨0, cls, i⟩
      = ∑ i ∈ Finset.range n, Nat.count (fun j => h.bits i j = true) (cfg.nObjects ⟨0, cls, i⟩) := by
        refine Finset.sum_congr rfl fun i hi => ?_
        rw [Nat.count_of_forall]
        exact fun j hj => hfull i (Finset.mem_range.mp hi) j hj
    _ ≤ h.slotsTaken cfg cls :=
        Finset.sum_le_sum_of_subset (Finset.range_subset_range.mpr hn)

end SharedHeap

namespace ConcurrentHeap

/-- What an access does to the accounts, from the role of its thread before to its role after. -/
inductive Effect (cfg : HeapConfig) (cls : Nat) (h h' : SharedHeap) : Role → Role → Prop
  | same (role : Role) : h'.bits = h.bits → h'.inUse = h.inUse → Effect cfg cls h h' role role
  | load : h'.bits = h.bits → h'.inUse = h.inUse → Effect cfg cls h h' .outside (.waiting h.inUse)
  | pass (inUse : Nat) : h'.bits = h.bits → h'.inUse = h.inUse →
      needsGrowth cfg inUse h.available = false → Effect cfg cls h h' (.waiting inUse) .passed
  | fail (inUse : Nat) : h'.bits = h.bits → h'.inUse = h.inUse →
      Effect cfg cls h h' (.waiting inUse) .outside
  | take (i j : Nat) : i ∈ h.activated → j < cfg.nObjects ⟨0, cls, i⟩ → h.bits i j = false →
      h' = h.setBit i j true → Effect cfg cls h h' .passed .adding
  | add : h' = h.addInUse → Effect cfg cls h h' .adding .outside
  | clear (i j : Nat) : h.bits i j = true → h' = h.setBit i j false →
      Effect cfg cls h h' .outside .removing
  | sub : h' = h.subInUse → Effect cfg cls h h' .removing .outside

theorem access_effect {h : SharedHeap} {pc : HeapPc} {random : Nat} (hch : h.Choosing pc) :
    Effect cfg cls h (access cfg cls arena random h pc).1 pc.role
      (access cfg cls arena random h pc).2.role := by
  cases pc with
  | loadInUse | growInUse => exact .load rfl rfl
  | loadAvailable inUse | growAvailable inUse =>
    rw [access]
    cases hn : needsGrowth cfg inUse h.available with
    | true => exact .fail inUse rfl rfl
    | false => exact .pass inUse rfl rfl hn
  | tryToSet again i =>
    rw [access]
    cases hbit : h.bits i (modulo (cfg.nObjects ⟨0, cls, i⟩) random) with
    | true =>
      simp only [if_true]
      exact .same _ rfl rfl
    | false =>
      simp only [Bool.false_eq_true, if_false]
      exact .take i _ hch (modulo_lt (cfg.nObjects_pos _) random) hbit rfl
  | addInUse ptr => exact .add rfl
  | subInUse => exact .sub rfl
  | freeCached ptr cached numHeaps =>
    rw [access]
    cases hf : freeIn cfg cls arena h cached.toNat ptr with
    | none => exact .same _ rfl rfl
    | some h' =>
      obtain ⟨j, -, hbit, rfl⟩ := freeIn_eq hf
      exact .clear _ j hbit rfl
  | freeSearch ptr cached left =>
    cases left with
    | zero => exact .same _ rfl rfl
    | succ i =>
      rw [access]
      by_cases hi : (i : Int) = cached
      · rw [if_pos hi]
        exact .same _ rfl rfl
      rw [if_neg hi]
      cases hf : freeIn cfg cls arena h i ptr with
      | none => exact .same _ rfl rfl
      | some h' =>
        obtain ⟨j, -, hbit, rfl⟩ := freeIn_eq hf
        exact .clear i j hbit rfl
  | tryLock | retryLock =>
    rw [access]
    split <;> exact .same _ rfl rfl
  | spin | recheckAvailable | loadNumHeaps =>
    rw [access]
    split <;> exact .same _ rfl rfl
  | lockedAvailable =>
    rw [access]
    repeat' split
    all_goals exact .same _ rfl rfl
  | _ => exact .same _ rfl rfl

/-- The accounts of `threads` many threads. -/
structure Accounts (cfg : HeapConfig) (cls threads : Nat) (s : ConcurrentHeap) : Prop where
  bits_lt : ∀ i j, s.heap.bits i j = true → i < cfg.maxMiniHeaps ∧ j < cfg.nObjects ⟨0, cls, i⟩
  outside : ∀ t, threads ≤ t → (s.pc t).role = .outside
  inUse_eq : (s.heap.inUse : Int) = (s.heap.slotsTaken cfg cls +
    Nat.count (fun t => (s.pc t).role = .removing) threads -
    Nat.count (fun t => (s.pc t).role = .adding) threads) % 2 ^ 64
  bounds : ∃ moment cut clock, Bounds cfg.numerator cfg.denominator threads
    (cfg.availableIn cls cfg.maxMiniHeaps) (fun t => (s.pc t).role) (s.heap.slotsTaken cfg cls)
    s.heap.available moment cut clock

variable {threads t : Nat} {s s' : ConcurrentHeap} {a : Action} {r : SharedHeap × HeapPc}

theorem accounts_initial : Accounts cfg cls threads .initial where
  bits_lt _ _ h := by cases h
  outside _ _ := rfl
  inUse_eq := by
    simp [initial, SharedHeap.initial, SharedHeap.slotsTaken, HeapPc.role]
  bounds :=
    ⟨fun _ => 0, 0, 1, fun _ h => (by cases h), Nat.one_pos, fun _ h => (by cases h),
      fun ⟨_, h, _⟩ => (by cases h), fun _ _ h => (by cases h)⟩

theorem role_move (s : ConcurrentHeap) (t : Nat) (r : SharedHeap × HeapPc) :
    (fun u => ((s.move t r).pc u).role) = Function.update (fun u => (s.pc u).role) t r.2.role := by
  funext u
  by_cases hu : u = t
  · rw [hu, move_pc, Function.update_self]
  · rw [move_pc_of_ne hu, Function.update_of_ne hu]

theorem addInUse_eq (h : SharedHeap) : h.addInUse.inUse = (h.inUse + 1) % 2 ^ 64 := by
  rw [SharedHeap.addInUse, sizeSucc, sizeRange]

theorem subInUse_eq (h : SharedHeap) : h.subInUse.inUse = (h.inUse + 2 ^ 64 - 1) % 2 ^ 64 := by
  rw [SharedHeap.subInUse, sizeSub, sizeRange]

section Move

variable (h : Accounts cfg cls threads s) (ht : t < threads)
  (hact : ∀ i ∈ s.heap.activated, i < cfg.maxMiniHeaps)
  (heff : Effect cfg cls s.heap r.1 (s.pc t).role r.2.role)

include h hact heff in
private theorem bits_lt_move (i j : Nat) (hbit : r.1.bits i j = true) :
    i < cfg.maxMiniHeaps ∧ j < cfg.nObjects ⟨0, cls, i⟩ := by
  generalize (s.pc t).role = before, r.2.role = after at heff
  cases heff with
  | take k l hk hl _ heq =>
    rw [heq] at hbit
    by_cases he : (i, j) = (k, l)
    · cases he
      exact ⟨hact i hk, hl⟩
    · rw [SharedHeap.setBit_of_ne _ _ he] at hbit
      exact h.bits_lt i j hbit
  | clear k l _ heq =>
    rw [heq] at hbit
    by_cases he : (i, j) = (k, l)
    · cases he
      rw [SharedHeap.setBit_self] at hbit
      cases hbit
    · rw [SharedHeap.setBit_of_ne _ _ he] at hbit
      exact h.bits_lt i j hbit
  | add heq =>
    rw [heq, SharedHeap.addInUse_bits] at hbit
    exact h.bits_lt i j hbit
  | sub heq =>
    rw [heq, SharedHeap.subInUse_bits] at hbit
    exact h.bits_lt i j hbit
  | same _ hb | load hb | pass _ hb | fail _ hb =>
    rw [hb] at hbit
    exact h.bits_lt i j hbit

include h ht hact heff in
private theorem inUse_eq_move :
    (r.1.inUse : Int) = (r.1.slotsTaken cfg cls +
      Nat.count (fun u => Function.update (fun u => (s.pc u).role) t r.2.role u = .removing) threads -
      Nat.count (fun u => Function.update (fun u => (s.pc u).role) t r.2.role u = .adding) threads) %
        2 ^ 64 := by
  have hremoving := count_role (fun u => (s.pc u).role) r.2.role .removing ht
  have hadding := count_role (fun u => (s.pc u).role) r.2.role .adding ht
  have hin := h.inUse_eq
  generalize (s.pc t).role = before, r.2.role = after at heff hremoving hadding ⊢
  cases heff with
  | take i j hi hj hbit heq =>
    have htaken := SharedHeap.slotsTaken_setBit (h := s.heap) (hact i hi) hj true
    have hsame : r.1.inUse = s.heap.inUse := by rw [heq, SharedHeap.setBit]
    rw [← heq, hbit] at htaken
    rw [hsame]
    simp at htaken hremoving hadding
    omega
  | clear i j hbit heq =>
    obtain ⟨hi, hj⟩ := h.bits_lt i j hbit
    have htaken := SharedHeap.slotsTaken_setBit (h := s.heap) hi hj false
    have hsame : r.1.inUse = s.heap.inUse := by rw [heq, SharedHeap.setBit]
    rw [← heq, hbit] at htaken
    rw [hsame]
    simp at htaken hremoving hadding
    omega
  | add heq =>
    have htaken : r.1.slotsTaken cfg cls = s.heap.slotsTaken cfg cls :=
      SharedHeap.slotsTaken_congr (by rw [heq, SharedHeap.addInUse_bits])
    have hcount := addInUse_eq s.heap
    rw [← heq] at hcount
    simp at hremoving hadding
    omega
  | sub heq =>
    have htaken : r.1.slotsTaken cfg cls = s.heap.slotsTaken cfg cls :=
      SharedHeap.slotsTaken_congr (by rw [heq, SharedHeap.subInUse_bits])
    have hcount := subInUse_eq s.heap
    rw [← heq] at hcount
    simp at hremoving hadding
    omega
  | same _ hb hu | load hb hu | pass _ hb hu | fail _ hb hu =>
    have htaken : r.1.slotsTaken cfg cls = s.heap.slotsTaken cfg cls := SharedHeap.slotsTaken_congr hb
    simp at hremoving hadding
    omega

include h ht hact heff in
private theorem bounds_move (havail : s.heap.available ≤ r.1.available)
    (hcap : s.heap.available ≤ cfg.availableIn cls cfg.maxMiniHeaps)
    (hfit : cfg.numerator * (cfg.availableIn cls cfg.maxMiniHeaps + threads) < 2 ^ 64) :
    ∃ moment cut clock, Bounds cfg.numerator cfg.denominator threads
      (cfg.availableIn cls cfg.maxMiniHeaps) (Function.update (fun u => (s.pc u).role) t r.2.role)
      (r.1.slotsTaken cfg cls) r.1.available moment cut clock := by
  obtain ⟨moment, cut, clock, hb⟩ := h.bounds
  have hin := h.inUse_eq
  -- threads that stop taking items on the strength of a read, or never did
  have hdrop {after : Role} (hafter : after.checked = false)
      (htaken : r.1.slotsTaken cfg cls ≤ s.heap.slotsTaken cfg cls) :
      ∃ moment cut clock, Bounds cfg.numerator cfg.denominator threads
        (cfg.availableIn cls cfg.maxMiniHeaps) (Function.update (fun u => (s.pc u).role) t after)
        (r.1.slotsTaken cfg cls) r.1.available moment cut clock := by
    refine ⟨moment, cut, clock, hb.mono ?_ ?_ htaken havail⟩
    · intro u hu
      by_cases he : u = t
      · rw [he, Function.update_self] at hu
        rw [hu] at hafter
        cases hafter
      · rwa [Function.update_of_ne he] at hu
    · intro u value hu
      by_cases he : u = t
      · rw [he, Function.update_self] at hu
        rw [hu] at hafter
        cases hafter
      · rwa [Function.update_of_ne he] at hu
  generalize hbefore : (s.pc t).role = before, r.2.role = after at heff
  cases heff with
  | same _ hbits =>
    have hsame : Function.update (fun u => (s.pc u).role) t before = fun u => (s.pc u).role := by
      rw [← hbefore]
      exact Function.update_eq_self t _
    rw [hsame, SharedHeap.slotsTaken_congr hbits]
    exact ⟨moment, cut, clock, hb.mono (fun _ hu => hu) (fun _ _ hu => hu) (Nat.le_refl _) havail⟩
  | load hbits =>
    rw [SharedHeap.slotsTaken_congr hbits]
    exact ⟨_, _, _, (hb.load hbefore s.heap.slotsTaken_le hin).mono (fun _ hu => hu)
      (fun _ _ hu => hu) (Nat.le_refl _) havail⟩
  | pass inUse hbits _ hn =>
    have hcheck : cfg.numerator * inUse % 2 ^ 64 < s.heap.available * cfg.denominator % 2 ^ 64 := by
      rw [needsGrowth, decide_eq_false_iff_not, Nat.not_le] at hn
      exact hn
    obtain ⟨cut', hpass⟩ := hb.pass hbefore hfit hcap cfg.multiplier_ge_one hcheck
    rw [SharedHeap.slotsTaken_congr hbits]
    exact ⟨moment, cut', clock, hpass.mono (fun _ hu => hu) (fun _ _ hu => hu) (Nat.le_refl _) havail⟩
  | take i j hi hj hbit heq =>
    have htaken := SharedHeap.slotsTaken_setBit (h := s.heap) (hact i hi) hj true
    rw [← heq, hbit] at htaken
    have hplus : r.1.slotsTaken cfg cls = s.heap.slotsTaken cfg cls + 1 := by simpa using htaken
    rw [hplus]
    exact ⟨moment, cut, clock, (hb.take ht hbefore).mono (fun _ hu => hu) (fun _ _ hu => hu)
      (Nat.le_refl _) havail⟩
  | clear i j hbit heq =>
    obtain ⟨hi, hj⟩ := h.bits_lt i j hbit
    have htaken := SharedHeap.slotsTaken_setBit (h := s.heap) hi hj false
    rw [← heq, hbit] at htaken
    have hminus : r.1.slotsTaken cfg cls + 1 = s.heap.slotsTaken cfg cls := by simpa using htaken
    exact hdrop rfl (by omega)
  | add heq =>
    exact hdrop rfl (SharedHeap.slotsTaken_congr (by rw [heq, SharedHeap.addInUse_bits])).le
  | sub heq =>
    exact hdrop rfl (SharedHeap.slotsTaken_congr (by rw [heq, SharedHeap.subInUse_bits])).le
  | fail _ hbits => exact hdrop rfl (SharedHeap.slotsTaken_congr hbits).le

include h ht hact heff in
theorem Accounts.move (havail : s.heap.available ≤ r.1.available)
    (hcap : s.heap.available ≤ cfg.availableIn cls cfg.maxMiniHeaps)
    (hfit : cfg.numerator * (cfg.availableIn cls cfg.maxMiniHeaps + threads) < 2 ^ 64) :
    Accounts cfg cls threads (s.move t r) where
  bits_lt := bits_lt_move h hact heff
  outside u hu := by
    rw [move_pc_of_ne (by omega)]
    exact h.outside u hu
  inUse_eq := by
    have hrole (u : Nat) := congrFun (role_move s t r) u
    simp only [hrole]
    exact inUse_eq_move h ht hact heff
  bounds := by
    rw [role_move]
    exact bounds_move h ht hact heff havail hcap hfit

end Move

theorem access_available {h : SharedHeap} {pc : HeapPc} {random : Nat} (hpc : pc.holdsLock = true)
    (hh : h.Held cfg cls pc) : h.available ≤ (access cfg cls arena random h pc).1.available := by
  cases pc with
  | storeAvailable k newAvailable =>
    obtain ⟨rfl, rfl, hc⟩ := hh
    rw [hc.available_eq]
    exact HeapConfig.availableIn_mono cls (Nat.le_succ _)
  | loadMiniHeaps | lockedInUse | lockedAvailable | addAvailable | activate | storeChunks
  | storeMiniHeaps | unlock => exact Nat.le_refl _
  | _ => cases hpc

end ConcurrentHeap

namespace Growing

variable {s : ConcurrentHeap}

theorem activated_lt (hg : Growing cfg cls s) : ∀ i ∈ s.heap.activated, i < cfg.maxMiniHeaps := by
  obtain ⟨x, y, z, -, -, -, hc⟩ := hg.counters
  intro i hi
  rw [hc.activated_eq, List.mem_range] at hi
  exact hi.trans_le hc.miniHeaps_le

theorem available_le (hg : Growing cfg cls s) :
    s.heap.available ≤ cfg.availableIn cls s.heap.activated.length := by
  obtain ⟨x, y, z, -, hyx, -, hc⟩ := hg.counters
  rw [hc.available_eq, hc.activated_eq, List.length_range]
  exact HeapConfig.availableIn_mono cls (by omega)

theorem minObjects_le (hg : Growing cfg cls s) (hpos : 0 < s.heap.available) :
    cfg.minObjects cls ≤ s.heap.available := by
  obtain ⟨x, y, z, -, -, -, hc⟩ := hg.counters
  rw [hc.available_eq] at hpos ⊢
  have hone : cfg.availableIn cls 1 = cfg.minObjects cls := by simp [HeapConfig.availableIn]
  rw [← hone]
  apply HeapConfig.availableIn_mono
  by_contra h0
  rw [Nat.lt_one_iff.mp (Nat.not_le.mp h0)] at hpos
  exact Nat.lt_irrefl 0 hpos

end Growing

namespace ConcurrentHeap

variable {threads t : Nat} {s s' : ConcurrentHeap} {a : Action}

theorem available_le_next (hg : Growing cfg cls s) {random : Nat} (t : Nat) :
    s.heap.available ≤ (access cfg cls arena random s.heap (s.pc t)).1.available := by
  cases hpc : (s.pc t).holdsLock with
  | true => exact access_available hpc (hg.held t hpc)
  | false => exact (access_outside hpc).1.available_eq.ge

theorem Accounts.next (h : Accounts cfg cls threads s) (hg : Growing cfg cls s)
    (hfit : cfg.numerator * (cfg.availableIn cls cfg.maxMiniHeaps + threads) < 2 ^ 64)
    (ha : a.thread < threads) (hn : next cfg cls arena s a = some s') :
    Accounts cfg cls threads s' := by
  have hcap : s.heap.available ≤ cfg.availableIn cls cfg.maxMiniHeaps := by
    obtain ⟨x, y, z, -, hyx, -, hc⟩ := hg.counters
    rw [hc.available_eq]
    have hle := hc.miniHeaps_le
    exact HeapConfig.availableIn_mono cls (by omega)
  have hidle {pc : HeapPc} (hi : pc.isIdle = true) : pc.role = .outside := by
    cases pc <;> first | rfl | cases hi
  obtain ⟨t, rfl, hi, rfl⟩ | ⟨t, ptr, rfl, hi, rfl⟩ | ⟨t, random, rfl, -, rfl⟩ := next_cases hn
  · have heff : Effect cfg cls s.heap s.heap (s.pc t).role .outside := by
      rw [hidle hi]
      exact .same _ rfl rfl
    exact h.move ha hg.activated_lt heff (Nat.le_refl _) hcap hfit
  · have heff : Effect cfg cls s.heap s.heap (s.pc t).role .outside := by
      rw [hidle hi]
      exact .same _ rfl rfl
    exact h.move ha hg.activated_lt heff (Nat.le_refl _) hcap hfit
  · exact h.move ha hg.activated_lt (access_effect (hg.choosing t)) (available_le_next hg t) hcap hfit

/-- The thread draws again in the loop of `malloc`, all slots of all activated miniheaps are taken, and
there could be more miniheaps. -/
def Stranded (cfg : HeapConfig) (cls : Nat) (s : ConcurrentHeap) (t : Nat) : Prop :=
  (s.pc t).retrying = true ∧
    (∀ i ∈ s.heap.activated, ∀ j < cfg.nObjects ⟨0, cls, i⟩, s.heap.bits i j = true) ∧
    s.heap.activated.length < cfg.maxMiniHeaps

theorem accounts_of_reach
    (hfit : cfg.numerator * (cfg.availableIn cls cfg.maxMiniHeaps + threads) < 2 ^ 64)
    (h : Reach (ConcurrentHeap.next cfg cls arena) (fun _ a => a.thread < threads) .initial s) :
    Accounts cfg cls threads s :=
  h.invariant_of_reach accounts_initial fun _ _ _ hr hacc ha hn =>
    hacc.next (growing_of_reach hr) hfit ha hn

/-- When the margin of the smallest miniheap covers the threads, or there is one miniheap at most, and no
product of the counters wraps, no thread is stranded in the loop of `malloc`. -/
theorem reach_not_stranded
    (hthreads : threads ≤ cfg.minObjects cls * (cfg.numerator - cfg.denominator) / cfg.numerator + 1 ∨
      cfg.maxMiniHeaps ≤ 1)
    (hfit : cfg.numerator * (cfg.availableIn cls cfg.maxMiniHeaps + threads) < 2 ^ 64)
    (h : Reach (ConcurrentHeap.next cfg cls arena) (fun _ a => a.thread < threads) .initial s)
    (t : Nat) : ¬ Stranded cfg cls s t := by
  rintro ⟨hretry, hfull, hmore⟩
  have hg := growing_of_reach h
  have hacc := accounts_of_reach hfit h
  have hrole : (s.pc t).role = .passed := by
    cases hpc : s.pc t <;> rw [hpc] at hretry <;> first | rfl | cases hretry
  have hne : s.heap.activated ≠ [] := by
    have hch := hg.choosing t
    cases hpc : s.pc t with
    | getObject again =>
      rw [hpc] at hch
      exact hch
    | tryToSet again i =>
      rw [hpc] at hch
      exact List.ne_nil_of_mem hch
    | _ =>
      rw [hpc] at hretry
      cases hretry
  have hpos := List.length_pos_iff.mpr hne
  rcases hthreads with hthreads | hone
  · have ht : t < threads := by
      by_contra hle
      rw [hacc.outside t (by omega)] at hrole
      cases hrole
    obtain ⟨moment, cut, clock, hb⟩ := hacc.bounds
    have hlt := hb.taken_lt ht hrole (hg.minObjects_le (hb.room_pos hrole)) cfg.multiplier_ge_one hthreads
    have hle : cfg.availableIn cls s.heap.activated.length ≤ s.heap.slotsTaken cfg cls := by
      apply SharedHeap.le_slotsTaken hmore.le
      intro i hi j hj
      apply hfull i _ j hj
      obtain ⟨x, y, z, -, -, -, hc⟩ := hg.counters
      rw [hc.activated_eq, List.length_range] at hi
      rw [hc.activated_eq]
      exact List.mem_range.mpr hi
    have hav := hg.available_le
    omega
  · omega

/-- Thread 0 activates the first miniheap for its object and passes the check, thread 1 passes it too.
Thread 0 takes the only slot, and the draw of thread 1 fails. -/
def lateThread : List Action :=
  .malloc 0 :: List.replicate 16 (.step 0 0) ++ .malloc 1 :: List.replicate 2 (.step 1 0) ++
    List.replicate 2 (.step 0 0) ++ List.replicate 2 (.step 1 0)

theorem not_stranded_smallest : ¬ Stranded (.libdieharder false false) 0
    (final (next _ 0 (.consecutive (.libdieharder false false) 0)) .initial lateThread) 1 := by
  have hthreads : 2 ≤ (HeapConfig.libdieharder false false).minObjects 0 *
      ((HeapConfig.libdieharder false false).numerator -
        (HeapConfig.libdieharder false false).denominator) /
      (HeapConfig.libdieharder false false).numerator + 1 := by decide +kernel
  exact reach_not_stranded (Or.inl hthreads) (by decide +kernel)
    (reach_final (guarded_of_bool (by decide +kernel)) (by decide +kernel)) 1

/-- With the largest objects there is no margin for a second thread. -/
theorem not_not_stranded_largest : ¬ ∀ (cfg : HeapConfig) (cls : Nat) (arena : Arena cfg cls)
    (s : ConcurrentHeap), Reach (next cfg cls arena) (fun _ _ => True) .initial s →
      ∀ t, ¬ Stranded cfg cls s t := by
  intro h
  apply h _ _ (.consecutive (.libdieharder false false) 16)
    (final (next _ 16 (.consecutive (.libdieharder false false) 16)) .initial lateThread)
    (reach_final (guarded_true _ _ _) (by decide +kernel)) 1
  unfold Stranded
  decide +kernel

end ConcurrentHeap

end DieHard
