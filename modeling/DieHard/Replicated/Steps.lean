import Mathlib.Algebra.BigOperators.Group.Finset.Basic
import DieHard.Replicated.Pipeline

/-!
# Steps of the pipeline

What a step of a reader, a counted signal and a vote do to the replicas, and a rank that every step
lowers: the pipeline runs for a bounded number of steps.
-/

namespace DieHard

open Transition

variable {cfg : PipelineConfig}

namespace Replica

/-- What a step of a reader does. -/
inductive ReaderStep (length : Nat) (r : Replica) : Replica → Prop
  | store {c : Byte} {input : List Byte} : r.pc = .reading → r.input = c :: input →
      r.buffCount < length →
      ReaderStep length r { r with
        input := input
        buffCount := r.buffCount + 1
        buffer := Function.update r.buffer r.buffCount c }
  | full {c : Byte} {input : List Byte} : r.pc = .reading → r.input = c :: input →
      length ≤ r.buffCount →
      ReaderStep length r
        { r with input := input, buffCount := 0, pc := .waiting c, bufferFull := r.bufferFull + 1 }
  | pad : r.pc = .reading → r.input = [] → r.buffCount < length →
      ReaderStep length r { r with
        buffCount := length
        buffer := fun j => if r.buffCount ≤ j ∧ j < length then 0 else r.buffer j }
  | finish : r.pc = .reading → r.input = [] → length ≤ r.buffCount →
      ReaderStep length r { r with pc := .ended, bufferFull := r.bufferFull + 1 }
  | resume {c : Byte} : r.pc = .waiting c → 0 < r.continuePipe →
      ReaderStep length r { r with
        buffCount := 1
        pc := .reading
        buffer := Function.update r.buffer 0 c
        continuePipe := r.continuePipe - 1 }

theorem step_of_readerStep {length : Nat} {r r' : Replica} (h : r.readerStep length = some r') :
    ReaderStep length r r' := by
  rw [readerStep] at h
  split at h
  · rename_i hpc hin
    split at h <;> cases h
    · exact .store hpc hin ‹_›
    · exact .full hpc hin (Nat.not_lt.mp ‹_›)
  · rename_i hpc hin
    split at h <;> cases h
    · exact .pad hpc hin ‹_›
    · exact .finish hpc hin (Nat.not_lt.mp ‹_›)
  · rename_i hpc
    split at h
    · cases h
    · cases h
      exact .resume hpc (Nat.pos_of_ne_zero ‹_›)
  · cases h

theorem readerStep_isSome_of_reading (length : Nat) {r : Replica} (hpc : r.pc = .reading) :
    (r.readerStep length).isSome := by
  rw [readerStep, hpc]
  split <;> first | (split <;> rfl) | simp_all

theorem readerStep_isSome_of_reply (length : Nat) {r : Replica} {c : Byte} (hpc : r.pc = .waiting c)
    (h : 0 < r.continuePipe) : (r.readerStep length).isSome := by
  simp [readerStep, hpc, Nat.pos_iff_ne_zero.mp h]

/-- The work that is left for a reader before it reads its next byte. -/
def pcWeight (cfg : PipelineConfig) (r : Replica) : Nat :=
  match r.pc with
  | .reading => cfg.replicas + 3 + min 1 (cfg.bufferLength - r.buffCount)
  | .waiting _ => cfg.replicas + 4
  | .ended => 0

def weight (cfg : PipelineConfig) (r : Replica) : Nat :=
  (cfg.replicas + 4) * r.input.length + r.pcWeight cfg + (cfg.replicas + 1) * r.bufferFull +
    r.continuePipe + (cfg.replicas + 1) * (!r.deadFd).toNat

theorem weight_readerStep {r r' : Replica} (h : ReaderStep cfg.bufferLength r r') :
    r'.weight cfg < r.weight cfg := by
  cases h with
  | store hpc hin hlt =>
    simp only [weight, pcWeight, hpc, hin, List.length_cons, Nat.mul_add]
    omega
  | full hpc hin hle =>
    simp only [weight, pcWeight, hpc, hin, List.length_cons, Nat.mul_add]
    omega
  | pad hpc hin hlt =>
    simp only [weight, pcWeight, hpc]
    omega
  | finish hpc hin hle =>
    simp only [weight, pcWeight, hpc, Nat.mul_add]
    omega
  | resume hpc hpos =>
    simp only [weight, pcWeight, hpc]
    omega

theorem weight_arrive (r : Replica) : r.arrive.weight cfg = r.weight cfg := rfl

theorem weight_consume (cfg : PipelineConfig) {r : Replica} (h : r.signal = true) :
    r.consume.weight cfg + (cfg.replicas + 1) = r.weight cfg := by
  have hpos : 0 < r.bufferFull := by simpa [signal] using h
  obtain ⟨n, hn⟩ := Nat.exists_eq_succ_of_ne_zero hpos.ne'
  simp only [weight, pcWeight, consume, hn, Nat.succ_sub_one, Nat.mul_succ]
  omega

theorem weight_die (cfg : PipelineConfig) {r : Replica} (h : r.deadFd = false) :
    r.die.weight cfg + (cfg.replicas + 1) = r.weight cfg := by
  simp [weight, pcWeight, die, h]

theorem weight_reply (r : Replica) : r.reply.weight cfg = r.weight cfg + 1 := by
  simp only [weight, pcWeight, reply]
  omega

end Replica

namespace Pipeline

theorem two_le_countP_range {n : Nat} {p : Nat → Bool} :
    2 ≤ (List.range n).countP p ↔ ∃ i < n, ∃ j < n, i ≠ j ∧ p i = true ∧ p j = true := by
  have hcard : (List.range n).countP p = ((Finset.range n).filter fun i => p i = true).card := by
    rw [List.countP_eq_length_filter, ← List.toFinset_card_of_nodup (List.nodup_range.filter _)]
    congr 1
    ext i
    simp
  rw [hcard, Nat.succ_le_iff, Finset.one_lt_card]
  simp only [Finset.mem_filter, Finset.mem_range]
  constructor
  · rintro ⟨i, ⟨hi, hpi⟩, j, ⟨hj, hpj⟩, hne⟩
    exact ⟨i, hi, j, hj, hne, hpi, hpj⟩
  · rintro ⟨i, hi, j, hj, hne, hpi, hpj⟩
    exact ⟨i, ⟨hi, hpi⟩, j, ⟨hj, hpj⟩, hne⟩

/-- The fingerprint of replica `i`'s buffer. -/
def fingerprintOf (cfg : PipelineConfig) (view : View) (i : Nat) : Fingerprinter :=
  .of cfg.bufferLength i (view.seen i)

def SameSum (cfg : PipelineConfig) (view : View) (i j : Nat) : Prop :=
  (fingerprintOf cfg view i).same (fingerprintOf cfg view j) = true

theorem sameSum_self (cfg : PipelineConfig) (view : View) (i : Nat) : SameSum cfg view i i :=
  Fingerprinter.of_congr (fun _ _ => rfl) i i

theorem two_le_count_iff {view : View} {w : Nat} (hw : w < cfg.replicas) :
    2 ≤ (fingerprints cfg view).countP (Fingerprinter.same (fingerprintOf cfg view w)) ↔
      ∃ j < cfg.replicas, w ≠ j ∧ SameSum cfg view w j := by
  have hcount : (fingerprints cfg view).countP (Fingerprinter.same (fingerprintOf cfg view w)) =
      (List.range cfg.replicas).countP
        fun j => (fingerprintOf cfg view w).same (fingerprintOf cfg view j) := by
    rw [fingerprints, List.countP_map]
    rfl
  rw [hcount, two_le_countP_range]
  constructor
  · rintro ⟨i, hi, j, hj, hne, hsi, hsj⟩
    by_cases hwi : w = i
    · exact ⟨j, hj, hwi ▸ hne, hsj⟩
    · exact ⟨i, hi, hwi, hsi⟩
  · rintro ⟨j, hj, hne, hsame⟩
    exact ⟨w, hw, j, hj, hne, sameSum_self cfg view w, hsame⟩

theorem winner_shared {view : View} {w : Nat} (h : winner cfg view = some w) :
    w < cfg.replicas ∧ ∃ j < cfg.replicas, w ≠ j ∧ SameSum cfg view w j := by
  rw [winner] at h
  rcases hr : mostCommonElement Fingerprinter.same (fingerprints cfg view) with ⟨_ | result, count⟩
  · simp [hr] at h
  · simp only [hr, ite_eq_iff] at h
    obtain ⟨-, h⟩ | ⟨hlt, h⟩ := h
    · cases h
    cases h
    have hpos : (mostCommonElement Fingerprinter.same (fingerprints cfg view)).2 ≠ 0 := by
      rw [hr]
      show count ≠ 0
      omega
    obtain ⟨f, hf, hitem, hcount⟩ := mostCommonElement_item Fingerprinter.same hpos
    rw [hr] at hitem hcount
    cases hitem
    obtain ⟨w, hw, rfl⟩ := List.mem_map.mp hf
    have hw := List.mem_range.mp hw
    exact ⟨hw, (two_le_count_iff hw).mp ((Nat.not_lt.mp hlt).trans (Nat.le_of_eq hcount.symm))⟩

theorem not_sameSum_of_winner {view : View} (h : winner cfg view = none) {i j : Nat}
    (hi : i < cfg.replicas) (hj : j < cfg.replicas) (hne : i ≠ j) : ¬ SameSum cfg view i j := by
  intro hsame
  have hmem : fingerprintOf cfg view i ∈ fingerprints cfg view :=
    List.mem_map_of_mem (List.mem_range.mpr hi)
  have htwo := ((two_le_count_iff hi).mpr ⟨j, hj, hne, hsame⟩).trans
    (countP_le_mostCommonElement Fingerprinter.same hmem)
  have hpos : (mostCommonElement Fingerprinter.same (fingerprints cfg view)).2 ≠ 0 := by omega
  obtain ⟨f, -, hitem, -⟩ := mostCommonElement_item Fingerprinter.same hpos
  rw [winner] at h
  generalize mostCommonElement Fingerprinter.same (fingerprints cfg view) = r at htwo hitem h
  obtain ⟨item, count⟩ := r
  cases hitem
  simp [Nat.not_lt.mpr htwo] at h

theorem handleInput_cases (cfg : PipelineConfig) (view : View) (random : Nat → Byte) (s : Pipeline) :
    (s.barrierArrivals + 1 < s.replicasAliveNow ∧
      handleInput cfg view random s = s.setArrivals (s.barrierArrivals + 1)) ∨
    s.replicasAliveNow ≤ s.barrierArrivals + 1 ∧
      ((winner cfg view = none ∧ handleInput cfg view random s = (s.setArrivals 0).stop) ∨
      ∃ w, winner cfg view = some w ∧
        handleInput cfg view random s = agree cfg view random w (s.setArrivals 0)) := by
  rw [handleInput]
  by_cases h : s.replicasAliveNow ≤ s.barrierArrivals + 1
  · rw [if_pos h, vote]
    cases winner cfg view with
    | none => exact Or.inr ⟨h, Or.inl ⟨rfl, rfl⟩⟩
    | some w => exact Or.inr ⟨h, Or.inr ⟨w, rfl, rfl⟩⟩
  · rw [if_neg h]
    exact Or.inl ⟨Nat.not_le.mp h, rfl⟩

/-- The signal of replica `i` is counted and taken out of its pipe. -/
def takeSignal (s : Pipeline) (i : Nat) : Pipeline := s.setReplica i (s.replicas i).arrive.consume

@[simp] theorem setReplica_self (s : Pipeline) (i : Nat) (r : Replica) :
    (s.setReplica i r).replicas i = r := by simp [setReplica]

theorem setReplica_of_ne (s : Pipeline) {i j : Nat} (h : j ≠ i) (r : Replica) :
    (s.setReplica i r).replicas j = s.replicas j := by simp [setReplica, h]

@[simp] theorem setReplica_setReplica (s : Pipeline) (i : Nat) (r r' : Replica) :
    (s.setReplica i r).setReplica i r' = s.setReplica i r' := by simp [setReplica]

theorem setReplica_same (s : Pipeline) (i : Nat) : s.setReplica i (s.replicas i) = s := by
  simp [setReplica]

theorem agree_consume (view : View) (random : Nat → Byte) (w i : Nat) (s : Pipeline) :
    (agree cfg view random w s).setReplica i ((agree cfg view random w s).replicas i).consume =
      agree cfg view random w (s.setReplica i (s.replicas i).consume) := by
  have hreplicas : Function.update (agree cfg view random w s).replicas i
      ((agree cfg view random w s).replicas i).consume =
      (agree cfg view random w (s.setReplica i (s.replicas i).consume)).replicas := by
    funext j
    by_cases hj : j = i
    · subst hj
      simp only [Function.update_self, agree, setReplica_self]
      split
      · split <;> rfl
      · rfl
    · simp [agree, Function.update_of_ne hj, setReplica_of_ne _ hj]
  show Pipeline.mk _ _ _ _ _ = Pipeline.mk _ _ _ _ _
  rw [Pipeline.mk.injEq]
  exact ⟨hreplicas, rfl, rfl, rfl, rfl⟩

/-- What the voter does with a signal. -/
theorem handle_signal (cfg : PipelineConfig) (view : View) (random : Nat → Byte) {s : Pipeline} {i : Nat}
    (hrun : s.running = true) (hsig : (s.replicas i).signal = true) :
    (s.barrierArrivals + 1 < s.replicasAliveNow ∧
      handle cfg i view random s = (takeSignal s i).setArrivals (s.barrierArrivals + 1)) ∨
    s.replicasAliveNow ≤ s.barrierArrivals + 1 ∧
      ((winner cfg view = none ∧
        ∃ r, (r = (s.replicas i).arrive ∨ r = (s.replicas i).arrive.consume) ∧
          handle cfg i view random s = ((s.setReplica i r).setArrivals 0).stop) ∨
      ∃ w, winner cfg view = some w ∧
        handle cfg i view random s = agree cfg view random w ((takeSignal s i).setArrivals 0)) := by
  simp only [handle, hsig, if_true]
  split
  · rcases handleInput_cases cfg view random (s.setReplica i (s.replicas i).arrive) with
      ⟨hlt, h⟩ | ⟨hle, ⟨hno, h⟩ | ⟨w, hw, h⟩⟩
    · refine Or.inl ⟨hlt, ?_⟩
      rw [h]
      simp [takeSignal, setReplica, setArrivals, hrun]
    · refine Or.inr ⟨hle, Or.inl ⟨hno, _, Or.inl rfl, ?_⟩⟩
      rw [h]
      simp [stop]
    · refine Or.inr ⟨hle, Or.inr ⟨w, hw, ?_⟩⟩
      rw [h]
      have hagree : (agree cfg view random w
          ((s.setReplica i (s.replicas i).arrive).setArrivals 0)).running = true := hrun
      simp only [hagree, if_true]
      rw [agree_consume]
      simp [takeSignal, setReplica, setArrivals]
  · rcases handleInput_cases cfg view random (takeSignal s i) with
      ⟨hlt, h⟩ | ⟨hle, ⟨hno, h⟩ | ⟨w, hw, h⟩⟩
    · exact Or.inl ⟨hlt, h⟩
    · exact Or.inr ⟨hle, Or.inl ⟨hno, _, Or.inr rfl, h⟩⟩
    · exact Or.inr ⟨hle, Or.inr ⟨w, hw, h⟩⟩

theorem handle_eof (view : View) (random : Nat → Byte) {s : Pipeline} {i : Nat}
    (hcfg : cfg.countsEof = false) (hsig : (s.replicas i).signal = false) :
    handle cfg i view random s = s.setReplica i (s.replicas i).die := by
  simp [handle, hcfg, hsig]

theorem handle_countedEof (cfg : PipelineConfig) (view : View) (random : Nat → Byte) {s : Pipeline} {i : Nat}
    (hcfg : cfg.countsEof = true) (hrun : s.running = true) (hsig : (s.replicas i).signal = false) :
    (s.barrierArrivals + 1 < s.replicasAliveNow ∧ handle cfg i view random s =
      ((s.setReplica i (s.replicas i).die).setArrivals (s.barrierArrivals + 1)).loseReplica) ∨
    s.replicasAliveNow ≤ s.barrierArrivals + 1 ∧
      ((winner cfg view = none ∧
        handle cfg i view random s = (s.setArrivals 0).stop) ∨
      ∃ w, winner cfg view = some w ∧
        handle cfg i view random s = ((agree cfg view random w (s.setArrivals 0)).setReplica i
          ((agree cfg view random w (s.setArrivals 0)).replicas i).die).loseReplica) := by
  have harrive : (s.replicas i).arrive = s.replicas i := by simp [Replica.arrive, hsig]
  rw [handle, if_pos hcfg, harrive, setReplica_same]
  rcases handleInput_cases cfg view random s with ⟨hlt, h⟩ | ⟨hle, ⟨hno, h⟩ | ⟨w, hw, h⟩⟩
  · refine Or.inl ⟨hlt, ?_⟩
    rw [h]
    simp [hrun, hsig, setReplica, setArrivals]
  · refine Or.inr ⟨hle, Or.inl ⟨hno, ?_⟩⟩
    rw [h]
    simp [stop]
  · refine Or.inr ⟨hle, Or.inr ⟨w, hw, ?_⟩⟩
    rw [h]
    simp [agree, hrun, hsig, setReplica, setArrivals]

variable {s : Pipeline}

theorem next_read {s' : Pipeline} {i : Nat} (h : next cfg s (.read i) = some s') :
    i < cfg.replicas ∧ ∃ r, Replica.ReaderStep cfg.bufferLength (s.replicas i) r ∧ s' = s.setReplica i r := by
  rw [next] at h
  split at h
  · rename_i hi
    obtain ⟨r, hr, rfl⟩ := Option.map_eq_some_iff.mp h
    exact ⟨hi, r, Replica.step_of_readerStep hr, rfl⟩
  · cases h

theorem next_handle {s' : Pipeline} {i : Nat} {view : View} {random : Nat → Byte}
    (h : next cfg s (.handle i view random) = some s') :
    s.running = true ∧ i < cfg.replicas ∧ (s.replicas i).ready = true ∧
      s' = handle cfg i view random s := by
  rw [next] at h
  split at h
  · rename_i hc
    cases h
    exact ⟨hc.1, hc.2.2.1, hc.2.2.2, rfl⟩
  · cases h

/-- With the ready pipe of replica `i` the barrier is full and the voter votes. -/
def fires (cfg : PipelineConfig) (s : Pipeline) (i : Nat) : Bool :=
  decide (s.replicasAliveNow ≤ s.barrierArrivals + 1) && (cfg.countsEof || (s.replicas i).signal)

def printedBuffer (cfg : PipelineConfig) (s : Pipeline) : Action → Option (Nat → Byte)
  | .read _ => none
  | .handle i view _ => if fires cfg s i then (winner cfg view).map view.printed else none

theorem stdout_vote (view : View) (random : Nat → Byte) (s : Pipeline) :
    (vote cfg view random s).stdout =
      s.stdout ++ ((winner cfg view).map view.printed).elim [] (printed cfg) := by
  rw [vote]
  cases winner cfg view <;> simp [stop, agree]

theorem stdout_next {s' : Pipeline} {a : Action} (h : next cfg s a = some s') :
    s'.stdout = s.stdout ++ (printedBuffer cfg s a).elim [] (printed cfg) := by
  cases a with
  | read i =>
    obtain ⟨-, r, -, rfl⟩ := next_read h
    simp [setReplica, printedBuffer]
  | handle i view random =>
    obtain ⟨-, -, -, rfl⟩ := next_handle h
    by_cases hle : s.replicasAliveNow ≤ s.barrierArrivals + 1 <;> cases hcfg : cfg.countsEof <;>
      cases hsig : (s.replicas i).signal <;>
      simp [handle, handleInput, printedBuffer, fires, hle, hcfg, hsig, setReplica, setArrivals,
        loseReplica] <;> (try split) <;> simp [stdout_vote]

def rank (cfg : PipelineConfig) (s : Pipeline) : Nat :=
  ∑ i ∈ Finset.range cfg.replicas, (s.replicas i).weight cfg + s.running.toNat

theorem rank_setReplica {s : Pipeline} {i : Nat} (hi : i < cfg.replicas) (r : Replica) :
    rank cfg (s.setReplica i r) + (s.replicas i).weight cfg = rank cfg s + r.weight cfg := by
  have hmem := Finset.mem_range.mpr hi
  have hrest : ∑ j ∈ (Finset.range cfg.replicas).erase i,
      ((s.setReplica i r).replicas j).weight cfg =
      ∑ j ∈ (Finset.range cfg.replicas).erase i, (s.replicas j).weight cfg := by
    apply Finset.sum_congr rfl
    intro j hj
    simp [setReplica, Function.update_of_ne (Finset.ne_of_mem_erase hj)]
  have hnew := Finset.add_sum_erase _ (fun j => ((s.setReplica i r).replicas j).weight cfg) hmem
  have hold := Finset.add_sum_erase _ (fun j => (s.replicas j).weight cfg) hmem
  have hi' : ((s.setReplica i r).replicas i).weight cfg = r.weight cfg := by simp [setReplica]
  simp only [hrest, hi'] at hnew
  simp only [rank, ← hnew, ← hold]
  show _ + s.running.toNat + _ = _
  omega

theorem rank_agree (cfg : PipelineConfig) (view : View) (random : Nat → Byte) (w : Nat) (s : Pipeline) :
    rank cfg (agree cfg view random w s) = rank cfg s + cfg.replicas := by
  have hsum : ∑ i ∈ Finset.range cfg.replicas,
      ((agree cfg view random w s).replicas i).weight cfg =
      ∑ i ∈ Finset.range cfg.replicas, ((s.replicas i).weight cfg + 1) := by
    apply Finset.sum_congr rfl
    intro i hi
    simp only [agree, if_pos (Finset.mem_range.mp hi), Replica.weight_reply]
    split <;> rfl
  rw [rank, hsum, Finset.sum_add_distrib, rank]
  simp only [Finset.sum_const, Finset.card_range, smul_eq_mul, mul_one]
  show _ + s.running.toNat = _
  omega

theorem rank_takeSignal {i : Nat} (hi : i < cfg.replicas)
    (hsig : (s.replicas i).signal = true) :
    rank cfg (takeSignal s i) + (cfg.replicas + 1) = rank cfg s := by
  have hset := rank_setReplica (s := s) hi (s.replicas i).arrive.consume
  have hweight : (s.replicas i).arrive.consume.weight cfg + (cfg.replicas + 1) =
      (s.replicas i).weight cfg := Replica.weight_consume cfg (r := (s.replicas i).arrive) hsig
  simp only [takeSignal]
  omega

theorem rank_die {i : Nat} (hi : i < cfg.replicas)
    (hdead : (s.replicas i).deadFd = false) :
    rank cfg (s.setReplica i (s.replicas i).die) + (cfg.replicas + 1) = rank cfg s := by
  have hset := rank_setReplica (s := s) hi (s.replicas i).die
  have hweight := Replica.weight_die cfg hdead
  omega

@[simp] theorem rank_setArrivals (s : Pipeline) (n : Nat) : rank cfg (s.setArrivals n) = rank cfg s := rfl

@[simp] theorem rank_loseReplica (s : Pipeline) : rank cfg s.loseReplica = rank cfg s := rfl

theorem rank_stop (cfg : PipelineConfig) {s : Pipeline} (hrun : s.running = true) :
    rank cfg s.stop + 1 = rank cfg s := by
  simp [rank, stop, hrun]

theorem rank_handle {i : Nat} (view : View) (random : Nat → Byte)
    (hi : i < cfg.replicas) (hrun : s.running = true) (hready : (s.replicas i).ready = true) :
    rank cfg (handle cfg i view random s) < rank cfg s := by
  have hdead : (s.replicas i).deadFd = false := by
    simp only [Replica.ready, Bool.and_eq_true, Bool.not_eq_true'] at hready
    exact hready.1
  by_cases hsig : (s.replicas i).signal = true
  · have htake := rank_takeSignal hi hsig
    rcases handle_signal cfg view random hrun hsig with
      ⟨-, h⟩ | ⟨-, ⟨-, r, hr, h⟩ | ⟨w, -, h⟩⟩
    · rw [h, rank_setArrivals]
      omega
    · have hstop := rank_stop cfg (s := (s.setReplica i r).setArrivals 0) hrun
      have hset := rank_setReplica (s := s) hi r
      have hweight := Replica.weight_consume cfg (r := (s.replicas i).arrive) hsig
      rw [Replica.weight_arrive] at hweight
      rw [rank_setArrivals] at hstop
      rw [h]
      rcases hr with rfl | rfl
      · rw [Replica.weight_arrive] at hset
        omega
      · omega
    · rw [h, rank_agree, rank_setArrivals]
      omega
  · have hsig := Bool.eq_false_iff.mpr hsig
    have hdie := rank_die hi hdead
    cases hcfg : cfg.countsEof with
    | false =>
      rw [handle_eof view random hcfg hsig]
      omega
    | true =>
      rcases handle_countedEof cfg view random hcfg hrun hsig with ⟨-, h⟩ | ⟨-, ⟨-, h⟩ | ⟨w, -, h⟩⟩
      · rw [h, rank_loseReplica, rank_setArrivals]
        omega
      · have hstop := rank_stop cfg (s := s.setArrivals 0) hrun
        rw [rank_setArrivals] at hstop
        rw [h]
        omega
      · have hagree := rank_agree cfg view random w (s.setArrivals 0)
        have hdead' : ((agree cfg view random w (s.setArrivals 0)).replicas i).deadFd = false := by
          simp only [agree, if_pos hi]
          split <;> exact hdead
        have hdie' := rank_die hi hdead'
        rw [rank_setArrivals] at hagree
        rw [h, rank_loseReplica]
        omega

theorem rank_next {s' : Pipeline} {a : Action} (h : next cfg s a = some s') :
    rank cfg s' < rank cfg s := by
  cases a with
  | read i =>
    rw [next] at h
    split at h
    · rename_i hi
      obtain ⟨r, hr, rfl⟩ := Option.map_eq_some_iff.mp h
      have hset := rank_setReplica (s := s) hi r
      have hlt := Replica.weight_readerStep (Replica.step_of_readerStep hr)
      omega
    · cases h
  | handle i view random =>
    rw [next] at h
    split at h
    · rename_i hc
      cases h
      exact rank_handle view random hc.2.2.1 hc.1 hc.2.2.2
    · cases h

end Pipeline

end DieHard
