import DieHard.Replicated.EndOfFile

/-!
# Outputs of different lengths

The voter of `replicated/` counts every replica for ever, also one whose output has ended. If an output
has fewer blocks than another one, the voter waits for a signal that nobody sends.
-/

namespace DieHard

open Transition

variable {cfg : PipelineConfig} {outputs : Nat → List Byte} {out : List Byte} {V : Nat}

theorem open_iff : Open cfg out V ↔ V < Pipeline.blockCount cfg out := by
  have hpos := cfg.bufferLength_pos
  have hblocks : V + 1 ≤ (out.length + cfg.bufferLength - 1) / cfg.bufferLength ↔
      V * cfg.bufferLength < out.length := by
    rw [Nat.le_div_iff_mul_le hpos, Nat.succ_mul]
    omega
  rw [Open, ne_eq, List.drop_eq_nil_iff, Nat.not_le, ← hblocks, Pipeline.blockCount]
  omega

namespace Replica

variable {r : Replica}

instance (r : Replica) : Decidable r.Full := inferInstanceAs (Decidable (_ ∨ _))

theorem Content.full_iff (h : Content cfg out V r) (hc : r.Control) (hrest : r.AtRest) :
    r.Full ↔ Open cfg out V := by
  cases h with
  | filling _ hpc _ _ _ =>
    rcases hrest with hrest | ⟨⟨c, hrest⟩, -⟩ <;> rw [hpc] at hrest <;> cases hrest
  | resuming hpc hnot _ =>
    have hbusy := hc.busy hnot
    rcases hrest with hrest | ⟨-, hrest⟩
    · cases hpc.symm.trans hrest
    · simp [hpc, hrest] at hbusy
  | full hopen _ hf _ _ => exact iff_of_true hf hopen
  | last hopen _ hf _ _ => exact iff_of_true hf hopen
  | done hV _ hnot hnil _ => exact iff_of_false hnot (by simp [Open, hV, hnil])

theorem Control.full_of_waiting (hc : r.Control) (hrest : r.AtRest) (hpc : r.pc ≠ .ended) : r.Full := by
  by_contra hnot
  have hbusy := hc.busy hnot
  rcases hrest with hrest | ⟨⟨c, hwait⟩, hzero⟩
  · exact hpc hrest
  · simp [hwait, hzero] at hbusy

theorem Control.card_signals (hc : r.Control) :
    r.arrived.toNat + r.bufferFull = if r.Full then 1 else 0 := by
  have hle := hc.bufferFull_le
  have honce := hc.once
  cases harr : r.arrived
  · by_cases hfull : 0 < r.bufferFull
    · simp only [Full, hfull, or_true, if_true, Bool.toNat_false]
      omega
    · simp only [Full, harr, hfull, or_false, Bool.false_eq_true, if_false, Bool.toNat_false]
      omega
  · simp [Full, harr, honce harr]

end Replica

namespace Pipeline

variable {s : Pipeline}

def signals (cfg : PipelineConfig) (s : Pipeline) : Nat :=
  s.barrierArrivals + ∑ i ∈ Finset.range cfg.replicas, (s.replicas i).bufferFull

def Blocked (cfg : PipelineConfig) (s : Pipeline) : Prop := ∀ i < cfg.replicas, (s.replicas i).AtRest

/-- All readers have ended and the voter has voted on every signal, or the signals on their way fill the
barrier. -/
def BarrierTaken (cfg : PipelineConfig) (s : Pipeline) : Prop :=
  signals cfg s = 0 ∧ (∀ i < cfg.replicas, (s.replicas i).pc = .ended) ∨
    s.replicasAliveNow ≤ signals cfg s

def NeverStuck (cfg : PipelineConfig) (outputs : Nat → List Byte) (space : Nat → Nat → Byte) : Prop :=
  ∀ s, Reach (next cfg) (ViewOk cfg) (initial cfg outputs space) s → s.running = true →
    Blocked cfg s → BarrierTaken cfg s

/-- Two replicas have the same sum of bytes in block `V`. -/
def Agrees (cfg : PipelineConfig) (outputs : Nat → List Byte) (V : Nat) : Prop :=
  ∃ i < cfg.replicas, ∃ j < cfg.replicas, i ≠ j ∧
    (Fingerprinter.of cfg.bufferLength i (block cfg (outputs i) V)).same
      (.of cfg.bufferLength j (block cfg (outputs j) V)) = true

/-- Every replica has a block for round `V`. -/
def AllOpen (cfg : PipelineConfig) (outputs : Nat → List Byte) (V : Nat) : Prop :=
  ∀ i < cfg.replicas, Open cfg (outputs i) V

/-- The vote of round `V` finds no two equal sums, and the voter gives up. -/
def NoneAgree (cfg : PipelineConfig) (outputs : Nat → List Byte) (V : Nat) : Prop :=
  AllOpen cfg outputs V ∧ ¬ Agrees cfg outputs V

theorem Rounds.signals_eq (h : Rounds cfg s) :
    signals cfg s = ((Finset.range cfg.replicas).filter fun i => (s.replicas i).Full).card := by
  have harrived : (arrivedSet cfg s).card =
      ∑ i ∈ Finset.range cfg.replicas, (s.replicas i).arrived.toNat := by
    rw [arrivedSet, Finset.card_filter]
    apply Finset.sum_congr rfl
    intro i _
    cases (s.replicas i).arrived <;> rfl
  rw [signals, h.arrivals, harrived, ← Finset.sum_add_distrib, Finset.card_filter]
  apply Finset.sum_congr rfl
  intro i hi
  exact (h.control i (Finset.mem_range.mp hi)).card_signals

theorem Rounds.signals_eq_replicas (h : Rounds cfg s) (hfull : ∀ i < cfg.replicas, (s.replicas i).Full) :
    signals cfg s = s.replicasAliveNow := by
  rw [h.signals_eq, h.alive, Finset.filter_true_of_mem, Finset.card_range]
  intro i hi
  exact hfull i (Finset.mem_range.mp hi)

theorem Rounds.signals_eq_zero (h : Rounds cfg s) :
    signals cfg s = 0 ↔ ∀ i < cfg.replicas, ¬ (s.replicas i).Full := by
  simp [h.signals_eq, Finset.filter_eq_empty_iff]

theorem Rounds.full_of_le_signals (h : Rounds cfg s) (hle : s.replicasAliveNow ≤ signals cfg s) :
    ∀ i < cfg.replicas, (s.replicas i).Full := by
  rw [h.alive, h.signals_eq] at hle
  have hall := Finset.eq_of_subset_of_card_le (Finset.filter_subset _ _)
    ((Finset.card_range cfg.replicas).le.trans hle)
  intro i hi
  exact (Finset.filter_eq_self.mp hall) i (Finset.mem_range.mpr hi)

theorem InStep.barrierTaken (h : InStep cfg outputs V s) (hblocked : Blocked cfg s)
    (hsame : AllOpen cfg outputs V ∨ ∀ i < cfg.replicas, ¬ Open cfg (outputs i) V) :
    BarrierTaken cfg s := by
  have hfull (i : Nat) (hi : i < cfg.replicas) : (s.replicas i).Full ↔ Open cfg (outputs i) V :=
    (h.content i hi).full_iff (h.rounds.control i hi) (hblocked i hi)
  rcases hsame with hopen | hclosed
  · right
    exact (h.rounds.signals_eq_replicas fun i hi => (hfull i hi).mpr (hopen i hi)).ge
  · have hnone : ∀ i < cfg.replicas, ¬ (s.replicas i).Full := fun i hi =>
      mt (hfull i hi).mp (hclosed i hi)
    left
    refine ⟨h.rounds.signals_eq_zero.mpr hnone, ?_⟩
    intro i hi
    by_contra hpc
    exact hnone i hi ((h.rounds.control i hi).full_of_waiting (hblocked i hi) hpc)

/-- The rounds before `V` took a block of every replica and printed one. -/
def Passed (cfg : PipelineConfig) (outputs : Nat → List Byte) (V : Nat) : Prop :=
  ∀ W < V, AllOpen cfg outputs W ∧ Agrees cfg outputs W

/-- The run is in round `V`, or the voter has given up. -/
def Progress (cfg : PipelineConfig) (outputs : Nat → List Byte) (s : Pipeline) : Prop :=
  (s.running = true ∧ ∃ V, InStep cfg outputs V s ∧ Passed cfg outputs V) ∨
    (s.running = false ∧ ∃ V, NoneAgree cfg outputs V)

section Signal

variable {i : Nat} {view : View} {random : Nat → Byte}

theorem InStep.allOpen (h : InStep cfg outputs V s) (hi : i < cfg.replicas)
    (hsig : (s.replicas i).signal = true) (hle : s.replicasAliveNow ≤ s.barrierArrivals + 1) :
    AllOpen cfg outputs V := by
  intro j hj
  have hfull := h.rounds.all_full hi hsig hle hj
  have hcontrol := h.rounds.control j hj
  exact ((h.content j hj).full_iff hcontrol (hcontrol.rest hfull)).mp hfull

theorem InStep.sameSum_iff (h : InStep cfg outputs V s) (hi : i < cfg.replicas)
    (hsig : (s.replicas i).signal = true) (hle : s.replicasAliveNow ≤ s.barrierArrivals + 1)
    (hview : ViewOk cfg s (.handle i view random)) {j k : Nat} (hj : j < cfg.replicas)
    (hk : k < cfg.replicas) :
    SameSum cfg view j k ↔ (Fingerprinter.of cfg.bufferLength j (block cfg (outputs j) V)).same
      (.of cfg.bufferLength k (block cfg (outputs k) V)) = true := by
  have hvalue (l : Nat) (hl : l < cfg.replicas) : (fingerprintOf cfg view l).value =
      (Fingerprinter.of cfg.bufferLength l (block cfg (outputs l) V)).value := by
    have hsame := Fingerprinter.of_congr (h.reads hi hsig hle hview hl).1 l l
    simpa [Fingerprinter.same, fingerprintOf] using hsame
  simp [SameSum, Fingerprinter.same, hvalue j hj, hvalue k hk]

theorem InStep.signal (h : InStep cfg outputs V s) (hpassed : Passed cfg outputs V)
    (hrun : s.running = true) (hi : i < cfg.replicas) (hsig : (s.replicas i).signal = true)
    (hview : ViewOk cfg s (.handle i view random)) :
    Progress cfg outputs (handle cfg i view random s) := by
  rcases handle_signal cfg view random hrun hsig with
    ⟨hlt, he⟩ | ⟨hle, ⟨hnone, r, -, he⟩ | ⟨w, hw, he⟩⟩
  · rw [he]
    exact Or.inl ⟨hrun, V, h.wait hi hsig hlt, hpassed⟩
  · rw [he]
    refine Or.inr ⟨rfl, V, h.allOpen hi hsig hle, ?_⟩
    intro ⟨j, hj, k, hk, hne, hsame⟩
    exact not_sameSum_of_winner hnone hj hk hne ((h.sameSum_iff hi hsig hle hview hj hk).mpr hsame)
  · rw [he]
    obtain ⟨hwlt, j, hj, hne, hsame⟩ := winner_shared hw
    refine Or.inl ⟨hrun, V + 1, h.agree hi hsig hle w, ?_⟩
    intro W hW
    rcases Nat.lt_succ_iff_lt_or_eq.mp hW with hW | rfl
    · exact hpassed W hW
    · exact ⟨h.allOpen hi hsig hle, w, hwlt, j, hj, hne,
        (h.sameSum_iff hi hsig hle hview hwlt hj).mp hsame⟩

end Signal

theorem Progress.next {s' : Pipeline} {a : Action} (hcfg : cfg.countsEof = false)
    (h : Progress cfg outputs s) (hview : ViewOk cfg s a) (hn : next cfg s a = some s') :
    Progress cfg outputs s' := by
  rcases h with ⟨hrun, V, hstep, hpassed⟩ | ⟨hstopped, hnone⟩
  · cases a with
    | read i =>
      obtain ⟨hi, r, hr, rfl⟩ := next_read hn
      exact Or.inl ⟨hrun, V, hstep.read hi hr, hpassed⟩
    | handle i view random =>
      obtain ⟨-, hi, hready, rfl⟩ := next_handle hn
      by_cases hsig : (s.replicas i).signal = true
      · exact hstep.signal hpassed hrun hi hsig hview
      · have hsig := Bool.eq_false_iff.mpr hsig
        rw [handle_eof view random hcfg hsig]
        exact Or.inl ⟨hrun, V, hstep.die hi hready hsig, hpassed⟩
  · -- the readers go on without the voter
    refine Or.inr ⟨?_, hnone⟩
    rw [Bool.eq_false_iff]
    intro hrun
    exact absurd (running_of_next hn hrun) (by simp [hstopped])

theorem progress_reach {space : Nat → Nat → Byte} (hcfg : cfg.countsEof = false)
    (hr : Reach (Pipeline.next cfg) (ViewOk cfg) (initial cfg outputs space) s) :
    Progress cfg outputs s := by
  apply hr.invariant (I := Progress cfg outputs)
  · exact Or.inl ⟨rfl, 0, inStep_initial space, fun _ hW => absurd hW (Nat.not_lt_zero _)⟩
  · intro r a r' h hview hn
    exact h.next hcfg hview hn

def SameBlocks (cfg : PipelineConfig) (outputs : Nat → List Byte) : Prop :=
  ∀ i < cfg.replicas, ∀ j < cfg.replicas, blockCount cfg (outputs i) = blockCount cfg (outputs j)

/-- While the voter runs with outputs of one length, the barrier is taken. -/
theorem neverStuck_of_sameBlocks {space : Nat → Nat → Byte} (hcfg : cfg.countsEof = false)
    (h : SameBlocks cfg outputs ∨ ∃ V, NoneAgree cfg outputs V) : NeverStuck cfg outputs space := by
  intro s hr hrun hblocked
  rcases progress_reach hcfg hr with ⟨-, V, hstep, hpassed⟩ | ⟨hstopped, -⟩
  · apply hstep.barrierTaken hblocked
    rcases h with hsame | ⟨W, hopen, hnone⟩
    · by_cases hV : ∃ i < cfg.replicas, Open cfg (outputs i) V
      · obtain ⟨i, hi, hV⟩ := hV
        left
        intro j hj
        rw [open_iff] at hV ⊢
        exact hV.trans_eq (hsame i hi j hj)
      · right
        intro i hi hopen
        exact hV ⟨i, hi, hopen⟩
    · -- round `W` is not over
      have hle : V ≤ W := by
        by_contra hlt
        exact hnone (hpassed W (Nat.not_le.mp hlt)).2
      left
      intro i hi
      have hlast := open_iff.mp (hopen i hi)
      exact open_iff.mpr (hle.trans_lt hlast)
  · simp [hrun] at hstopped

theorem blocked_of_ended (hend : Ended (Pipeline.next cfg) (ViewOk cfg) s) : Blocked cfg s := by
  intro i hi
  have hstuck := readerStep_of_ended hend hi
  cases hpc : (s.replicas i).pc with
  | reading =>
    have hsome := Replica.readerStep_isSome_of_reading cfg.bufferLength hpc
    simp [hstuck] at hsome
  | waiting c =>
    refine Or.inr ⟨⟨c, hpc⟩, ?_⟩
    by_contra hne
    have hsome := Replica.readerStep_isSome_of_reply cfg.bufferLength hpc (Nat.pos_of_ne_zero hne)
    simp [hstuck] at hsome
  | ended => exact Or.inl hpc

/-- A whole run that never gets stuck and whose voter does not give up takes as many blocks of each
replica. -/
theorem sameBlocks_of_neverStuck {space : Nat → Nat → Byte} (hcfg : cfg.countsEof = false)
    (h : NeverStuck cfg outputs space) (hnone : ¬ ∃ V, NoneAgree cfg outputs V) :
    SameBlocks cfg outputs := by
  obtain ⟨s, hr, hend⟩ := exists_endsIn cfg outputs space
  rcases progress_reach hcfg hr with ⟨hrun, V, hstep, hpassed⟩ | ⟨-, hgivenUp⟩
  · have hblocked := blocked_of_ended hend
    have hfull (i : Nat) (hi : i < cfg.replicas) : (s.replicas i).Full ↔ Open cfg (outputs i) V :=
      (hstep.content i hi).full_iff (hstep.rounds.control i hi) (hblocked i hi)
    rcases h s hr hrun hblocked with ⟨hzero, -⟩ | hle
    · have hclosed := hstep.rounds.signals_eq_zero.mp hzero
      have hcount (i : Nat) (hi : i < cfg.replicas) : blockCount cfg (outputs i) = V := by
        have hge : ¬ V < blockCount cfg (outputs i) := by
          rw [← open_iff, ← hfull i hi]
          exact hclosed i hi
        by_contra hne
        have hlt := Nat.lt_of_le_of_ne (Nat.not_lt.mp hge) hne
        exact absurd (open_iff.mp ((hpassed _ hlt).1 i hi)) (Nat.lt_irrefl _)
      intro i hi j hj
      rw [hcount i hi, hcount j hj]
    · -- all signals have been counted, so the barrier was full before
      have hall : arrivedSet cfg s = Finset.range cfg.replicas := by
        apply Finset.filter_true_of_mem
        intro i hi
        have hi := Finset.mem_range.mp hi
        have hopen := (hfull i hi).mp (hstep.rounds.full_of_le_signals hle i hi)
        exact hstep.arrived_of_ended hrun hend hi hopen
      have hlt := hstep.rounds.lt
      rw [hstep.rounds.arrivals, hall, Finset.card_range] at hlt
      exact absurd hlt (Nat.lt_irrefl _)
  · exact absurd hgivenUp hnone

section Replicated

variable {n : Nat} {h2 : 2 ≤ n} {hmax : n ≤ 1024} {space : Nat → Nat → Byte}

/-- The voter of `replicated/` never gets stuck if and only if all outputs have the same number of blocks
or it gives up in a round before the first output ends. -/
theorem neverStuck_iff : NeverStuck (.replicated n h2 hmax) outputs space ↔
    SameBlocks (.replicated n h2 hmax) outputs ∨ ∃ V, NoneAgree (.replicated n h2 hmax) outputs V := by
  constructor
  · intro h
    by_cases hnone : ∃ V, NoneAgree (.replicated n h2 hmax) outputs V
    · exact Or.inr hnone
    · exact Or.inl (sameBlocks_of_neverStuck rfl h hnone)
  · exact neverStuck_of_sameBlocks rfl

def oneDiffers (i : Nat) : List Byte := [if i = 2 then 98 else 97]

theorem neverStuck_oneDiffers :
    NeverStuck (.replicated 3 (by decide) (by decide)) oneDiffers fun _ _ => 0 :=
  neverStuck_iff.mpr (Or.inl fun _ _ _ _ => rfl)

end Replicated

def unequal (i : Nat) : List Byte := if i = 0 then [] else List.replicate 8193 97

/-- Replicas 1 and 2 wait for a vote on their second blocks. -/
theorem not_neverStuck_unequal :
    ¬ NeverStuck (.replicated 3 (by decide) (by decide)) unequal fun _ _ => 0 := by
  intro h
  have hagrees : ¬ ∃ V, NoneAgree (.replicated 3 (by decide) (by decide)) unequal V := by
    intro ⟨_, _, hnone⟩
    exact hnone ⟨1, by decide, 2, by decide, by decide, Fingerprinter.of_congr (fun _ _ => rfl) 1 2⟩
  have hsame := sameBlocks_of_neverStuck rfl h hagrees 0 (by decide) 1 (by decide)
  have hfirst : (unequal 0).length = 0 := rfl
  have hsecond : (unequal 1).length = 8193 := List.length_replicate
  rw [blockCount, blockCount, hfirst, hsecond] at hsame
  exact absurd hsame (by decide)

end Pipeline

end DieHard
