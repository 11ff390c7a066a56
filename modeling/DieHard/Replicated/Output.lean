import DieHard.Replicated.Lockstep

/-!
# The output of the replicated program

A run of `replicated/` takes a bounded number of steps. When no step is left the voter has printed the
output of the replicas without its zero bytes.
-/

namespace DieHard

open Transition

variable {cfg : PipelineConfig} {out : List Byte} {V : Nat}

namespace Pipeline

variable {s : Pipeline}

def currentView (s : Pipeline) : View :=
  ⟨fun i => (s.replicas i).buffer, fun i => (s.replicas i).buffer⟩

theorem viewOk_currentView (i : Nat) (random : Nat → Byte) :
    ViewOk cfg s (.handle i s.currentView random) := fun _ _ _ _ _ => ⟨rfl, rfl⟩

/-- A whole run in which replica `i` writes `outputs i` ends in the state. -/
structure EndsIn (cfg : PipelineConfig) (outputs : Nat → List Byte) (space : Nat → Nat → Byte)
    (s : Pipeline) : Prop where
  reach : Reach (next cfg) (ViewOk cfg) (initial cfg outputs space) s
  ended : Ended (next cfg) (ViewOk cfg) s

theorem length_le_rank {ok : Pipeline → Action → Prop} {init : Pipeline}
    (e : Execution (next cfg) ok init) : e.length ≤ rank cfg init :=
  e.length_le_rank fun _ _ _ _ hn => rank_next hn

theorem exists_endsIn (cfg : PipelineConfig) (outputs : Nat → List Byte) (space : Nat → Nat → Byte) :
    ∃ s, EndsIn cfg outputs space s := by
  have hrank : ∀ s a t, ViewOk cfg s a → next cfg s a = some t → rank cfg t < rank cfg s :=
    fun _ _ _ _ hn => rank_next hn
  obtain ⟨s, hr, hend⟩ := exists_ended hrank (initial cfg outputs space)
  exact ⟨s, hr, hend⟩

theorem readerStep_of_ended (hend : Ended (next cfg) (ViewOk cfg) s) {i : Nat} (hi : i < cfg.replicas) :
    (s.replicas i).readerStep cfg.bufferLength = none := by
  have h := hend (.read i) trivial
  simpa [next, hi] using h

theorem not_ready_of_ended (hend : Ended (next cfg) (ViewOk cfg) s) (hrun : s.running = true)
    (halive : 0 < s.replicasAliveNow) {i : Nat} (hi : i < cfg.replicas) :
    (s.replicas i).ready = false := by
  have h := hend (.handle i s.currentView fun _ => 0) (viewOk_currentView i _)
  simpa [next, hi, hrun, halive] using h

/-- In a state that no step leaves, every replica with a block in its round has signalled and been
counted. -/
theorem InStep.arrived_of_ended {outputs : Nat → List Byte} (h : InStep cfg outputs V s)
    (hrun : s.running = true) (hend : Ended (next cfg) (ViewOk cfg) s) {i : Nat} (hi : i < cfg.replicas)
    (hopen : Open cfg (outputs i) V) : (s.replicas i).arrived = true := by
  have hcontrol := h.rounds.control i hi
  have hstuck := readerStep_of_ended hend hi
  have halive : 0 < s.replicasAliveNow := by
    rw [h.rounds.alive]
    omega
  have hnotready := not_ready_of_ended hend hrun halive hi
  have hcounted (hf : (s.replicas i).Full) : (s.replicas i).arrived = true := by
    rcases hf with harr | hpos
    · exact harr
    · have hlive : (s.replicas i).deadFd = false := by
        rw [Bool.eq_false_iff]
        intro hdead
        exact hpos.ne' (hcontrol.dead hdead).2
      simp [Replica.ready, hlive, hpos] at hnotready
  cases h.content i hi with
  | filling _ hpc _ _ _ =>
    have hsome := Replica.readerStep_isSome_of_reading cfg.bufferLength hpc
    simp [hstuck] at hsome
  | resuming hpc hnot _ =>
    have hreply : 0 < (s.replicas i).continuePipe := by
      have hbusy := hcontrol.busy hnot
      simp [hpc] at hbusy
      omega
    have hsome := Replica.readerStep_isSome_of_reply cfg.bufferLength hpc hreply
    simp [hstuck] at hsome
  | full _ _ hf _ _ => exact hcounted hf
  | last _ _ hf _ _ => exact hcounted hf
  | done hV _ _ hnil _ =>
    rcases hopen with hzero | hcons
    · exact absurd hzero hV
    · exact absurd hnil hcons

theorem Lockstep.not_open_of_ended (h : Lockstep cfg out V s) (hrun : s.running = true)
    (hend : Ended (next cfg) (ViewOk cfg) s) : ¬ Open cfg out V := by
  intro hopen
  have hall : arrivedSet cfg s = Finset.range cfg.replicas := by
    apply Finset.filter_true_of_mem
    intro i hi
    exact h.inStep.arrived_of_ended hrun hend (Finset.mem_range.mp hi) hopen
  have hlt := h.rounds.lt
  rw [h.rounds.arrivals, hall, Finset.card_range] at hlt
  exact absurd hlt (Nat.lt_irrefl _)

section Replicated

variable {n : Nat} {h2 : 2 ≤ n} {hmax : n ≤ 1024} {space : Nat → Nat → Byte}

theorem stdout_of_endsIn (hcfg : cfg.countsEof = false) (h : EndsIn cfg (fun _ => out) space s) :
    s.stdout = out.filter (· ≠ 0) := by
  obtain ⟨hrun, V, hstep⟩ := lockstep_reach hcfg h.reach
  have hclosed := hstep.not_open_of_ended hrun h.ended
  simp only [Open, not_or, not_not] at hclosed
  rw [hstep.stdout, List.take_of_length_le (List.drop_eq_nil_iff.mp hclosed.2)]

/-- The voter prints the output itself if and only if the output has no zero byte. -/
theorem stdout_eq_iff (h : EndsIn (.replicated n h2 hmax) (fun _ => out) space s) :
    s.stdout = out ↔ (0 : Byte) ∉ out := by
  rw [stdout_of_endsIn rfl h, List.filter_eq_self]
  simp only [ne_eq, decide_not, Bool.not_eq_true', decide_eq_false_iff_not]
  constructor
  · intro h hmem
    exact h 0 hmem rfl
  · intro h c hc hzero
    exact h (hzero ▸ hc)

theorem stdout_a : ∃ s, EndsIn (.replicated 2 (by decide) (by decide)) (fun _ => [97]) (fun _ _ => 0) s ∧
    (s.stdout = [97] ↔ (0 : Byte) ∉ ([97] : List Byte)) := by
  obtain ⟨s, h⟩ := exists_endsIn (.replicated 2 (by decide) (by decide)) (fun _ => [97]) fun _ _ => 0
  exact ⟨s, h, stdout_eq_iff h⟩

/-- Of one zero byte the voter prints nothing. -/
theorem not_stdout_zero : ¬ ∀ s, EndsIn (.replicated 2 (by decide) (by decide)) (fun _ => [0])
    (fun _ _ => 0) s → s.stdout = [0] := by
  intro hall
  obtain ⟨s, h⟩ := exists_endsIn (.replicated 2 (by decide) (by decide)) (fun _ => [0]) fun _ _ => 0
  have hprinted := stdout_of_endsIn rfl h
  rw [hall s h] at hprinted
  exact absurd hprinted (by decide)

end Replicated

end Pipeline

end DieHard
