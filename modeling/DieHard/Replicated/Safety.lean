import DieHard.Replicated.Rounds

/-!
# What a vote prints

A buffer is printed because its sum occurs twice. That two live replicas with a signal of this round
hold its bytes takes more: no two buffers that differ may have the same sum, and in `exterminator/` a signal
must make the voter vote, before it has found a pipe at its end.
-/

namespace DieHard

open Transition

variable {cfg : PipelineConfig}

namespace Pipeline

variable {s : Pipeline}

/-- Replica `j` is counted in `ReplicasAliveNow`, and with the pipe of replica `i` the voter has got its
signal of this round. -/
def Counts (cfg : PipelineConfig) (s : Pipeline) (i j : Nat) : Prop :=
  (cfg.countsEof = true → (s.replicas j).deadFd = false) ∧
    ((s.replicas j).arrived = true ∨ j = i ∧ (s.replicas i).signal = true)

def Backed (cfg : PipelineConfig) (s : Pipeline) (i : Nat) (buffer : Nat → Byte) : Prop :=
  ∃ j < cfg.replicas, ∃ k < cfg.replicas, j ≠ k ∧ Counts cfg s i j ∧ Counts cfg s i k ∧
    SameBytes cfg (s.replicas j).buffer buffer ∧ SameBytes cfg (s.replicas k).buffer buffer

section Run

variable {ok : Pipeline → Action → Prop} {init : Pipeline}

/-- Every printed buffer is backed. -/
def VotingSafe (e : Execution (next cfg) ok init) : Prop :=
  ∀ m < e.length, ∀ i view random, e.action m = .handle i view random →
    ∀ buffer, printedBuffer cfg (e.state m) (.handle i view random) = some buffer →
      Backed cfg (e.state m) i buffer

end Run

/-- Buffers with the same sum of bytes are the same. -/
def SumsTell (cfg : PipelineConfig) (s : Pipeline) : Prop :=
  ∀ j < cfg.replicas, ∀ k < cfg.replicas,
    (Fingerprinter.of cfg.bufferLength j (s.replicas j).buffer).same
      (.of cfg.bufferLength k (s.replicas k).buffer) = true →
    SameBytes cfg (s.replicas j).buffer (s.replicas k).buffer

/-- Whenever the voter votes, the sums tell the buffers apart; in `exterminator/` also a signal makes it vote, and
it has found no pipe at its end. -/
def Sound (cfg : PipelineConfig) (s : Pipeline) (a : Action) : Prop :=
  ViewOk cfg s a ∧ ∀ i view random, a = .handle i view random → fires cfg s i = true →
    SumsTell cfg s ∧ (cfg.countsEof = true → (s.replicas i).signal = true ∧ NoneGone cfg s)

theorem sameBytes_of_atRest {i : Nat} {view : View} {random : Nat → Byte}
    (hview : ViewOk cfg s (.handle i view random)) {j : Nat} (hj : j < cfg.replicas)
    (hrest : (s.replicas j).AtRest) :
    SameBytes cfg (view.seen j) (s.replicas j).buffer ∧
      SameBytes cfg (s.replicas j).buffer (view.printed j) :=
  ⟨fun b hb => (hview j hj hrest b hb).1, fun b hb => (hview j hj hrest b hb).2.symm⟩

theorem sameBytes_of_sameSum {i : Nat} {view : View} {random : Nat → Byte}
    (hview : ViewOk cfg s (.handle i view random)) (htell : SumsTell cfg s) {j k : Nat}
    (hj : j < cfg.replicas) (hk : k < cfg.replicas) (hjr : (s.replicas j).AtRest)
    (hkr : (s.replicas k).AtRest) (hsame : SameSum cfg view j k) :
    SameBytes cfg (s.replicas j).buffer (s.replicas k).buffer := by
  apply htell j hj k hk
  have hvalue (l : Nat) (hl : l < cfg.replicas) (hlr : (s.replicas l).AtRest) :
      (fingerprintOf cfg view l).value =
        (Fingerprinter.of cfg.bufferLength l (s.replicas l).buffer).value := by
    have h := Fingerprinter.of_congr (sameBytes_of_atRest hview hl hlr).1 l l
    simpa [Fingerprinter.same, fingerprintOf] using h
  have hsame' : (fingerprintOf cfg view j).value = (fingerprintOf cfg view k).value := by
    simpa [SameSum, Fingerprinter.same] using hsame
  simp [Fingerprinter.same, ← hvalue j hj hjr, ← hvalue k hk hkr, hsame']

theorem Rounds.counts (h : Rounds cfg s) (hgone : cfg.countsEof = true → NoneGone cfg s) {i : Nat}
    (hi : i < cfg.replicas) (hsig : (s.replicas i).signal = true)
    (hle : s.replicasAliveNow ≤ s.barrierArrivals + 1) {j : Nat} (hj : j < cfg.replicas) :
    Counts cfg s i j ∧ (s.replicas j).AtRest := by
  refine ⟨⟨fun hcfg => hgone hcfg j hj, ?_⟩, (h.control j hj).rest (h.all_full hi hsig hle hj)⟩
  have harr := h.all_arrived hi hsig hle j hj
  by_cases hji : j = i
  · exact Or.inr ⟨hji, hsig⟩
  · rw [takeSignal, setReplica_of_ne s hji] at harr
    exact Or.inl harr

theorem backed_of_sound {i : Nat} {view : View} {random : Nat → Byte} {buffer : Nat → Byte}
    (hrounds : (cfg.countsEof = true → NoneGone cfg s) → Rounds cfg s) (hi : i < cfg.replicas)
    (hsound : Sound cfg s (.handle i view random))
    (hprint : printedBuffer cfg s (.handle i view random) = some buffer) :
    Backed cfg s i buffer := by
  simp only [printedBuffer] at hprint
  split at hprint
  · rename_i hfires
    obtain ⟨w, hwin, rfl⟩ := Option.map_eq_some_iff.mp hprint
    obtain ⟨hw, j, hj, hne, hsame⟩ := winner_shared hwin
    obtain ⟨htell, heof⟩ := hsound.2 i view random rfl hfires
    have hgone (hcfg : cfg.countsEof = true) : NoneGone cfg s := (heof hcfg).2
    simp only [fires, Bool.and_eq_true, Bool.or_eq_true, decide_eq_true_eq] at hfires
    have hsig : (s.replicas i).signal = true := hfires.2.elim (fun hcfg => (heof hcfg).1) id
    have hcounts {k : Nat} (hk : k < cfg.replicas) := (hrounds hgone).counts hgone hi hsig hfires.1 hk
    obtain ⟨hwc, hwr⟩ := hcounts hw
    obtain ⟨hjc, hjr⟩ := hcounts hj
    have hwp := (sameBytes_of_atRest hsound.1 hw hwr).2
    have hwj := sameBytes_of_sameSum hsound.1 htell hw hj hwr hjr hsame
    exact ⟨w, hw, j, hj, hne, hwc, hjc, hwp, fun b hb => (hwj b hb).symm.trans (hwp b hb)⟩
  · cases hprint

/-- In every run whose votes are sound every printed buffer is backed. -/
theorem votingSafe {outputs : Nat → List Byte} {space : Nat → Nat → Byte}
    (e : Execution (next cfg) (Sound cfg) (initial cfg outputs space)) : VotingSafe e := by
  intro m hm i view random ha buffer hprint
  have hstep := e.step m hm
  have hsound := e.guarded m hm
  rw [ha] at hstep hsound
  obtain ⟨hrun, hi, -, -⟩ := next_handle hstep
  exact backed_of_sound (rounds_reach (e.reach hm.le) hrun) hi hsound hprint

def swapped : Nat → List Byte
  | 0 => [97, 98]
  | _ => [98, 97]

def swappedView : View := ⟨fun i j => (swapped i).getD j 0, fun i j => (swapped i).getD j 0⟩

abbrev twoReplicas : PipelineConfig := .replicated 2 PipelineConfig.two_le_two PipelineConfig.two_le_maxReplicas

abbrev swappedStart : Pipeline := initial twoReplicas swapped fun _ _ => 0

def swappedReads : List Action := List.replicate 4 (.read 0) ++ List.replicate 4 (.read 1)

def swappedRun : List Action :=
  swappedReads ++ [.handle 0 swappedView fun _ => 0, .handle 1 swappedView fun _ => 0]

theorem guarded_reads {as : List Action} (h : ∀ a ∈ as, ∃ i, a = .read i) (s : Pipeline) :
    Guarded (next cfg) (ViewOk cfg) s as := by
  induction as generalizing s with
  | nil => trivial
  | cons a as ih =>
    obtain ⟨i, rfl⟩ := h a (by simp)
    exact ⟨trivial, fun t _ => ih (fun b hb => h b (by simp [hb])) t⟩

theorem buffer_handle (view : View) (random : Nat → Byte) (i j : Nat)
    (hlt : s.barrierArrivals + 1 < s.replicasAliveNow) :
    ((handle cfg i view random s).replicas j).buffer = (s.replicas j).buffer := by
  by_cases hji : j = i
  · subst hji
    simp only [handle, handleInput, setReplica, Nat.not_le.mpr hlt, if_false]
    split <;> (try split) <;> (try split) <;>
      simp [setArrivals, loseReplica, Replica.arrive, Replica.consume, Replica.die]
  · simp only [handle, handleInput, setReplica, Nat.not_le.mpr hlt, if_false]
    split <;> (try split) <;> (try split) <;> simp [setArrivals, loseReplica, hji]

def swappedFull : Pipeline := final (next twoReplicas) swappedStart swappedReads

private theorem swappedFull_buffer {i j : Nat} (hi : i < 2) (hj : j < 4096) :
    (swapped i).getD j 0 = (swappedFull.replicas i).buffer j := by
  have hbuffer (c d : Byte) : [c, d].getD j 0 = if 2 ≤ j ∧ j < 4096 then 0 else
      Function.update (Function.update (fun _ => (0 : Byte)) 0 c) 1 d j := by
    match j with
    | 0 => rfl
    | 1 => rfl
    | j + 2 =>
      rw [if_pos ⟨by omega, hj⟩]
      rfl
  match i, hi with
  | 0, _ => exact hbuffer 97 98
  | 1, _ => exact hbuffer 98 97

private theorem guarded_swapped : Guarded (next twoReplicas) (ViewOk twoReplicas) swappedStart
    swappedRun := by
  have hreads : ∀ a ∈ swappedReads, ∃ i, a = .read i := by
    intro a ha
    simp only [swappedReads, List.mem_append, List.mem_replicate] at ha
    rcases ha with ⟨-, rfl⟩ | ⟨-, rfl⟩
    · exact ⟨0, rfl⟩
    · exact ⟨1, rfl⟩
  apply Guarded.append (guarded_reads hreads _)
  intro t ht
  have hrun : run (next twoReplicas) swappedStart swappedReads = some swappedFull :=
    run_eq_final (by decide +kernel)
  obtain rfl : swappedFull = t := Option.some.inj (hrun.symm.trans ht)
  refine ⟨?_, ?_⟩
  · intro i hi _ j hj
    exact ⟨swappedFull_buffer hi hj, swappedFull_buffer hi hj⟩
  · intro t ht
    obtain ⟨-, -, -, rfl⟩ := next_handle ht
    refine ⟨?_, fun _ _ => trivial⟩
    intro i hi _ j hj
    rw [buffer_handle _ _ 0 i (by decide +kernel)]
    exact ⟨swappedFull_buffer hi hj, swappedFull_buffer hi hj⟩

def swappedExecution : Execution (next twoReplicas) (ViewOk twoReplicas) swappedStart :=
  .ofRun swappedRun (by decide +kernel) guarded_swapped

theorem winner_pair {cfg : PipelineConfig} {view : View} {first second : Fingerprinter}
    (hlist : fingerprints cfg view = [first, second]) (hsame : first.value = second.value) :
    winner cfg view = some first.start := by
  have hmost : mostCommonElement Fingerprinter.same [first, second] = (some first, 2) := by
    simp [mostCommonElement, countItems, countItem, Fingerprinter.same, hsame]
  rw [winner, hlist, hmost]
  rfl

theorem winner_swapped : winner twoReplicas swappedView = some 0 := by
  have hzero (i : Nat) (hi : i < 2) (j : Nat) (hj : 2 ≤ j) : swappedView.seen i j = 0 := by
    match i, hi, j, hj with
    | 0, _, j + 2, _ => rfl
    | 1, _, j + 2, _ => rfl
  have hvalue (i : Nat) (hi : i < 2) : (fingerprintOf twoReplicas swappedView i).value =
      (Fingerprinter.of 2 i (swappedView.seen i)).value :=
    Fingerprinter.of_padded (by decide) (fun j hj _ => hzero i hi j hj) i
  have hsame : (fingerprintOf twoReplicas swappedView 0).value =
      (fingerprintOf twoReplicas swappedView 1).value := by
    rw [hvalue 0 (by decide), hvalue 1 (by decide)]
    decide
  have hlist : fingerprints twoReplicas swappedView =
      [fingerprintOf twoReplicas swappedView 0, fingerprintOf twoReplicas swappedView 1] := rfl
  exact winner_pair hlist hsame

/-- The vote prints "ab", which one replica holds. -/
theorem not_votingSafe_swapped : ¬ VotingSafe swappedExecution := by
  intro h
  have hprint : printedBuffer twoReplicas (swappedExecution.state 9)
      (.handle 1 swappedView fun _ => 0) = some (swappedView.printed 0) := by
    have hfires : fires twoReplicas (swappedExecution.state 9) 1 = true := by decide +kernel
    simp only [printedBuffer, hfires, winner_swapped, if_true, Option.map_some]
  obtain ⟨j, hj, k, hk, hne, -, -, hjb, hkb⟩ :=
    h 9 (by decide) 1 swappedView (fun _ => 0) rfl _ hprint
  have hfirst : ((swappedExecution.state 9).replicas 1).buffer 0 = 98 := by decide +kernel
  have hone : j = 1 ∨ k = 1 := by
    have hj : j < 2 := hj
    have hk : k < 2 := hk
    omega
  have hprinted : swappedView.printed 0 0 = 98 := by
    rcases hone with rfl | rfl
    · exact (hjb 0 (by decide)).symm.trans hfirst
    · exact (hkb 0 (by decide)).symm.trans hfirst
  exact absurd hprinted (by decide)

end Pipeline

end DieHard
