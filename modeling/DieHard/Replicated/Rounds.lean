import DieHard.Replicated.Steps

/-!
# Rounds

As long as no end of a file is counted, the voter and the readers run in rounds: each reader signals
once and waits for the vote, and the voter votes when every replica has signalled.
-/

namespace DieHard

open Transition

variable {cfg : PipelineConfig}

namespace Replica

def Full (r : Replica) : Prop := r.arrived = true ∨ 0 < r.bufferFull

/-- Where a replica stands in its round. -/
structure Control (r : Replica) : Prop where
  bufferFull_le : r.bufferFull ≤ 1
  once : r.arrived = true → r.bufferFull = 0
  rest : r.Full → r.AtRest
  busy : ¬ r.Full → r.pc = .reading ∧ r.continuePipe = 0 ∨
    (∃ c, r.pc = .waiting c) ∧ r.continuePipe = 1 ∨ r.pc = .ended
  dead : r.deadFd = true → r.pc = .ended ∧ r.bufferFull = 0

theorem control_initial (input : List Byte) (buffer : Nat → Byte) :
    Control ⟨input, 0, .reading, buffer, 0, 0, false, false⟩ :=
  ⟨by simp, by simp, by simp [Full], by simp, by simp⟩

variable {r r' : Replica}

theorem AtRest.not_step {length : Nat} (h : r.AtRest) : ¬ ReaderStep length r r' := by
  intro hs
  rcases h with h | ⟨⟨c, h⟩, hzero⟩ <;> cases hs <;> simp_all

theorem Control.not_full (h : r.Control) {length : Nat} (hs : ReaderStep length r r') : ¬ r.Full :=
  fun hf => (h.rest hf).not_step hs

theorem Control.readerStep (h : r.Control) {length : Nat} (hs : ReaderStep length r r') :
    r'.Control := by
  have hnot := h.not_full hs
  have harr : r.arrived = false := by simpa using fun ha => hnot (Or.inl ha)
  have hfull : r.bufferFull = 0 := by
    by_contra hne
    exact hnot (Or.inr (Nat.pos_of_ne_zero hne))
  have hbusy := h.busy hnot
  have hlive : r.deadFd = false := by
    rw [Bool.eq_false_iff]
    intro hdead
    exact (show r.AtRest from Or.inl (h.dead hdead).1).not_step hs
  cases hs with
  | store hpc _ _ =>
    exact ⟨by simp [hfull], by simp [harr], by simp [Full, harr, hfull], by simp_all, by simp [hlive]⟩
  | full hpc _ _ =>
    exact ⟨by simp [hfull], by simp [harr], by simp_all [AtRest], by simp [Full], by simp [hlive]⟩
  | pad hpc _ _ =>
    exact ⟨by simp [hfull], by simp [harr], by simp [Full, harr, hfull], by simp_all, by simp [hlive]⟩
  | finish hpc _ _ =>
    exact ⟨by simp [hfull], by simp [harr], by simp [AtRest], by simp, by simp [hlive]⟩
  | resume hpc hpos =>
    exact ⟨by simp [hfull], by simp [harr], by simp [Full, harr, hfull], by simp_all, by simp [hlive]⟩

theorem ReaderStep.arrived_eq {length : Nat} (hs : ReaderStep length r r') : r'.arrived = r.arrived := by
  cases hs <;> rfl

theorem ReaderStep.deadFd_eq {length : Nat} (hs : ReaderStep length r r') : r'.deadFd = r.deadFd := by
  cases hs <;> rfl

theorem full_of_signal (h : r.signal = true) : r.Full := by
  simp only [signal, decide_eq_true_eq] at h
  exact Or.inr h

theorem full_takeSignal (h : r.signal = true) : r.arrive.consume.Full := by
  simp [Full, arrive, consume, h]

theorem Control.takeSignal (h : r.Control) (hsig : r.signal = true) : r.arrive.consume.Control := by
  have hle := h.bufferFull_le
  have hrest := h.rest (full_of_signal hsig)
  refine ⟨?_, ?_, fun _ => hrest, fun hnot => absurd (full_takeSignal hsig) hnot, ?_⟩
  · simp only [arrive, consume]
    omega
  · intro _
    simp only [arrive, consume]
    omega
  · intro hdead
    exact ⟨(h.dead hdead).1, by simp [arrive, consume, (h.dead hdead).2]⟩

theorem Control.die (h : r.Control) (hready : r.ready = true) (hsig : r.signal = false) :
    r.die.Control := by
  have hzero : r.bufferFull = 0 := by simpa [signal] using hsig
  have hended : r.pc = .ended := by simp_all [ready]
  exact ⟨h.bufferFull_le, h.once, h.rest, h.busy, fun _ => ⟨hended, hzero⟩⟩

theorem Control.clean (h : r.Control) (n : Nat) (random : Nat → Byte) : (r.clean n random).Control :=
  ⟨h.bufferFull_le, h.once, h.rest, h.busy, h.dead⟩

theorem Control.reply (h : r.Control) (ha : r.arrived = true) : r.reply.Control := by
  have hfull := h.once ha
  refine ⟨h.bufferFull_le, by simp [Replica.reply], by simp [Full, Replica.reply, hfull], ?_, h.dead⟩
  intro _
  rcases h.rest (Or.inl ha) with hpc | ⟨hpc, hzero⟩
  · exact Or.inr (Or.inr hpc)
  · exact Or.inr (Or.inl ⟨hpc, by simp [Replica.reply, hzero]⟩)

end Replica

namespace Pipeline

variable {s : Pipeline}

def arrivedSet (cfg : PipelineConfig) (s : Pipeline) : Finset Nat :=
  (Finset.range cfg.replicas).filter fun i => (s.replicas i).arrived = true

theorem mem_arrivedSet {i : Nat} :
    i ∈ arrivedSet cfg s ↔ i < cfg.replicas ∧ (s.replicas i).arrived = true := by
  simp [arrivedSet]

theorem arrivedSet_congr {t : Pipeline}
    (h : ∀ i < cfg.replicas, (t.replicas i).arrived = (s.replicas i).arrived) :
    arrivedSet cfg t = arrivedSet cfg s := by
  ext i
  rw [mem_arrivedSet, mem_arrivedSet]
  constructor
  · intro hi
    exact ⟨hi.1, (h i hi.1).symm.trans hi.2⟩
  · intro hi
    exact ⟨hi.1, (h i hi.1).trans hi.2⟩

/-- All replicas are alive, and the voter waits for those that have not signalled in this round. -/
structure Rounds (cfg : PipelineConfig) (s : Pipeline) : Prop where
  alive : s.replicasAliveNow = cfg.replicas
  arrivals : s.barrierArrivals = (arrivedSet cfg s).card
  lt : s.barrierArrivals < cfg.replicas
  control : ∀ i < cfg.replicas, (s.replicas i).Control

theorem rounds_initial (outputs : Nat → List Byte) (space : Nat → Nat → Byte) :
    Rounds cfg (initial cfg outputs space) := by
  have htwo := cfg.two_le
  refine ⟨rfl, ?_, ?_, fun i _ => Replica.control_initial _ _⟩
  · simp [initial, arrivedSet]
  · show 0 < cfg.replicas
    omega

theorem control_setReplica (h : ∀ j < cfg.replicas, (s.replicas j).Control) {i : Nat} {r : Replica}
    (hr : r.Control) : ∀ j < cfg.replicas, ((s.setReplica i r).replicas j).Control := by
  intro j hj
  by_cases hji : j = i
  · subst hji
    simpa using hr
  · rw [setReplica_of_ne s hji]
    exact h j hj

theorem Rounds.setReplica (h : Rounds cfg s) {i : Nat} {r : Replica} (hr : r.Control)
    (ha : r.arrived = (s.replicas i).arrived) : Rounds cfg (s.setReplica i r) := by
  have hset : arrivedSet cfg (s.setReplica i r) = arrivedSet cfg s := by
    apply arrivedSet_congr
    intro j _
    by_cases hji : j = i
    · subst hji
      simpa using ha
    · rw [setReplica_of_ne s hji]
  exact ⟨h.alive, h.arrivals.trans (congrArg Finset.card hset.symm), h.lt, control_setReplica h.control hr⟩

theorem Rounds.read (h : Rounds cfg s) {i : Nat} (hi : i < cfg.replicas) {r : Replica}
    (hs : Replica.ReaderStep cfg.bufferLength (s.replicas i) r) : Rounds cfg (s.setReplica i r) :=
  h.setReplica ((h.control i hi).readerStep hs) hs.arrived_eq

theorem arrivedSet_takeSignal {i : Nat} (hi : i < cfg.replicas) (hsig : (s.replicas i).signal = true) :
    arrivedSet cfg (s.takeSignal i) = insert i (arrivedSet cfg s) := by
  ext j
  rw [Finset.mem_insert, mem_arrivedSet, mem_arrivedSet]
  by_cases hji : j = i
  · subst hji
    simp [takeSignal, Replica.arrive, Replica.consume, hsig, hi]
  · simp [takeSignal, setReplica_of_ne s hji, hji]

theorem Rounds.card_takeSignal (h : Rounds cfg s) {i : Nat} (hi : i < cfg.replicas)
    (hsig : (s.replicas i).signal = true) :
    (arrivedSet cfg (s.takeSignal i)).card = s.barrierArrivals + 1 := by
  have hnot : i ∉ arrivedSet cfg s := by
    intro hmem
    have hzero := (h.control i hi).once (mem_arrivedSet.mp hmem).2
    simp [Replica.signal, hzero] at hsig
  rw [arrivedSet_takeSignal hi hsig, Finset.card_insert_of_notMem hnot, h.arrivals]

theorem control_takeSignal (h : Rounds cfg s) {i : Nat} (hi : i < cfg.replicas)
    (hsig : (s.replicas i).signal = true) :
    ∀ j < cfg.replicas, ((s.takeSignal i).replicas j).Control :=
  control_setReplica h.control ((h.control i hi).takeSignal hsig)

theorem Rounds.wait (h : Rounds cfg s) {i : Nat} (hi : i < cfg.replicas)
    (hsig : (s.replicas i).signal = true) (hlt : s.barrierArrivals + 1 < s.replicasAliveNow) :
    Rounds cfg ((s.takeSignal i).setArrivals (s.barrierArrivals + 1)) :=
  ⟨h.alive, (h.card_takeSignal hi hsig).symm, hlt.trans_eq h.alive, control_takeSignal h hi hsig⟩

theorem Rounds.all_arrived (h : Rounds cfg s) {i : Nat} (hi : i < cfg.replicas)
    (hsig : (s.replicas i).signal = true) (hle : s.replicasAliveNow ≤ s.barrierArrivals + 1) :
    ∀ j < cfg.replicas, ((s.takeSignal i).replicas j).arrived = true := by
  have hcard : (Finset.range cfg.replicas).card ≤ (arrivedSet cfg (s.takeSignal i)).card := by
    rw [h.card_takeSignal hi hsig, Finset.card_range, ← h.alive]
    exact hle
  have heq : arrivedSet cfg (s.takeSignal i) = Finset.range cfg.replicas :=
    Finset.eq_of_subset_of_card_le (Finset.filter_subset _ _) hcard
  intro j hj
  have hmem : j ∈ arrivedSet cfg (s.takeSignal i) := by
    rw [heq]
    exact Finset.mem_range.mpr hj
  exact (mem_arrivedSet.mp hmem).2

theorem Rounds.all_full (h : Rounds cfg s) {i : Nat} (hi : i < cfg.replicas)
    (hsig : (s.replicas i).signal = true) (hle : s.replicasAliveNow ≤ s.barrierArrivals + 1) {j : Nat}
    (hj : j < cfg.replicas) : (s.replicas j).Full := by
  have harr := h.all_arrived hi hsig hle j hj
  by_cases hji : j = i
  · subst hji
    exact Replica.full_of_signal hsig
  · rw [takeSignal, setReplica_of_ne s hji] at harr
    exact Or.inl harr

/-- A vote of all replicas starts the next round. -/
theorem Rounds.agree (h : Rounds cfg s) {i : Nat} (hi : i < cfg.replicas)
    (hsig : (s.replicas i).signal = true) (hle : s.replicasAliveNow ≤ s.barrierArrivals + 1)
    (view : View) (random : Nat → Byte) (w : Nat) :
    Rounds cfg (agree cfg view random w ((s.takeSignal i).setArrivals 0)) := by
  have htwo := cfg.two_le
  have hall := h.all_arrived hi hsig hle
  have hcontrol := control_takeSignal h hi hsig
  refine ⟨h.alive, ?_, ?_, ?_⟩
  · have hempty : arrivedSet cfg (Pipeline.agree cfg view random w ((s.takeSignal i).setArrivals 0)) =
        ∅ := by
      ext j
      rw [mem_arrivedSet]
      simp only [Pipeline.agree, Finset.notMem_empty, iff_false, not_and]
      intro hj
      simp [hj, Replica.reply]
    rw [hempty]
    rfl
  · show 0 < cfg.replicas
    omega
  · intro j hj
    simp only [Pipeline.agree, if_pos hj]
    split
    · exact ((hcontrol j hj).clean _ _).reply (hall j hj)
    · exact (hcontrol j hj).reply (hall j hj)

theorem deadFd_takeSignal (s : Pipeline) (i j : Nat) :
    ((s.takeSignal i).replicas j).deadFd = (s.replicas j).deadFd := by
  by_cases hji : j = i
  · subst hji
    simp [takeSignal, Replica.arrive, Replica.consume]
  · rw [takeSignal, setReplica_of_ne s hji]

theorem deadFd_agree (view : View) (random : Nat → Byte) (w j : Nat) (s : Pipeline) :
    ((agree cfg view random w s).replicas j).deadFd = (s.replicas j).deadFd := by
  simp only [agree]
  split
  · split <;> rfl
  · rfl

theorem deadFd_handle (cfg : PipelineConfig) {i : Nat} (view : View) (random : Nat → Byte)
    (hrun : s.running = true)
    (hsig : (s.replicas i).signal = true) (j : Nat) :
    ((handle cfg i view random s).replicas j).deadFd = (s.replicas j).deadFd := by
  rcases handle_signal cfg view random hrun hsig with
    ⟨-, he⟩ | ⟨-, ⟨-, r, hr, he⟩ | ⟨w, -, he⟩⟩
  · rw [he]
    exact deadFd_takeSignal s i j
  · rw [he]
    show ((s.setReplica i r).replicas j).deadFd = _
    by_cases hji : j = i
    · subst hji
      rw [setReplica_self]
      rcases hr with rfl | rfl <;> rfl
    · rw [setReplica_of_ne s hji]
  · rw [he, deadFd_agree]
    exact deadFd_takeSignal s i j

theorem deadFd_handle_eof (cfg : PipelineConfig) {i : Nat} (view : View) (random : Nat → Byte)
    (hrun : s.running = true) (hsig : (s.replicas i).signal = false)
    (hrun' : (handle cfg i view random s).running = true) (j : Nat) :
    ((handle cfg i view random s).replicas j).deadFd = ((s.replicas j).deadFd || decide (j = i)) := by
  have hdie (t : Pipeline) : ((t.setReplica i (t.replicas i).die).replicas j).deadFd =
      ((t.replicas j).deadFd || decide (j = i)) := by
    by_cases hji : j = i
    · subst hji
      simp [Replica.die]
    · simp [setReplica_of_ne t hji, hji]
  cases hcfg : cfg.countsEof with
  | false =>
    rw [handle_eof view random hcfg hsig]
    exact hdie s
  | true =>
    rcases handle_countedEof cfg view random hcfg hrun hsig with ⟨-, he⟩ | ⟨-, ⟨-, he⟩ | ⟨w, -, he⟩⟩
    · rw [he]
      exact hdie s
    · rw [he] at hrun'
      cases hrun'
    · rw [he]
      exact (hdie _).trans (by rw [deadFd_agree]; rfl)

def NoneGone (cfg : PipelineConfig) (s : Pipeline) : Prop := ∀ j < cfg.replicas, (s.replicas j).deadFd = false

/-- While the voter runs and has counted no end of a file, it runs in rounds. -/
theorem Rounds.next {s' : Pipeline} {a : Action} (hgone : cfg.countsEof = true → NoneGone cfg s') (h : Rounds cfg s)
    (hn : next cfg s a = some s') (hrun : s'.running = true) : Rounds cfg s' := by
  cases a with
  | read i =>
    obtain ⟨hi, r, hr, rfl⟩ := next_read hn
    exact h.read hi hr
  | handle i view random =>
    obtain ⟨hrun', hi, hready, rfl⟩ := next_handle hn
    by_cases hsig : (s.replicas i).signal = true
    · rcases handle_signal cfg view random hrun' hsig with
        ⟨hlt, he⟩ | ⟨hle, ⟨-, r, -, he⟩ | ⟨w, -, he⟩⟩
      · rw [he]
        exact h.wait hi hsig hlt
      · rw [he] at hrun
        cases hrun
      · rw [he]
        exact h.agree hi hsig hle view random w
    · have hsig := Bool.eq_false_iff.mpr hsig
      cases hcfg : cfg.countsEof with
      | false =>
        rw [handle_eof view random hcfg hsig]
        exact h.setReplica ((h.control i hi).die hready hsig) rfl
      | true =>
        have hdead := deadFd_handle_eof cfg view random hrun' hsig hrun i
        simp [hgone hcfg i hi] at hdead

theorem running_of_next {s' : Pipeline} {a : Action} (hn : Pipeline.next cfg s a = some s')
    (hrun : s'.running = true) : s.running = true := by
  cases a with
  | read i =>
    obtain ⟨-, r, -, rfl⟩ := next_read hn
    exact hrun
  | handle i view random => exact (next_handle hn).1

theorem NoneGone.of_next {s' : Pipeline} {a : Action} (h : NoneGone cfg s') (hn : Pipeline.next cfg s a = some s')
    (hrun : s'.running = true) : NoneGone cfg s := by
  intro j hj
  have hj' := h j hj
  cases a with
  | read i =>
    obtain ⟨-, r, hr, rfl⟩ := next_read hn
    by_cases hji : j = i
    · subst hji
      rwa [setReplica_self, hr.deadFd_eq] at hj'
    · rwa [setReplica_of_ne s hji] at hj'
  | handle i view random =>
    obtain ⟨hrun', hi, -, rfl⟩ := next_handle hn
    by_cases hsig : (s.replicas i).signal = true
    · rwa [deadFd_handle cfg view random hrun' hsig] at hj'
    · rw [deadFd_handle_eof cfg view random hrun' (Bool.eq_false_iff.mpr hsig) hrun, Bool.or_eq_false_iff] at hj'
      exact hj'.1

theorem rounds_reach {ok : Pipeline → Action → Prop} {outputs : Nat → List Byte}
    {space : Nat → Nat → Byte} (hr : Reach (Pipeline.next cfg) ok (initial cfg outputs space) s) :
    s.running = true → (cfg.countsEof = true → NoneGone cfg s) → Rounds cfg s := by
  apply hr.invariant (I := fun s => s.running = true → (cfg.countsEof = true → NoneGone cfg s) → Rounds cfg s)
  · intro _ _
    exact rounds_initial outputs space
  · intro r a r' hi _ hn hrun hgone
    have hrounds := hi (running_of_next hn hrun) fun hcfg => (hgone hcfg).of_next hn hrun
    exact hrounds.next hgone hn hrun

end Pipeline

end DieHard
