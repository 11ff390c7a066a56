import DieHard.Replicated.Output

/-!
# Ends of files in `exterminator/`

The voter of `exterminator/` counts the end of a file like a signal. It loses a replica with each one,
so that the last end of a file fills the barrier and the voter votes again, on buffers that it has
printed already.
-/

namespace DieHard

open Transition

variable {cfg : PipelineConfig} {out : List Byte} {b V : Nat}

theorem PipelineConfig.cleaned_exterminator (n : Nat) (h : 2 ≤ n) (h' : n ≤ 1024) :
    (exterminator n h h').cleaned = 0 := by
  simp [cleaned, exterminator]

namespace Replica

/-- A replica after the voter has lost another one: it is on its way to the signal of its last block,
or it has ended and holds that block. -/
structure Final (cfg : PipelineConfig) (out : List Byte) (b : Nat) (r : Replica) : Prop where
  content : r.pc ≠ .ended → Content cfg out b r
  notFull : r.pc ≠ .ended → ¬ r.Full
  live : r.pc ≠ .ended → r.deadFd = false
  replied : ∀ c, r.pc = .waiting c → 0 < r.continuePipe
  ended : r.pc = .ended → SameBytes cfg r.buffer (block cfg out b)

variable {r r' : Replica}

theorem ReaderStep.reading_or_waiting {length : Nat} (hs : ReaderStep length r r') : r.pc ≠ .ended := by
  cases hs <;> simp [*]

theorem Final.readerStep (h : Final cfg out b r) (hlast : out.drop ((b + 1) * cfg.bufferLength) = [])
    (hs : ReaderStep cfg.bufferLength r r') : Final cfg out b r' := by
  have hne := hs.reading_or_waiting
  have hnot := h.notFull hne
  have hlive : r'.deadFd = false := hs.deadFd_eq.trans (h.live hne)
  have hcontent := (h.content hne).readerStep hnot hs
  cases hs with
  | store hpc _ _ => exact ⟨fun _ => hcontent, fun _ => hnot, fun _ => hlive, by simp [hpc], by simp [hpc]⟩
  | full _ _ _ =>
    -- there is no block after the last one
    cases hcontent with
    | filling _ hpc _ _ _ => cases hpc
    | resuming _ hnot' _ => exact absurd (Or.inr (Nat.succ_pos _)) hnot'
    | full _ _ _ hcons _ => simp [hlast] at hcons
    | last _ hpc _ _ _ => cases hpc
    | done _ hpc _ _ _ => cases hpc
  | pad hpc _ _ => exact ⟨fun _ => hcontent, fun _ => hnot, fun _ => hlive, by simp [hpc], by simp [hpc]⟩
  | finish _ _ _ =>
    refine ⟨by simp, by simp, by simp, by simp, fun _ => ?_⟩
    cases hcontent with
    | filling _ hpc _ _ _ => cases hpc
    | resuming hpc _ _ => cases hpc
    | full _ hpc _ _ _ => cases hpc
    | last _ _ _ _ hbytes => exact hbytes
    | done _ _ hnot' _ _ => exact absurd (Or.inr (Nat.succ_pos _)) hnot'
  | resume _ _ => exact ⟨fun _ => hcontent, fun _ => hnot, fun _ => hlive, by simp, by simp⟩

theorem Final.ended_of_full (h : Final cfg out b r) (hf : r.Full) : r.pc = .ended := by
  by_contra hne
  exact h.notFull hne hf

theorem Final.of_ended (h : Final cfg out b r) (hended : r.pc = .ended) (hpc : r'.pc = r.pc)
    (hbuffer : r'.buffer = r.buffer) : Final cfg out b r' := by
  have hended' := hpc.trans hended
  exact ⟨fun hne => absurd hended' hne, fun hne => absurd hended' hne, fun hne => absurd hended' hne,
    by simp [hended'], fun _ => hbuffer ▸ h.ended hended⟩

theorem Final.reply (h : Final cfg out b r) : Final cfg out b r.reply := by
  by_cases hended : r.pc = .ended
  · exact h.of_ended hended rfl rfl
  · have hnot : ¬ r.reply.Full := by
      intro hf
      rcases hf with harr | hpos
      · cases harr
      · exact h.notFull hended (Or.inr hpos)
    have hcontent : Content cfg out b r.reply := (h.content hended).congr rfl rfl rfl rfl
      ⟨fun hf => absurd hf hnot, fun hf => absurd hf (h.notFull hended)⟩
    exact ⟨fun _ => hcontent, fun _ => hnot, h.live, fun _ _ => Nat.succ_pos _, h.ended⟩

theorem clean_zero (random : Nat → Byte) (r : Replica) : r.clean 0 random = r := by
  simp [clean]

theorem Content.final (h : Content cfg out V r) (hc : r.Control) (hlive : r.deadFd = false)
    (hlast : out.drop ((V + 1) * cfg.bufferLength) = []) (hopen : Open cfg out V) :
    Final cfg out V r := by
  cases h with
  | filling ho hpc hle hin hs =>
    have hnot : ¬ r.Full := by
      intro hf
      rcases hc.rest hf with hrest | ⟨⟨c, hrest⟩, -⟩ <;> rw [hpc] at hrest <;> cases hrest
    exact ⟨fun _ => .filling ho hpc hle hin hs, fun _ => hnot, fun _ => hlive, by simp [hpc],
      by simp [hpc]⟩
  | resuming hpc hnot hin =>
    refine ⟨fun _ => .resuming hpc hnot hin, fun _ => hnot, fun _ => hlive, ?_, by simp [hpc]⟩
    intro c _
    have hbusy := hc.busy hnot
    simp only [hpc, reduceCtorEq, false_and, or_false, false_or] at hbusy
    omega
  | full _ _ _ hcons _ => simp [hlast] at hcons
  | last _ hpc _ _ hbytes => exact ⟨by simp [hpc], by simp [hpc], by simp [hpc], by simp [hpc], fun _ => hbytes⟩
  | done hV hpc _ hnil _ =>
    rcases hopen with rfl | hcons
    · exact absurd rfl hV
    · exact absurd hnil hcons

theorem Content.final_of_closed (h : Content cfg out (b + 1) r) (hclean : cfg.cleaned = 0)
    (hlast : out.drop ((b + 1) * cfg.bufferLength) = []) : Final cfg out b r := by
  have hclosed : ¬ Open cfg out (b + 1) := by simp [Open, hlast]
  cases h with
  | filling hopen _ _ _ _ => exact absurd hopen hclosed
  | resuming _ _ hcons => simp [hlast] at hcons
  | full hopen _ _ _ _ => exact absurd hopen hclosed
  | last hopen _ _ _ _ => exact absurd hopen hclosed
  | done _ hpc _ _ hbytes =>
    exact ⟨by simp [hpc], by simp [hpc], by simp [hpc], by simp [hpc], fun _ => hbytes hclean⟩

end Replica

namespace Pipeline

variable {s : Pipeline}

def EofVotes (cfg : PipelineConfig) (s : Pipeline) : Action → Prop
  | .read _ => False
  | .handle i _ _ => (s.replicas i).signal = false ∧ fires cfg s i = true

def contents (cfg : PipelineConfig) (buffer : Nat → Byte) : List Byte :=
  (List.range cfg.bufferLength).map buffer

def blockCount (cfg : PipelineConfig) (out : List Byte) : Nat :=
  max 1 ((out.length + cfg.bufferLength - 1) / cfg.bufferLength)

section Run

variable {ok : Pipeline → Action → Prop} {init : Pipeline}

def printedBuffers (e : Execution (next cfg) ok init) : List (List Byte) :=
  (List.range e.length).filterMap fun m =>
    (printedBuffer cfg (e.state m) (e.action m)).map (contents cfg)

/-- The run prints each block of the output once and in order, and no end of a file makes the voter
vote. -/
def EmitsBlocksOnce (out : List Byte) (e : Execution (next cfg) ok init) : Prop :=
  printedBuffers e = (List.range (blockCount cfg out)).map (fun V => contents cfg (block cfg out V)) ∧
    ∀ m < e.length, ¬ EofVotes cfg (e.state m) (e.action m)

end Run

def liveSet (cfg : PipelineConfig) (s : Pipeline) : Finset Nat :=
  (Finset.range cfg.replicas).filter fun i => (s.replicas i).deadFd = false

/-- The voter has lost a replica, and every replica ends with block `b`. -/
structure Final (cfg : PipelineConfig) (out : List Byte) (b : Nat) (s : Pipeline) : Prop where
  last : out.drop ((b + 1) * cfg.bufferLength) = []
  replicas : ∀ i < cfg.replicas, (s.replicas i).Final cfg out b
  gone : ∃ i < cfg.replicas, (s.replicas i).deadFd = true
  alive : s.replicasAliveNow = (liveSet cfg s).card

/-- The run before an end of a file votes: the replicas are in step and all alive, or a replica has
gone and the others hold the last block when they signal. -/
structure Quiet (cfg : PipelineConfig) (out : List Byte) (s : Pipeline) : Prop where
  running : s.running = true
  alive_pos : 0 < s.replicasAliveNow
  stage : (∃ V, Lockstep cfg out V s ∧ ∀ i < cfg.replicas, (s.replicas i).deadFd = false) ∨
    ∃ b, Final cfg out b s

theorem mem_liveSet {i : Nat} :
    i ∈ liveSet cfg s ↔ i < cfg.replicas ∧ (s.replicas i).deadFd = false := by
  simp [liveSet]

theorem quiet_initial (space : Nat → Nat → Byte) : Quiet cfg out (initial cfg (fun _ => out) space) := by
  have htwo := cfg.two_le
  refine ⟨rfl, ?_, Or.inl ⟨0, lockstep_initial space, fun _ _ => rfl⟩⟩
  show 0 < cfg.replicas
  omega

theorem liveSet_congr {t : Pipeline}
    (h : ∀ i, (t.replicas i).deadFd = (s.replicas i).deadFd) : liveSet cfg t = liveSet cfg s := by
  simp only [liveSet, h]

theorem Final.congr {t : Pipeline} (h : Final cfg out b s)
    (hreplicas : ∀ i < cfg.replicas, (t.replicas i).Final cfg out b)
    (hdead : ∀ i, (t.replicas i).deadFd = (s.replicas i).deadFd)
    (halive : t.replicasAliveNow = s.replicasAliveNow) : Final cfg out b t := by
  obtain ⟨d, hd, hgone⟩ := h.gone
  exact ⟨h.last, hreplicas, ⟨d, hd, (hdead d).trans hgone⟩,
    halive.trans (h.alive.trans (congrArg Finset.card (liveSet_congr hdead).symm))⟩

theorem final_setReplica (h : ∀ j < cfg.replicas, (s.replicas j).Final cfg out b) {i : Nat}
    {r : Replica} (hr : r.Final cfg out b) :
    ∀ j < cfg.replicas, ((s.setReplica i r).replicas j).Final cfg out b := by
  intro j hj
  by_cases hji : j = i
  · subst hji
    simpa using hr
  · rw [setReplica_of_ne s hji]
    exact h j hj

theorem Final.read (h : Final cfg out b s) {i : Nat} (hi : i < cfg.replicas) {r : Replica}
    (hs : Replica.ReaderStep cfg.bufferLength (s.replicas i) r) :
    Final cfg out b (s.setReplica i r) := by
  apply h.congr (final_setReplica h.replicas ((h.replicas i hi).readerStep h.last hs)) ?_ rfl
  intro j
  by_cases hji : j = i
  · subst hji
    simpa using hs.deadFd_eq
  · rw [setReplica_of_ne s hji]

section Handle

variable {i : Nat} {view : View} {random : Nat → Byte}

theorem Final.winner_ne_none (h : Final cfg out b s) (hview : ViewOk cfg s (.handle i view random))
    {j k : Nat} (hj : j < cfg.replicas) (hk : k < cfg.replicas) (hne : j ≠ k)
    (hjended : (s.replicas j).pc = .ended) (hkended : (s.replicas k).pc = .ended) :
    winner cfg view ≠ none := by
  have hseen {l : Nat} (hl : l < cfg.replicas) (hended : (s.replicas l).pc = .ended) :
      SameBytes cfg (view.seen l) (block cfg out b) := by
    intro c hc
    exact (hview l hl (Or.inl hended) c hc).1.trans ((h.replicas l hl).ended hended c hc)
  intro hnone
  apply not_sameSum_of_winner hnone hj hk hne
  exact Fingerprinter.of_congr (fun c hc => (hseen hj hjended c hc).trans (hseen hk hkended c hc).symm) _ _

/-- A signal comes from a replica that has ended, and so has the one that is gone. -/
theorem Final.signal (h : Final cfg out b s) (hclean : cfg.cleaned = 0) (hrun : s.running = true)
    (hi : i < cfg.replicas) (hready : (s.replicas i).ready = true)
    (hsig : (s.replicas i).signal = true) (hview : ViewOk cfg s (.handle i view random)) :
    (handle cfg i view random s).running = true ∧
      (handle cfg i view random s).replicasAliveNow = s.replicasAliveNow ∧
      Final cfg out b (handle cfg i view random s) := by
  have hended := (h.replicas i hi).ended_of_full (Replica.full_of_signal hsig)
  have htake : ∀ j < cfg.replicas, ((s.takeSignal i).replicas j).Final cfg out b :=
    final_setReplica h.replicas ((h.replicas i hi).of_ended hended rfl rfl)
  have hdead := deadFd_handle cfg view random hrun hsig
  rcases handle_signal cfg view random hrun hsig with
    ⟨-, he⟩ | ⟨-, ⟨hnone, -⟩ | ⟨w, -, he⟩⟩
  · rw [he] at hdead ⊢
    exact ⟨hrun, rfl, h.congr htake hdead rfl⟩
  · obtain ⟨d, hd, hgone⟩ := h.gone
    have hdended : (s.replicas d).pc = .ended := by
      by_contra hne
      simp [(h.replicas d hd).live hne] at hgone
    have hne : i ≠ d := by
      rintro rfl
      simp [Replica.ready, hgone] at hready
    exact absurd hnone (h.winner_ne_none hview hi hd hne hended hdended)
  · rw [he] at hdead ⊢
    refine ⟨hrun, rfl, h.congr ?_ hdead rfl⟩
    intro j hj
    simp only [agree, if_pos hj, hclean, Replica.clean_zero, ite_self]
    exact (htake j hj).reply

end Handle

def lose (s : Pipeline) (i : Nat) : Pipeline :=
  ((s.setReplica i (s.replicas i).die).setArrivals (s.barrierArrivals + 1)).loseReplica

theorem replicas_lose (s : Pipeline) (i : Nat) :
    (s.lose i).replicas = (s.setReplica i (s.replicas i).die).replicas := rfl

theorem card_liveSet_lose {i : Nat} (hi : i < cfg.replicas) (hlive : (s.replicas i).deadFd = false) :
    (liveSet cfg (s.lose i)).card = (liveSet cfg s).card - 1 := by
  have herase : liveSet cfg (s.lose i) = (liveSet cfg s).erase i := by
    ext j
    rw [Finset.mem_erase, mem_liveSet, mem_liveSet, replicas_lose]
    by_cases hji : j = i
    · subst hji
      simp [Replica.die]
    · simp [setReplica_of_ne s hji, hji]
  rw [herase, Finset.card_erase_of_mem (mem_liveSet.mpr ⟨hi, hlive⟩)]

theorem final_lose (hlast : out.drop ((b + 1) * cfg.bufferLength) = [])
    (hreplicas : ∀ j < cfg.replicas, (s.replicas j).Final cfg out b)
    (halive : s.replicasAliveNow = (liveSet cfg s).card) {i : Nat} (hi : i < cfg.replicas)
    (hready : (s.replicas i).ready = true) (hsig : (s.replicas i).signal = false) :
    Final cfg out b (s.lose i) := by
  have hzero : (s.replicas i).bufferFull = 0 := by simpa [Replica.signal] using hsig
  obtain ⟨hlive, hended⟩ : (s.replicas i).deadFd = false ∧ (s.replicas i).pc = .ended := by
    simpa [Replica.ready, hzero] using hready
  refine ⟨hlast, final_setReplica hreplicas ((hreplicas i hi).of_ended hended rfl rfl),
    ⟨i, hi, ?_⟩, ?_⟩
  · rw [replicas_lose, setReplica_self]
    rfl
  · rw [card_liveSet_lose hi hlive, ← halive]
    rfl

/-- The first end of a file comes after the last block. -/
theorem Lockstep.final_lose (h : Lockstep cfg out V s) (hclean : cfg.cleaned = 0)
    (hlive : ∀ j < cfg.replicas, (s.replicas j).deadFd = false) {i : Nat} (hi : i < cfg.replicas)
    (hready : (s.replicas i).ready = true) (hsig : (s.replicas i).signal = false) :
    ∃ b, Final cfg out b (s.lose i) := by
  have halive : s.replicasAliveNow = (liveSet cfg s).card := by
    have hall : liveSet cfg s = Finset.range cfg.replicas :=
      Finset.filter_true_of_mem fun j hj => hlive j (Finset.mem_range.mp hj)
    rw [hall, Finset.card_range, h.rounds.alive]
  have hzero : (s.replicas i).bufferFull = 0 := by simpa [Replica.signal] using hsig
  obtain ⟨-, hended⟩ : (s.replicas i).deadFd = false ∧ (s.replicas i).pc = .ended := by
    simpa [Replica.ready, hzero] using hready
  cases h.content i hi with
  | filling _ hpc _ _ _ => simp [hended] at hpc
  | resuming hpc _ _ => simp [hended] at hpc
  | full _ hpc _ _ _ => simp [hended] at hpc
  | last hopen _ _ hlast _ =>
    have hreplicas : ∀ j < cfg.replicas, (s.replicas j).Final cfg out V := by
      intro j hj
      exact (h.content j hj).final (h.rounds.control j hj) (hlive j hj) hlast hopen
    exact ⟨V, Pipeline.final_lose hlast hreplicas halive hi hready hsig⟩
  | done hV _ _ hnil _ =>
    obtain ⟨b, rfl⟩ := Nat.exists_eq_succ_of_ne_zero hV
    have hreplicas : ∀ j < cfg.replicas, (s.replicas j).Final cfg out b := by
      intro j hj
      exact (h.content j hj).final_of_closed hclean hnil
    exact ⟨b, Pipeline.final_lose hnil hreplicas halive hi hready hsig⟩

/-- A run stays quiet until an end of a file votes. -/
theorem Quiet.next (h : Quiet cfg out s) (hcfg : cfg.countsEof = true) (hclean : cfg.cleaned = 0)
    {a : Action} {s' : Pipeline} (hview : ViewOk cfg s a) (hn : next cfg s a = some s')
    (hnot : ¬ EofVotes cfg s a) : Quiet cfg out s' := by
  have hrun := h.running
  have hpos := h.alive_pos
  cases a with
  | read i =>
    obtain ⟨hi, r, hs, rfl⟩ := next_read hn
    refine ⟨hrun, hpos, ?_⟩
    rcases h.stage with ⟨V, hstep, hlive⟩ | ⟨b, hfinal⟩
    · refine Or.inl ⟨V, hstep.read hi hs, ?_⟩
      intro j hj
      by_cases hji : j = i
      · subst hji
        simpa using hs.deadFd_eq.trans (hlive j hj)
      · rw [setReplica_of_ne s hji]
        exact hlive j hj
    · exact Or.inr ⟨b, hfinal.read hi hs⟩
  | handle i view random =>
    obtain ⟨-, hi, hready, rfl⟩ := next_handle hn
    by_cases hsig : (s.replicas i).signal = true
    · rcases h.stage with ⟨V, hstep, hlive⟩ | ⟨b, hfinal⟩
      · obtain ⟨hrun', V', hstep'⟩ := hstep.signal hrun hi hsig hview
        refine ⟨hrun', ?_, Or.inl ⟨V', hstep', ?_⟩⟩
        · rw [hstep'.rounds.alive]
          omega
        · intro j hj
          rw [deadFd_handle cfg view random hrun hsig]
          exact hlive j hj
      · obtain ⟨hrun', halive, hfinal'⟩ := hfinal.signal hclean hrun hi hready hsig hview
        exact ⟨hrun', halive ▸ hpos, Or.inr ⟨b, hfinal'⟩⟩
    · have hsig := Bool.eq_false_iff.mpr hsig
      have hlt : s.barrierArrivals + 1 < s.replicasAliveNow := by
        by_contra hle
        exact hnot ⟨hsig, by simp [fires, hcfg, Nat.not_lt.mp hle]⟩
      rcases handle_countedEof cfg view random hcfg hrun hsig with ⟨-, he⟩ | ⟨hle, -⟩
      · rw [he]
        refine ⟨hrun, ?_, Or.inr ?_⟩
        · show 0 < s.replicasAliveNow - 1
          omega
        · rcases h.stage with ⟨V, hstep, hlive⟩ | ⟨b, hfinal⟩
          · exact hstep.final_lose hclean hlive hi hready hsig
          · exact ⟨b, Pipeline.final_lose hfinal.last hfinal.replicas hfinal.alive hi hready hsig⟩
      · omega

/-- A quiet state is not the end of a run. -/
theorem Quiet.not_ended (h : Quiet cfg out s) : ¬ Ended (Pipeline.next cfg) (ViewOk cfg) s := by
  intro hend
  have hnotready {i : Nat} (hi : i < cfg.replicas) : (s.replicas i).ready = false :=
    not_ready_of_ended hend h.running h.alive_pos hi
  have hready {r : Replica} (hlive : r.deadFd = false) (hended : r.pc = .ended) : r.ready = true := by
    simp [Replica.ready, hlive, hended]
  rcases h.stage with ⟨V, hstep, hlive⟩ | ⟨b, hfinal⟩
  · have hpos : 0 < cfg.replicas := by
      rw [← hstep.rounds.alive]
      exact h.alive_pos
    have hclosed := hstep.not_open_of_ended h.running hend
    have hended : (s.replicas 0).pc = .ended := by
      cases hstep.content 0 hpos with
      | filling hopen _ _ _ _ => exact absurd hopen hclosed
      | resuming _ _ hcons => exact absurd (Or.inr (by simp [hcons])) hclosed
      | full hopen _ _ _ _ => exact absurd hopen hclosed
      | last hopen _ _ _ _ => exact absurd hopen hclosed
      | done _ hpc _ _ _ => exact hpc
    exact absurd (hready (hlive 0 hpos) hended) (by simp [hnotready hpos])
  · have hcard := h.alive_pos
    rw [hfinal.alive, Finset.card_pos] at hcard
    obtain ⟨i, hmem⟩ := hcard
    obtain ⟨hi, hlive⟩ := mem_liveSet.mp hmem
    have hstuck := readerStep_of_ended hend hi
    have hended : (s.replicas i).pc = .ended := by
      cases hpc : (s.replicas i).pc with
      | reading =>
        have hsome := Replica.readerStep_isSome_of_reading cfg.bufferLength hpc
        simp [hstuck] at hsome
      | waiting c =>
        have hsome := Replica.readerStep_isSome_of_reply cfg.bufferLength hpc
          ((hfinal.replicas i hi).replied c hpc)
        simp [hstuck] at hsome
      | ended => rfl
    exact absurd (hready hlive hended) (by simp [hnotready hi])

section Whole

variable {space : Nat → Nat → Byte}

theorem exists_eofVotes (hcfg : cfg.countsEof = true) (hclean : cfg.cleaned = 0)
    (e : Execution (next cfg) (ViewOk cfg) (initial cfg (fun _ => out) space))
    (hend : Ended (next cfg) (ViewOk cfg) (e.state e.length)) :
    ∃ m < e.length, EofVotes cfg (e.state m) (e.action m) := by
  by_contra hnone
  have hquiet : Quiet cfg out (e.state e.length) := by
    apply e.keeps (I := fun _ s => Quiet cfg out s) (Nat.zero_le _)
    · rw [e.initial]
      exact quiet_initial space
    · intro k _ hk h
      exact h.next hcfg hclean (e.guarded k hk) (e.step k hk) fun hvotes => hnone ⟨k, hk, hvotes⟩
  exact hquiet.not_ended hend

variable {n : Nat} {h2 : 2 ≤ n} {hmax : n ≤ 1024}

/-- No whole run of `exterminator/` prints each block once without a vote at an end of a file. -/
theorem not_emitsBlocksOnce
    (e : Execution (next (.exterminator n h2 hmax)) (ViewOk (.exterminator n h2 hmax))
      (initial (.exterminator n h2 hmax) (fun _ => out) space))
    (hend : Ended (next (.exterminator n h2 hmax)) (ViewOk (.exterminator n h2 hmax))
      (e.state e.length)) : ¬ EmitsBlocksOnce out e := by
  intro h
  obtain ⟨m, hm, hvotes⟩ := exists_eofVotes rfl (PipelineConfig.cleaned_exterminator n h2 hmax) e hend
  exact h.2 m hm hvotes

end Whole

theorem ended_of_idle {ok : Pipeline → Action → Prop} (halive : s.replicasAliveNow = 0)
    (hidle : ∀ i < cfg.replicas, ((s.replicas i).readerStep cfg.bufferLength).isNone = true) :
    Ended (next cfg) ok s := by
  intro a _
  cases a with
  | read i =>
    rw [next]
    split
    · rw [Option.map_eq_none_iff]
      exact Option.isNone_iff_eq_none.mp (hidle i ‹_›)
    · rfl
  | handle i view random => simp [next, halive]

/-- The voter reads every buffer as it is. -/
def ReadsAll (cfg : PipelineConfig) (s : Pipeline) : Action → Prop
  | .read _ => True
  | .handle _ view _ => ∀ i < cfg.replicas, ∀ j < cfg.bufferLength,
      view.seen i j = (s.replicas i).buffer j ∧ view.printed i j = (s.replicas i).buffer j

instance (cfg : PipelineConfig) (s : Pipeline) (a : Action) : Decidable (ReadsAll cfg s a) :=
  match a with
  | .read _ => inferInstanceAs (Decidable True)
  | .handle _ view _ => inferInstanceAs (Decidable (∀ i < cfg.replicas, ∀ j < cfg.bufferLength,
      view.seen i j = (s.replicas i).buffer j ∧ view.printed i j = (s.replicas i).buffer j))

theorem ReadsAll.viewOk {a : Action} (h : ReadsAll cfg s a) : ViewOk cfg s a := by
  cases a with
  | read i => trivial
  | handle i view random => exact fun j hj _ => h j hj

abbrev twoExterminated : PipelineConfig :=
  .exterminator 2 PipelineConfig.two_le_two PipelineConfig.two_le_maxReplicas

abbrev twiceStart : Pipeline := initial twoExterminated (fun _ => [97]) fun _ _ => 0

def handleA (i : Nat) : Action := .handle i ⟨fun _ _ => 97, fun _ _ => 97⟩ fun _ => 0

def twiceRun : List Action :=
  [.read 0, .read 0, .read 1, .read 1, handleA 0, handleA 1, handleA 0, handleA 1]

private theorem guarded_twice : Guarded (next twoExterminated) (ViewOk twoExterminated) twiceStart
    twiceRun := by
  have hreads : Guarded (next twoExterminated) (ReadsAll twoExterminated) twiceStart twiceRun :=
    guarded_of_bool (by decide +kernel)
  exact hreads.mono fun _ _ h => h.viewOk

def twiceExecution : Execution (next twoExterminated) (ViewOk twoExterminated) twiceStart :=
  .ofRun twiceRun (by decide +kernel) guarded_twice

theorem ended_twice : Ended (next twoExterminated) (ViewOk twoExterminated)
    (twiceExecution.state twiceExecution.length) :=
  ended_of_idle (by decide +kernel) (by decide +kernel)

/-- The whole run prints the only block twice. -/
theorem not_emitsBlocksOnce_twice : Ended (next twoExterminated) (ViewOk twoExterminated)
      (twiceExecution.state twiceExecution.length) ∧
    printedBuffers twiceExecution = [[97], [97]] ∧ ¬ EmitsBlocksOnce [97] twiceExecution := by
  have hprinted : printedBuffers twiceExecution = [[97], [97]] := by decide +kernel
  refine ⟨ended_twice, hprinted, ?_⟩
  intro h
  have hblocks := h.1
  rw [hprinted] at hblocks
  exact absurd hblocks (by decide)

theorem not_emitsBlocksOnce_a : ¬ EmitsBlocksOnce [97] twiceExecution :=
  not_emitsBlocksOnce twiceExecution ended_twice

end Pipeline

end DieHard
