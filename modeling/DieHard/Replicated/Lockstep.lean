import DieHard.Replicated.Rounds

/-!
# Replicas with one output

Replicas that write the same bytes run in lockstep: in round `V` every full buffer holds block `V` of
the output, padded with zeroes, and the voter prints each block without its zeroes.
-/

namespace DieHard

open Transition

variable {cfg : PipelineConfig} {out : List Byte} {V : Nat}

/-- Byte `j` of block `V` of the padded output. -/
def block (cfg : PipelineConfig) (out : List Byte) (V j : Nat) : Byte :=
  out.getD (V * cfg.bufferLength + j) 0

/-- Round `V` has a block to print. Even an empty output has one. -/
def Open (cfg : PipelineConfig) (out : List Byte) (V : Nat) : Prop :=
  V = 0 ∨ out.drop (V * cfg.bufferLength) ≠ []

theorem getD_of_drop_cons {n : Nat} {c : Byte} {rest : List Byte} (h : out.drop n = c :: rest) :
    out.getD n 0 = c ∧ out.drop (n + 1) = rest := by
  constructor
  · have hget : (out.drop n).getD 0 0 = c := by simp [h]
    simpa [List.getD_eq_getElem?_getD] using hget
  · rw [← List.tail_drop, h]
    rfl

theorem getD_of_drop_nil {n j : Nat} (h : out.drop n = []) (hj : n ≤ j) : out.getD j 0 = 0 := by
  have hlen := List.drop_eq_nil_iff.mp h
  simp [List.getD_eq_getElem?_getD, List.getElem?_eq_none (hlen.trans hj)]

theorem filter_map_getD (l : List Byte) (n : Nat) :
    ((List.range n).map fun j => l.getD j 0).filter (· ≠ 0) = (l.take n).filter (· ≠ 0) := by
  induction n generalizing l with
  | zero => simp
  | succ n ih =>
    rw [List.range_succ_eq_map, List.map_cons, List.map_map]
    cases l with
    | nil => simp
    | cons c l =>
      have hrest := ih l
      simp only [List.getD_cons_zero, List.take_succ_cons, List.filter_cons]
      rw [← hrest]
      rfl

theorem printed_block {buffer : Nat → Byte} (h : SameBytes cfg buffer (block cfg out V)) :
    Pipeline.printed cfg buffer =
      ((out.drop (V * cfg.bufferLength)).take cfg.bufferLength).filter (· ≠ 0) := by
  rw [Pipeline.printed, ← filter_map_getD]
  congr 1
  apply List.map_congr_left
  intro j hj
  rw [h j (List.mem_range.mp hj), block]
  simp [List.getD_eq_getElem?_getD]

namespace Replica

/-- What a replica holds in round `V`: it fills its buffer, it has the first byte of the block in hand,
it has signalled, or it has signalled its last block. -/
inductive Content (cfg : PipelineConfig) (out : List Byte) (V : Nat) (r : Replica) : Prop
  | filling : Open cfg out V → r.pc = .reading → r.buffCount ≤ cfg.bufferLength →
      r.input = out.drop (V * cfg.bufferLength + r.buffCount) →
      (∀ j < r.buffCount, r.buffer j = block cfg out V j) → Content cfg out V r
  | resuming {c : Byte} : r.pc = .waiting c → ¬ r.Full →
      out.drop (V * cfg.bufferLength) = c :: r.input → Content cfg out V r
  | full {c : Byte} : Open cfg out V → r.pc = .waiting c → r.Full →
      out.drop ((V + 1) * cfg.bufferLength) = c :: r.input →
      SameBytes cfg r.buffer (block cfg out V) → Content cfg out V r
  | last : Open cfg out V → r.pc = .ended → r.Full → out.drop ((V + 1) * cfg.bufferLength) = [] →
      SameBytes cfg r.buffer (block cfg out V) → Content cfg out V r
  | done : V ≠ 0 → r.pc = .ended → ¬ r.Full → out.drop (V * cfg.bufferLength) = [] →
      (cfg.cleaned = 0 → SameBytes cfg r.buffer (block cfg out (V - 1))) → Content cfg out V r

variable {r r' : Replica}

theorem content_initial (buffer : Nat → Byte) :
    Content cfg out 0 ⟨out, 0, .reading, buffer, 0, 0, false, false⟩ :=
  .filling (Or.inl rfl) rfl (Nat.zero_le _) (by simp) (by simp)

theorem Content.sameBytes (h : Content cfg out V r) (hc : r.Control) (hf : r.Full) :
    SameBytes cfg r.buffer (block cfg out V) := by
  cases h with
  | filling _ hpc _ _ _ =>
    rcases hc.rest hf with hrest | ⟨⟨c, hrest⟩, -⟩ <;> rw [hpc] at hrest <;> cases hrest
  | resuming _ hnot _ => exact absurd hf hnot
  | full _ _ _ _ hb => exact hb
  | last _ _ _ _ hb => exact hb
  | done _ _ hnot _ _ => exact absurd hf hnot

theorem Content.readerStep (h : Content cfg out V r) (hnot : ¬ r.Full)
    (hs : ReaderStep cfg.bufferLength r r') : Content cfg out V r' := by
  have hpos := cfg.bufferLength_pos
  cases h with
  | filling hopen hpc hle hin hstored =>
    cases hs with
    | store _ hcons hlt =>
      obtain ⟨hbyte, hrest⟩ := getD_of_drop_cons (hin.symm.trans hcons)
      refine .filling hopen hpc hlt hrest.symm ?_
      intro j hj
      rcases Nat.lt_succ_iff_lt_or_eq.mp hj with hj | rfl
      · simpa [Function.update_of_ne hj.ne] using hstored j hj
      · simpa [block] using hbyte.symm
    | full _ hcons hge =>
      have hcount : r.buffCount = cfg.bufferLength := Nat.le_antisymm hle hge
      rw [hcount, ← Nat.succ_mul] at hin
      exact .full hopen rfl (Or.inr (Nat.succ_pos _)) (hin.symm.trans hcons)
        fun j hj => hstored j (hcount ▸ hj)
    | pad _ hnil hlt =>
      have hend := hin.symm.trans hnil
      refine .filling hopen hpc (Nat.le_refl _) ?_ ?_
      · rw [hnil]
        symm
        rw [List.drop_eq_nil_iff] at hend ⊢
        show out.length ≤ V * cfg.bufferLength + cfg.bufferLength
        omega
      · intro j hj
        have hj : j < cfg.bufferLength := hj
        by_cases hlt : r.buffCount ≤ j
        · simp only [hlt, hj, and_self, if_true]
          exact (getD_of_drop_nil hend (by omega)).symm
        · simp only [hlt, false_and, if_false]
          exact hstored j (Nat.not_le.mp hlt)
    | finish _ hnil hge =>
      have hcount : r.buffCount = cfg.bufferLength := Nat.le_antisymm hle hge
      rw [hcount, ← Nat.succ_mul] at hin
      exact .last hopen rfl (Or.inr (Nat.succ_pos _)) (hin.symm.trans hnil)
        fun j hj => hstored j (hcount ▸ hj)
    | resume hpc' _ => simp [hpc] at hpc'
  | resuming hpc _ hin =>
    cases hs with
    | resume hpc' _ =>
      cases hpc.symm.trans hpc'
      obtain ⟨hbyte, hrest⟩ := getD_of_drop_cons hin
      refine .filling (Or.inr (by simp [hin])) rfl hpos hrest.symm ?_
      intro j hj
      obtain rfl : j = 0 := Nat.lt_one_iff.mp hj
      simpa [block] using hbyte.symm
    | store hpc' _ _ => simp [hpc] at hpc'
    | full hpc' _ _ => simp [hpc] at hpc'
    | pad hpc' _ _ => simp [hpc] at hpc'
    | finish hpc' _ _ => simp [hpc] at hpc'
  | full _ _ hf _ _ => exact absurd hf hnot
  | last _ _ hf _ _ => exact absurd hf hnot
  | done _ hpc _ _ _ => exact absurd hs (AtRest.not_step (Or.inl hpc))

theorem Content.congr (h : Content cfg out V r) (hinput : r'.input = r.input)
    (hcount : r'.buffCount = r.buffCount) (hpc : r'.pc = r.pc) (hbuffer : r'.buffer = r.buffer)
    (hfull : r'.Full ↔ r.Full) : Content cfg out V r' := by
  cases h with
  | filling hopen hp hle hin hs =>
    exact .filling hopen (hpc.trans hp) (hcount ▸ hle) (by rw [hinput, hcount]; exact hin)
      (by rw [hcount, hbuffer]; exact hs)
  | resuming hp hf hin => exact .resuming (hpc.trans hp) (mt hfull.mp hf) (by rw [hinput]; exact hin)
  | full hopen hp hf hin hb =>
    exact .full hopen (hpc.trans hp) (hfull.mpr hf) (by rw [hinput]; exact hin) (hbuffer ▸ hb)
  | last hopen hp hf hin hb => exact .last hopen (hpc.trans hp) (hfull.mpr hf) hin (hbuffer ▸ hb)
  | done hV hp hf hin hb => exact .done hV (hpc.trans hp) (mt hfull.mp hf) hin (hbuffer ▸ hb)

theorem Content.takeSignal (h : Content cfg out V r) (hsig : r.signal = true) :
    Content cfg out V r.arrive.consume :=
  h.congr rfl rfl rfl rfl ⟨fun _ => full_of_signal hsig, fun _ => full_takeSignal hsig⟩

theorem Content.die (h : Content cfg out V r) : Content cfg out V r.die :=
  h.congr rfl rfl rfl rfl Iff.rfl

theorem Content.reply (h : Content cfg out V r) (hc : r.Control) (harr : r.arrived = true)
    (random : Nat → Byte) {t : Replica} (ht : t = r ∨ t = r.clean cfg.cleaned random) :
    Content cfg out (V + 1) t.reply := by
  have hfull : r.bufferFull = 0 := hc.once harr
  have hnot : ¬ t.reply.Full := by
    rcases ht with rfl | rfl <;> simp [Full, Replica.reply, clean, hfull]
  have hpc : t.reply.pc = r.pc := by rcases ht with rfl | rfl <;> rfl
  have hinput : t.reply.input = r.input := by rcases ht with rfl | rfl <;> rfl
  have hbuffer : cfg.cleaned = 0 → t.reply.buffer = r.buffer := by
    intro hzero
    rcases ht with rfl | rfl <;> simp [Replica.reply, clean, hzero]
  cases h with
  | filling _ hp _ _ _ =>
    rcases hc.rest (Or.inl harr) with hrest | ⟨⟨c, hrest⟩, -⟩ <;> rw [hp] at hrest <;> cases hrest
  | resuming _ hf _ => exact absurd (Or.inl harr) hf
  | full _ hp _ hin _ => exact .resuming (hpc.trans hp) hnot (by rw [hinput]; exact hin)
  | last _ hp _ hin hb =>
    exact .done (Nat.succ_ne_zero V) (hpc.trans hp) hnot hin fun hzero => by
      rw [hbuffer hzero]
      exact hb
  | done _ _ hf _ _ => exact absurd (Or.inl harr) hf

end Replica

namespace Pipeline

variable {s : Pipeline}

/-- Every replica is in round `V` of its own output. -/
structure InStep (cfg : PipelineConfig) (outputs : Nat → List Byte) (V : Nat) (s : Pipeline) :
    Prop where
  rounds : Rounds cfg s
  content : ∀ i < cfg.replicas, (s.replicas i).Content cfg (outputs i) V

section InStep

variable {outputs : Nat → List Byte}

theorem inStep_initial (space : Nat → Nat → Byte) : InStep cfg outputs 0 (initial cfg outputs space) :=
  ⟨rounds_initial _ _, fun _ _ => Replica.content_initial _⟩

theorem content_setReplica (h : ∀ j < cfg.replicas, (s.replicas j).Content cfg (outputs j) V) {i : Nat}
    {r : Replica} (hr : r.Content cfg (outputs i) V) :
    ∀ j < cfg.replicas, ((s.setReplica i r).replicas j).Content cfg (outputs j) V := by
  intro j hj
  by_cases hji : j = i
  · subst hji
    simpa using hr
  · rw [setReplica_of_ne s hji]
    exact h j hj

theorem InStep.read (h : InStep cfg outputs V s) {i : Nat} (hi : i < cfg.replicas) {r : Replica}
    (hs : Replica.ReaderStep cfg.bufferLength (s.replicas i) r) :
    InStep cfg outputs V (s.setReplica i r) :=
  ⟨h.rounds.read hi hs,
    content_setReplica h.content ((h.content i hi).readerStep ((h.rounds.control i hi).not_full hs) hs)⟩

theorem InStep.die (h : InStep cfg outputs V s) {i : Nat} (hi : i < cfg.replicas)
    (hready : (s.replicas i).ready = true) (hsig : (s.replicas i).signal = false) :
    InStep cfg outputs V (s.setReplica i (s.replicas i).die) :=
  ⟨h.rounds.setReplica ((h.rounds.control i hi).die hready hsig) rfl,
    content_setReplica h.content (h.content i hi).die⟩

variable {i : Nat} {view : View} {random : Nat → Byte}

theorem InStep.reads (h : InStep cfg outputs V s) (hi : i < cfg.replicas)
    (hsig : (s.replicas i).signal = true) (hle : s.replicasAliveNow ≤ s.barrierArrivals + 1)
    (hview : ViewOk cfg s (.handle i view random)) {j : Nat} (hj : j < cfg.replicas) :
    SameBytes cfg (view.seen j) (block cfg (outputs j) V) ∧
      SameBytes cfg (view.printed j) (block cfg (outputs j) V) := by
  have hfull := h.rounds.all_full hi hsig hle hj
  have hcontrol := h.rounds.control j hj
  have hbytes := (h.content j hj).sameBytes hcontrol hfull
  have hread := hview j hj (hcontrol.rest hfull)
  exact ⟨fun b hb => (hread b hb).1.trans (hbytes b hb), fun b hb => (hread b hb).2.trans (hbytes b hb)⟩

theorem InStep.content_takeSignal (h : InStep cfg outputs V s) (hi : i < cfg.replicas)
    (hsig : (s.replicas i).signal = true) :
    ∀ j < cfg.replicas, ((s.takeSignal i).replicas j).Content cfg (outputs j) V :=
  content_setReplica h.content ((h.content i hi).takeSignal hsig)

theorem InStep.wait (h : InStep cfg outputs V s) (hi : i < cfg.replicas)
    (hsig : (s.replicas i).signal = true) (hlt : s.barrierArrivals + 1 < s.replicasAliveNow) :
    InStep cfg outputs V ((s.takeSignal i).setArrivals (s.barrierArrivals + 1)) :=
  ⟨h.rounds.wait hi hsig hlt, h.content_takeSignal hi hsig⟩

theorem InStep.agree (h : InStep cfg outputs V s) (hi : i < cfg.replicas)
    (hsig : (s.replicas i).signal = true) (hle : s.replicasAliveNow ≤ s.barrierArrivals + 1) (w : Nat) :
    InStep cfg outputs (V + 1) (agree cfg view random w ((s.takeSignal i).setArrivals 0)) := by
  have hall := h.rounds.all_arrived hi hsig hle
  have hcontrol := control_takeSignal h.rounds hi hsig
  refine ⟨h.rounds.agree hi hsig hle view random w, ?_⟩
  intro j hj
  simp only [Pipeline.agree, if_pos hj]
  apply (h.content_takeSignal hi hsig j hj).reply (hcontrol j hj) (hall j hj) random
  split
  · exact Or.inr rfl
  · exact Or.inl rfl

end InStep

/-- The state of a run in round `V`. -/
structure Lockstep (cfg : PipelineConfig) (out : List Byte) (V : Nat) (s : Pipeline) : Prop where
  rounds : Rounds cfg s
  content : ∀ i < cfg.replicas, (s.replicas i).Content cfg out V
  stdout : s.stdout = (out.take (V * cfg.bufferLength)).filter (· ≠ 0)

theorem Lockstep.inStep (h : Lockstep cfg out V s) : InStep cfg (fun _ => out) V s :=
  ⟨h.rounds, h.content⟩

theorem InStep.lockstep (h : InStep cfg (fun _ => out) V s)
    (hout : s.stdout = (out.take (V * cfg.bufferLength)).filter (· ≠ 0)) : Lockstep cfg out V s :=
  ⟨h.rounds, h.content, hout⟩

theorem lockstep_initial (space : Nat → Nat → Byte) :
    Lockstep cfg out 0 (initial cfg (fun _ => out) space) :=
  (inStep_initial space).lockstep (by simp [initial])

theorem Lockstep.read (h : Lockstep cfg out V s) {i : Nat} (hi : i < cfg.replicas) {r : Replica}
    (hs : Replica.ReaderStep cfg.bufferLength (s.replicas i) r) :
    Lockstep cfg out V (s.setReplica i r) :=
  (h.inStep.read hi hs).lockstep h.stdout

theorem Lockstep.die (h : Lockstep cfg out V s) {i : Nat} (hi : i < cfg.replicas)
    (hready : (s.replicas i).ready = true) (hsig : (s.replicas i).signal = false) :
    Lockstep cfg out V (s.setReplica i (s.replicas i).die) :=
  (h.inStep.die hi hready hsig).lockstep h.stdout

section Signal

variable {i : Nat} {view : View} {random : Nat → Byte}

theorem Lockstep.winner_ne_none (h : Lockstep cfg out V s) (hi : i < cfg.replicas)
    (hsig : (s.replicas i).signal = true) (hle : s.replicasAliveNow ≤ s.barrierArrivals + 1)
    (hview : ViewOk cfg s (.handle i view random)) : winner cfg view ≠ none := by
  have htwo := cfg.two_le
  intro hnone
  apply not_sameSum_of_winner hnone (i := 0) (j := 1) (by omega) (by omega) (by decide)
  have h0 := (h.inStep.reads hi hsig hle hview (j := 0) (by omega)).1
  have h1 := (h.inStep.reads hi hsig hle hview (j := 1) (by omega)).1
  exact Fingerprinter.of_congr (fun b hb => (h0 b hb).trans (h1 b hb).symm) _ _

theorem Lockstep.signal (h : Lockstep cfg out V s) (hrun : s.running = true) (hi : i < cfg.replicas)
    (hsig : (s.replicas i).signal = true) (hview : ViewOk cfg s (.handle i view random)) :
    (handle cfg i view random s).running = true ∧
      ∃ V', Lockstep cfg out V' (handle cfg i view random s) := by
  rcases handle_signal cfg view random hrun hsig with
    ⟨hlt, he⟩ | ⟨hle, ⟨hnone, -⟩ | ⟨w, hw, he⟩⟩
  · rw [he]
    exact ⟨hrun, V, (h.inStep.wait hi hsig hlt).lockstep h.stdout⟩
  · exact absurd hnone (h.winner_ne_none hi hsig hle hview)
  · rw [he]
    have hprinted := (h.inStep.reads hi hsig hle hview (winner_shared hw).1).2
    refine ⟨hrun, V + 1, (h.inStep.agree hi hsig hle w).lockstep ?_⟩
    show s.stdout ++ printed cfg (view.printed w) = _
    rw [h.stdout, printed_block hprinted, ← List.filter_append, Nat.succ_mul, List.take_add]

end Signal

theorem lockstep_reach (hcfg : cfg.countsEof = false) {space : Nat → Nat → Byte}
    (hr : Reach (next cfg) (ViewOk cfg) (initial cfg (fun _ => out) space) s) :
    s.running = true ∧ ∃ V, Lockstep cfg out V s := by
  apply hr.invariant (I := fun s => s.running = true ∧ ∃ V, Lockstep cfg out V s)
    ⟨rfl, 0, lockstep_initial space⟩
  rintro r a r' ⟨hrun, V, h⟩ hview hn
  cases a with
  | read i =>
    obtain ⟨hi, t, ht, rfl⟩ := next_read hn
    exact ⟨hrun, V, h.read hi ht⟩
  | handle i view random =>
    obtain ⟨-, hi, hready, rfl⟩ := next_handle hn
    by_cases hsig : (r.replicas i).signal = true
    · exact h.signal hrun hi hsig hview
    · have hsig := Bool.eq_false_iff.mpr hsig
      rw [handle_eof view random hcfg hsig]
      exact ⟨hrun, V, h.die hi hready hsig⟩

end Pipeline

end DieHard
