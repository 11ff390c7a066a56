import DieHard.Lib.Transition
import DieHard.Replicated.Vote

/-!
# Readers and the voter

A reader copies the output of its replica into a shared buffer, signals the voter when the buffer is
full and waits for a reply. The voter counts the signals; when as many have arrived as replicas are
alive it votes, prints a buffer on which most fingerprints agree and replies to all readers. The two
programs, `replicated/` and `exterminator/`, differ in the length of a buffer and in what an end of
file on a pipe does.
-/

namespace DieHard

open Transition

/-- The constants of a build. `countsEof` marks the voter of `exterminator/`, which calls
`handleInput` for every ready pipe and looks for an end of file afterwards. -/
structure PipelineConfig where
  /-- `NUMBER_OF_REPLICAS`; `main` refuses fewer than two, `f` has room for `MAX_REPLICAS` -/
  replicas : Nat
  /-- `BUFFER_LENGTH` -/
  bufferLength : Nat
  /-- `sizeof(long)` -/
  longSize : Nat
  countsEof : Bool
  two_le : 2 ≤ replicas
  replicas_le : replicas ≤ 1024
  bufferLength_pos : 0 < bufferLength

namespace PipelineConfig

/-- `replicated/`, on a 64-bit machine -/
def replicated (n : Nat) (h : 2 ≤ n) (h' : n ≤ 1024) : PipelineConfig :=
  ⟨n, 4096, 8, false, h, h', by decide⟩

/-- `exterminator/`, on a 32-bit machine -/
def exterminator (n : Nat) (h : 2 ≤ n) (h' : n ≤ 1024) : PipelineConfig :=
  ⟨n, 1, 4, true, h, h', by decide⟩

theorem two_le_two : 2 ≤ 2 := Nat.le_refl 2

theorem two_le_maxReplicas : 2 ≤ 1024 := by decide

def cleaned (cfg : PipelineConfig) : Nat := cfg.bufferLength / cfg.longSize * cfg.longSize

end PipelineConfig

/-- Both buffers hold the same `BUFFER_LENGTH` bytes. -/
def SameBytes (cfg : PipelineConfig) (b b' : Nat → Byte) : Prop := ∀ j < cfg.bufferLength, b j = b' j

/-- Where a reader stands. `waiting c` waits for a reply with the byte `c` in hand. -/
inductive ReaderPc
  | reading
  | waiting (c : Byte)
  | ended
  deriving DecidableEq

/-- A reader with the rest of its input, its buffer, and the bytes in the two pipes between it and the
voter. `deadFd` is the voter's. `arrived` records that the voter has counted a signal of the replica
since the last vote. -/
structure Replica where
  input : List Byte
  buffCount : Nat
  pc : ReaderPc
  buffer : Nat → Byte
  bufferFull : Nat
  continuePipe : Nat
  deadFd : Bool
  arrived : Bool

namespace Replica

/-- The next step of `reader`. An empty input is the end of the file; padding sets `buffCount` to mark
that it is done. -/
def readerStep (length : Nat) (r : Replica) : Option Replica :=
  match r.pc, r.input with
  | .reading, c :: input =>
    if r.buffCount < length then
      some { r with
        input := input
        buffCount := r.buffCount + 1
        buffer := Function.update r.buffer r.buffCount c }
    else
      some { r with input := input, buffCount := 0, pc := .waiting c, bufferFull := r.bufferFull + 1 }
  | .reading, [] =>
    if r.buffCount < length then
      some { r with
        buffCount := length
        buffer := fun j => if r.buffCount ≤ j ∧ j < length then 0 else r.buffer j }
    else some { r with pc := .ended, bufferFull := r.bufferFull + 1 }
  | .waiting c, _ =>
    if r.continuePipe = 0 then none
    else
      some { r with
        buffCount := 1
        pc := .reading
        buffer := Function.update r.buffer 0 c
        continuePipe := r.continuePipe - 1 }
  | .ended, _ => none

/-- `select` reports the pipe: it holds a signal or its writer has gone. -/
def ready (r : Replica) : Bool := !r.deadFd && (decide (0 < r.bufferFull) || decide (r.pc = .ended))

def signal (r : Replica) : Bool := decide (0 < r.bufferFull)

def arrive (r : Replica) : Replica := { r with arrived := r.arrived || r.signal }

/-- `fgetc` takes the signal out of the pipe. -/
def consume (r : Replica) : Replica := { r with bufferFull := r.bufferFull - 1 }

def die (r : Replica) : Replica := { r with deadFd := true }

def clean (length : Nat) (random : Nat → Byte) (r : Replica) : Replica :=
  { r with buffer := fun j => if j < length then random j else r.buffer j }

def reply (r : Replica) : Replica :=
  { r with continuePipe := r.continuePipe + 1, arrived := false }

def AtRest (r : Replica) : Prop := r.pc = .ended ∨ (∃ c, r.pc = .waiting c) ∧ r.continuePipe = 0

end Replica

structure Pipeline where
  replicas : Nat → Replica
  replicasAliveNow : Nat
  barrierArrivals : Nat
  /-- the voter has not left with `exit(-2)` -/
  running : Bool
  stdout : List Byte

/-- What the voter reads while it votes, once to fingerprint a buffer and once to print it. -/
structure View where
  seen : Nat → Nat → Byte
  printed : Nat → Nat → Byte

namespace Pipeline

/-- `read i` is a step of reader `i`. With `handle i` the voter turns to the ready pipe of replica `i`;
`random` are the bytes it may overwrite a buffer with. -/
inductive Action
  | read (i : Nat)
  | handle (i : Nat) (view : View) (random : Nat → Byte)

instance : Inhabited Action := ⟨.read 0⟩

variable (cfg : PipelineConfig)

def setReplica (s : Pipeline) (i : Nat) (r : Replica) : Pipeline :=
  { s with replicas := Function.update s.replicas i r }

def setArrivals (s : Pipeline) (n : Nat) : Pipeline := { s with barrierArrivals := n }

/-- `ReplicasAliveNow--` -/
def loseReplica (s : Pipeline) : Pipeline := { s with replicasAliveNow := s.replicasAliveNow - 1 }

/-- `exit(-2)` -/
def stop (s : Pipeline) : Pipeline := { s with running := false }

/-- `f[0]` to `f[NUMBER_OF_REPLICAS - 1]` -/
def fingerprints (view : View) : List Fingerprinter :=
  (List.range cfg.replicas).map fun i => .of cfg.bufferLength i (view.seen i)

def printed (buffer : Nat → Byte) : List Byte :=
  ((List.range cfg.bufferLength).map buffer).filter (· ≠ 0)

/-- The replicas agree on the buffer of replica `start`. -/
def agree (view : View) (random : Nat → Byte) (start : Nat) (s : Pipeline) : Pipeline :=
  { s with
    stdout := s.stdout ++ printed cfg (view.printed start)
    replicas := fun i => if i < cfg.replicas then
      (if i = start then (s.replicas i).clean cfg.cleaned random else s.replicas i).reply
      else s.replicas i }

/-- The replica whose buffer is to be printed, if at least two fingerprints agree. -/
def winner (view : View) : Option Nat :=
  match mostCommonElement Fingerprinter.same (fingerprints cfg view) with
  | (some result, count) => if count < 2 then none else some result.start
  | (none, _) => none

def vote (view : View) (random : Nat → Byte) (s : Pipeline) : Pipeline :=
  match winner cfg view with
  | some start => agree cfg view random start s
  | none => s.stop

def handleInput (view : View) (random : Nat → Byte) (s : Pipeline) : Pipeline :=
  if s.replicasAliveNow ≤ s.barrierArrivals + 1 then vote cfg view random (s.setArrivals 0)
  else s.setArrivals (s.barrierArrivals + 1)

/-- The body of the voter's loop over the ready pipes. -/
def handle (i : Nat) (view : View) (random : Nat → Byte) (s : Pipeline) : Pipeline :=
  if cfg.countsEof then
    let t := handleInput cfg view random (s.setReplica i (s.replicas i).arrive)
    if t.running then
      if (s.replicas i).signal then t.setReplica i (t.replicas i).consume
      else (t.setReplica i (t.replicas i).die).loseReplica
    else t
  else if (s.replicas i).signal then
    handleInput cfg view random (s.setReplica i (s.replicas i).arrive.consume)
  else s.setReplica i (s.replicas i).die

def next (s : Pipeline) : Action → Option Pipeline
  | .read i => if i < cfg.replicas then
      ((s.replicas i).readerStep cfg.bufferLength).map (s.setReplica i) else none
  | .handle i view random =>
    if s.running ∧ 0 < s.replicasAliveNow ∧ i < cfg.replicas ∧ (s.replicas i).ready then
      some (handle cfg i view random s) else none

/-- The voter reads a buffer at rest as it is. Of a buffer that its reader may store into meanwhile it
can read anything. -/
def ViewOk (s : Pipeline) : Action → Prop
  | .read _ => True
  | .handle _ view _ => ∀ i < cfg.replicas, (s.replicas i).AtRest → ∀ j < cfg.bufferLength,
      view.seen i j = (s.replicas i).buffer j ∧ view.printed i j = (s.replicas i).buffer j

/-- Replica `i` is about to write `outputs i`; the shared space is full of random numbers. -/
def initial (outputs : Nat → List Byte) (space : Nat → Nat → Byte) : Pipeline where
  replicas i := ⟨outputs i, 0, .reading, space i, 0, 0, false, false⟩
  replicasAliveNow := cfg.replicas
  barrierArrivals := 0
  running := true
  stdout := []

end Pipeline

end DieHard
