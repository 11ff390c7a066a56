import DieHard.Heap.MiniHeap

/-!
# Random heaps and the DieHard heap

`RandomHeap` keeps a growing list of miniheaps for one object size, `DieHardHeap` one random heap for
each size class. The random draws and the answers of the source of memory are arguments; `malloc` has
no result when they end before the call returns.
-/

namespace DieHard

structure RandomHeap where
  available : Nat
  inUse : Nat
  miniHeapsInUse : Nat
  chunksInUse : Nat
  cachedMiniHeap : Int
  miniHeaps : Nat → MiniHeap

namespace RandomHeap

/-- The constructor; `random i` is the draw of miniheap `i`. -/
def new (random : Nat → BitVec 64) : RandomHeap :=
  ⟨0, 0, 0, 0, -1, fun i => MiniHeap.new (random i)⟩

variable (cfg : HeapConfig) (owner cls : Nat)

/-- `Numerator * inUse >= available * Denominator`. -/
def needsGrowth (h : RandomHeap) : Bool :=
  decide (h.available * cfg.denominator ≤ cfg.numerator * h.inUse)

/-- `getAnotherMiniHeap` of a thread that finds the grow lock free. -/
def getAnotherMiniHeap (source : Nat → Addr) (h : RandomHeap) (env : Env) : RandomHeap × Env :=
  let currentHeaps := h.miniHeapsInUse
  if !h.needsGrowth cfg then (h, env)
  else if currentHeaps < cfg.maxMiniHeaps then
    let newAvailable :=
      if currentHeaps = 0 then h.available + cfg.minObjects cls
      else h.available + (1 <<< (currentHeaps - 1)) * cfg.minObjects cls
    let r := RandomMiniHeap.activate cfg ⟨owner, cls, currentHeaps⟩ source
      (h.miniHeaps currentHeaps) env
    ({ h with
        miniHeaps := Function.update h.miniHeaps currentHeaps r.1
        available := newAvailable
        chunksInUse := (1 <<< currentHeaps) - 1
        miniHeapsInUse := currentHeaps + 1 }, r.2)
  else (h, env)

/-- `growHeapIfNeeded`, with the answers of the source for each turn of its loop. -/
def growHeapIfNeeded : List (Nat → Addr) → RandomHeap → Env → Option (RandomHeap × Env)
  | [], h, env => if h.needsGrowth cfg then none else some (h, env)
  | source :: sources, h, env =>
    if h.needsGrowth cfg then
      let r := getAnotherMiniHeap cfg owner cls source h env
      growHeapIfNeeded sources r.1 r.2
    else some (h, env)

def chosenMiniHeap (h : RandomHeap) (random : Nat) : Nat :=
  let v := random &&& h.chunksInUse
  log2 (v + 1)

/-- `getObject`: one draw for the miniheap and one for the slot. -/
def getObject (random : Nat × Nat) (h : RandomHeap) (env : Env) : Addr × RandomHeap × Env :=
  let index := h.chosenMiniHeap random.1
  let r := RandomMiniHeapCore.malloc cfg ⟨owner, cls, index⟩ random.2 (h.miniHeaps index) env
  (r.1, { h with miniHeaps := Function.update h.miniHeaps index r.2.1 }, r.2.2)

/-- The loop of `malloc` that draws until it gets an object. -/
def getObjectLoop : List (Nat × Nat) → RandomHeap → Env → Option (Addr × RandomHeap × Env)
  | [], _, _ => none
  | random :: randoms, h, env =>
    let r := getObject cfg owner cls random h env
    if r.1 = 0 then getObjectLoop randoms r.2.1 r.2.2 else some r

/-- `_inUse.fetch_add(1)`. -/
def addInUse (h : RandomHeap) : RandomHeap := { h with inUse := sizeSucc h.inUse }

/-- `_inUse.fetch_sub(1)`. -/
def subInUse (h : RandomHeap) : RandomHeap := { h with inUse := sizeSub h.inUse 1 }

/-- The first part of `malloc`: grow when the check of the counters asks for it. -/
def makeRoom (sources : List (Nat → Addr)) (h : RandomHeap) (env : Env) : Option (RandomHeap × Env) :=
  if h.needsGrowth cfg then growHeapIfNeeded cfg owner cls sources h env else some (h, env)

def malloc (sources : List (Nat → Addr)) (randoms : List (Nat × Nat)) (h : RandomHeap) (env : Env) :
    Option (Addr × RandomHeap × Env) := do
  let (h, env) ← makeRoom cfg owner cls sources h env
  let (ptr, h, env) ← getObjectLoop cfg owner cls randoms h env
  return (ptr, h.addInUse, env)

/-- `getMiniHeap(index)->free(ptr)`. -/
def freeIn (ptr : Addr) (index : Nat) (h : RandomHeap) (env : Env) : Bool × RandomHeap × Env :=
  let r := RandomMiniHeap.free cfg ⟨owner, cls, index⟩ ptr (h.miniHeaps index) env
  (r.1, { h with miniHeaps := Function.update h.miniHeaps index r.2.1 }, r.2.2)

/-- The search of `free` from the largest miniheap down; the cached one has been tried. -/
def freeSearch (ptr : Addr) (cached : Int) : Nat → RandomHeap → Env → Bool × RandomHeap × Env
  | 0, h, env => (false, h, env)
  | i + 1, h, env =>
    if (i : Int) = cached then freeSearch ptr cached i h env
    else
      let r := freeIn cfg owner cls ptr i h env
      if r.1 then (true, { r.2.1.subInUse with cachedMiniHeap := i }, r.2.2)
      else freeSearch ptr cached i r.2.1 r.2.2

def free (ptr : Addr) (h : RandomHeap) (env : Env) : Bool × RandomHeap × Env :=
  let cached := h.cachedMiniHeap
  let numHeaps := h.miniHeapsInUse
  if 0 ≤ cached ∧ cached < numHeaps then
    let r := freeIn cfg owner cls ptr cached.toNat h env
    if r.1 then (true, r.2.1.subInUse, r.2.2)
    else freeSearch cfg owner cls ptr cached numHeaps r.2.1 r.2.2
  else freeSearch cfg owner cls ptr cached numHeaps h env

/-- The search of `getSize` among the first miniheaps, from the largest down. -/
def getSizeSearch (env : Env) (ptr : Addr) (h : RandomHeap) : Nat → Nat
  | 0 => 0
  | i + 1 =>
    let sz := RandomMiniHeap.getSize cfg ⟨owner, cls, i⟩ (h.miniHeaps i) env ptr
    if sz ≠ 0 then sz else getSizeSearch env ptr h i

def getSize (env : Env) (ptr : Addr) (h : RandomHeap) : Nat :=
  getSizeSearch cfg owner cls env ptr h h.miniHeapsInUse

end RandomHeap

structure DieHardHeap where
  localRandomValue : BitVec 64
  cachedSizeClass : Int
  heaps : Nat → RandomHeap

namespace DieHardHeap

def new (localRandom : BitVec 64) (random : Nat → Nat → BitVec 64) : DieHardHeap :=
  ⟨localRandom, -1, fun cls => RandomHeap.new (random cls)⟩

variable (cfg : HeapConfig) (owner : Nat)

/-- `malloc` after its bounds checks have been made. -/
def mallocClass (index : Nat) (sources : List (Nat → Addr)) (randoms : List (Nat × Nat))
    (h : DieHardHeap) (env : Env) : Option (Addr × DieHardHeap × Env) := do
  let (ptr, rh, env) ← RandomHeap.malloc cfg owner index sources randoms (h.heaps index) env
  let env :=
    if cfg.dieFastOn then
      { env with mem := DieFast.fill env.mem ptr (getClassSize index) h.localRandomValue }
    else env
  return (ptr, { h with heaps := Function.update h.heaps index rh }, env)

def malloc (sz : Nat) (sources : List (Nat → Addr)) (randoms : List (Nat × Nat))
    (h : DieHardHeap) (env : Env) : Option (Addr × DieHardHeap × Env) :=
  if cfg.maxSize < sz then some (0, h, env)
  else
    let sz := if sz < alignment then alignment else sz
    mallocClass cfg owner (getIndex sz) sources randoms h env

/-- `getHeap(index)->free(ptr)`. -/
def freeIn (ptr : Addr) (index : Nat) (h : DieHardHeap) (env : Env) : Bool × DieHardHeap × Env :=
  let r := RandomHeap.free cfg owner index ptr (h.heaps index) env
  (r.1, { h with heaps := Function.update h.heaps index r.2.1 }, r.2.2)

/-- The search of `free` over the given size classes; the cached one has been tried. -/
def freeSearch (ptr : Addr) (cached : Int) :
    List Nat → DieHardHeap → Env → Bool × DieHardHeap × Env
  | [], h, env => (false, h, env)
  | i :: classes, h, env =>
    if (i : Int) = cached then freeSearch ptr cached classes h env
    else
      let r := freeIn cfg owner ptr i h env
      if r.1 then (true, { r.2.1 with cachedSizeClass := i }, r.2.2)
      else freeSearch ptr cached classes r.2.1 r.2.2

/-- `free`; true iff the object was on this heap. -/
def free (ptr : Addr) (h : DieHardHeap) (env : Env) : Bool × DieHardHeap × Env :=
  let cached := h.cachedSizeClass
  if 0 ≤ cached ∧ cached < cfg.maxIndex then
    let r := freeIn cfg owner ptr cached.toNat h env
    if r.1 then r
    else freeSearch cfg owner ptr cached (List.range cfg.maxIndex) r.2.1 r.2.2
  else freeSearch cfg owner ptr cached (List.range cfg.maxIndex) h env

end DieHardHeap

/-- The `DieHardHeap` objects of a process, by number, and what they share. -/
structure Process where
  heaps : Nat → DieHardHeap
  env : Env

namespace Process

def initial (localRandom : Nat → BitVec 64) (random : Nat → Nat → Nat → BitVec 64)
    (mem : Addr → BitVec 8) (mapped : List (Addr × Nat)) : Process :=
  ⟨fun k => DieHardHeap.new (localRandom k) (random k), ⟨mem, fun _ => none, mapped, []⟩⟩

variable (cfg : HeapConfig)

def mini (s : Process) (id : MiniId) : MiniHeap := ((s.heaps id.owner).heaps id.cls).miniHeaps id.index

def free (k : Nat) (ptr : Addr) (s : Process) : Bool × Process :=
  let r := DieHardHeap.free cfg k ptr (s.heaps k) s.env
  (r.1, ⟨Function.update s.heaps k r.2.1, r.2.2⟩)

def malloc (k sz : Nat) (sources : List (Nat → Addr)) (randoms : List (Nat × Nat)) (s : Process) :
    Option (Addr × Process) := do
  let (ptr, h, env) ← DieHardHeap.malloc cfg k sz sources randoms (s.heaps k) s.env
  return (ptr, ⟨Function.update s.heaps k h, env⟩)

/-- `getHeap(index)->getSize(ptr)` for a size class of heap `k`. -/
def classSizeOf (k : Nat) (ptr : Addr) (index : Nat) (s : Process) : Nat :=
  RandomHeap.getSize cfg k index s.env ptr ((s.heaps k).heaps index)

/-- The search of `getSize` over the given size classes, with the class that answers. -/
def getSizeSearch (k : Nat) (ptr : Addr) (cached : Int) (s : Process) : List Nat → Option (Nat × Nat)
  | [] => none
  | i :: classes =>
    if (i : Int) = cached then getSizeSearch k ptr cached s classes
    else
      let sz := classSizeOf cfg k ptr i s
      if sz ≠ 0 then some (sz, i) else getSizeSearch k ptr cached s classes

/-- `DieHardHeap::getSize` of heap `k`. The DieHarder variant asks the miniheap that the shared page
table names, whichever heap that miniheap belongs to. -/
def getSize (k : Nat) (ptr : Addr) (s : Process) : Nat × Process :=
  if !cfg.dieHarderOn then
    let h := s.heaps k
    let cached := h.cachedSizeClass
    let search :=
      match getSizeSearch cfg k ptr cached s (List.range cfg.maxIndex) with
      | some (sz, i) => (sz, { s with heaps := Function.update s.heaps k { h with cachedSizeClass := i } })
      | none => (0, s)
    if 0 ≤ cached ∧ cached < cfg.maxIndex then
      let sz := classSizeOf cfg k ptr cached.toNat s
      if sz ≠ 0 then (sz, s) else search
    else search
  else
    match s.env.getHeap cfg ptr with
    | none => (0, s)
    | some id => (RandomMiniHeap.getSize cfg id (s.mini id) s.env ptr, s)

end Process

end DieHard
