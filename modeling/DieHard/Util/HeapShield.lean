import DieHard.Util.Size

/-!
# Library calls that stay inside an object

HeapShield asks the allocator how many bytes are left in the object that a library function writes to, and
limits the function to them. `strcat` limits the characters but not the terminator behind them, and the
length of a copy is held in an `int`.
-/

namespace DieHard.HeapShield

/-- A string in memory, up to the first `'\0'`. -/
structure CString where
  bytes : Nat → BitVec 8
  strlen : Nat
  bytes_ne_zero : ∀ i < strlen, bytes i ≠ 0
  bytes_strlen : bytes strlen = 0

/-- What the wrappers ask about a pointer: `onStack` and `malloc_usable_size`, which is also
`local_usable_size`. -/
structure Allocator where
  onStack : Nat → Bool
  usableSize : Nat → Nat

abbrev Write := Nat × BitVec 8

/-- `(size_t) -1`, where the pointer is not from the heap -/
def notFromHere : Nat := sizeRange - 1

/-- The value of an `int` that a `size_t` is assigned to. -/
def toInt (n : Nat) : Int := Int.bmod n (2 ^ 32)

/-- The value of a `size_t` that an `int` is converted to. -/
def toSize (i : Int) : Nat := (i % sizeRange).toNat

/-- `INT_MAX` -/
def intMax : Nat := 2 ^ 31 - 1

/-- The loop of `local_strncpy` at character `i`: the bytes that it writes and the place behind them. A
negative `lengthToCopy` has the rounds of its bit pattern, as it is counted down until it is 0. -/
def copyLoop (dest : Nat) (src : CString) (lengthToCopy i : Nat) : List Write × Nat :=
  match lengthToCopy with
  | 0 => ([], i)
  | lengthToCopy + 1 =>
    if src.bytes i = 0 then ([(dest + i, 0)], i + 1)
    else
      let r := copyLoop dest src lengthToCopy (i + 1)
      ((dest + i, src.bytes i) :: r.1, r.2)

variable (a : Allocator)

/-- The `lengthToCopy` of `local_strncpy`, as the number of rounds. -/
def lengthToCopy (dest : Nat) (n : Nat) : Nat :=
  let destLength := toInt (sizeSub (a.usableSize dest) 1)
  let lengthToCopy := toInt (if n < toSize destLength then n else toSize destLength)
  (lengthToCopy % 2 ^ 32).toNat

def localStrncpy (dest : Nat) (src : CString) (n : Nat) : List Write :=
  let r := copyLoop dest src (lengthToCopy a dest n) 0
  r.1 ++ [(dest + r.2, 0)]

def localStrcpy (dest : Nat) (src : CString) : List Write := localStrncpy a dest src intMax

/-- The bytes from `start` on, taken from `bytes`. -/
def writeBytes (start : Nat) (bytes : Nat → BitVec 8) (n : Nat) : List Write :=
  (List.range n).map fun i => (start + i, bytes i)

/-- The `strncat` of the library: characters of `src` behind those of `dest`, and `'\0'`. -/
def myStrncat (dest : Nat) (content src : CString) (n : Nat) : List Write :=
  let start := dest + content.strlen
  writeBytes start src.bytes (min n src.strlen) ++ [(start + min n src.strlen, 0)]

/-- The `strcat` of the library. -/
def myStrcat (dest : Nat) (content src : CString) : List Write := myStrncat dest content src src.strlen

def memcpy (dest : Nat) (src : Nat → BitVec 8) (n : Nat) : List Write :=
  if a.onStack dest then writeBytes dest src n
  else
    let sz := a.usableSize dest
    if sz = notFromHere then writeBytes dest src n
    else writeBytes dest src (if n < sz then n else sz)

def strcpy (dest : Nat) (src : CString) : List Write :=
  if a.onStack dest then localStrcpy a dest src
  else
    let sz := a.usableSize dest
    if sz = notFromHere then localStrcpy a dest src else localStrncpy a dest src sz

def strncpy (dest : Nat) (src : CString) (n : Nat) : List Write :=
  if a.onStack dest then localStrncpy a dest src n
  else
    let sz := a.usableSize dest
    if sz = notFromHere then localStrncpy a dest src n
    else localStrncpy a dest src (if n < sz then n else sz)

def strcat (dest : Nat) (content src : CString) : List Write :=
  if a.onStack dest then myStrcat dest content src
  else
    let sz := a.usableSize (dest + content.strlen)
    if sz = notFromHere then myStrcat dest content src else myStrncat dest content src sz

def strncat (dest : Nat) (content src : CString) (n : Nat) : List Write :=
  if a.onStack dest then myStrncat dest content src n
  else
    let sz := a.usableSize (dest + content.strlen)
    if sz = notFromHere then myStrncat dest content src n
    else myStrncat dest content src (if n < sizeSub sz 1 then n else sizeSub sz 1)

/-- A call of a wrapper, but for the destination. `content` is the string that is there. -/
inductive Call where
  | memcpy (src : Nat → BitVec 8) (n : Nat)
  | strcpy (src : CString)
  | strncpy (src : CString) (n : Nat)
  | strcat (content src : CString)
  | strncat (content src : CString) (n : Nat)

namespace Call

/-- The bytes that a call writes. -/
def writes (dest : Nat) : Call → List Write
  | memcpy src n => HeapShield.memcpy a dest src n
  | strcpy src => HeapShield.strcpy a dest src
  | strncpy src n => HeapShield.strncpy a dest src n
  | strcat content src => HeapShield.strcat a dest content src
  | strncat content src n => HeapShield.strncat a dest content src n

/-- The terminator of `strcat` fits behind the characters, and no copy with room for 2^31 to 2^32 bytes goes
through all of it. `r` bytes are left in the object. -/
def Fits (r : Nat) : Call → Prop
  | memcpy _ _ => True
  | strcpy src => ¬ (2 ^ 31 < r ∧ r < 2 ^ 32 ∧ r ≤ src.strlen + 1)
  | strncpy src n => ¬ (2 ^ 31 < r ∧ r < 2 ^ 32 ∧ r ≤ n ∧ r ≤ src.strlen + 1)
  | strcat _ src => src.strlen < r
  | strncat _ _ _ => True

end Call

/-- An object of the heap, from `start` up to `finish`. -/
structure HeapObject where
  start : Nat
  finish : Nat
  start_pos : 0 < start
  finish_lt : finish < sizeRange

namespace HeapObject

def Contains (o : HeapObject) (p : Nat) : Prop := o.start ≤ p ∧ p < o.finish

instance (o : HeapObject) (p : Nat) : Decidable (o.Contains p) := inferInstanceAs (Decidable (_ ∧ _))

def KnownTo (o : HeapObject) (a : Allocator) : Prop :=
  ∀ p, o.Contains p → a.onStack p = false ∧ a.usableSize p = o.finish - p

end HeapObject

variable {a} {dest : Nat} {src content : CString} {n k i r : Nat}

section Inside

variable {o : HeapObject}

theorem HeapObject.KnownTo.usableSize {p : Nat} (h : o.KnownTo a) (hp : o.Contains p) :
    a.onStack p = false ∧ a.usableSize p = o.finish - p ∧ a.usableSize p ≠ notFromHere ∧
      0 < o.finish - p ∧ o.finish - p < sizeRange := by
  obtain ⟨hstack, hsize⟩ := h p hp
  obtain ⟨hstart, hfinish⟩ := hp
  have hpos := o.start_pos
  have hlt := o.finish_lt
  refine ⟨hstack, hsize, ?_, Nat.sub_pos_of_lt hfinish, by omega⟩
  rw [hsize, notFromHere]
  omega

end Inside

end DieHard.HeapShield
