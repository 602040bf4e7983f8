import Lainos.Libc.Malloc
import Lainos.Library.ByteLists

/-!
# The environment

`getenv` and `setenv` of `ulib.c` with `realloc` of `malloc.c`, over the bytes of memory.
The heap begins at `brk`; below it are the program and the stack on which `execve` put the
first environment. What `malloc` answers, and what it and `free` leave in memory that is not
in use, is given by `answers`. Names and values are passed as the bytes before their null
byte.
-/

namespace Lainos.Libc

open Library

/-- `live` are the pointers in use, with the sizes of their blocks in units. -/
structure Space where
  mem : Bytes
  environ : ℕ
  lastEnviron : ℕ
  live : List (ℕ × ℕ)
  answers : ℕ → Option ℕ × Bytes

/-- A loop was cut short, the answer was not one that `malloc` gives, or the program read
memory that is not its own. -/
inductive Failure where
  | fuel
  | answer
  | fault

abbrev EAct := Exec Failure Space

namespace Space

variable (s : Space)

@[simps -fullyApplied] def setMem (mem : Bytes) : Space :=
  ⟨mem, s.environ, s.lastEnviron, s.live, s.answers⟩

@[simps -fullyApplied] def setEnviron (a : ℕ) : Space := ⟨s.mem, a, a, s.live, s.answers⟩

/-- Memory below the heap or in a block in use, with its header. -/
def held (brk x : ℕ) : Bool :=
  x < brk || s.live.any fun b => b.1 ≤ x + unit && x + unit < b.1 + unit * b.2

/-- The allocator may have used all other memory. -/
def scribble (brk : ℕ) (junk : Bytes) : Bytes := fun x => if s.held brk x then s.mem x else junk x

/-- A block of so many units at `p` that overlaps none in use. -/
def vacant (brk p units : ℕ) : Bool :=
  brk + unit ≤ p && p + unit * units ≤ KERNBASE + unit &&
    s.live.all fun b => b.1 + unit * b.2 ≤ p || p + unit * units ≤ b.1

@[simps -fullyApplied] def refused (brk : ℕ) (junk : Bytes) : Space :=
  ⟨s.scribble brk junk, s.environ, s.lastEnviron, s.live, fun i => s.answers (i + 1)⟩

@[simps -fullyApplied] def allotted (brk p units : ℕ) (junk : Bytes) : Space :=
  ⟨store (s.scribble brk junk) (p - 4) (wordBytes units), s.environ, s.lastEnviron,
    (p, units) :: s.live, fun i => s.answers (i + 1)⟩

@[simps -fullyApplied] def released (p : ℕ) : Space :=
  ⟨s.mem, s.environ, s.lastEnviron, s.live.filter fun b => b.1 ≠ p, s.answers⟩

end Space

/-- `malloc` as its callers see it; 0 if there is no memory. -/
def allot (brk nbytes : ℕ) : EAct ℕ := do
  let s ← get
  match s.answers 0 with
  | (none, junk) => do
    set (s.refused brk junk)
    return 0
  | (some p, junk) =>
    if s.vacant brk p (unitsFor nbytes) then do
      set (s.allotted brk p (unitsFor nbytes) junk)
      return p
    else throw .answer

/-- `free` as its callers see it. -/
def release (brk p : ℕ) : EAct Unit := modify fun s => (s.released p).refused brk (s.answers 0).2

def memmove (dst src n : ℕ) (m : Bytes) : Bytes :=
  if dst ≤ src then copy dst src n m else copyBack dst src n m

def realloc (brk ptr size : ℕ) : EAct ℕ := do
  let p ← allot brk size
  -- the header of NULL would lie at the end of the address space, above KERNBASE
  if ptr < unit then throw .fault
  else do
    -- the size in the header counts units, not bytes
    modify fun s => s.setMem (memmove p ptr (min size (word s.mem (ptr - 4))) s.mem)
    release brk ptr
    return p

/-- Whether `strncmp(a, name, strlen(name))` is 0. -/
def strncmp (m : Bytes) (a : ℕ) : List UInt8 → Bool
  | [] => true
  | c :: cs => if m a ≠ 0 ∧ m a = c then strncmp m (a + 1) cs else m a = c

def strlen (m : Bytes) : ℕ → ℕ → EAct ℕ
  | 0, _ => throw .fuel
  | fuel + 1, a => if m a = 0 then return 0 else (· + 1) <$> strlen m fuel (a + 1)

/-- The character `=`. -/
def eqSign : UInt8 := 61

/-- Whether the string at `a` is one that gives `name` a value. -/
def defines (m : Bytes) (a : ℕ) (name : List UInt8) : Bool :=
  strncmp m a name && m (a + name.length) = eqSign

/-- The loop over the array from `ep` on: where it stopped and how many strings it passed. -/
def findEntry (m : Bytes) (name : List UInt8) : ℕ → ℕ → ℕ → EAct (ℕ × ℕ)
  | 0, _, _ => throw .fuel
  | fuel + 1, ep, size =>
    if word m ep = 0 then return (ep, size)
    else if defines m (word m ep) name then return (ep, size)
    else findEntry m name fuel (ep + 4) (size + 1)

/-- The address of the value, or 0. -/
def getenv (fuel : ℕ) (name : List UInt8) : EAct ℕ := do
  let s ← get
  if s.environ = 0 then return 0
  else do
    let (ep, _) ← findEntry s.mem name fuel s.environ 0
    return if word s.mem ep = 0 then 0 else word s.mem ep + name.length + 1

/-- `name=value` with its null byte. -/
def entry (name value : List UInt8) : List UInt8 := name ++ eqSign :: (value ++ [0])

/-- The part of `setenv` that adds a name, behind the `size` strings there are. -/
def addEntry (brk size : ℕ) (name value : List UInt8) : EAct ℤ := do
  let s ← get
  let a ← if s.environ = s.lastEnviron ∧ s.environ ≠ 0
    then realloc brk s.lastEnviron ((size + 2) * 4)
    else allot brk ((size + 2) * 4)
  if a = 0 then return -1
  else do
    let p ← allot brk (name.length + 1 + (value.length + 1))
    modify fun s => s.setMem (store s.mem (a + 4 * size) (wordBytes p))
    if p = 0 then do
      release brk a
      return -1
    else do
      modify fun s =>
        if s.environ ≠ s.lastEnviron then s.setMem (copy a s.environ (size * 4) s.mem) else s
      modify fun s => s.setMem (store s.mem p (entry name value))
      modify fun s => s.setMem (store s.mem (a + 4 * (size + 1)) (wordBytes 0))
      modify fun s => s.setEnviron a
      return 0

/-- The part of `setenv` that replaces the string whose address is at `ep`. -/
def replaceEntry (brk fuel ep : ℕ) (name value : List UInt8) : EAct ℤ := do
  let s ← get
  let len ← strlen s.mem fuel (word s.mem ep)
  if len + 1 < name.length + 1 + (value.length + 1) then do
    let p ← allot brk (name.length + 1 + (value.length + 1))
    if p = 0 then return -1
    else do
      modify fun s => s.setMem (store s.mem ep (wordBytes p))
      modify fun s => s.setMem (store s.mem (word s.mem ep) (entry name value))
      return 0
  else do
    modify fun s => s.setMem (store s.mem (word s.mem ep) (entry name value))
    return 0

/-- The loop of `setenv`, which is left out if there is no array. -/
def scan (s : Space) (name : List UInt8) (fuel : ℕ) : EAct (ℕ × ℕ) :=
  if s.environ ≠ 0 then findEntry s.mem name fuel s.environ 0 else pure (0, 0)

def setenv (brk fuel : ℕ) (name value : List UInt8) (overwrite : Bool) : EAct ℤ := do
  let s ← get
  let (ep, size) ← scan s name fuel
  if s.environ = 0 ∨ word s.mem ep = 0 then addEntry brk size name value
  else if overwrite then replaceEntry brk fuel ep name value
  else return 0

end Lainos.Libc
