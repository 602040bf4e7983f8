import Lainos.Kernel.Fs

/-!
# Directories and path names

The upper half of `fs.c`. A name is the bytes of a path element, at most `DIRSIZ`
of them and none of them NUL; the end of a list stands for the terminating NUL of
a C string.
-/

namespace Lainos.Kernel

open Library

/-- `strncmp`. -/
def strncmp : ℕ → List UInt8 → List UInt8 → ℤ
  | 0, _, _ => 0
  | n + 1, p, q =>
    if p.headD 0 ≠ 0 ∧ p.headD 0 = q.headD 0 then strncmp n p.tail q.tail
    else (p.headD 0).toNat - (q.headD 0).toNat

def namecmp (s t : List UInt8) : ℤ := strncmp DIRSIZ s t

/-- `strncpy` of a name into an entry. -/
def direntName (name : List UInt8) : Fin 14 → UInt8 := fun j => name.getD j.val 0

def dot : List UInt8 := [46]

def dotdot : List UInt8 := [46, 46]

/-! ## Entries -/

/-- Read the entry at an offset, or panic with `msg`. -/
def readDirent (p : Pid) (dp off : ℕ) (msg : String) : Act Dirent := do
  match ← readFile p dp (UInt32.ofNat off) 16 with
  | none => panic msg
  | some bytes =>
    if bytes.length = 16 then return Dirent.decode fun i => bytes.getD i 0
    else panic msg

/-- How many entries the loops over a directory of `size` bytes visit. -/
def entryCount (size : ℕ) : ℕ := (size + 15) / 16

/-- The loop of `dirlookup` from offset `off` on: the inode number and the offset
of the first entry with the name. -/
def dirScan (p : Pid) (dp : ℕ) (name : List UInt8) : ℕ → ℕ → Act (Option (ℕ × ℕ))
  | 0, _ => pure none
  | n + 1, off => do
    let de ← readDirent p dp off "dirlink read"
    if de.inum = 0 then dirScan p dp name n (off + 16)
    else if namecmp name (List.ofFn de.name) = 0 then return some (de.inum.toNat, off)
    else dirScan p dp name n (off + 16)

/-- `dirlookup`: the cache entry of the inode that `name` stands for and the
offset of its directory entry. -/
def dirlookup (p : Pid) (dp : ℕ) (name : List UInt8) : Act (Option (ℕ × ℕ × Ticket)) := do
  let s ← get
  let d := (s.icache dp).d
  if d.type ≠ T_DIR then panic "dirlookup not DIR"
  else do
    modify fun s => s.note (.looks d.nlink name)
    match ← dirScan p dp name (entryCount d.size.toNat) 0 with
    | none => return none
    | some (inum, off) => do
      let ip ← iget inum
      modify fun s => s.note (.found (s.icache dp).inum off inum)
      let s ← get
      return some (ip, off, ⟨inum, freedCount inum s.trace⟩)

/-- The loop of `dirlink` that looks for an unused entry. -/
def freeDirent (p : Pid) (dp : ℕ) : ℕ → ℕ → Act ℕ
  | 0, off => pure off
  | n + 1, off => do
    let de ← readDirent p dp off "dirlink read"
    if de.inum = 0 then return off
    else freeDirent p dp n (off + 16)

/-- The second half of `dirlink`: enter the inode of the cache entry `ip`. -/
def dirlinkWrite (p : Pid) (dp : ℕ) (name : List UInt8) (ip : ℕ) : Act Unit := do
  let s ← get
  let off ← freeDirent p dp (entryCount (s.icache dp).d.size.toNat) 0
  let inum := (s.icache ip).inum
  modify fun s => s.note (.enters (s.icache dp).d.nlink (s.icache dp).inum off inum)
  match ← writeFile p dp (Dirent.encode ⟨UInt16.ofNat inum, direntName name⟩)
      (UInt32.ofNat off) 16 with
  | some 16 => return ()
  | _ => panic "dirlink"

/-- `dirlink`; the result is whether it succeeded. -/
def dirlink (p : Pid) (dp : ℕ) (name : List UInt8) (ip : ℕ) : Call Bool := do
  match ← dirlookup p dp name with
  | some (old, _, _) => do
    iput p old
    return false
  | none => do
    dirlinkWrite p dp name ip
    return true

/-- The loop of `isdirempty`. -/
def emptyFrom (p : Pid) (dp : ℕ) : ℕ → ℕ → Act Bool
  | 0, _ => pure true
  | n + 1, off => do
    let de ← readDirent p dp off "isdirempty: readi"
    if de.inum ≠ 0 then return false
    else emptyFrom p dp n (off + 16)

/-- `isdirempty`: no entries besides the first two. -/
def isdirempty (p : Pid) (dp : ℕ) : Act Bool := do
  let s ← get
  emptyFrom p dp (entryCount (s.icache dp).d.size.toNat - 2) 32

/-! ## Paths -/

abbrev Path := List UInt8

/-- The next path element and the rest of the path without leading slashes. -/
def skipelem (path : Path) : Option (List UInt8 × Path) :=
  match path.dropWhile (· == 47) with
  | [] => none
  | c :: cs =>
    some (((c :: cs).takeWhile (· != 47)).take DIRSIZ,
      ((c :: cs).dropWhile (· != 47)).dropWhile (· == 47))

/-- The loop of `namex`. Each turn consumes a byte of the path, so its length is
fuel enough. -/
def namexLoop (p : Pid) (parent : Bool) :
    ℕ → Path → List UInt8 → ℕ → Option Ticket → Call (Option (ℕ × List UInt8 × Option Ticket))
  | 0, _, _, _, _ => pure none
  | fuel + 1, path, name, ip, t =>
    match skipelem path with
    | none =>
      if parent then do
        iput p ip
        return none
      else return some (ip, name, t)
    | some (name, path) => do
      let d ← ilock t ip
      if d.type ≠ T_DIR then do
        iunlockput p ip
        return none
      else if parent ∧ path = [] then do
        iunlock ip
        return some (ip, name, t)
      else do
        match ← dirlookup p ip name with
        | none => do
          iunlockput p ip
          return none
        | some (next, _, t') => do
          iunlockput p ip
          namexLoop p parent fuel path name next (some t')

/-- `idup(proc->cwd)` -/
def idupCwd (p : Pid) : Act ℕ := do
  let s ← get
  match (s.proc p).cwd with
  | none => panic "no working directory"
  | some k => idup k

def namex (p : Pid) (path : Path) (parent : Bool) :
    Call (Option (ℕ × List UInt8 × Option Ticket)) := do
  let ip ← if path.head? = some 47 then liftM (iget ROOTINO) else liftM (idupCwd p)
  namexLoop p parent (path.length + 1) path [] ip none

def namei (p : Pid) (path : Path) : Call (Option (ℕ × Option Ticket)) := do
  match ← namex p path false with
  | none => return none
  | some (ip, _, t) => return some (ip, t)

def nameiparent (p : Pid) (path : Path) : Call (Option (ℕ × List UInt8 × Option Ticket)) :=
  namex p path true

end Lainos.Kernel
