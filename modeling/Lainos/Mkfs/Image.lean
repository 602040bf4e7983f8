import Lainos.Disk.Inode
import Lainos.Library.Exec

/-!
# mkfs

`mkfs.c` as a program over the image file. The host directory is a tree whose
entries stand in the order `readdir` returns them; the host's own calls (`open`,
`fstat`, `readdir`, `fchdir`) are taken to succeed. `written` and `assigned` do
not exist in the source: they record the inode numbers passed to `winode` and
the block numbers taken from `freeblock`.
-/

namespace Lainos.Mkfs

open Library

/-- Why mkfs exits without an image. -/
inductive Abort where
  | assertion (expr : String)
  | perror (what : String)
  deriving DecidableEq, Repr

structure State where
  img : Disk
  nsect : ℕ
  freeblock : ℕ
  usedblocks : ℕ
  bitblocks : ℕ
  freeinode : ℕ
  written : List ℕ
  assigned : List ℕ

abbrev M := Exec Abort State

def ninodes : ℕ := 200

/-! ## Sectors -/

def State.store (st : State) (sec : ℕ) (buf : Block) : State :=
  { st with img := Function.update st.img sec buf, nsect := max st.nsect (sec + 1) }

/-- `freeblock++` and `usedblocks++`. -/
def State.take (st : State) : State :=
  { st with
    freeblock := st.freeblock + 1
    usedblocks := st.usedblocks + 1
    assigned := st.assigned ++ [st.freeblock] }

def State.wrote (st : State) (inum : ℕ) : State := { st with written := st.written ++ [inum] }

/-- Writing past the end makes the image longer. -/
def wsect (sec : ℕ) (buf : Block) : M Unit := modify fun st => st.store sec buf

def rsect (sec : ℕ) : M Block := do
  let st ← get
  if sec < st.nsect then return st.img sec
  else throw (.perror "read")

def i2b (inum : ℕ) : ℕ := inum / IPB + 2

def winode (inum : ℕ) (ip : Dinode) : M Unit := do
  let buf ← rsect (i2b inum)
  wsect (i2b inum) (putDinode buf (inum % IPB) ip)
  modify fun st => st.wrote inum

def rinode (inum : ℕ) : M Dinode := do
  let buf ← rsect (i2b inum)
  return getDinode buf (inum % IPB)

/-! ## Inodes and their blocks -/

def ialloc (type : Int16) : M ℕ := do
  let st ← get
  set { st with freeinode := st.freeinode + 1 }
  winode st.freeinode ⟨type, 0, 0, 1, 0, fun _ => 0⟩
  return st.freeinode

def takeBlock : M UInt32 := do
  let st ← get
  set st.take
  return UInt32.ofNat st.freeblock

/-- The indirect block of an inode, allocated if need be. -/
def indirectOf (din : Dinode) : M Dinode :=
  if din.addr NDIRECT = 0 then do
    let b ← takeBlock
    return din.setAddr NDIRECT b
  else return din

/-- The block that holds block index `fbn` of a file, allocated if need be. -/
def blockFor (din : Dinode) (fbn : ℕ) : M (Dinode × UInt32) :=
  if fbn < NDIRECT then
    if din.addr fbn = 0 then do
      let b ← takeBlock
      return (din.setAddr fbn b, b)
    else return (din, din.addr fbn)
  else do
    let din ← indirectOf din
    let indirect ← rsect (din.addr NDIRECT).toNat
    let x := get32 indirect (4 * (fbn - NDIRECT))
    if x = 0 then do
      let b ← takeBlock
      wsect (din.addr NDIRECT).toNat (put32 indirect (4 * (fbn - NDIRECT)) b)
      return (din, b)
    else return (din, x)

/-- Bytes as a buffer; what lies behind them is never copied. -/
def buffer (p : List UInt8) : Bytes := fun i => p.getD i 0

/-- The loop of `iappend`, which copies at most one block a turn. -/
def appendLoop : ℕ → Dinode → ℕ → List UInt8 → M (Dinode × ℕ)
  | 0, din, off, _ => return (din, off)
  | fuel + 1, din, off, p =>
    if p = [] then return (din, off)
    else do
      let fbn := off / BSIZE
      if fbn < MAXFILE then do
        let (din, x) ← blockFor din fbn
        let n1 := min p.length ((fbn + 1) * BSIZE - off)
        let buf ← rsect x.toNat
        wsect x.toNat (splice buf (off - fbn * BSIZE) n1 (buffer p))
        appendLoop fuel din (off + n1) (p.drop n1)
      else throw (.assertion "fbn < MAXFILE")

/-- Append `p` to the file `inum`. Every turn of the loop copies a byte, so the
length of `p` is fuel enough. -/
def iappend (inum : ℕ) (p : List UInt8) : M Unit := do
  let din ← rinode inum
  let (din, off) ← appendLoop p.length din din.size.toNat p
  winode inum (din.setSize (UInt32.ofNat off))

/-! ## Directories -/

/-- A host directory. Names are the host's, without NUL and `/`. -/
inductive HostDir where
  | nil
  | file (name : List UInt8) (bytes : List UInt8) (rest : HostDir)
  | dir (name : List UInt8) (sub : HostDir) (rest : HostDir)

/-- `entry->d_name[0] == '.'` -/
def hidden (name : List UInt8) : Bool := name.head? == some 46

/-- `strncpy` of a host name into an entry, then `_` in front becomes `.` -/
def entryName (name : List UInt8) : Fin 14 → UInt8 := fun j =>
  if j = 0 ∧ name.getD 0 0 = 95 then 46 else name.getD j.val 0

def direntBytes (inum : ℕ) (name : Fin 14 → UInt8) : List UInt8 :=
  (List.range 16).map (Dirent.encode ⟨UInt16.ofNat inum, name⟩)

/-- The names `.` and `..`, as `strcpy` leaves them in a zeroed entry. -/
def dotName : Fin 14 → UInt8 := fun j => if j = 0 then 46 else 0

def dotdotName : Fin 14 → UInt8 := fun j => if j = 0 ∨ j = 1 then 46 else 0

/-- `read` and `iappend` block by block until the end of the file. -/
def copyFile (inum : ℕ) : ℕ → List UInt8 → M Unit
  | 0, _ => pure ()
  | fuel + 1, bytes =>
    if bytes = [] then pure ()
    else do
      iappend inum (bytes.take BSIZE)
      copyFile inum fuel (bytes.drop BSIZE)

/-- The first two entries of a directory. -/
def addDots (cur parent : ℕ) : M Unit := do
  iappend cur (direntBytes cur dotName)
  iappend cur (direntBytes parent dotdotName)

/-- `fix size of inode cur_dir` -/
def fixSize (cur : ℕ) : M Unit := do
  let din ← rinode cur
  winode cur (din.setSize (UInt32.ofNat ((din.size.toNat / BSIZE + 1) * BSIZE)))

/-- The loop over the host directory in `add_dir`. -/
def addEntries (cur : ℕ) : HostDir → M Unit
  | .nil => pure ()
  | .file name bytes rest =>
    if hidden name then addEntries cur rest
    else do
      let child ← ialloc T_FILE
      copyFile child bytes.length bytes
      iappend cur (direntBytes child (entryName name))
      addEntries cur rest
  | .dir name sub rest =>
    if hidden name then addEntries cur rest
    else do
      let child ← ialloc T_DIR
      addDots child cur
      addEntries child sub
      fixSize child
      iappend cur (direntBytes child (entryName name))
      addEntries cur rest

def addDir (dir : HostDir) (cur parent : ℕ) : M Unit := do
  addDots cur parent
  addEntries cur dir
  fixSize cur

/-! ## The image -/

def zeroSectors : ℕ → M Unit
  | 0 => pure ()
  | n + 1 => do
    zeroSectors n
    wsect n zeroBlock

def mkfs (nblocks nlog size : ℕ) : M Unit := do
  let bitblocks := size / (512 * 8) + 1
  let used := ninodes / IPB + 3 + bitblocks
  modify fun st => { st with bitblocks := bitblocks, usedblocks := used, freeblock := used }
  if nblocks + used + nlog = size then do
    zeroSectors (nblocks + used + nlog)
    wsect 1 (Superblock.encode
      ⟨UInt32.ofNat size, UInt32.ofNat nblocks, UInt32.ofNat ninodes, UInt32.ofNat nlog⟩)
  else throw (.assertion "nblocks + usedblocks + nlog == size")

/-- The bitmap block with the bits of the first `used` blocks set. -/
def bitmap : ℕ → Block
  | 0 => zeroBlock
  | n + 1 => setBit (bitmap n) n

def balloc (used : ℕ) : M Unit :=
  if used < 512 * 8 then wsect (ninodes / IPB + 3) (bitmap used)
  else throw (.assertion "used < 512 * 8")

/-- The image file right after `open` with `O_TRUNC`. -/
def State.empty : State := ⟨fun _ => zeroBlock, 0, 0, 0, 0, 1, [], []⟩

def main (root : HostDir) : M Unit := do
  mkfs 985 LOGSIZE 1024
  let rootInode ← ialloc T_DIR
  if rootInode = ROOTINO then do
    addDir root rootInode rootInode
    let st ← get
    balloc st.usedblocks
  else throw (.assertion "root_inode == ROOTINO")

end Lainos.Mkfs
