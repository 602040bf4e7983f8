import Lainos.Kernel.State

/-!
# The file system

`fs.c`, layer by layer: blocks, inodes, contents, directories and path names. An
`Act` is code that runs between two synchronisation points; a `Call` may be
interrupted between its steps. An inode's contents are only touched with the
inode locked, so reading, writing and searching it are single steps; each section
under the cache's lock is one.
-/

namespace Lainos.Kernel

open Library

/-! ## Blocks -/

def readsb : Act Superblock := do
  let s ← get
  return Superblock.decode (s.disk 1)

def bzero (p : Pid) (b : ℕ) : Act Unit := logWrite p b zeroBlock

/-- The first block from `b` on, of `n` blocks, that is not marked in use. -/
def firstFree (disk : Disk) (ninodes : ℕ) : ℕ → ℕ → Option ℕ
  | 0, _ => none
  | n + 1, b =>
    if testBit (disk (BBLOCK b ninodes)) (b % BPB) then firstFree disk ninodes n (b + 1)
    else some b

def balloc (p : Pid) : Act UInt32 := do
  let sb ← readsb
  let s ← get
  match firstFree s.disk sb.ninodes.toNat sb.size.toNat 0 with
  | none => panic "balloc: out of blocks"
  | some b => do
    let map := BBLOCK b sb.ninodes.toNat
    logWrite p map (setBit (s.disk map) (b % BPB))
    bzero p b
    modify fun t => t.note (.balloc s.disk b)
    return UInt32.ofNat b

def bfree (p : Pid) (b : UInt32) : Act Unit := do
  let sb ← readsb
  let s ← get
  let map := BBLOCK b.toNat sb.ninodes.toNat
  if testBit (s.disk map) (b.toNat % BPB) then
    logWrite p map (clearBit (s.disk map) (b.toNat % BPB))
  else panic "freeing free block"

/-! ## The inode cache -/

/-- The cache entry for inode `inum`, among the entries below `n`. -/
def cached (icache : ℕ → Inode) (inum : ℕ) : ℕ → Option ℕ
  | 0 => none
  | n + 1 =>
    match cached icache inum n with
    | some k => some k
    | none => if 0 < (icache n).ref ∧ (icache n).inum = inum then some n else none

/-- The first unused cache entry. -/
def unusedEntry (icache : ℕ → Inode) : ℕ → Option ℕ
  | 0 => none
  | n + 1 =>
    match unusedEntry icache n with
    | some k => some k
    | none => if (icache n).ref = 0 then some n else none

def iget (inum : ℕ) : Act ℕ := do
  let s ← get
  match cached s.icache inum NINODE with
  | some k => do
    set (s.setRef k ((s.icache k).ref + 1))
    return k
  | none =>
    match unusedEntry s.icache NINODE with
    | none => panic "iget: no inodes"
    | some k => do
      set (s.setInode k ⟨inum, 1, false, false, (s.icache k).d⟩)
      return k

def idup (k : ℕ) : Act ℕ := do
  let s ← get
  set (s.setRef k ((s.icache k).ref + 1))
  return k

/-- `iupdate`: copy the cached inode to disk. -/
def iupdate (p : Pid) (k : ℕ) : Act Unit := do
  let s ← get
  let ip := s.icache k
  logWrite p (IBLOCK ip.inum) (putDinode (s.disk (IBLOCK ip.inum)) (ip.inum % IPB) ip.d)

/-- The first inode from `inum` on, of `n`, that has no type on disk. -/
def freeInode (disk : Disk) : ℕ → ℕ → Option ℕ
  | 0, _ => none
  | n + 1, inum => if (dinodeAt disk inum).type = 0 then some inum else freeInode disk n (inum + 1)

def ialloc (p : Pid) (type : Int16) : Act ℕ := do
  let sb ← readsb
  let s ← get
  match freeInode s.disk (sb.ninodes.toNat - 1) 1 with
  | none => panic "ialloc: no inodes"
  | some inum => do
    logWrite p (IBLOCK inum)
      (putDinode (s.disk (IBLOCK inum)) (inum % IPB) ⟨type, 0, 0, 0, 0, fun _ => 0⟩)
    iget inum

/-- `ilock` up to the release of the cache's lock. -/
def ilockEnter (k : ℕ) : Act Unit := do
  let s ← get
  if (s.icache k).ref < 1 then panic "ilock"
  else if (s.icache k).busy then sleep (.inode k)
  else set (s.setFlags k true (s.icache k).valid)

/-- The rest of `ilock`: read the inode from disk unless that was done before. -/
def ilockLoad (t : Option Ticket) (k : ℕ) : Act Dinode := do
  modify fun s => s.note
    (.locks t (s.icache k).inum (dinodeAt s.disk (s.icache k).inum).type)
  let s ← get
  if (s.icache k).valid then return (s.icache k).d
  else do
    let d := dinodeAt s.disk (s.icache k).inum
    set (s.setInode k ⟨(s.icache k).inum, (s.icache k).ref, (s.icache k).busy, true, d⟩)
    if d.type = 0 then panic "ilock: no type"
    else return d

def ilock (t : Option Ticket) (k : ℕ) : Call Dinode := do
  ilockEnter k
  ilockLoad t k

def iunlock (k : ℕ) : Act Unit := do
  let s ← get
  if (s.icache k).busy = false ∨ (s.icache k).ref < 1 then panic "iunlock"
  else set (s.setFlags k false (s.icache k).valid)

/-! ## Inode contents -/

/-- `bmap`: the block of index `bn`, allocated if there is none. -/
def bmap (p : Pid) (k bn : ℕ) : Act UInt32 := do
  let s ← get
  let d := (s.icache k).d
  if bn < NDIRECT then
    if d.addr bn = 0 then do
      let b ← balloc p
      modify fun s => s.setD k ((s.icache k).d.setAddr bn b)
      return b
    else return d.addr bn
  else if bn - NDIRECT < NINDIRECT then do
    let ind ← if d.addr NDIRECT = 0 then do
        let b ← balloc p
        modify fun s => s.setD k ((s.icache k).d.setAddr NDIRECT b)
        pure b
      else pure (d.addr NDIRECT)
    let s ← get
    let a := get32 (s.disk ind.toNat) (4 * (bn - NDIRECT))
    if a = 0 then do
      let b ← balloc p
      let s ← get
      logWrite p ind.toNat (put32 (s.disk ind.toNat) (4 * (bn - NDIRECT)) b)
      return b
    else return a
  else panic "bmap: out of range"

def freeDirect (p : Pid) (k : ℕ) : List ℕ → Act Unit
  | [] => pure ()
  | i :: is => do
    let s ← get
    if (s.icache k).d.addr i = 0 then freeDirect p k is
    else do
      bfree p ((s.icache k).d.addr i)
      modify fun s => s.setD k ((s.icache k).d.setAddr i 0)
      freeDirect p k is

def freeEntries (p : Pid) (a : Block) : List ℕ → Act Unit
  | [] => pure ()
  | j :: js =>
    if get32 a (4 * j) = 0 then freeEntries p a js
    else do
      bfree p (get32 a (4 * j))
      freeEntries p a js

def itrunc (p : Pid) (k : ℕ) : Act Unit := do
  freeDirect p k (List.range NDIRECT)
  let s ← get
  let ind := (s.icache k).d.addr NDIRECT
  if ind = 0 then pure ()
  else do
    freeEntries p (s.disk ind.toNat) (List.range NINDIRECT)
    bfree p ind
    modify fun s => s.setD k ((s.icache k).d.setAddr NDIRECT 0)
  modify fun s => s.setD k ((s.icache k).d.setSize 0)
  iupdate p k

/-- `iput` up to the decision whether the inode is to be freed; if not, the
reference is dropped. -/
def iputEnter (p : Pid) (k : ℕ) : Act Bool := do
  let s ← get
  let ip := s.icache k
  if ip.ref = 1 ∧ ip.valid = true ∧ ip.d.nlink = 0 then
    if ip.busy then panic "iput busy"
    else do
      set ((s.setFlags k true ip.valid).note (.frees p s.log.owner))
      return true
  else do
    set (s.setRef k (ip.ref - 1))
    return false

def Dinode.setType (d : Dinode) (type : Int16) : Dinode :=
  ⟨type, d.major, d.minor, d.nlink, d.size, d.addrs⟩

def iputFree (p : Pid) (k : ℕ) : Act Unit := do
  modify fun s => s.note (.truncs k (s.icache k).d.nlink s.ftable)
  itrunc p k
  modify fun s => s.setD k (Dinode.setType (s.icache k).d 0)
  iupdate p k
  modify fun s => s.note (.freed (s.icache k).inum)

def iputLeave (k : ℕ) : Act Unit := do
  let s ← get
  let ip := s.icache k
  set (s.setInode k ⟨ip.inum, ip.ref - 1, false, false, ip.d⟩)

def iput (p : Pid) (k : ℕ) : Call Unit := do
  let free ← iputEnter p k
  if free then do
    iputFree p k
    iputLeave k
  else pure ()

def iunlockput (p : Pid) (k : ℕ) : Call Unit := do
  iunlock k
  iput p k

/-- The bytes of a block from offset `o` on. -/
def bytesFrom (b : Block) (o n : ℕ) : List UInt8 := (List.range n).map fun i => b (o + i)

/-- The loop of `readi`; `fuel` bounds the turns. -/
def readLoop (p : Pid) (k : ℕ) : ℕ → ℕ → ℕ → Act (List UInt8)
  | 0, _, _ => pure []
  | fuel + 1, off, n =>
    if n = 0 then pure []
    else do
      modify fun s =>
        if off / BSIZE < MAXFILE ∧ mapAt s.disk (s.icache k).d (off / BSIZE) = 0 then
          s.note (.fills p s.log.owner)
        else s
      let b ← bmap p k (off / BSIZE)
      let s ← get
      let m := min n (BSIZE - off % BSIZE)
      let rest ← readLoop p k fuel (off + m) (n - m)
      return bytesFrom (s.disk b.toNat) (off % BSIZE) m ++ rest

/-- `readi` for an inode that is not a device; `none` is the result -1. -/
def readFile (p : Pid) (k : ℕ) (off n : UInt32) : Act (Option (List UInt8)) := do
  let s ← get
  let size := (s.icache k).d.size
  if size < off ∨ off + n < off then return none
  else do
    let n := if size < off + n then size - off else n
    let bytes ← readLoop p k n.toNat off.toNat n.toNat
    return some bytes

def writeLoop (p : Pid) (k : ℕ) : ℕ → ℕ → ℕ → Bytes → Act Unit
  | 0, _, _, _ => pure ()
  | fuel + 1, off, n, src =>
    if n = 0 then pure ()
    else do
      let b ← bmap p k (off / BSIZE)
      let s ← get
      let m := min n (BSIZE - off % BSIZE)
      logWrite p b.toNat (splice (s.disk b.toNat) (off % BSIZE) m src)
      writeLoop p k fuel (off + m) (n - m) (shift src m)

/-- `writei` for an inode that is not a device; `none` is the result -1. -/
def writeFile (p : Pid) (k : ℕ) (src : Bytes) (off n : UInt32) : Act (Option ℕ) := do
  let s ← get
  let size := (s.icache k).d.size
  if size < off ∨ off + n < off then return none
  else if UInt32.ofNat (MAXFILE * BSIZE) < off + n then return none
  else do
    writeLoop p k n.toNat off.toNat n.toNat src
    if 0 < n ∧ size < off + n then do
      modify fun s => s.setD k ((s.icache k).d.setSize (off + n))
      iupdate p k
    else pure ()
    return some n.toNat

end Lainos.Kernel
