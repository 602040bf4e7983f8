import Lainos.Disk.Inode
import Lainos.Library.Thread

/-!
# Kernel state

The tables the file-system code shares between processes: the inode cache, the
table of open files, the pipes, the processes' working directories and descriptors,
and the transaction in progress. The disk is the sectors as seen through the buffer cache,
those of the log included; which of them a crash leaves behind is the subject of
`Lainos.Log`. All inodes are on the root device. The trace is ghost state: it
records what the properties talk about.
-/

namespace Lainos.Kernel

open Library

abbrev Pid := ℕ

/-- `struct inode`: an entry of the inode cache. -/
structure Inode where
  inum : ℕ
  ref : ℤ
  busy : Bool
  valid : Bool
  d : Dinode

inductive FdType where
  | none
  | pipe
  | inode
  deriving DecidableEq

/-- `struct file`; `pipe` is the page of a pipe and `ip` the index of a cache entry. -/
structure File where
  type : FdType
  ref : ℤ
  readable : Bool
  writable : Bool
  pipe : ℕ
  ip : ℕ
  off : UInt32

/-- Which ends of a pipe are open. What passes through it is the subject of
`Lainos.Pipe`. -/
structure Pipe where
  readopen : Bool
  writeopen : Bool

inductive ProcState where
  | unused
  | embryo
  | running
  | zombie
  deriving DecidableEq

/-- What `struct proc` holds of the file system. -/
structure Proc where
  state : ProcState
  cwd : Option ℕ
  ofile : ℕ → Option ℕ

/-- The log as its users see it. `owner` is the process whose `begin_trans` set
`busy`. -/
structure Logger where
  start : ℕ
  size : ℕ
  busy : Bool
  sectors : List ℕ
  owner : Option Pid

/-- The inode that a lookup returned, and how often it had been freed until then. -/
structure Ticket where
  inum : ℕ
  freed : ℕ

/-- What a process sleeps on: the log, a cache entry, or a buffer. -/
inductive Chan where
  | log
  | inode (k : ℕ)
  | buffer (b : ℕ)

inductive Event where
  /-- `log_write` by a process. -/
  | logWrite (p : Pid) (owner : Option Pid)
  /-- `balloc` returned a block; the disk as it found it. -/
  | balloc (disk : Disk) (b : ℕ)
  /-- `iput` dropped the last reference to an inode without links. -/
  | frees (p : Pid) (owner : Option Pid)
  /-- `itrunc` was started on the inode of a cache entry; its link count and the open
  files then. -/
  | truncs (k : ℕ) (nlink : Int16) (ftable : ℕ → File)
  /-- A read came to a block index without a block. -/
  | fills (p : Pid) (owner : Option Pid)
  /-- A name was looked up in a directory with `nlink` links. -/
  | looks (nlink : Int16) (name : List UInt8)
  /-- The entry at an offset of a directory was found to name an inode. -/
  | found (dir off inum : ℕ)
  /-- An entry was written into a directory with `nlink` links. -/
  | enters (nlink : Int16) (dir off inum : ℕ)
  /-- The link count of an inode went up from `nlink`. -/
  | raises (type nlink : Int16)
  /-- An inode was freed on disk. -/
  | freed (inum : ℕ)
  /-- An inode was locked that had a type on disk; if `dirlookup` had returned it, what
  was looked up. -/
  | locks (t : Option Ticket) (inum : ℕ) (type : Int16)
  /-- A process went to sleep. -/
  | sleeps (c : Chan)
  /-- A process entered a system call, and whether that is one which changes descriptors. -/
  | calls (p : Pid) (descriptors : Bool)
  | returns (p : Pid)
  /-- A file was opened on the inode of a cache entry. -/
  | opens (f k : ℕ)
  /-- The last reference to a file with an inode went. -/
  | closes (f k : ℕ)
  /-- A page was taken for a pipe. -/
  | kalloc (x : ℕ)
  /-- The page of a pipe was freed. -/
  | kfree (x : ℕ)
  /-- A process entered `piperead` or `pipewrite`. -/
  | inPipe (p : Pid) (x : ℕ)
  | outPipe (p : Pid)

/-- How often an inode has been freed. -/
def freedCount (i : ℕ) : List Event → ℕ
  | [] => 0
  | .freed j :: tr => freedCount i tr + if j = i then 1 else 0
  | _ :: tr => freedCount i tr

structure Sys where
  disk : Disk
  log : Logger
  icache : ℕ → Inode
  ftable : ℕ → File
  pipe : ℕ → Option Pipe
  proc : Pid → Proc
  trace : List Event

/-- A panic or a wait, with the state in which it happened. -/
structure Halt where
  why : Stuck
  last : Sys

abbrev Act := Exec Halt Sys

abbrev Call := Thread Halt Sys

def panic {α : Type} (msg : String) : Act α := fun s => .error ⟨.panic msg, s⟩


@[simp] theorem ends_panic {α : Type} {msg : String} {Q : α → Sys → Prop} {E : Halt → Prop}
    {s : Sys} : Exec.Ends (panic msg) Q E s ↔ E ⟨.panic msg, s⟩ := Iff.rfl

namespace Sys

variable (s : Sys)

@[simps -fullyApplied] def setDisk (disk : Disk) : Sys :=
  ⟨disk, s.log, s.icache, s.ftable, s.pipe, s.proc, s.trace⟩

@[simps -fullyApplied] def setLog (log : Logger) : Sys :=
  ⟨s.disk, log, s.icache, s.ftable, s.pipe, s.proc, s.trace⟩

@[simps -fullyApplied] def setInode (k : ℕ) (ip : Inode) : Sys :=
  ⟨s.disk, s.log, Function.update s.icache k ip, s.ftable, s.pipe, s.proc, s.trace⟩

@[simps -fullyApplied] def setFile (k : ℕ) (f : File) : Sys :=
  ⟨s.disk, s.log, s.icache, Function.update s.ftable k f, s.pipe, s.proc, s.trace⟩

@[simps -fullyApplied] def setPipe (x : ℕ) (pi : Option Pipe) : Sys :=
  ⟨s.disk, s.log, s.icache, s.ftable, Function.update s.pipe x pi, s.proc, s.trace⟩

@[simps -fullyApplied] def setProc (p : Pid) (pr : Proc) : Sys :=
  ⟨s.disk, s.log, s.icache, s.ftable, s.pipe, Function.update s.proc p pr, s.trace⟩

@[simps -fullyApplied] def note (e : Event) : Sys :=
  ⟨s.disk, s.log, s.icache, s.ftable, s.pipe, s.proc, e :: s.trace⟩

@[simps -fullyApplied] def setRef (k : ℕ) (ref : ℤ) : Sys :=
  ⟨s.disk, s.log, Function.update s.icache k
    ⟨(s.icache k).inum, ref, (s.icache k).busy, (s.icache k).valid, (s.icache k).d⟩,
    s.ftable, s.pipe, s.proc, s.trace⟩

@[simps -fullyApplied] def setFlags (k : ℕ) (busy valid : Bool) : Sys :=
  ⟨s.disk, s.log, Function.update s.icache k
    ⟨(s.icache k).inum, (s.icache k).ref, busy, valid, (s.icache k).d⟩,
    s.ftable, s.pipe, s.proc, s.trace⟩

@[simps -fullyApplied] def setD (k : ℕ) (d : Dinode) : Sys :=
  ⟨s.disk, s.log, Function.update s.icache k
    ⟨(s.icache k).inum, (s.icache k).ref, (s.icache k).busy, (s.icache k).valid, d⟩,
    s.ftable, s.pipe, s.proc, s.trace⟩

@[simps -fullyApplied] def setFd (p : Pid) (fd : ℕ) (f : Option ℕ) : Sys :=
  ⟨s.disk, s.log, s.icache, s.ftable, s.pipe, Function.update s.proc p
    ⟨(s.proc p).state, (s.proc p).cwd, Function.update (s.proc p).ofile fd f⟩, s.trace⟩

@[simps -fullyApplied] def setCwd (p : Pid) (cwd : Option ℕ) : Sys :=
  ⟨s.disk, s.log, s.icache, s.ftable, s.pipe, Function.update s.proc p
    ⟨(s.proc p).state, cwd, (s.proc p).ofile⟩, s.trace⟩

@[simps -fullyApplied] def setState (p : Pid) (state : ProcState) : Sys :=
  ⟨s.disk, s.log, s.icache, s.ftable, s.pipe, Function.update s.proc p
    ⟨state, (s.proc p).cwd, (s.proc p).ofile⟩, s.trace⟩

@[simps -fullyApplied] def setFileRef (f : ℕ) (ref : ℤ) : Sys :=
  ⟨s.disk, s.log, s.icache, Function.update s.ftable f
    ⟨(s.ftable f).type, ref, (s.ftable f).readable, (s.ftable f).writable, (s.ftable f).pipe,
      (s.ftable f).ip, (s.ftable f).off⟩, s.pipe, s.proc, s.trace⟩

end Sys

/-- `sleep`: the step is not taken. What the process waits for is left as a note. -/
def sleep {α : Type} (c : Chan) : Act α := fun s => .error ⟨.sleep, s.note (.sleeps c)⟩

@[simp] theorem ends_sleep {α : Type} {c : Chan} {Q : α → Sys → Prop} {E : Halt → Prop} {s : Sys} :
    Exec.Ends (sleep c) Q E s ↔ E ⟨.sleep, s.note (.sleeps c)⟩ := Iff.rfl

/-! ## Transactions -/

/-- `begin_trans`. -/
def beginTrans (p : Pid) : Act Unit := do
  let s ← get
  if s.log.busy then sleep .log
  else set (s.setLog ⟨s.log.start, s.log.size, true, s.log.sectors, some p⟩)

/-- The header block of the log: the number of sectors, and the sectors. -/
def putHeader (b : Block) (sectors : List ℕ) : Block :=
  splice (put32 b 0 (UInt32.ofNat sectors.length)) 4 (4 * sectors.length) fun i =>
    word32 (UInt32.ofNat (sectors.getD (i / 4) 0)) (i % 4)

/-- `install_trans`: copy the blocks of the log from block `slot` on home. -/
def install (slot : ℕ) : List ℕ → Disk → Disk
  | [], disk => disk
  | b :: bs, disk => install (slot + 1) bs (Function.update disk b (disk slot))

/-- What `commit_trans` does to the disk. -/
def Logger.commit (log : Logger) (disk : Disk) : Disk :=
  if log.sectors = [] then disk
  else
    let disk := Function.update disk log.start (putHeader (disk log.start) log.sectors)
    let disk := install (log.start + 1) log.sectors disk
    Function.update disk log.start (putHeader (disk log.start) [])

/-- `commit_trans`. -/
def commitTrans : Act Unit := do
  let s ← get
  set ((s.setDisk (s.log.commit s.disk)).setLog ⟨s.log.start, s.log.size, false, [], none⟩)

/-- The log's block for a sector. -/
def Logger.slot (log : Logger) (b : ℕ) : ℕ := log.start + log.sectors.idxOf b + 1

/-- What `log_write` does with a block that was changed in the cache. -/
@[simps -fullyApplied] def Sys.logged (s : Sys) (p : Pid) (b : ℕ) (data : Block) : Sys :=
  ⟨Function.update (Function.update s.disk b data) (s.log.slot b) data,
    ⟨s.log.start, s.log.size, s.log.busy,
      if b ∈ s.log.sectors then s.log.sectors else s.log.sectors ++ [b], s.log.owner⟩,
    s.icache, s.ftable, s.pipe, s.proc, .logWrite p s.log.owner :: s.trace⟩

/-- A block is changed in the cache and passed to `log_write`. The block is held, so
if the log is to keep its copy in the same block, the process waits for itself. -/
def logWrite (p : Pid) (b : ℕ) (data : Block) : Act Unit := do
  let s ← get
  if LOGSIZE ≤ s.log.sectors.length ∨ s.log.size ≤ s.log.sectors.length + 1 then
    panic "too big a transaction"
  else if s.log.busy = false then
    panic "write outside of trans"
  else if s.log.slot b = b then
    sleep (.buffer b)
  else
    set (s.logged p b data)

end Lainos.Kernel
