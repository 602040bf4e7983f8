import Lainos.Kernel.Names

/-!
# File-system calls

`file.c`, `sysfile.c`, the making and closing of pipes in `pipe.c`, and what `fork`,
`exit` and `execve` do with files. A path argument that cannot be fetched from user
memory is `none`; a result -1 is `none`. What the console or a pipe answers, which page
`kalloc` has left, and which parts of its file `execve` reads, are parameters of the calls.
-/

namespace Lainos.Kernel

open Library

def O_RDONLY : UInt32 := 0
def O_WRONLY : UInt32 := 1
def O_RDWR : UInt32 := 2
def O_CREATE : UInt32 := 0x200

def CONSOLE : Int16 := 1

/-- The process that `userinit` makes. -/
def initproc : Pid := 0

/-- What the console or a pipe answers; in a pipe, how often the call slept before. -/
structure Answer where
  result : Option ℕ
  waits : ℕ

def note (e : Event) : Act Unit := modify fun s => s.note e

/-! ## Open files -/

/-- The first unused file, among those below `n`. -/
def unusedFile (ftable : ℕ → File) : ℕ → Option ℕ
  | 0 => none
  | n + 1 =>
    match unusedFile ftable n with
    | some f => some f
    | none => if (ftable n).ref = 0 then some n else none

def filealloc : Act (Option ℕ) := do
  let s ← get
  match unusedFile s.ftable NFILE with
  | none => return none
  | some f => do
    set (s.setFileRef f 1)
    return some f

def filedup (f : ℕ) : Act Unit := do
  let s ← get
  if (s.ftable f).ref < 1 then panic "filedup"
  else set (s.setFileRef f ((s.ftable f).ref + 1))

/-- The section of `fileclose` under the table's lock: the file, if its last reference
went. -/
def fileDrop (f : ℕ) : Act (Option File) := do
  let s ← get
  let ff := s.ftable f
  if ff.ref < 1 then panic "fileclose"
  else if 0 < ff.ref - 1 then do
    set (s.setFileRef f (ff.ref - 1))
    return none
  else do
    set (s.setFile f ⟨.none, 0, ff.readable, ff.writable, ff.pipe, ff.ip, ff.off⟩)
    if ff.type = .inode then note (.closes f ff.ip) else pure ()
    return some ff

/-- `pipeclose`. In a page that was freed before, both ends count as closed. -/
def pipeclose (x : ℕ) (writable : Bool) : Act Unit := do
  let s ← get
  let pi := (s.pipe x).getD ⟨false, false⟩
  let pi : Pipe := ⟨pi.readopen && writable, pi.writeopen && !writable⟩
  if pi.readopen = false ∧ pi.writeopen = false then
    set ((s.setPipe x none).note (.kfree x))
  else set (s.setPipe x (some pi))

def fileclose (p : Pid) (f : ℕ) : Call Unit := do
  match ← fileDrop f with
  | none => return ()
  | some ff =>
    match ff.type with
    | .none => return ()
    | .pipe => liftM (pipeclose ff.pipe ff.writable)
    | .inode => do
      beginTrans p
      iput p ff.ip
      commitTrans

def getFile (f : ℕ) : Act File := do
  let s ← get
  return s.ftable f

def filestat (f : ℕ) : Call (Option Dinode) := do
  let file ← getFile f
  if file.type = .inode then do
    let d ← ilock none file.ip
    iunlock file.ip
    return some d
  else return none

/-- `consoleread` and `consolewrite`: the inode is unlocked meanwhile. -/
def console (k : ℕ) (answer : Option ℕ) : Call (Option ℕ) := do
  iunlock k
  let _ ← ilock none k
  return answer

/-- The device case of `readi` and `writei`. -/
def device (d : Dinode) (k : ℕ) (answer : Option ℕ) : Call (Option ℕ) :=
  if d.major = CONSOLE then console k answer else return none

/-- `f->off += r` -/
def advance (f r : ℕ) : Act Unit := do
  let s ← get
  let file := s.ftable f
  set (s.setFile f ⟨file.type, file.ref, file.readable, file.writable, file.pipe, file.ip,
    file.off + UInt32.ofNat r⟩)

/-- `readi` at the file's offset, which moves on. -/
def readAdvance (p : Pid) (f : ℕ) (n : UInt32) : Act (Option ℕ) := do
  let file ← getFile f
  match ← readFile p file.ip file.off n with
  | none => return none
  | some bytes => do
    advance f bytes.length
    return some bytes.length

/-- The sleeps of `piperead` and `pipewrite`. -/
def pipeWaits : ℕ → Call Unit
  | 0 => pure ()
  | n + 1 => do
    liftM (pure () : Act Unit)
    pipeWaits n

/-- `piperead` and `pipewrite` as far as the page goes that they work on. -/
def pipeCall (p : Pid) (x : ℕ) (answer : Answer) : Call (Option ℕ) := do
  note (.inPipe p x)
  pipeWaits answer.waits
  note (.outPipe p)
  return answer.result

def fileread (p : Pid) (f : ℕ) (n : UInt32) (answer : Answer) : Call (Option ℕ) := do
  let file ← getFile f
  if file.readable = false then return none
  else match file.type with
    | .none => liftM (panic "fileread" : Act (Option ℕ))
    | .pipe => pipeCall p file.pipe answer
    | .inode => do
      let d ← ilock none file.ip
      let r ← if d.type = T_DEV then do
          let r ← device d file.ip answer.result
          advance f (r.getD 0)
          pure r
        else liftM (readAdvance p f n)
      iunlock file.ip
      return r

def writeAdvance (p : Pid) (f : ℕ) (src : Bytes) (n : UInt32) : Act (Option ℕ) := do
  let file ← getFile f
  match ← writeFile p file.ip src file.off n with
  | none => return none
  | some r => do
    advance f r
    return some r

/-- How much `filewrite` writes in one transaction. -/
def writeMax : ℕ := (LOGSIZE - 1 - 1 - 2) / 2 * 512

/-- The loop of `filewrite` over the remaining `n` bytes; each turn writes some, so
that `n` is fuel enough. -/
def writeChunks (p : Pid) (f ip : ℕ) : ℕ → ℕ → Bytes → Call Bool
  | 0, n, _ => return decide (n = 0)
  | fuel + 1, n, src =>
    if n = 0 then return true
    else do
      let n1 := min n writeMax
      beginTrans p
      let d ← ilock none ip
      let r ← if d.type = T_DEV then do
          let r ← device d ip (some n1)
          advance f (r.getD 0)
          pure r
        else liftM (writeAdvance p f src (UInt32.ofNat n1))
      iunlock ip
      commitTrans
      match r with
      | none => return false
      | some r =>
        if r ≠ n1 then liftM (panic "short filewrite" : Act Bool)
        else writeChunks p f ip fuel (n - n1) (shift src n1)

def filewrite (p : Pid) (f : ℕ) (n : ℕ) (src : Bytes) (answer : Answer) :
    Call (Option ℕ) := do
  let file ← getFile f
  if file.writable = false then return none
  else match file.type with
    | .none => liftM (panic "filewrite" : Act (Option ℕ))
    | .pipe => pipeCall p file.pipe answer
    | .inode => do
      let ok ← writeChunks p f file.ip n n src
      return if ok then some n else none

/-! ## Descriptors -/

/-- `argfd`: the file of a descriptor. -/
def argfd (p : Pid) (fd : ℕ) : Act (Option ℕ) := do
  let s ← get
  return if fd < NOFILE then (s.proc p).ofile fd else none

/-- The first unused descriptor, among those below `n`. -/
def unusedFd (ofile : ℕ → Option ℕ) : ℕ → Option ℕ
  | 0 => none
  | n + 1 =>
    match unusedFd ofile n with
    | some fd => some fd
    | none => if ofile n = none then some n else none

def fdalloc (p : Pid) (f : ℕ) : Act (Option ℕ) := do
  let s ← get
  match unusedFd (s.proc p).ofile NOFILE with
  | none => return none
  | some fd => do
    set (s.setFd p fd (some f))
    return some fd

def sysDup (p : Pid) (fd : ℕ) : Call Unit := do
  match ← argfd p fd with
  | none => return ()
  | some f =>
    match ← fdalloc p f with
    | none => return ()
    | some _ => filedup f

def sysRead (p : Pid) (fd : ℕ) (n : UInt32) (answer : Answer) : Call Unit := do
  match ← argfd p fd with
  | none => return ()
  | some f => do
    let _ ← fileread p f n answer
    return ()

def sysWrite (p : Pid) (fd n : ℕ) (src : Bytes) (answer : Answer) : Call Unit := do
  match ← argfd p fd with
  | none => return ()
  | some f => do
    let _ ← filewrite p f n src answer
    return ()

/-- `proc->ofile[fd] = 0` -/
def clearFd (p : Pid) (fd : ℕ) : Act Unit := modify fun s => s.setFd p fd none

def sysClose (p : Pid) (fd : ℕ) : Call Unit := do
  match ← argfd p fd with
  | none => return ()
  | some f => do
    clearFd p fd
    fileclose p f

def sysFstat (p : Pid) (fd : ℕ) : Call Unit := do
  match ← argfd p fd with
  | none => return ()
  | some f => do
    let _ ← filestat f
    return ()

/-! ## Links -/

def Dinode.setNlink (d : Dinode) (nlink : Int16) : Dinode :=
  ⟨d.type, d.major, d.minor, nlink, d.size, d.addrs⟩

/-- `ip->nlink++; iupdate(ip)` -/
def addLink (p : Pid) (k : ℕ) : Act Unit := do
  modify fun s => (s.setD k (Dinode.setNlink (s.icache k).d ((s.icache k).d.nlink + 1))).note
    (.raises (s.icache k).d.type (s.icache k).d.nlink)
  iupdate p k

/-- `ip->nlink--; iupdate(ip)` -/
def dropLink (p : Pid) (k : ℕ) : Act Unit := do
  modify fun s => s.setD k (Dinode.setNlink (s.icache k).d ((s.icache k).d.nlink - 1))
  iupdate p k

/-- The part of `sys_link` after `bad`. -/
def linkBad (p : Pid) (ip : ℕ) (t : Option Ticket) : Call Unit := do
  let _ ← ilock t ip
  dropLink p ip
  iunlockput p ip
  commitTrans

def sysLink (p : Pid) (old new : Option Path) : Call Unit := do
  match old, new with
  | some old, some new =>
    match ← namei p old with
    | none => return ()
    | some (ip, t) => do
      beginTrans p
      let d ← ilock t ip
      if d.type = T_DIR then do
        iunlockput p ip
        commitTrans
      else do
        addLink p ip
        iunlock ip
        match ← nameiparent p new with
        | none => linkBad p ip t
        | some (dp, name, t') => do
          let _ ← ilock t' dp
          if ← dirlink p dp name ip then do
            iunlockput p dp
            iput p ip
            commitTrans
          else do
            iunlockput p dp
            linkBad p ip t
  | _, _ => return ()

/-- Overwrite an entry with zeros. -/
def clearDirent (p : Pid) (dp off : ℕ) : Act Unit := do
  match ← writeFile p dp (Dirent.encode Dirent.zero) (UInt32.ofNat off) 16 with
  | some 16 => return ()
  | _ => panic "unlink: writei"

/-- The part of `sys_unlink` after `bad`. -/
def unlinkBad (p : Pid) (dp : ℕ) : Call Unit := do
  iunlockput p dp
  commitTrans

/-- `sys_unlink` once the entry was found and its inode `ip` locked. -/
def unlinkFound (p : Pid) (dp ip off : ℕ) (d : Dinode) : Call Unit := do
  clearDirent p dp off
  if d.type = T_DIR then liftM (dropLink p dp) else pure ()
  iunlockput p dp
  dropLink p ip
  iunlockput p ip
  commitTrans

def sysUnlink (p : Pid) (path : Option Path) : Call Unit := do
  match path with
  | none => return ()
  | some path =>
    match ← nameiparent p path with
    | none => return ()
    | some (dp, name, t) => do
      beginTrans p
      let _ ← ilock t dp
      if namecmp name dot = 0 ∨ namecmp name dotdot = 0 then unlinkBad p dp
      else match ← dirlookup p dp name with
        | none => unlinkBad p dp
        | some (ip, off, t') => do
          let d ← ilock (some t') ip
          if d.nlink < 1 then liftM (panic "unlink: nlink < 1" : Act Unit)
          else do
            let empty ← if d.type = T_DIR then liftM (isdirempty p ip) else pure true
            if empty then unlinkFound p dp ip off d
            else do
              iunlockput p ip
              unlinkBad p dp

/-! ## New files -/

/-- The fields `create` gives a new inode. -/
def initInode (p : Pid) (k : ℕ) (major minor : Int16) : Act Unit := do
  modify fun s => s.setD k
    ⟨(s.icache k).d.type, major, minor, 1, (s.icache k).d.size, (s.icache k).d.addrs⟩
  iupdate p k

/-- The entries `.` and `..` of a new directory. -/
def makeDots (p : Pid) (ip dp : ℕ) : Call Unit := do
  let ok ← dirlink p ip dot ip
  let ok ← if ok then dirlink p ip dotdot dp else pure false
  if ok then return ()
  else liftM (panic "create dots" : Act Unit)

/-- `create` once the name is known to be new. -/
def createNew (p : Pid) (dp : ℕ) (name : List UInt8) (type major minor : Int16) : Call ℕ := do
  let ip ← ialloc p type
  let _ ← ilock none ip
  initInode p ip major minor
  if type = T_DIR then do
    addLink p dp
    makeDots p ip dp
  else pure ()
  if ← dirlink p dp name ip then do
    iunlockput p dp
    return ip
  else liftM (panic "create: dirlink" : Act ℕ)

/-- `create`: the cache entry of the inode, locked. -/
def create (p : Pid) (path : Path) (type major minor : Int16) : Call (Option ℕ) := do
  match ← nameiparent p path with
  | none => return none
  | some (dp, name, t) => do
    let _ ← ilock t dp
    match ← dirlookup p dp name with
    | some (ip, _, t') => do
      iunlockput p dp
      let d ← ilock (some t') ip
      if type = T_FILE ∧ d.type = T_FILE then return some ip
      else do
        iunlockput p ip
        return none
    | none => do
      let ip ← createNew p dp name type major minor
      return some ip

/-- The fields `sys_open` gives a new file. -/
def initFile (f ip : ℕ) (omode : UInt32) : Act Unit := modify fun s =>
  (s.setFile f ⟨.inode, (s.ftable f).ref, omode &&& O_WRONLY = 0,
    omode &&& O_WRONLY ≠ 0 ∨ omode &&& O_RDWR ≠ 0, (s.ftable f).pipe, ip, 0⟩).note (.opens f ip)

/-- `sys_open` once the inode is locked. -/
def openInode (p : Pid) (ip : ℕ) (omode : UInt32) : Call Unit := do
  match ← filealloc with
  | none => iunlockput p ip
  | some f =>
    match ← fdalloc p f with
    | none => do
      fileclose p f
      iunlockput p ip
    | some _ => do
      iunlock ip
      initFile f ip omode

def sysOpen (p : Pid) (path : Option Path) (omode : UInt32) : Call Unit := do
  match path with
  | none => return ()
  | some path =>
    if omode &&& O_CREATE ≠ 0 then do
      beginTrans p
      let ip ← create p path T_FILE 0 0
      commitTrans
      match ip with
      | none => return ()
      | some ip => openInode p ip omode
    else match ← namei p path with
      | none => return ()
      | some (ip, t) => do
        let d ← ilock t ip
        if d.type = T_DIR ∧ omode ≠ O_RDONLY then iunlockput p ip
        else openInode p ip omode

/-- `sys_mkdir` and `sys_mknod`. -/
def makeNode (p : Pid) (path : Option Path) (type major minor : Int16) : Call Unit := do
  beginTrans p
  match path with
  | none => liftM commitTrans
  | some path =>
    match ← create p path type major minor with
    | none => liftM commitTrans
    | some ip => do
      iunlockput p ip
      commitTrans

def sysMkdir (p : Pid) (path : Option Path) : Call Unit := makeNode p path T_DIR 0 0

def sysMknod (p : Pid) (path : Option Path) (major minor : Int16) : Call Unit :=
  makeNode p path T_DEV major minor

/-! ## Pipes -/

/-- The rest of `pipealloc` once it has both files; `page` is what `kalloc` has left. -/
def pipeinit (f0 f1 : ℕ) (page : Option ℕ) : Act Bool := do
  let s ← get
  match page with
  | none => return false
  | some x =>
    if (s.pipe x).isSome then return false
    else do
      let r : File := ⟨.pipe, (s.ftable f0).ref, true, false, x, (s.ftable f0).ip, (s.ftable f0).off⟩
      let w : File := ⟨.pipe, (s.ftable f1).ref, false, true, x, (s.ftable f1).ip, (s.ftable f1).off⟩
      set ((((s.setPipe x (some ⟨true, true⟩)).setFile f0 r).setFile f1 w).note (.kalloc x))
      return true

def pipealloc (p : Pid) (page : Option ℕ) : Call (Option (ℕ × ℕ)) := do
  match ← filealloc with
  | none => return none
  | some f0 =>
    match ← filealloc with
    | none => do
      fileclose p f0
      return none
    | some f1 =>
      if ← pipeinit f0 f1 page then return some (f0, f1)
      else do
        fileclose p f0
        fileclose p f1
        return none

def sysPipe (p : Pid) (page : Option ℕ) : Call Unit := do
  match ← pipealloc p page with
  | none => return ()
  | some (rf, wf) =>
    match ← fdalloc p rf with
    | none => do
      fileclose p rf
      fileclose p wf
    | some fd0 =>
      match ← fdalloc p wf with
      | none => do
        clearFd p fd0
        fileclose p rf
        fileclose p wf
      | some _ => return ()

/-! ## Processes -/

/-- `iput(proc->cwd)` needs the entry first. -/
def getCwd (p : Pid) : Act (Option ℕ) := do
  let s ← get
  return (s.proc p).cwd

def setCwd (p : Pid) (cwd : Option ℕ) : Act Unit := modify fun s => s.setCwd p cwd

def putCwd (p : Pid) : Call Unit := do
  match ← getCwd p with
  | none => return ()
  | some k => iput p k

def sysChdir (p : Pid) (path : Option Path) : Call Unit := do
  match path with
  | none => return ()
  | some path =>
    match ← namei p path with
    | none => return ()
    | some (ip, t) => do
      let d ← ilock t ip
      if d.type ≠ T_DIR then iunlockput p ip
      else do
        iunlock ip
        putCwd p
        setCwd p (some ip)

/-- The reads that `execve` makes, with the answers of a device. -/
def execReads (p : Pid) (d : Dinode) (ip : ℕ) : List (UInt32 × UInt32 × Option ℕ) → Call Unit
  | [] => pure ()
  | (off, n, answer) :: rs => do
    if d.type = T_DEV then do
      let _ ← device d ip answer
      execReads p d ip rs
    else do
      let _ ← readFile p ip off n
      execReads p d ip rs

/-- `execve` as far as files go. -/
def sysExecve (p : Pid) (path : Option Path) (reads : List (UInt32 × UInt32 × Option ℕ)) :
    Call Unit := do
  match path with
  | none => return ()
  | some path =>
    match ← namei p path with
    | none => return ()
    | some (ip, t) => do
      let d ← ilock t ip
      execReads p d ip reads
      iunlockput p ip

/-- `allocproc` -/
def allocproc (np : Pid) : Act Bool := do
  let s ← get
  if (s.proc np).state = .unused then do
    set (s.setProc np ⟨.embryo, none, fun _ => none⟩)
    return true
  else return false

/-- `np->ofile[fd] = filedup(proc->ofile[fd])` -/
def dupFd (p np : Pid) (fd : ℕ) : Act Unit := do
  let s ← get
  match (s.proc p).ofile fd with
  | none => pure ()
  | some f => do
    filedup f
    modify fun s => s.setFd np fd (some f)

def dupFds (p np : Pid) : List ℕ → Call Unit
  | [] => pure ()
  | fd :: fds => do
    dupFd p np fd
    dupFds p np fds

/-- `np->cwd = idup(proc->cwd)` -/
def dupCwd (p np : Pid) : Act Unit := do
  let k ← idupCwd p
  modify fun s => s.setCwd np (some k)

def setState (p : Pid) (state : ProcState) : Act Unit := modify fun s => s.setState p state

/-- `fork`; `mem` is whether `copyuvm` found memory. -/
def fork (p np : Pid) (mem : Bool) : Call Unit := do
  if ← allocproc np then
    if mem then do
      dupFds p np (List.range NOFILE)
      dupCwd p np
      setState np .running
    else liftM (setState np .unused)
  else return ()

/-- The loop of `exit` that closes all files. -/
def closeFds (p : Pid) : List ℕ → Call Unit
  | [] => pure ()
  | fd :: fds => do
    match ← argfd p fd with
    | none => closeFds p fds
    | some f => do
      fileclose p f
      clearFd p fd
      closeFds p fds

def exit (p : Pid) : Call Unit := do
  if p = initproc then liftM (panic "init exiting" : Act Unit)
  else do
    closeFds p (List.range NOFILE)
    putCwd p
    setCwd p none
    setState p .zombie

/-! ## All calls -/

inductive Syscall where
  | dup (fd : ℕ)
  | pipe (page : Option ℕ)
  | read (fd : ℕ) (n : UInt32) (answer : Answer)
  | write (fd n : ℕ) (src : Bytes) (answer : Answer)
  | close (fd : ℕ)
  | fstat (fd : ℕ)
  | link (old new : Option Path)
  | unlink (path : Option Path)
  | open (path : Option Path) (omode : UInt32)
  | mkdir (path : Option Path)
  | mknod (path : Option Path) (major minor : Int16)
  | chdir (path : Option Path)
  | execve (path : Option Path) (reads : List (UInt32 × UInt32 × Option ℕ))
  | fork (np : Pid) (mem : Bool)
  | exit

def Syscall.call (p : Pid) : Syscall → Call Unit
  | .dup fd => sysDup p fd
  | .pipe page => sysPipe p page
  | .read fd n answer => sysRead p fd n answer
  | .write fd n src answer => sysWrite p fd n src answer
  | .close fd => sysClose p fd
  | .fstat fd => sysFstat p fd
  | .link old new => sysLink p old new
  | .unlink path => sysUnlink p path
  | .open path omode => sysOpen p path omode
  | .mkdir path => sysMkdir p path
  | .mknod path major minor => sysMknod p path major minor
  | .chdir path => sysChdir p path
  | .execve path reads => sysExecve p path reads
  | .fork np mem => Kernel.fork p np mem
  | .exit => Kernel.exit p

/-- Whether a call changes descriptors. -/
def Syscall.descriptors : Syscall → Bool
  | .dup _ | .pipe _ | .close _ | .open _ _ | .fork _ _ | .exit => true
  | _ => false

/-- A call between the notes of its beginning and its end. -/
def Syscall.run (p : Pid) (c : Syscall) : Call Unit := do
  note (.calls p c.descriptors)
  c.call p
  note (.returns p)

/-- A running process may make any call. -/
def enters (p : Pid) (s : Sys) (t : Call Unit) : Prop :=
  (s.proc p).state = .running ∧ ∃ c : Syscall, t = c.run p

end Lainos.Kernel
