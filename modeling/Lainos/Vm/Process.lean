import Lainos.Vm.Image

/-!
# Processes and their memory

The process table, the file table and the pipes, as far as they hold frames, and the
system calls that take and give back frames. A call is run to its end before the next
one begins.
-/

namespace Lainos.Vm

open Library

def NPROC : ℕ := 64
def NOFILE : ℕ := 16
def NFILE : ℕ := 100

inductive ProcState where
  | unused
  | embryo
  | runnable
  | zombie
deriving DecidableEq

structure Proc where
  state : ProcState
  kstack : ℕ
  pgdir : ℕ
  sz : ℕ
  parent : Option ℕ
  ofile : ℕ → Option ℕ

inductive FileType where
  | none
  | pipe
  | inode
deriving DecidableEq

structure File where
  ref : ℕ
  type : FileType
  writable : Bool
  pipe : ℕ

structure Pipe where
  readopen : Bool
  writeopen : Bool

/-- `pipe` gives the pipe kept in each frame, and `cpus` the stacks of the other
processors. -/
structure System where
  vm : Machine
  proc : ℕ → Proc
  file : ℕ → File
  pipe : ℕ → Pipe
  kpgdir : ℕ
  cpus : List ℕ

abbrev SAct := Exec Halt System

namespace System

@[simps -fullyApplied]
def setVm (s : System) (m : Machine) : System := { s with vm := m }

@[simps -fullyApplied]
def setProc (s : System) (p : ℕ) (x : Proc) : System := { s with proc := Function.update s.proc p x }

@[simps -fullyApplied]
def setFile (s : System) (f : ℕ) (x : File) : System := { s with file := Function.update s.file f x }

@[simps -fullyApplied]
def setPipe (s : System) (f : ℕ) (x : Pipe) : System := { s with pipe := Function.update s.pipe f x }

end System

def onVm {α : Type} (x : VAct α) : SAct α := fun s =>
  match x s.vm with
  | .ok (a, m) => .ok (a, s.setVm m)
  | .error e => .error e

def sysPanic {α : Type} (why : String) : SAct α := onVm (panic why)

variable (L : Layout)

/-! ## Files and pipes -/

def filealloc : SAct (Option ℕ) := do
  let s ← get
  match (List.range NFILE).find? fun f => (s.file f).ref = 0 with
  | none => return none
  | some f =>
    set (s.setFile f { s.file f with ref := 1 })
    return some f

def filedup (f : ℕ) : SAct Unit := do
  let s ← get
  if (s.file f).ref < 1 then sysPanic "filedup"
  set (s.setFile f { s.file f with ref := (s.file f).ref + 1 })

def pipeclose (x : ℕ) (writable : Bool) : SAct Unit := do
  modify fun s => s.setPipe x
    (if writable then { s.pipe x with writeopen := false } else { s.pipe x with readopen := false })
  let s ← get
  if !(s.pipe x).readopen && !(s.pipe x).writeopen then onVm (kfree L x)

def fileclose (f : ℕ) : SAct Unit := do
  let s ← get
  if (s.file f).ref < 1 then
    sysPanic "fileclose"
  else if 1 < (s.file f).ref then
    set (s.setFile f { s.file f with ref := (s.file f).ref - 1 })
  else
    set (s.setFile f { s.file f with ref := 0, type := .none })
    if (s.file f).type = .pipe then pipeclose L (s.file f).pipe (s.file f).writable

/-- The files of the two ends. -/
def pipealloc : SAct (Option (ℕ × ℕ)) := do
  match ← filealloc with
  | none => return none
  | some f₀ =>
    match ← filealloc with
    | none =>
      fileclose L f₀
      return none
    | some f₁ =>
      match ← onVm kalloc with
      | none =>
        fileclose L f₀
        fileclose L f₁
        return none
      | some x =>
        modify fun s => ((s.setPipe x ⟨true, true⟩).setFile f₀
          { s.file f₀ with type := .pipe, writable := false, pipe := x }).setFile f₁
            { s.file f₁ with type := .pipe, writable := true, pipe := x }
        return some (f₀, f₁)

def fdalloc (p f : ℕ) : SAct (Option ℕ) := do
  let s ← get
  match (List.range NOFILE).find? fun fd => (s.proc p).ofile fd = none with
  | none => return none
  | some fd =>
    set (s.setProc p { s.proc p with ofile := Function.update (s.proc p).ofile fd (some f) })
    return some fd

def clearFd (p fd : ℕ) : SAct Unit :=
  modify fun s =>
    s.setProc p { s.proc p with ofile := Function.update (s.proc p).ofile fd none }

def sysPipe (p : ℕ) : SAct Bool := do
  match ← pipealloc L with
  | none => return false
  | some (rf, wf) =>
    match ← fdalloc p rf with
    | none =>
      fileclose L rf
      fileclose L wf
      return false
    | some fd₀ =>
      match ← fdalloc p wf with
      | none =>
        clearFd p fd₀
        fileclose L rf
        fileclose L wf
        return false
      | some _ => return true

def sysClose (p fd : ℕ) : SAct Bool := do
  let s ← get
  if NOFILE ≤ fd then
    return false
  else
    match (s.proc p).ofile fd with
    | none => return false
    | some f =>
      clearFd p fd
      fileclose L f
      return true

/-! ## Processes -/

/-- The slot and the kernel stack of a new process. -/
def allocproc : SAct (Option ℕ) := do
  let s ← get
  match (List.range NPROC).find? fun q => (s.proc q).state = .unused with
  | none => return none
  | some q =>
    set (s.setProc q { s.proc q with state := .embryo })
    match ← onVm kalloc with
    | none =>
      modify fun s => s.setProc q { s.proc q with kstack := 0, state := .unused }
      return none
    | some k =>
      modify fun s => s.setProc q { s.proc q with kstack := k }
      return some q

/-- The loop of `fork` over the `n` descriptors from `fd` on. -/
def dupFiles (p q : ℕ) : ℕ → ℕ → SAct Unit
  | 0, _ => return ()
  | n + 1, fd => do
    let s ← get
    match (s.proc p).ofile fd with
    | none => dupFiles p q n (fd + 1)
    | some f =>
      filedup f
      modify fun s =>
        s.setProc q { s.proc q with ofile := Function.update (s.proc q).ofile fd (some f) }
      dupFiles p q n (fd + 1)

def fork (p : ℕ) : SAct Bool := do
  match ← allocproc with
  | none => return false
  | some q =>
    let s ← get
    match ← onVm (copyuvm L (s.proc p).pgdir (s.proc p).sz) with
    | none =>
      onVm (kfree L (s.proc q).kstack)
      modify fun s => s.setProc q { s.proc q with pgdir := 0, kstack := 0, state := .unused }
      return false
    | some d =>
      modify fun s => s.setProc q { s.proc q with pgdir := d, sz := (s.proc p).sz, parent := some p }
      dupFiles p q NOFILE 0
      modify fun s => s.setProc q { s.proc q with state := .runnable }
      return true

/-- The loop of `exit` over the `n` descriptors from `fd` on. -/
def closeFiles (p : ℕ) : ℕ → ℕ → SAct Unit
  | 0, _ => return ()
  | n + 1, fd => do
    let s ← get
    match (s.proc p).ofile fd with
    | none => closeFiles p n (fd + 1)
    | some f =>
      fileclose L f
      clearFd p fd
      closeFiles p n (fd + 1)

/-- Process `0` is `initproc`. -/
def exit (p : ℕ) : SAct Bool := do
  if p = 0 then sysPanic "init exiting"
  closeFiles L p NOFILE 0
  modify fun s => { s with proc := fun q =>
    if q < NPROC ∧ (s.proc q).parent = some p then { s.proc q with parent := some 0 } else s.proc q }
  modify fun s => s.setProc p { s.proc p with state := .zombie }
  return true

/-- One round of `wait`. If no child has exited it returns `-1` or sleeps. -/
def wait (p : ℕ) : SAct Bool := do
  let s ← get
  match (List.range NPROC).find? fun q =>
      (s.proc q).parent = some p && (s.proc q).state = .zombie with
  | none => return false
  | some q =>
    onVm (kfree L (s.proc q).kstack)
    onVm (freevm L (s.proc q).pgdir)
    modify fun s => s.setProc q { s.proc q with kstack := 0, state := .unused, parent := none }
    return true

/-- `growproc`; `n` is a signed word. -/
def growproc (p : ℕ) (n : ℤ) : SAct Bool := do
  let s ← get
  if n = 0 then
    return true
  else
    let newsz := (((s.proc p).sz + n) % word).toNat
    let sz ← onVm (if 0 < n then allocuvm L (s.proc p).pgdir (s.proc p).sz newsz
      else deallocuvm L (s.proc p).pgdir (s.proc p).sz newsz)
    if sz = 0 then
      return false
    else
      modify fun s => s.setProc p { s.proc p with sz := sz }
      return true

def sysExecve (p : ℕ) (a : ExecArgs) : SAct Bool := do
  let s ← get
  match ← onVm (execve L (s.proc p).pgdir a) with
  | none => return false
  | some (d, sz) =>
    modify fun s => s.setProc p { s.proc p with pgdir := d, sz := sz }
    return true

inductive Call where
  | fork
  | exit
  | wait
  | sbrk (n : BitVec 32)
  | execve (a : ExecArgs)
  | pipe
  | close (fd : ℕ)

/-- The call `c` made by process `p`; `false` if it fails. -/
def Call.run (p : ℕ) : Call → SAct Bool
  | .fork => Vm.fork L p
  | .exit => Vm.exit L p
  | .wait => Vm.wait L p
  | .sbrk n => growproc L p n.toInt
  | .execve a => sysExecve L p a
  | .pipe => sysPipe L p
  | .close fd => sysClose L p fd

/-! ## Starting -/

/-- `freerange` over the `n` frames from `f` on. -/
def freerange : ℕ → ℕ → VAct Unit
  | 0, _ => return ()
  | n + 1, f => do
    kfree L f
    freerange n (f + 1)

/-- The first page of the first process. -/
def inituvm (d : ℕ) : VAct Unit := do
  match ← kalloc with
  | none => panic "trap"
  | some m =>
    modify fun s => s.setPage m fun _ => .zero
    let _ ← mappages d true true 1 0 m

def kvmalloc : SAct Unit := do
  match ← onVm (setupkvm L) with
  | none => sysPanic "trap"
  | some d => modify fun s => { s with kpgdir := d }

/-- The stacks of `n` processors. -/
def startothers : ℕ → SAct Unit
  | 0 => return ()
  | n + 1 => do
    match ← onVm kalloc with
    | none => sysPanic "trap"
    | some k =>
      modify fun s => { s with cpus := k :: s.cpus }
      startothers n

def userinit : SAct Unit := do
  match ← allocproc with
  | none => sysPanic "trap"
  | some q =>
    match ← onVm (setupkvm L) with
    | none => sysPanic "userinit: out of memory?"
    | some d =>
      onVm (inituvm d)
      modify fun s => s.setProc q { s.proc q with pgdir := d, sz := PGSIZE, state := .runnable }

/-- The frame at 4 MiB, where `kinit1` stops and `kinit2` begins. -/
@[irreducible] def lowEnd : ℕ := 0x400

/-- The parts of `main` that take frames, with `n` processors besides the first. -/
def boot (n : ℕ) : SAct Unit := do
  onVm (freerange L (lowEnd - L.first) L.first)
  kvmalloc L
  startothers n
  onVm (freerange L (phystop - lowEnd) lowEnd)
  userinit L

def System.init : System where
  vm := ⟨fun _ _ => .zero, [], fun _ => true, 0, []⟩
  proc _ := ⟨.unused, 0, 0, 0, none, fun _ => none⟩
  file _ := ⟨0, .none, false, 0⟩
  pipe _ := ⟨false, false⟩
  kpgdir := 0
  cpus := []

/-- From now on `kalloc` succeeds or fails as `luck` has it. -/
def System.withLuck (s : System) (luck : ℕ → Bool) : System := s.setVm { s.vm with luck := luck }

def NCPU : ℕ := 8

/-- The states between system calls, whatever calls are made and whenever `kalloc`
fails. -/
inductive Reach : System → Prop where
  | boot {s : System} {n : ℕ} (luck : ℕ → Bool) (hn : n < NCPU)
      (h : Vm.boot L n System.init = .ok ((), s)) : Reach (s.withLuck luck)
  | call {s s' : System} {p : ℕ} {c : Call} {ok : Bool} (h : Reach s) (hp : p < NPROC)
      (hrun : (s.proc p).state = .runnable) (hc : c.run L p s = .ok (ok, s')) : Reach s'

end Lainos.Vm
