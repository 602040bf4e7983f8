import Lainos.Library.Fifo

/-!
# Pipes

`pipe.c` for one pipe and any number of processes. A stretch of `pipewrite` or
`piperead` in which the pipe's lock is held is one step; it ends when the call
returns or sleeps. A process that sleeps goes on once it has been woken, at the head
of the loop it slept in. `accepted` and `delivered` are ghost state: all bytes ever
put into the pipe, and all bytes ever handed to a reader.
-/

namespace Lainos.Pipe

open Library

abbrev Pid := ℕ

def PIPESIZE : ℕ := 512

/-- `&p->nread` and `&p->nwrite` -/
inductive Chan where
  | nread
  | nwrite
  deriving DecidableEq

/-- The call a process is in: `pipewrite` of `n` bytes of which `rest` are not stored
yet, or `piperead` of up to `n` bytes. -/
inductive Call where
  | write (n : ℕ) (rest : List UInt8)
  | read (n : ℕ)

structure Sys where
  ring : Fifo UInt8
  readopen : Bool
  writeopen : Bool
  /-- The channel on which a process is SLEEPING. -/
  sleeping : Pid → Option Chan
  killed : Pid → Bool
  call : Pid → Option Call
  accepted : List UInt8
  delivered : List UInt8

namespace Sys

variable (s : Sys)

/-- A pipe as `pipealloc` makes it; the page holds what it held before. -/
def pipealloc (page : ℕ → UInt8) : Sys where
  ring := ⟨page, 0, 0⟩
  readopen := true
  writeopen := true
  sleeping := fun _ => none
  killed := fun _ => false
  call := fun _ => none
  accepted := []
  delivered := []

/-- `p->nwrite == p->nread + PIPESIZE` -/
def Full : Prop := s.ring.nwrite = s.ring.nread + UInt32.ofNat PIPESIZE

/-- `p->nread == p->nwrite` -/
def Empty : Prop := s.ring.nread = s.ring.nwrite

instance : Decidable s.Full := inferInstanceAs (Decidable (_ = _))

instance : Decidable s.Empty := inferInstanceAs (Decidable (_ = _))

@[simps -fullyApplied] def wakeup (chan : Chan) : Sys :=
  { s with sleeping := fun p => if s.sleeping p = some chan then none else s.sleeping p }

/-- `sleep` in the middle of a call. -/
@[simps -fullyApplied] def sleep (p : Pid) (chan : Chan) (call : Call) : Sys :=
  { s with
    sleeping := Function.update s.sleeping p (some chan)
    call := Function.update s.call p (some call) }

/-- The call returns. -/
@[simps -fullyApplied] def leave (p : Pid) : Sys :=
  { s with call := Function.update s.call p none }

/-- `p->data[p->nwrite++ % PIPESIZE] = b` -/
@[simps -fullyApplied] def store (b : UInt8) : Sys :=
  { s with ring := s.ring.put PIPESIZE b, accepted := s.accepted ++ [b] }

/-- `addr[i] = p->data[p->nread++ % PIPESIZE]` -/
@[simps -fullyApplied] def deliver : Sys :=
  { s with ring := s.ring.take, delivered := s.delivered ++ [s.ring.front PIPESIZE] }

/-- `kill` -/
@[simps -fullyApplied] def kill (p : Pid) : Sys :=
  { s with
    killed := Function.update s.killed p true
    sleeping := Function.update s.sleeping p none }

def pipeclose (writable : Bool) : Sys :=
  if writable then Sys.wakeup { s with writeopen := false } .nread
  else Sys.wakeup { s with readopen := false } .nwrite

end Sys

/-- `pipewrite` of `n` bytes with `rest` still to store: what it returns, or `none` if
it sleeps. -/
def pipewrite (p : Pid) (n : ℕ) : List UInt8 → Sys → Option ℤ × Sys
  | [], s => (some n, (s.wakeup .nread).leave p)
  | b :: rest, s =>
    if s.Full then
      if s.readopen = false ∨ s.killed p = true then (some (-1), s.leave p)
      else (none, (s.wakeup .nread).sleep p .nwrite (.write n (b :: rest)))
    else pipewrite p n rest (s.store b)

/-- The loop of `piperead` that copies: how many bytes it copied. -/
def copy : ℕ → Sys → ℕ × Sys
  | 0, s => (0, s)
  | n + 1, s =>
    if s.Empty then (0, s)
    else ((copy n s.deliver).1 + 1, (copy n s.deliver).2)

def piperead (p : Pid) (n : ℕ) (s : Sys) : Option ℤ × Sys :=
  if s.Empty ∧ s.writeopen = true then
    if s.killed p = true then (some (-1), s.leave p)
    else (none, s.sleep p .nread (.read n))
  else (some (copy n s).1, ((copy n s).2.wakeup .nwrite).leave p)

/-- What can be seen of a step: who made it, and what the call returned, if it did. -/
inductive Label where
  | write (p : Pid) (r : Option ℤ)
  | read (p : Pid) (n : ℕ) (r : Option ℤ)
  | close (writable : Bool)
  | kill (p : Pid)

/-- One step. When both ends are closed the page is freed and nothing more happens. -/
inductive Step (s : Sys) : Label → Sys → Prop
  | write (p : Pid) (bytes : List UInt8) : (s.readopen || s.writeopen) = true → s.call p = none →
    Step s (.write p (pipewrite p bytes.length bytes s).1) (pipewrite p bytes.length bytes s).2
  | writeOn (p : Pid) (n : ℕ) (rest : List UInt8) : (s.readopen || s.writeopen) = true →
    s.call p = some (.write n rest) → s.sleeping p = none →
    Step s (.write p (pipewrite p n rest s).1) (pipewrite p n rest s).2
  | read (p : Pid) (n : ℕ) : (s.readopen || s.writeopen) = true → s.call p = none →
    Step s (.read p n (piperead p n s).1) (piperead p n s).2
  | readOn (p : Pid) (n : ℕ) : (s.readopen || s.writeopen) = true →
    s.call p = some (.read n) → s.sleeping p = none →
    Step s (.read p n (piperead p n s).1) (piperead p n s).2
  | close (writable : Bool) : (s.readopen || s.writeopen) = true →
    Step s (.close writable) (s.pipeclose writable)
  | kill (p : Pid) : Step s (.kill p) (s.kill p)

/-- States reached from a new pipe by steps that satisfy `P`. -/
inductive Reach (P : Sys → Label → Sys → Prop) : Sys → Prop
  | pipealloc (page : ℕ → UInt8) : Reach P (.pipealloc page)
  | step {s s' : Sys} {e : Label} : Reach P s → Step s e s' → P s e s' → Reach P s'

/-! ## What the loops do -/

variable {s s' : Sys} {p : Pid} {n : ℕ}

/-- Bytes are stored, each of them in a pipe that is not full. -/
inductive Stores : Sys → List UInt8 → Sys → Prop
  | nil (s : Sys) : Stores s [] s
  | cons {s s' : Sys} {b : UInt8} {bytes : List UInt8} : ¬ s.Full → Stores (s.store b) bytes s' →
    Stores s (b :: bytes) s'

/-- A stretch of `pipewrite` stores some bytes; then it has stored all of them, or the
pipe is full, and the call is cut short or sleeps. -/
inductive Wrote (p : Pid) (n : ℕ) (bytes : List UInt8) (s : Sys) : Option ℤ × Sys → Prop
  | all {s₁ : Sys} : Stores s bytes s₁ → Wrote p n bytes s (some n, (s₁.wakeup .nread).leave p)
  | cut {done rest : List UInt8} {s₁ : Sys} : bytes = done ++ rest → Stores s done s₁ → s₁.Full →
    s₁.readopen = false ∨ s₁.killed p = true → Wrote p n bytes s (some (-1), s₁.leave p)
  | sleeps {done rest : List UInt8} {s₁ : Sys} : bytes = done ++ rest → Stores s done s₁ → s₁.Full →
    s₁.readopen = true → s₁.killed p = false →
    Wrote p n bytes s (none, (s₁.wakeup .nread).sleep p .nwrite (.write n rest))

theorem Wrote.cons {b : UInt8} {bytes : List UInt8} {r : Option ℤ × Sys} (hfull : ¬ s.Full)
    (h : Wrote p n bytes (s.store b) r) : Wrote p n (b :: bytes) s r := by
  cases h with
  | all hs => exact .all (.cons hfull hs)
  | cut heq hs hf hc => exact .cut (congrArg (b :: ·) heq) (.cons hfull hs) hf hc
  | sleeps heq hs hf ho hk => exact .sleeps (congrArg (b :: ·) heq) (.cons hfull hs) hf ho hk

theorem wrote_pipewrite (p : Pid) (n : ℕ) (bytes : List UInt8) (s : Sys) :
    Wrote p n bytes s (pipewrite p n bytes s) := by
  induction bytes generalizing s with
  | nil => exact .all (.nil s)
  | cons b rest ih =>
    rw [pipewrite]
    split_ifs with hfull hcut
    · exact .cut (List.nil_append _).symm (.nil s) hfull hcut
    · rw [not_or, Bool.not_eq_false, Bool.not_eq_true] at hcut
      exact .sleeps (List.nil_append _).symm (.nil s) hfull hcut.1 hcut.2
    · exact (ih (s.store b)).cons hfull

/-- What storing bytes leaves alone. -/
structure Stored (s : Sys) (bytes : List UInt8) (s' : Sys) : Prop where
  readopen : s'.readopen = s.readopen
  writeopen : s'.writeopen = s.writeopen
  sleeping : s'.sleeping = s.sleeping
  killed : s'.killed = s.killed
  call : s'.call = s.call
  accepted : s'.accepted = s.accepted ++ bytes
  delivered : s'.delivered = s.delivered

theorem Stores.stored {bytes : List UInt8} (h : Stores s bytes s') : Stored s bytes s' := by
  induction h with
  | nil s => exact ⟨rfl, rfl, rfl, rfl, rfl, (List.append_nil _).symm, rfl⟩
  | cons _ _ ih =>
    refine ⟨ih.readopen, ih.writeopen, ih.sleeping, ih.killed, ih.call, ?_, ih.delivered⟩
    rw [ih.accepted, Sys.store_accepted, List.append_assoc, List.singleton_append]

/-- The loop of `piperead` takes bytes out until it has `n` of them or the pipe is
empty. -/
inductive Copied : ℕ → Sys → ℕ × Sys → Prop
  | none (s : Sys) : Copied 0 s (0, s)
  | empty {s : Sys} (n : ℕ) : s.Empty → Copied (n + 1) s (0, s)
  | some {s s' : Sys} {n i : ℕ} : ¬ s.Empty → Copied n s.deliver (i, s') →
    Copied (n + 1) s (i + 1, s')

theorem copied_copy (n : ℕ) (s : Sys) : Copied n s (copy n s) := by
  induction n generalizing s with
  | zero => exact .none s
  | succ n ih =>
    rw [copy]
    split_ifs with hempty
    · exact .empty n hempty
    · exact .some hempty (ih s.deliver)

/-- What taking bytes out leaves alone. -/
structure Taken (s s' : Sys) : Prop where
  readopen : s'.readopen = s.readopen
  writeopen : s'.writeopen = s.writeopen
  sleeping : s'.sleeping = s.sleeping
  killed : s'.killed = s.killed
  call : s'.call = s.call
  accepted : s'.accepted = s.accepted

theorem Copied.taken {r : ℕ × Sys} (h : Copied n s r) : Taken s r.2 := by
  induction h with
  | none s => exact ⟨rfl, rfl, rfl, rfl, rfl, rfl⟩
  | empty n _ => exact ⟨rfl, rfl, rfl, rfl, rfl, rfl⟩
  | some _ _ ih => exact ⟨ih.1, ih.2, ih.3, ih.4, ih.5, ih.6⟩

end Lainos.Pipe
