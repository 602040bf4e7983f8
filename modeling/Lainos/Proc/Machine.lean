import Lainos.Proc.Table

/-!
# CPUs, spin locks and context switches

The process table run by CPUs: each CPU executes on the stack of its scheduler or of a
process, takes and gives back spin locks, and changes stacks with `swtch`. `ptable.lock`
is taken on one stack and given back on another.

A step is what one CPU does between two operations on locks, or one statement of
`scheduler` and `sched`. `panic` stops the machine, so it is a step that does not exist.
-/

namespace Lainos.Proc

abbrev Cpu := ℕ

inductive Lock where
  | ptable
  | other (n : ℕ)
  deriving DecidableEq

/-- A stack on which a CPU executes. -/
inductive Thread where
  | sched (c : Cpu)
  | proc (p : Slot)
  deriving DecidableEq

/-- The functions of `proc.c` that take `ptable.lock`. -/
inductive Op where
  | sleep (chan : Option Chan) (lk : Lock)
  | yield
  | exit
  | wait
  | fork
  | kill (pid : Int32)
  | wakeup (chan : Option Chan)

/-- Where a thread stands. -/
inductive Pc where
  /-- anywhere else -/
  | free
  /-- `acquire(&ptable.lock)` -/
  | acquire (op : Op)
  /-- `release(lk)` in `sleep` -/
  | unlock (chan : Option Chan) (lk : Lock)
  /-- at the beginning of the section -/
  | inside (op : Op)
  /-- in `sched`, before `swtch`, and what follows it -/
  | swtch (next : Pc)
  /-- `proc->chan = 0` in `sleep` -/
  | tidy (lk : Lock)
  /-- `release(&ptable.lock)`; in `sleep` the lock to take again is left -/
  | leave (lk : Option Lock)
  /-- `acquire(lk)` at the end of `sleep` -/
  | relock (lk : Lock)
  /-- after `sched` in `exit` -/
  | zombie
  /-- the loop of `scheduler`, with the number of the next slot -/
  | scan (i : ℕ)
  /-- after `proc = p` -/
  | chosen (p : Slot)
  /-- after `switchuvm(p)` -/
  | loaded (p : Slot)
  /-- after `p->state = RUNNING` -/
  | started (p : Slot)
  /-- after `swtch` -/
  | back (p : Slot)
  /-- after `switchkvm()` -/
  | unloaded (p : Slot)

/-- `cpu->proc`, the stack in use (`none` for the scheduler's) and the page table that is
loaded (`none` for `kpgdir`), each by the process it belongs to. -/
structure CpuState where
  proc : Option Slot
  stack : Option Slot
  pgdir : Option Slot

structure Machine where
  sys : Sys
  lock : Lock → Option Cpu
  cpu : Cpu → CpuState
  pc : Thread → Pc

/-- What a section of `ptable.lock` does when process `p` is in it: the step of the table,
and where the thread is afterwards. -/
def Op.exec (op : Op) (p : Slot) (s : Sys) : Label × Sys × Pc :=
  match op with
  | sleep chan lk => (.sleep p chan, s.sleep p chan, .swtch (.tidy lk))
  | yield => (.yield p, s.setState p .RUNNABLE, .swtch (.leave none))
  | exit => (.exit p (s.id p), s.exit p, .swtch .zombie)
  | wait =>
    match s.wait p with
    | (.sleeps, s') => (.wait p .sleeps, s', .swtch (.tidy .ptable))
    | (w, s') => (.wait p w, s', .leave none)
  | fork =>
    match s.allocproc with
    | some (np, s') => (.fork p np s.nextid, s'.setCall p (.fork np false), .leave none)
    | none => (.forkFull p, s, .leave none)
  | kill pid => (.kill pid, s.kill pid, .leave none)
  | wakeup chan => (.wakeup chan, s.wakeup1 chan, .leave none)

/-- The statements of `fork` and `trap` without the lock. -/
inductive Unlocked (s : Sys) (p : Slot) : Label → Sys → Prop
  | forkFails {np : Slot} : s.call p = .fork np false →
    Unlocked s p (.forkFails p np) ((s.setState np .UNUSED).setCall p .other)
  | forkLinks {np : Slot} : s.call p = .fork np false → Unlocked s p (.forkLinks p np)
    ((s.set np { s.proc np with parent := some p }).setCall p (.fork np true))
  | forks {np : Slot} : s.call p = .fork np true →
    Unlocked s p (.forks p np) ((s.setState np .RUNNABLE).setCall p .other)
  | trap : s.call p = .other →
    Unlocked s p (.trap p (s.id p)) (s.set p { s.proc p with killed := true })

/-- When process `p` on CPU `c` may call a function: `sleep` is called with `lk` held,
`fork`, `exit` and `wait` only outside `fork`, and not by `initproc` for `exit`, which
panics. -/
def Op.Callable (m : Machine) (c : Cpu) (p : Slot) : Op → Prop
  | sleep _ lk => lk ≠ .ptable ∧ m.lock lk = some c
  | exit => m.sys.call p = .other ∧ p ≠ m.sys.initproc
  | wait | fork => m.sys.call p = .other
  | yield | kill _ | wakeup _ => True

namespace Machine

variable (m : Machine)

/-- The thread that a CPU executes. -/
def thread (c : Cpu) : Thread :=
  match (m.cpu c).stack with
  | some p => .proc p
  | none => .sched c

@[simps -fullyApplied] def setPc (t : Thread) (pc : Pc) : Machine :=
  { m with pc := Function.update m.pc t pc }

@[simps -fullyApplied] def setLock (l : Lock) (holder : Option Cpu) : Machine :=
  { m with lock := Function.update m.lock l holder }

@[simps -fullyApplied] def setCpu (c : Cpu) (k : CpuState) : Machine :=
  { m with cpu := Function.update m.cpu c k }

/-- The context that `allocproc` prepares: `forkret` gives `ptable.lock` back. -/
def prepare : Label → Machine
  | .fork _ np _ => m.setPc (.proc np) (.leave none)
  | _ => m

/-- The machine when the schedulers start. -/
def boot : Machine where
  sys := .userinit
  lock _ := none
  cpu _ := ⟨none, none, none⟩
  pc
    | .sched _ => .free
    | .proc _ => .leave none

end Machine

/-- Steps as seen from outside. -/
inductive Event where
  | silent
  /-- a step of the table -/
  | table (l : Label)
  /-- `p` calls `sleep(chan, lk)` -/
  | sleep (p : Slot) (chan : Option Chan) (lk : Lock)
  /-- its `sleep` returns -/
  | slept (p : Slot)

/-- What CPU `c` can do next. -/
inductive Act (m : Machine) (c : Cpu) : Event → Machine → Prop
  /-- any other lock -/
  | acquire (l : Lock) : m.pc (m.thread c) = .free → l ≠ .ptable → m.lock l = none →
    Act m c .silent (m.setLock l (some c))
  | release (l : Lock) : m.pc (m.thread c) = .free → l ≠ .ptable → m.lock l = some c →
    Act m c .silent (m.setLock l none)
  | unlocked {p : Slot} {l : Label} {s : Sys} : (m.cpu c).stack = some p →
    m.pc (.proc p) = .free → Unlocked m.sys p l s → Act m c (.table l) { m with sys := s }
  | sleep {p : Slot} (chan : Option Chan) (lk : Lock) : (m.cpu c).stack = some p →
    m.pc (.proc p) = .free → (Op.sleep chan lk).Callable m c p →
    Act m c (.sleep p chan lk) (m.setPc (.proc p) (.acquire (.sleep chan lk)))
  | call {p : Slot} (op : Op) : (m.cpu c).stack = some p → m.pc (.proc p) = .free →
    op.Callable m c p → (∀ chan lk, op ≠ .sleep chan lk) →
    Act m c .silent (m.setPc (.proc p) (.acquire op))
  /-- a device interrupt on the stack of the scheduler -/
  | interrupt (chan : Option Chan) : (m.cpu c).stack = none → m.pc (.sched c) = .free →
    Act m c .silent (m.setPc (.sched c) (.acquire (.wakeup chan)))
  | enter {op : Op} : m.pc (m.thread c) = .acquire op → m.lock .ptable = none →
    (∀ chan lk, op ≠ .sleep chan lk) →
    Act m c .silent ((m.setLock .ptable (some c)).setPc (m.thread c) (.inside op))
  | enterSleep {chan : Option Chan} {lk : Lock} : m.pc (m.thread c) = .acquire (.sleep chan lk) →
    m.lock .ptable = none →
    Act m c .silent ((m.setLock .ptable (some c)).setPc (m.thread c) (.unlock chan lk))
  | unlock {chan : Option Chan} {lk : Lock} : m.pc (m.thread c) = .unlock chan lk →
    m.lock lk = some c →
    Act m c .silent ((m.setLock lk none).setPc (m.thread c) (.inside (.sleep chan lk)))
  | inside {p : Slot} {op : Op} : (m.cpu c).stack = some p → m.pc (.proc p) = .inside op →
    Act m c (.table (op.exec p m.sys).1)
      ((Machine.prepare { m with sys := (op.exec p m.sys).2.1 } (op.exec p m.sys).1).setPc (.proc p)
        (op.exec p m.sys).2.2)
  | handle {chan : Option Chan} : (m.cpu c).stack = none →
    m.pc (.sched c) = .inside (.wakeup chan) →
    Act m c (.table (.wakeup chan))
      (Machine.setPc { m with sys := m.sys.wakeup1 chan } (.sched c) (.leave none))
  /-- `sched`, which panics if another lock is held or the state is `RUNNING` -/
  | swtch {p : Slot} {next : Pc} : (m.cpu c).stack = some p → m.pc (.proc p) = .swtch next →
    m.lock .ptable = some c → (∀ l, l ≠ .ptable → m.lock l ≠ some c) →
    (m.sys.proc p).state ≠ .RUNNING →
    Act m c .silent ((m.setCpu c { m.cpu c with stack := none }).setPc (.proc p) next)
  | tidy {p : Slot} {lk : Lock} : (m.cpu c).stack = some p → m.pc (.proc p) = .tidy lk →
    lk ≠ .ptable →
    Act m c (.table (.tidy p))
      (Machine.setPc { m with sys := m.sys.set p { m.sys.proc p with chan := none } } (.proc p)
        (.leave (some lk)))
  | tidyWait {p : Slot} : (m.cpu c).stack = some p → m.pc (.proc p) = .tidy .ptable →
    Act m c (.slept p)
      (Machine.setPc { m with sys := m.sys.set p { m.sys.proc p with chan := none } } (.proc p)
        (.inside .wait))
  | leave : m.pc (m.thread c) = .leave none → m.lock .ptable = some c →
    Act m c .silent ((m.setLock .ptable none).setPc (m.thread c) .free)
  | leaveSleep {lk : Lock} : m.pc (m.thread c) = .leave (some lk) → m.lock .ptable = some c →
    Act m c .silent ((m.setLock .ptable none).setPc (m.thread c) (.relock lk))
  | relock {p : Slot} {lk : Lock} : (m.cpu c).stack = some p → m.pc (.proc p) = .relock lk →
    m.lock lk = none → Act m c (.slept p) ((m.setLock lk (some c)).setPc (.proc p) .free)
  /-- a round of `scheduler` -/
  | sched : (m.cpu c).stack = none → m.pc (.sched c) = .free → (∀ l, m.lock l ≠ some c) →
    m.lock .ptable = none →
    Act m c .silent ((m.setLock .ptable (some c)).setPc (.sched c) (.scan 0))
  | skip {q : Slot} : (m.cpu c).stack = none → m.pc (.sched c) = .scan q →
    (m.sys.proc q).state ≠ .RUNNABLE → Act m c .silent (m.setPc (.sched c) (.scan (q + 1)))
  | choose {q : Slot} : (m.cpu c).stack = none → m.pc (.sched c) = .scan q →
    (m.sys.proc q).state = .RUNNABLE →
    Act m c .silent ((m.setCpu c { m.cpu c with proc := some q }).setPc (.sched c) (.chosen q))
  | load {q : Slot} : (m.cpu c).stack = none → m.pc (.sched c) = .chosen q →
    Act m c .silent ((m.setCpu c { m.cpu c with pgdir := some q }).setPc (.sched c) (.loaded q))
  | start {q : Slot} : (m.cpu c).stack = none → m.pc (.sched c) = .loaded q →
    Act m c (.table (.run q))
      (Machine.setPc { m with sys := m.sys.setState q .RUNNING } (.sched c) (.started q))
  | go {q : Slot} : (m.cpu c).stack = none → m.pc (.sched c) = .started q →
    Act m c .silent ((m.setCpu c { m.cpu c with stack := some q }).setPc (.sched c) (.back q))
  | unload {q : Slot} : (m.cpu c).stack = none → m.pc (.sched c) = .back q →
    Act m c .silent ((m.setCpu c { m.cpu c with pgdir := none }).setPc (.sched c) (.unloaded q))
  | done {q : Slot} : (m.cpu c).stack = none → m.pc (.sched c) = .unloaded q →
    Act m c .silent ((m.setCpu c { m.cpu c with proc := none }).setPc (.sched c) (.scan (q + 1)))
  | finish : (m.cpu c).stack = none → m.pc (.sched c) = .scan NPROC → m.lock .ptable = some c →
    Act m c .silent ((m.setLock .ptable none).setPc (.sched c) .free)

/-- Some CPU does something. -/
def Tick (m : Machine) (e : Event) (m' : Machine) : Prop := ∃ c, Act m c e m'

end Lainos.Proc
