import Lainos.Library.Runs

/-!
# The process table

`proc.c` at the granularity of the sections of `ptable.lock`, with the few statements of
`fork` and `trap` that write a process entry without the lock. A step is one section or
one such statement of one process.

The number of a process (`id`) is not part of the kernel: it counts the calls of
`allocproc` that found a slot, and tells the processes apart that use the same slot or,
after `nextpid` has wrapped, the same pid.
-/

namespace Lainos.Proc

abbrev NPROC : ℕ := 64

/-- A `struct proc *` into the table. -/
abbrev Slot := Fin NPROC

/-- `enum procstate` -/
inductive ProcState where
  | UNUSED | EMBRYO | SLEEPING | RUNNABLE | RUNNING | ZOMBIE
  deriving DecidableEq

/-- What processes sleep on: the address of a process, or some other one. -/
inductive Chan where
  | proc (p : Slot)
  | other (addr : ℕ)
  deriving DecidableEq

/-- `struct proc`, as far as `proc.c` tests it. -/
structure Proc where
  state : ProcState
  pid : Int32
  parent : Option Slot
  chan : Option Chan
  killed : Bool

/-- Wakes one entry, if it sleeps on `chan`. -/
def Proc.wake (chan : Option Chan) (q : Proc) : Proc :=
  if q.state = .SLEEPING ∧ q.chan = chan then { q with state := .RUNNABLE } else q

/-- The call a process is in the middle of, when none of its sections is running. -/
inductive Call where
  | other
  /-- `fork` has a slot; `linked` after `np->parent = proc`. -/
  | fork (np : Slot) (linked : Bool)
  /-- asleep in `wait`, or woken there -/
  | wait
  deriving DecidableEq

structure Sys where
  proc : Slot → Proc
  nextpid : Int32
  initproc : Slot
  call : Slot → Call
  id : Slot → ℕ
  nextid : ℕ

namespace Sys

variable (s : Sys)

/-- The table with one entry changed. -/
@[simps -fullyApplied] def set (p : Slot) (q : Proc) : Sys :=
  { s with proc := Function.update s.proc p q }

@[simps! -fullyApplied] def setState (p : Slot) (state : ProcState) : Sys :=
  s.set p { s.proc p with state }

@[simps -fullyApplied] def setCall (p : Slot) (call : Call) : Sys :=
  { s with call := Function.update s.call p call }

/-- The first slot that satisfies a test. -/
def find (test : Proc → Bool) : Option Slot := (List.finRange NPROC).find? fun p => test (s.proc p)

/-- The entry that `allocproc` takes. -/
@[simps -fullyApplied] def embryo (p : Slot) : Sys :=
  { s with
    proc := Function.update s.proc p { s.proc p with state := .EMBRYO, pid := s.nextpid }
    nextpid := s.nextpid + 1
    id := Function.update s.id p s.nextid
    nextid := s.nextid + 1 }

def allocproc : Option (Slot × Sys) :=
  (s.find (·.state = .UNUSED)).map fun p => (p, s.embryo p)

@[simps -fullyApplied] def wakeup1 (chan : Option Chan) : Sys :=
  { s with proc := fun q => (s.proc q).wake chan }

/-- `p->parent = initproc` -/
@[simps! -fullyApplied] def adopt (q : Slot) : Sys :=
  s.set q { s.proc q with parent := some s.initproc }

/-- One round of the loop of `exit` that passes the children of `p` to `initproc`. -/
def reparent (p : Slot) (s : Sys) (q : Slot) : Sys :=
  if (s.proc q).parent = some p then
    if (s.proc q).state = .ZOMBIE then (s.adopt q).wakeup1 (some (.proc s.initproc))
    else s.adopt q
  else s

/-- The section of `exit`. -/
def exit (p : Slot) : Sys :=
  ((List.finRange NPROC).foldl (reparent p)
    (s.wakeup1 ((s.proc p).parent.map .proc))).setState p .ZOMBIE

/-- The part of `sleep` under `ptable.lock`. -/
@[simps! -fullyApplied] def sleep (p : Slot) (chan : Option Chan) : Sys :=
  s.set p { s.proc p with state := .SLEEPING, chan }

/-- What `wait` does with a zombie. -/
@[simps! -fullyApplied] def reap (q : Slot) : Sys :=
  s.set q { s.proc q with state := .UNUSED, pid := 0, parent := none, killed := false }

end Sys

/-- How a section of `wait` ends: it returns the pid of the child with a number, it
returns −1, or the process goes to sleep. -/
inductive Waited where
  | reaped (child : ℕ) (pid : Int32)
  | failed
  | sleeps

namespace Sys

variable (s : Sys)

def wait (p : Slot) : Waited × Sys :=
  match s.find fun q => q.parent = some p ∧ q.state = .ZOMBIE with
  | some q => (.reaped (s.id q) (s.proc q).pid, (s.reap q).setCall p .other)
  | none =>
    if (s.find fun q => q.parent = some p) = none ∨ (s.proc p).killed = true then
      (.failed, s.setCall p .other)
    else (.sleeps, (s.sleep p (some (.proc p))).setCall p .wait)

def kill (pid : Int32) : Sys :=
  match s.find (·.pid = pid) with
  | some p =>
    s.set p
      { s.proc p with
        killed := true
        state := if (s.proc p).state = .SLEEPING then .RUNNABLE else (s.proc p).state }
  | none => s

/-- The table before `userinit`: all zero. -/
def zero : Sys where
  proc _ := ⟨.UNUSED, 0, none, none, false⟩
  nextpid := 1
  initproc := 0
  call _ := .other
  id _ := 0
  nextid := 1

/-- `userinit` on the zero table. -/
def userinit : Sys :=
  match zero.allocproc with
  | some (p, s) => { s.setState p .RUNNABLE with initproc := p }
  | none => zero

end Sys

/-- Steps as seen from outside; processes are named by slot where the step is theirs and
by number where a later step may ask for them. -/
inductive Label where
  | run (p : Slot)
  | yield (p : Slot)
  | sleep (p : Slot) (chan : Option Chan)
  | tidy (p : Slot)
  | wakeup (chan : Option Chan)
  | fork (p np : Slot) (child : ℕ)
  | forkFull (p : Slot)
  | forkFails (p np : Slot)
  | forkLinks (p np : Slot)
  | forks (p np : Slot)
  | exit (p : Slot) (self : ℕ)
  | wait (p : Slot) (w : Waited)
  | kill (pid : Int32)
  | trap (p : Slot) (self : ℕ)

/-- One section of `ptable.lock`, or one statement of `fork` or `trap` without it. -/
inductive Step (s : Sys) : Label → Sys → Prop
  /-- the scheduler picks a process -/
  | run {p : Slot} : (s.proc p).state = .RUNNABLE → Step s (.run p) (s.setState p .RUNNING)
  | yield {p : Slot} : (s.proc p).state = .RUNNING → s.call p ≠ .wait →
    Step s (.yield p) (s.setState p .RUNNABLE)
  /-- any `sleep` but the one of `wait` -/
  | sleep {p : Slot} (chan : Option Chan) : (s.proc p).state = .RUNNING → s.call p ≠ .wait →
    Step s (.sleep p chan) (s.sleep p chan)
  /-- `proc->chan = 0` at the end of `sleep` -/
  | tidy {p : Slot} : (s.proc p).state = .RUNNING →
    Step s (.tidy p) (s.set p { s.proc p with chan := none })
  | wakeup (chan : Option Chan) : Step s (.wakeup chan) (s.wakeup1 chan)
  | fork {p np : Slot} {s' : Sys} : (s.proc p).state = .RUNNING → s.call p = .other →
    s.allocproc = some (np, s') → Step s (.fork p np s.nextid) (s'.setCall p (.fork np false))
  | forkFull {p : Slot} : (s.proc p).state = .RUNNING → s.call p = .other → s.allocproc = none →
    Step s (.forkFull p) s
  /-- no memory for the kernel stack or the page table -/
  | forkFails {p np : Slot} : (s.proc p).state = .RUNNING → s.call p = .fork np false →
    Step s (.forkFails p np) ((s.setState np .UNUSED).setCall p .other)
  | forkLinks {p np : Slot} : (s.proc p).state = .RUNNING → s.call p = .fork np false →
    Step s (.forkLinks p np)
      ((s.set np { s.proc np with parent := some p }).setCall p (.fork np true))
  | forks {p np : Slot} : (s.proc p).state = .RUNNING → s.call p = .fork np true →
    Step s (.forks p np) ((s.setState np .RUNNABLE).setCall p .other)
  | exit {p : Slot} : (s.proc p).state = .RUNNING → s.call p = .other → p ≠ s.initproc →
    Step s (.exit p (s.id p)) (s.exit p)
  | wait {p : Slot} : (s.proc p).state = .RUNNING → s.call p = .other ∨ s.call p = .wait →
    Step s (.wait p (s.wait p).1) (s.wait p).2
  | kill (pid : Int32) : Step s (.kill pid) (s.kill pid)
  /-- an unexpected trap in user mode -/
  | trap {p : Slot} : (s.proc p).state = .RUNNING → s.call p = .other →
    Step s (.trap p (s.id p)) (s.set p { s.proc p with killed := true })

/-! ## What the sections do -/

namespace Sys

variable {s : Sys} {test : Proc → Bool} {p q : Slot} {chan : Option Chan}

theorem find_eq_some (h : s.find test = some p) : test (s.proc p) = true :=
  List.find?_some (p := fun p => test (s.proc p)) h

theorem find_eq_none (h : s.find test = none) (p : Slot) : test (s.proc p) = false := by
  rw [← Bool.not_eq_true]
  exact List.find?_eq_none.mp h p (List.mem_finRange p)

theorem allocproc_eq_some {np : Slot} {s' : Sys} (h : s.allocproc = some (np, s')) :
    (s.proc np).state = .UNUSED ∧ s' = s.embryo np := by
  obtain ⟨p, hp, he⟩ := Option.map_eq_some_iff.mp h
  obtain ⟨rfl, rfl⟩ := Prod.mk.inj he
  exact ⟨of_decide_eq_true (find_eq_some hp), rfl⟩

/-- The three ways out of a round of `wait`. -/
theorem wait_cases (s : Sys) (p : Slot) :
    (∃ q, (s.proc q).parent = some p ∧ (s.proc q).state = .ZOMBIE ∧
      s.wait p = (.reaped (s.id q) (s.proc q).pid, (s.reap q).setCall p .other)) ∨
    (∀ q, (s.proc q).parent = some p → (s.proc q).state ≠ .ZOMBIE) ∧
      (s.wait p = (.failed, s.setCall p .other) ∨
        s.wait p = (.sleeps, (s.sleep p (some (.proc p))).setCall p .wait)) := by
  rw [wait]
  split
  · next q hq =>
    obtain ⟨hparent, hstate⟩ := of_decide_eq_true (find_eq_some hq)
    exact .inl ⟨q, hparent, hstate, rfl⟩
  · next hnone =>
    refine .inr ⟨fun q hp hz => of_decide_eq_false (find_eq_none hnone q) ⟨hp, hz⟩, ?_⟩
    split_ifs
    · exact .inl rfl
    · exact .inr rfl

theorem wake_cases (chan : Option Chan) (q : Proc) :
    q.state = .SLEEPING ∧ q.chan = chan ∧ q.wake chan = { q with state := .RUNNABLE } ∨
      ¬ (q.state = .SLEEPING ∧ q.chan = chan) ∧ q.wake chan = q := by
  rw [Proc.wake]
  split_ifs with h
  · exact .inl ⟨h.1, h.2, rfl⟩
  · exact .inr ⟨h, rfl⟩

end Sys

/-- A process of the table is woken or not, and nothing else of it changes but, maybe,
its parent. -/
structure Woken (q q' : Proc) : Prop where
  state : q'.state = q.state ∨ q.state = .SLEEPING ∧ q'.state = .RUNNABLE
  pid : q'.pid = q.pid
  chan : q'.chan = q.chan
  killed : q'.killed = q.killed

namespace Woken

variable {q q' q'' : Proc}

theorem refl (q : Proc) : Woken q q := ⟨.inl rfl, rfl, rfl, rfl⟩

theorem trans (h : Woken q q') (h' : Woken q' q'') : Woken q q'' := by
  refine ⟨?_, h'.pid.trans h.pid, h'.chan.trans h.chan, h'.killed.trans h.killed⟩
  rcases h.state with h₁ | ⟨h₁, h₂⟩ <;> rcases h'.state with h₃ | ⟨h₃, h₄⟩
  · exact .inl (h₃.trans h₁)
  · exact .inr ⟨h₁.symm.trans h₃, h₄⟩
  · exact .inr ⟨h₁, h₃.trans h₂⟩
  · exact .inr ⟨h₁, h₄⟩

theorem wake (chan : Option Chan) (q : Proc) : Woken q (q.wake chan) := by
  rcases Sys.wake_cases chan q with ⟨hs, -, h⟩ | ⟨-, h⟩
  · rw [h]
    exact ⟨.inr ⟨hs, rfl⟩, rfl, rfl, rfl⟩
  · rw [h]
    exact refl q

theorem setParent (q : Proc) (parent : Option Slot) : Woken q { q with parent } :=
  ⟨.inl rfl, rfl, rfl, rfl⟩

/-- A process that still sleeps slept before. -/
theorem sleeping (h : Woken q q') (hs : q'.state = .SLEEPING) : q.state = .SLEEPING :=
  h.state.elim (fun he => he.symm.trans hs) (·.1)

theorem state_eq (h : Woken q q') (hs : q.state ≠ .SLEEPING) : q'.state = q.state :=
  h.state.resolve_right fun hc => hs hc.1

end Woken

/-- What is left alone by all of `exit` but its last statement. -/
structure SameBooks (s s' : Sys) : Prop where
  nextpid : s'.nextpid = s.nextpid
  initproc : s'.initproc = s.initproc
  call : s'.call = s.call
  id : s'.id = s.id
  nextid : s'.nextid = s.nextid

/-- The loop of `exit` after the slots `l`. -/
structure Passed (p : Slot) (s : Sys) (l : List Slot) (s' : Sys) : Prop where
  books : SameBooks s s'
  woken : ∀ q, Woken (s.proc q) (s'.proc q)
  parent : ∀ q, (s'.proc q).parent =
    if q ∈ l ∧ (s.proc q).parent = some p then some s.initproc else (s.proc q).parent
  wakes : ∀ r ∈ l, (s.proc r).parent = some p → (s.proc r).state = .ZOMBIE →
    ∀ q, (s'.proc q).state = .SLEEPING → (s.proc q).chan ≠ some (.proc s.initproc)

theorem wake_parent (chan : Option Chan) (q : Proc) : (q.wake chan).parent = q.parent := by
  rw [Proc.wake]
  split_ifs <;> rfl

theorem wake_sleeping {chan : Option Chan} {q : Proc} (h : (q.wake chan).state = .SLEEPING) :
    q.chan ≠ chan := by
  intro hc
  have hs := (Woken.wake chan q).sleeping h
  rw [Proc.wake, if_pos ⟨hs, hc⟩] at h
  cases h

section Exit

variable {p q : Slot} {s s' : Sys} {l : List Slot}

theorem mem_snoc {α : Type*} {a b : α} {l : List α} : a ∈ l ++ [b] ↔ a ∈ l ∨ a = b := by
  rw [List.mem_append, List.mem_singleton]

theorem Passed.nil (p : Slot) (s : Sys) : Passed p s [] s := by
  refine ⟨⟨rfl, rfl, rfl, rfl, rfl⟩, fun q => .refl _, fun q => ?_, fun r hr => ?_⟩
  · rw [if_neg fun hc => List.not_mem_nil hc.1]
  · exact absurd hr List.not_mem_nil

/-- A slot that is not a child of `p`, or no longer. -/
theorem Passed.skip (h : Passed p s l s') (hq : (s'.proc q).parent ≠ some p) :
    Passed p s (l ++ [q]) s' := by
  have hmem : ∀ r, r ∈ l ++ [q] → (s.proc r).parent = some p → r ∈ l := by
    intro r hr hp
    by_contra hc
    obtain rfl := (mem_snoc.mp hr).resolve_left hc
    rw [h.parent, if_neg fun hb => hc hb.1] at hq
    exact hq hp
  refine ⟨h.books, h.woken, fun r => ?_, fun r hr hp => h.wakes r (hmem r hr hp) hp⟩
  rw [h.parent]
  exact if_congr (and_congr_left fun hp => ⟨fun hr => mem_snoc.mpr (.inl hr),
    fun hr => hmem r hr hp⟩) rfl rfl

/-- A child of `p` that is not a zombie, or is one and wakes `initproc`. -/
theorem Passed.child (h : Passed p s l s') (hq : (s'.proc q).parent = some p)
    {s'' : Sys} (hbooks : SameBooks s' s'') (hwoken : ∀ r, Woken (s'.proc r) (s''.proc r))
    (hparent : ∀ r, (s''.proc r).parent = if r = q then some s.initproc else (s'.proc r).parent)
    (hwakes : (s'.proc q).state = .ZOMBIE →
      ∀ r, (s''.proc r).state = .SLEEPING → (s'.proc r).chan ≠ some (.proc s.initproc)) :
    Passed p s (l ++ [q]) s'' := by
  have hchild : (s.proc q).parent = some p := by
    rw [h.parent] at hq
    split_ifs at hq with hc
    · exact hc.2
    · exact hq
  refine ⟨⟨?_, ?_, ?_, ?_, ?_⟩, fun r => (h.woken r).trans (hwoken r), fun r => ?_,
    fun r hr hp hz t ht => ?_⟩
  · exact hbooks.nextpid.trans h.books.nextpid
  · exact hbooks.initproc.trans h.books.initproc
  · exact hbooks.call.trans h.books.call
  · exact hbooks.id.trans h.books.id
  · exact hbooks.nextid.trans h.books.nextid
  · rw [hparent, h.parent]
    by_cases hr : r = q
    · rw [if_pos hr, if_pos ⟨mem_snoc.mpr (.inr hr), hr ▸ hchild⟩]
    · rw [if_neg hr]
      exact if_congr (and_congr_left fun _ => (mem_snoc.trans (or_iff_left hr)).symm) rfl rfl
  · rcases mem_snoc.mp hr with hr | rfl
    · exact h.wakes r hr hp hz t ((hwoken t).sleeping ht)
    · rw [← (h.woken t).chan]
      refine hwakes ?_ t ht
      rw [(h.woken r).state_eq (by rw [hz]; decide), hz]

theorem woken_adopt (s : Sys) (q r : Slot) : Woken (s.proc r) ((s.adopt q).proc r) := by
  rw [Sys.adopt_proc, Function.update_apply]
  split_ifs with hr
  · rw [hr]
    exact .setParent _ _
  · exact .refl _

theorem parent_adopt (s : Sys) (q r : Slot) :
    ((s.adopt q).proc r).parent = if r = q then some s.initproc else (s.proc r).parent := by
  rw [Sys.adopt_proc, Function.update_apply]
  split_ifs <;> rfl

theorem Passed.snoc (h : Passed p s l s') (q : Slot) :
    Passed p s (l ++ [q]) (Sys.reparent p s' q) := by
  have hparent : ∀ r, ((s'.adopt q).proc r).parent =
      if r = q then some s.initproc else (s'.proc r).parent := fun r => by
    rw [parent_adopt, h.books.initproc]
  rw [Sys.reparent]
  split_ifs with hq hz
  · refine h.child hq ⟨rfl, rfl, rfl, rfl, rfl⟩ (fun r => ?_) (fun r => ?_) fun _ r hr => ?_
    · exact (woken_adopt s' q r).trans (.wake _ _)
    · exact (wake_parent _ _).trans (hparent r)
    · rw [← (woken_adopt s' q r).chan, ← h.books.initproc]
      exact wake_sleeping hr
  · exact h.child hq ⟨rfl, rfl, rfl, rfl, rfl⟩ (woken_adopt s' q) hparent fun hc => absurd hc hz
  · exact h.skip hq

theorem passed_foldl (p : Slot) (s : Sys) (l : List Slot) :
    Passed p s l (l.foldl (Sys.reparent p) s) := by
  induction l using List.reverseRecOn with
  | nil => exact .nil p s
  | append_singleton l q ih =>
    rw [List.foldl_append]
    exact ih.snoc q

end Exit

/-- What the section of `exit` does. -/
structure Exited (p : Slot) (s s' : Sys) : Prop where
  books : SameBooks s s'
  self : (s'.proc p).state = .ZOMBIE
  woken : ∀ q, q ≠ p → Woken (s.proc q) (s'.proc q)
  pid : ∀ q, (s'.proc q).pid = (s.proc q).pid
  killed : ∀ q, (s'.proc q).killed = (s.proc q).killed
  parent : ∀ q, (s'.proc q).parent =
    if (s.proc q).parent = some p then some s.initproc else (s.proc q).parent
  /-- no one is left asleep on the parent -/
  wakes : ∀ q, (s'.proc q).state = .SLEEPING → (s.proc q).chan ≠ (s.proc p).parent.map .proc
  /-- if there is a zombie to pass on, no one is left asleep on `initproc` -/
  wakesInit : ∀ r, (s.proc r).parent = some p → (s.proc r).state = .ZOMBIE →
    ∀ q, (s'.proc q).state = .SLEEPING → (s.proc q).chan ≠ some (.proc s.initproc)

theorem exited_exit (p : Slot) (s : Sys) : Exited p s (s.exit p) := by
  have hwoken := fun q => Woken.wake ((s.proc p).parent.map .proc) (s.proc q)
  have hpassed := passed_foldl p (s.wakeup1 ((s.proc p).parent.map .proc)) (List.finRange NPROC)
  rw [Sys.exit]
  generalize (List.finRange NPROC).foldl (Sys.reparent p) _ = s₁ at hpassed ⊢
  have hne : ∀ q, q ≠ p → (s₁.setState p .ZOMBIE).proc q = s₁.proc q := fun q hq => by
    rw [Sys.setState_proc, Function.update_of_ne hq]
  have hsleeping : ∀ q, ((s₁.setState p .ZOMBIE).proc q).state = .SLEEPING →
      (s₁.proc q).state = .SLEEPING := by
    intro q hq
    rw [Sys.setState_proc, Function.update_apply] at hq
    split_ifs at hq
    exact hq
  have hkept : ∀ {α : Type} (f : Proc → α), (∀ q state, f { q with state } = f q) →
      ∀ q, f ((s₁.setState p .ZOMBIE).proc q) = f (s₁.proc q) := by
    intro α f hf q
    rw [Sys.setState_proc, Function.update_apply]
    split_ifs with hq
    · rw [hf, hq]
    · rfl
  refine ⟨?_, ?_, fun q hq => ?_, fun q => ?_, fun q => ?_, fun q => ?_, fun q hq => ?_,
    fun r hr hz q hq => ?_⟩
  · obtain ⟨h₁, h₂, h₃, h₄, h₅⟩ := hpassed.books
    exact ⟨h₁, h₂, h₃, h₄, h₅⟩
  · rw [Sys.setState_proc, Function.update_self]
  · rw [hne q hq]
    exact (hwoken q).trans (hpassed.woken q)
  · rw [hkept (·.pid) fun _ _ => rfl]
    exact ((hwoken q).trans (hpassed.woken q)).pid
  · rw [hkept (·.killed) fun _ _ => rfl]
    exact ((hwoken q).trans (hpassed.woken q)).killed
  · rw [hkept (·.parent) fun _ _ => rfl, hpassed.parent, Sys.wakeup1_proc, wake_parent]
    exact if_congr (and_iff_right (List.mem_finRange q)) rfl rfl
  · exact wake_sleeping ((hpassed.woken q).sleeping (hsleeping q hq))
  · have hchan := hpassed.wakes r (List.mem_finRange r) ((wake_parent _ _).trans hr)
      ((hwoken r).state_eq (by rw [hz]; decide) |>.trans hz) q (hsleeping q hq)
    rwa [Sys.wakeup1_proc, (hwoken q).chan] at hchan

end Lainos.Proc
