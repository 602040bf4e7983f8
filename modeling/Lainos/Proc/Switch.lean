import Lainos.Proc.Family
import Lainos.Proc.Machine

/-!
# Who runs on which stack

Only the CPU that holds `ptable.lock` can be between a process and its scheduler; every
other CPU with a process runs it, and the table says so. So the CPU that reaps a zombie
knows that no CPU is left on its stack or in its page table.
-/

namespace Lainos.Proc

open Library

variable {s s' : Sys} {p q r np : Slot} {l : Label}

/-! ## What a step of the table leaves alone -/

/-- The process that makes a step. -/
def Label.actor : Label → Option Slot
  | .run p | .yield p | .sleep p _ | .tidy p | .fork p _ _ | .forkFull p | .forkFails p _
  | .forkLinks p _ | .forks p _ | .exit p _ | .wait p _ | .trap p _ => some p
  | .wakeup _ | .kill _ => none

/-- What the other processes can rely on. -/
structure Untouched (s s' : Sys) (r : Slot) : Prop where
  call : s'.call r = s.call r
  running : (s.proc r).state = .RUNNING → (s'.proc r).state = .RUNNING
  zombie : (s.proc r).state = .ZOMBIE → (s'.proc r).state = .ZOMBIE ∨ (s'.proc r).state = .UNUSED
  unused : (s.proc r).state = .UNUSED → (s'.proc r).state = .UNUSED
  alive : Alive (s.proc r) → Alive (s'.proc r)
  sleeping : (s'.proc r).state = .SLEEPING →
    (s.proc r).state = .SLEEPING ∧ (s'.proc r).chan = (s.proc r).chan

theorem Untouched.of_eq (hcall : s'.call r = s.call r) (hproc : s'.proc r = s.proc r) :
    Untouched s s' r := by
  refine ⟨hcall, ?_, ?_, ?_, ?_, ?_⟩ <;> rw [hproc]
  · exact id
  · exact .inl
  · exact id
  · exact id
  · exact fun h => ⟨h, rfl⟩

theorem Untouched.of_state (hcall : s'.call r = s.call r)
    (hstate : (s'.proc r).state = (s.proc r).state ∨
      (s.proc r).state = .SLEEPING ∧ (s'.proc r).state = .RUNNABLE)
    (hchan : (s'.proc r).chan = (s.proc r).chan) : Untouched s s' r := by
  rcases hstate with he | ⟨he, he'⟩
  · refine ⟨hcall, ?_, ?_, ?_, fun h => ?_, ?_⟩
    · rw [he]
      exact id
    · rw [he]
      exact .inl
    · rw [he]
      exact id
    · rwa [Alive, he]
    · rw [he]
      exact fun h => ⟨h, hchan⟩
  · refine ⟨hcall, ?_, ?_, ?_, fun _ => .inr (.inl he'), ?_⟩ <;> rw [he'] <;> try rw [he]
    all_goals rintro ⟨⟩

theorem Untouched.of_woken (hcall : s'.call r = s.call r) (hw : Woken (s.proc r) (s'.proc r)) :
    Untouched s s' r := .of_state hcall hw.state hw.chan

/-- Another entry changes, and perhaps the call of another process. -/
theorem Untouched.of_ne {x : Slot} {q' : Proc} (hr : r ≠ x)
    (hproc : s'.proc = Function.update s.proc x q') (hcall : s'.call r = s.call r) :
    Untouched s s' r :=
  .of_eq hcall (by rw [hproc, Function.update_of_ne hr])

theorem Untouched.kill (s : Sys) (pid : Int32) (r : Slot) : Untouched s (s.kill pid) r := by
  rw [Sys.kill]
  split
  · next p _ =>
    by_cases hr : r = p
    · subst hr
      refine .of_state rfl ?_ ?_ <;> rw [Sys.set_proc, Function.update_self]
      dsimp only
      split_ifs with hs
      · exact .inr ⟨hs, rfl⟩
      · exact .inl rfl
    · exact .of_ne hr rfl rfl
  · exact .of_eq rfl rfl

/-- The slot of a `fork` in progress. -/
theorem Untouched.of_embryo {q' : Proc} (hr : (s.proc r).state = .EMBRYO)
    (hproc : s'.proc = Function.update s.proc r q') (hq' : q'.state ≠ .SLEEPING)
    (hcall : s'.call r = s.call r) : Untouched s s' r := by
  have hself : s'.proc r = q' := by rw [hproc, Function.update_self]
  refine ⟨hcall, ?_, ?_, ?_, fun h => absurd hr h.ne_embryo, fun h => absurd (hself ▸ h) hq'⟩
  all_goals rw [hr] <;> rintro ⟨⟩

theorem Untouched.fork {q' : Proc} {linked : Bool} (hf : Family s) (hr : r ≠ p)
    (hc : s.call p = .fork np linked) (hproc : s'.proc = Function.update s.proc np q')
    (hq' : q'.state ≠ .SLEEPING) (hcall : s'.call r = s.call r) : Untouched s s' r := by
  by_cases hrn : r = np
  · subst hrn
    exact .of_embryo (hf.embryo _ _ _ hc).1 hproc hq' hcall
  · exact .of_ne hrn hproc hcall

theorem Untouched.wait (hr : r ≠ p) : Untouched s (s.wait p).2 r := by
  have hcall : ∀ c, Function.update s.call p c r = s.call r := fun c => Function.update_of_ne hr ..
  rcases s.wait_cases p with ⟨q, -, hz, he⟩ | ⟨-, he | he⟩
  · rw [he]
    by_cases hq : r = q
    · subst hq
      have hself : ((s.reap r).setCall p .other).proc r = _ := Function.update_self ..
      refine ⟨hcall _, ?_, fun _ => .inr ?_, fun _ => ?_, fun h => absurd hz h.ne_zombie, ?_⟩
      · rw [hz]
        rintro ⟨⟩
      · rw [hself]
      · rw [hself]
      · rw [hself]
        rintro ⟨⟩
    · exact .of_ne hq rfl (hcall _)
  · rw [he]
    exact .of_eq (hcall _) rfl
  · rw [he]
    exact .of_ne hr rfl (hcall _)

theorem Step.untouched (h : Step s l s') (hf : Family s) (hr : l.actor ≠ some r)
    (hnew : ∀ p i, l ≠ .fork p r i) : Untouched s s' r := by
  have hne : ∀ {p}, l.actor = some p → r ≠ p := fun hp he => hr (he ▸ hp)
  cases h with
  | run _ => exact .of_ne (hne rfl) rfl rfl
  | yield _ _ => exact .of_ne (hne rfl) rfl rfl
  | sleep _ _ _ => exact .of_ne (hne rfl) rfl rfl
  | tidy _ => exact .of_ne (hne rfl) rfl rfl
  | wakeup _ => exact .of_woken rfl (.wake _ _)
  | @fork p np _ _ _ halloc =>
    obtain ⟨-, rfl⟩ := Sys.allocproc_eq_some halloc
    have hrn : r ≠ np := by
      rintro rfl
      exact hnew _ _ rfl
    exact .of_ne hrn rfl (Function.update_of_ne (hne rfl) ..)
  | forkFull _ _ _ => exact .of_eq rfl rfl
  | forkFails _ hc => exact .fork hf (hne rfl) hc rfl (by rintro ⟨⟩) (Function.update_of_ne (hne rfl) ..)
  | forkLinks _ hc =>
    refine .fork hf (hne rfl) hc rfl ?_ (Function.update_of_ne (hne rfl) ..)
    rw [(hf.embryo _ _ _ hc).1]
    rintro ⟨⟩
  | forks _ hc => exact .fork hf (hne rfl) hc rfl (by rintro ⟨⟩) (Function.update_of_ne (hne rfl) ..)
  | @exit p _ _ _ =>
    have he := exited_exit p s
    exact .of_woken (congrFun he.books.call r) (he.woken r (hne rfl))
  | wait _ _ => exact .wait (hne rfl)
  | kill pid => exact .kill s pid r
  | trap _ _ => exact .of_ne (hne rfl) rfl rfl

theorem Step.initproc (h : Step s l s') : s'.initproc = s.initproc := by
  cases h with
  | fork _ _ halloc =>
    obtain ⟨-, rfl⟩ := Sys.allocproc_eq_some halloc
    rfl
  | @exit p _ _ _ => exact (exited_exit p s).books.initproc
  | @wait p _ _ =>
    rcases s.wait_cases p with ⟨q, -, -, he⟩ | ⟨-, he | he⟩ <;> rw [he] <;> rfl
  | kill pid =>
    rw [Sys.kill]
    split <;> rfl
  | _ => rfl

/-! ## Where the threads stand -/

variable {m m' : Machine} {c c' : Cpu} {e : Event} {pc pc' : Pc} {op : Op}

/-- Is `ptable.lock` held here? -/
def Pc.locked : Pc → Bool
  | .free | .acquire _ | .relock _ => false
  | _ => true

/-- The calls in which a process can get into a section. -/
def Op.Fits (s : Sys) (p : Slot) : Op → Prop
  | .sleep _ lk => s.call p ≠ .wait ∧ lk ≠ .ptable
  | .yield | .kill _ | .wakeup _ => s.call p ≠ .wait
  | .exit => s.call p = .other ∧ p ≠ s.initproc
  | .wait => s.call p = .other ∨ s.call p = .wait
  | .fork => s.call p = .other

/-- Where a running process can stand. -/
def Pc.Fits (s : Sys) (p : Slot) : Pc → Prop
  | .free | .leave none => s.call p ≠ .wait
  | .acquire op | .inside op => op.Fits s p
  | .tidy .ptable => s.call p = .wait
  | .unlock _ lk | .tidy lk | .leave (some lk) | .relock lk => s.call p ≠ .wait ∧ lk ≠ .ptable
  | _ => False

/-- Where `swtch` can take a process up again. -/
def Pc.Resumable : Pc → Prop
  | .leave none | .tidy _ => True
  | _ => False

/-- Where a scheduler stands between two processes. -/
def Pc.Idle : Pc → Prop
  | .free | .acquire (.wakeup _) | .inside (.wakeup _) | .leave none | .scan _ => True
  | _ => False

/-- The saved context of a process. -/
def Saved (s : Sys) (p : Slot) (pc : Pc) : Prop :=
  (s.proc p).state ≠ .UNUSED → (s.proc p).state ≠ .ZOMBIE → pc.Resumable ∧ pc.Fits s p

/-- A state in which a process gives up its CPU. -/
def Left (q : Proc) : Prop := q.state = .SLEEPING ∨ q.state = .RUNNABLE ∨ q.state = .ZOMBIE

/-- A process on whose stack some CPU executes. -/
inductive OnCpu (s : Sys) (p : Slot) : Pc → Prop
  | running {pc : Pc} : (s.proc p).state = .RUNNING → pc.Fits s p → OnCpu s p pc
  | leaving {next : Pc} : Left (s.proc p) → Saved s p next → OnCpu s p (.swtch next)

/-- A CPU and its scheduler. -/
inductive SchedOk (s : Sys) : CpuState → Pc → Prop
  | idle {pc : Pc} : pc.Idle → SchedOk s ⟨none, none, none⟩ pc
  | chosen {p : Slot} : (s.proc p).state = .RUNNABLE → SchedOk s ⟨some p, none, none⟩ (.chosen p)
  | loaded {p : Slot} : (s.proc p).state = .RUNNABLE → SchedOk s ⟨some p, none, some p⟩ (.loaded p)
  | started {p : Slot} : (s.proc p).state = .RUNNING → SchedOk s ⟨some p, none, some p⟩ (.started p)
  | away {p : Slot} : SchedOk s ⟨some p, some p, some p⟩ (.back p)
  | back {p : Slot} : Left (s.proc p) → SchedOk s ⟨some p, none, some p⟩ (.back p)
  | unloaded {p : Slot} : Left (s.proc p) → SchedOk s ⟨some p, none, none⟩ (.unloaded p)

structure CpuOk (m : Machine) (c : Cpu) : Prop where
  locked : (m.pc (m.thread c)).locked = true ↔ m.lock .ptable = some c
  sched : SchedOk m.sys (m.cpu c) (m.pc (.sched c))
  proc : ∀ p, (m.cpu c).stack = some p → OnCpu m.sys p (m.pc (.proc p))

/-- The invariant of the machine. -/
structure Ok (m : Machine) : Prop where
  family : Family m.sys
  cpus : ∀ c, CpuOk m c
  off : ∀ p, (∀ c, (m.cpu c).stack ≠ some p) → Saved m.sys p (m.pc (.proc p))
  unique : ∀ c c' p, (m.cpu c).proc = some p → (m.cpu c').proc = some p → c = c'

theorem Machine.thread_of_some (h : (m.cpu c).stack = some p) : m.thread c = .proc p := by
  rw [Machine.thread, h]

theorem Machine.thread_of_none (h : (m.cpu c).stack = none) : m.thread c = .sched c := by
  rw [Machine.thread, h]

theorem SchedOk.away_eq {k : CpuState} (h : SchedOk s k pc) (hp : k.stack = some p) :
    k = ⟨some p, some p, some p⟩ ∧ pc = .back p := by
  cases h <;> cases hp
  exact ⟨rfl, rfl⟩

theorem SchedOk.proc_of_stack {k : CpuState} (h : SchedOk s k pc) (hp : k.stack = some p) :
    k.proc = some p := by
  rw [(h.away_eq hp).1]

theorem SchedOk.proc_of_pgdir {k : CpuState} (h : SchedOk s k pc) (hp : k.pgdir = some p) :
    k.proc = some p := by
  cases h <;> first | exact hp | cases hp

/-- A scheduler that is not idle holds `ptable.lock`. -/
theorem SchedOk.locked {k : CpuState} (h : SchedOk s k pc) (hproc : k.proc = some p) :
    pc.locked = true := by
  cases h with
  | idle _ => cases hproc
  | _ => rfl

/-- A CPU that does not hold `ptable.lock` runs its process. -/
theorem CpuOk.busy (h : CpuOk m c) (hp : (m.cpu c).proc = some p)
    (hl : m.lock .ptable ≠ some c) :
    (m.cpu c).stack = some p ∧ (m.sys.proc p).state = .RUNNING := by
  have hunlocked := mt h.locked.mp hl
  cases hs : (m.cpu c).stack with
  | none =>
    rw [Machine.thread_of_none hs] at hunlocked
    exact absurd (h.sched.locked hp) hunlocked
  | some q =>
    obtain rfl : q = p := Option.some.inj ((h.sched.proc_of_stack hs).symm.trans hp)
    refine ⟨rfl, ?_⟩
    rw [Machine.thread_of_some hs] at hunlocked
    generalize hpc : m.pc (.proc q) = pc at hunlocked
    cases hpc ▸ h.proc q hs with
    | running hr _ => exact hr
    | leaving _ _ => exact absurd rfl hunlocked

/-- Is a scheduler busy with a process here? -/
def Pc.handles : Pc → Bool
  | .chosen _ | .loaded _ | .started _ | .back _ | .unloaded _ => true
  | _ => false

theorem CpuOk.running (h : CpuOk m c) (hs : (m.cpu c).stack = some p)
    (hpc : m.pc (.proc p) = pc) (hn : ∀ next, pc ≠ .swtch next) :
    (m.sys.proc p).state = .RUNNING ∧ pc.Fits m.sys p := by
  cases hpc ▸ h.proc p hs with
  | running hr hf => exact ⟨hr, hf⟩
  | leaving _ _ => exact absurd rfl (hn _)

theorem CpuOk.idle (h : CpuOk m c) (hs : (m.cpu c).stack = none) (hpc : m.pc (.sched c) = pc)
    (hn : pc.handles = false) : m.cpu c = ⟨none, none, none⟩ ∧ pc.Idle := by
  have hsched := hpc ▸ h.sched
  generalize m.cpu c = k at hsched
  cases hsched with
  | idle hi => exact ⟨rfl, hi⟩
  | _ => cases hn

/-! ## Steps -/

theorem Op.Fits.congr (h : op.Fits s p) (hcall : s'.call p = s.call p)
    (hinit : s'.initproc = s.initproc) : op.Fits s' p := by
  cases op <;> simp only [Op.Fits, hcall, hinit] at h ⊢ <;> exact h

theorem Pc.Fits.congr (h : pc.Fits s p) (hcall : s'.call p = s.call p)
    (hinit : s'.initproc = s.initproc) : pc.Fits s' p := by
  cases pc with
  | acquire op => exact Op.Fits.congr h hcall hinit
  | inside op => exact Op.Fits.congr h hcall hinit
  | tidy lk => cases lk <;> simp only [Pc.Fits, hcall] at h ⊢ <;> exact h
  | leave lk => cases lk <;> simp only [Pc.Fits, hcall] at h ⊢ <;> exact h
  | _ => simp only [Pc.Fits, hcall] at h ⊢ <;> exact h

theorem Saved.congr (h : Saved s p pc) (hcall : s'.call p = s.call p)
    (hinit : s'.initproc = s.initproc) (hused : (s.proc p).state = .UNUSED →
      (s'.proc p).state = .UNUSED)
    (hzombie : (s.proc p).state = .ZOMBIE →
      (s'.proc p).state = .ZOMBIE ∨ (s'.proc p).state = .UNUSED) : Saved s' p pc := by
  intro hu hz
  obtain ⟨hr, hf⟩ := h (mt hused hu) fun hc => (hzombie hc).elim hz hu
  exact ⟨hr, hf.congr hcall hinit⟩

theorem OnCpu.congr (h : OnCpu s p pc) (hcall : s'.call p = s.call p)
    (hinit : s'.initproc = s.initproc) (hstate : (s'.proc p).state = (s.proc p).state) :
    OnCpu s' p pc := by
  cases h with
  | running hr hf => exact .running (hstate.trans hr) (hf.congr hcall hinit)
  | leaving hl hs =>
    refine .leaving ?_ (hs.congr hcall hinit (hstate ▸ id) (hstate ▸ .inl))
    rwa [Left, hstate]

theorem SchedOk.congr {k : CpuState} (h : SchedOk s k pc)
    (hstate : ∀ p, k.proc = some p → (s'.proc p).state = (s.proc p).state) : SchedOk s' k pc := by
  cases h with
  | idle hi => exact .idle hi
  | chosen hs => exact .chosen ((hstate _ rfl).trans hs)
  | loaded hs => exact .loaded ((hstate _ rfl).trans hs)
  | started hs => exact .started ((hstate _ rfl).trans hs)
  | away => exact .away
  | back hs => exact .back (by rwa [Left, hstate _ rfl])
  | unloaded hs => exact .unloaded (by rwa [Left, hstate _ rfl])

/-- What other CPUs do leaves this one alone. -/
theorem CpuOk.frame (h : CpuOk m c) (hinit : m'.sys.initproc = m.sys.initproc)
    (hcpu : m'.cpu c = m.cpu c) (hsched : m'.pc (.sched c) = m.pc (.sched c))
    (hlock : m'.lock .ptable = some c ↔ m.lock .ptable = some c)
    (hproc : ∀ p, (m.cpu c).proc = some p → m'.sys.call p = m.sys.call p ∧
      (m'.sys.proc p).state = (m.sys.proc p).state ∧ m'.pc (.proc p) = m.pc (.proc p)) :
    CpuOk m' c := by
  have hstack : ∀ {p}, (m.cpu c).stack = some p → (m.cpu c).proc = some p := fun hp =>
    h.sched.proc_of_stack hp
  refine ⟨?_, ?_, fun p hp => ?_⟩
  · rw [hlock, ← h.locked]
    cases hs : (m.cpu c).stack with
    | none =>
      rw [Machine.thread_of_none hs, Machine.thread_of_none (by rw [hcpu, hs]), hsched]
    | some p =>
      rw [Machine.thread_of_some hs, Machine.thread_of_some (by rw [hcpu, hs]),
        (hproc p (hstack hs)).2.2]
  · rw [hcpu, hsched]
    exact h.sched.congr fun p hp => (hproc p hp).2.1
  · rw [hcpu] at hp
    obtain ⟨hcall, hstate, hpc⟩ := hproc p (hstack hp)
    rw [hpc]
    exact (h.proc p hp).congr hcall hinit hstate

/-- Only CPU `c` does something. -/
theorem Ok.next (h : Ok m) (c : Cpu) (hfamily : Family m'.sys)
    (hinit : m'.sys.initproc = m.sys.initproc) (hcpu : ∀ c', c' ≠ c → m'.cpu c' = m.cpu c')
    (hsched : ∀ c', c' ≠ c → m'.pc (.sched c') = m.pc (.sched c'))
    (hlock : ∀ c', c' ≠ c → (m'.lock .ptable = some c' ↔ m.lock .ptable = some c'))
    (hproc : ∀ c' r, c' ≠ c → (m.cpu c').proc = some r → m'.sys.call r = m.sys.call r ∧
      (m'.sys.proc r).state = (m.sys.proc r).state ∧ m'.pc (.proc r) = m.pc (.proc r))
    (hself : CpuOk m' c)
    (hoff : ∀ r, (∀ c', (m'.cpu c').stack ≠ some r) → Saved m'.sys r (m'.pc (.proc r)))
    (hunique : ∀ r, (m'.cpu c).proc = some r →
      (m.cpu c).proc = some r ∨ ∀ c', c' ≠ c → (m.cpu c').proc ≠ some r) : Ok m' := by
  refine ⟨hfamily, fun c' => ?_, hoff, fun c₁ c₂ r h₁ h₂ => ?_⟩
  · by_cases hc : c' = c
    · exact hc ▸ hself
    · exact (h.cpus c').frame hinit (hcpu c' hc) (hsched c' hc) (hlock c' hc)
        fun r => hproc c' r hc
  · have hother : ∀ c', c' ≠ c → (m'.cpu c').proc = some r → (m'.cpu c).proc = some r → False := by
      intro c' hc h' hr
      rw [hcpu c' hc] at h'
      rcases hunique r hr with h₀ | h₀
      · exact hc (h.unique c' c r h' h₀)
      · exact h₀ c' hc h'
    by_cases hc₁ : c₁ = c <;> by_cases hc₂ : c₂ = c
    · rw [hc₁, hc₂]
    · exact (hother c₂ hc₂ h₂ (hc₁ ▸ h₁)).elim
    · exact (hother c₁ hc₁ h₁ (hc₂ ▸ h₂)).elim
    · rw [hcpu c₁ hc₁] at h₁
      rw [hcpu c₂ hc₂] at h₂
      exact h.unique c₁ c₂ r h₁ h₂

theorem Machine.thread_ne_sched (hc : c' ≠ c) : (.sched c' : Thread) ≠ m.thread c := by
  cases hs : (m.cpu c).stack with
  | none =>
    rw [Machine.thread_of_none hs]
    exact fun he => hc (Thread.sched.inj he)
  | some p =>
    rw [Machine.thread_of_some hs]
    rintro ⟨⟩

theorem Machine.stack_of_thread (h : m.thread c = .proc p) : (m.cpu c).stack = some p := by
  cases hs : (m.cpu c).stack with
  | none =>
    rw [Machine.thread_of_none hs] at h
    cases h
  | some q =>
    rw [Machine.thread_of_some hs] at h
    cases h
    rfl

theorem Ok.thread_ne_proc (h : Ok m) (hc : c' ≠ c) (hr : (m.cpu c').proc = some r) :
    (.proc r : Thread) ≠ m.thread c := fun he =>
  hc (h.unique c' c r hr ((h.cpus c).sched.proc_of_stack (Machine.stack_of_thread he.symm)))

/-- A CPU moves on on its stack and takes or gives back locks. -/
theorem Ok.move (h : Ok m) (hsys : m'.sys = m.sys) (hcpu : m'.cpu = m.cpu)
    (hpc : m'.pc = Function.update m.pc (m.thread c) pc)
    (hlock : ∀ c', c' ≠ c → (m'.lock .ptable = some c' ↔ m.lock .ptable = some c'))
    (hlocked : pc.locked = true ↔ m'.lock .ptable = some c)
    (hproc : ∀ p, (m.cpu c).stack = some p → (m.sys.proc p).state = .RUNNING ∧ pc.Fits m.sys p)
    (hidle : (m.cpu c).stack = none → m.cpu c = ⟨none, none, none⟩ ∧ pc.Idle) : Ok m' := by
  refine h.next c (hsys ▸ h.family) (by rw [hsys]) (fun c' _ => by rw [hcpu]) (fun c' hc => ?_) hlock
    (fun c' r hc hr => ?_) ⟨?_, ?_, fun p hp => ?_⟩ (fun r hr => ?_) fun r hr => .inl ?_
  · rw [hpc, Function.update_of_ne (Machine.thread_ne_sched hc)]
  · rw [hsys, hpc, Function.update_of_ne (h.thread_ne_proc hc hr)]
    exact ⟨rfl, rfl, rfl⟩
  · have hthread : m'.thread c = m.thread c := by rw [Machine.thread, Machine.thread, hcpu]
    rw [hthread, hpc, Function.update_self, hlocked]
  · rw [hsys, hcpu, hpc]
    cases hs : (m.cpu c).stack with
    | none =>
      obtain ⟨hk, hi⟩ := hidle hs
      rw [Machine.thread_of_none hs, Function.update_self, hk]
      exact .idle hi
    | some p =>
      rw [Machine.thread_of_some hs,
        Function.update_of_ne (show (.sched c : Thread) ≠ .proc p from (by rintro ⟨⟩))]
      exact (h.cpus c).sched
  · rw [hcpu] at hp
    obtain ⟨hr, hf⟩ := hproc p hp
    rw [hsys, hpc, Machine.thread_of_some hp, Function.update_self]
    exact .running hr hf
  · rw [hcpu] at hr
    have hne : (.proc r : Thread) ≠ m.thread c := fun he =>
      hr c (Machine.stack_of_thread he.symm)
    rw [hsys, hpc, Function.update_of_ne hne]
    exact h.off r hr
  · rwa [hcpu] at hr

theorem Machine.setPc_sched_proc : (m.setPc (.sched c) pc).pc (.proc r) = m.pc (.proc r) := by
  rw [Machine.setPc_pc, Function.update_of_ne (by simp)]

theorem Machine.setPc_proc_sched : (m.setPc (.proc p) pc).pc (.sched c) = m.pc (.sched c) := by
  rw [Machine.setPc_pc, Function.update_of_ne (by simp)]

theorem Machine.setPc_self (t : Thread) : (m.setPc t pc).pc t = pc := Function.update_self ..

/-- A scheduler takes up or lays down a process. -/
theorem Ok.schedule {k : CpuState} (h : Ok m) (hs : (m.cpu c).stack = none)
    (hl : m.lock .ptable = some c) (hk : SchedOk m.sys k pc) (hstack : k.stack = none)
    (hlocked : pc.locked = true)
    (hunique : ∀ r, k.proc = some r → (m.cpu c).proc = some r ∨
      ∀ c', c' ≠ c → (m.cpu c').proc ≠ some r) :
    Ok ((m.setCpu c k).setPc (.sched c) pc) := by
  have hself : ((m.setCpu c k).setPc (.sched c) pc).cpu c = k := Function.update_self ..
  have hother : ∀ c', c' ≠ c → ((m.setCpu c k).setPc (.sched c) pc).cpu c' = m.cpu c' :=
    fun c' hc => Function.update_of_ne hc ..
  refine h.next c h.family rfl hother (fun c' hc => ?_) (fun _ _ => Iff.rfl)
    (fun c' r hc hr => ⟨rfl, rfl, ?_⟩) ⟨?_, ?_, fun p hp => ?_⟩ (fun r hr => ?_) fun r hr => ?_
  · exact Function.update_of_ne (fun he => hc (Thread.sched.inj he)) ..
  · exact Machine.setPc_sched_proc
  · rw [Machine.thread_of_none (by rw [hself, hstack]), Machine.setPc_pc, Function.update_self]
    exact iff_of_true hlocked hl
  · rw [hself, Machine.setPc_pc, Function.update_self]
    exact hk
  · rw [hself, hstack] at hp
    cases hp
  · rw [Machine.setPc_sched_proc]
    refine h.off r fun c' => ?_
    by_cases hc : c' = c
    · rw [hc, hs]
      rintro ⟨⟩
    · exact hother c' hc ▸ hr c'
  · exact hunique r (hself ▸ hr)

theorem SchedOk.started_eq {k : CpuState} (h : SchedOk s k (.started p)) :
    k = ⟨some p, none, some p⟩ ∧ (s.proc p).state = .RUNNING := by
  cases h with
  | idle hi => cases hi
  | started hs => exact ⟨rfl, hs⟩

theorem Pc.Resumable.locked (h : pc.Resumable) : pc.locked = true := by
  cases pc <;> first | rfl | cases h

theorem Ok.go (h : Ok m) (hpc : m.pc (.sched c) = .started q) :
    Ok ((m.setCpu c { m.cpu c with stack := some q }).setPc (.sched c) (.back q)) := by
  obtain ⟨hk, hrun⟩ := (hpc ▸ (h.cpus c).sched).started_eq
  rw [hk]
  have hoff : ∀ c', (m.cpu c').stack ≠ some q := by
    intro c' hc'
    obtain rfl := h.unique c' c q ((h.cpus c').sched.proc_of_stack hc') (by rw [hk])
    rw [hk] at hc'
    cases hc'
  obtain ⟨hres, hfits⟩ := h.off q hoff (by simp [hrun]) (by simp [hrun])
  have hlocked := (h.cpus c).locked
  rw [Machine.thread_of_none (by rw [hk]), hpc] at hlocked
  have hself : ((m.setCpu c ⟨some q, some q, some q⟩).setPc (.sched c) (.back q)).cpu c =
      ⟨some q, some q, some q⟩ := Function.update_self ..
  have hother : ∀ c', c' ≠ c → ((m.setCpu c ⟨some q, some q, some q⟩).setPc (.sched c)
      (.back q)).cpu c' = m.cpu c' := fun c' hc => Function.update_of_ne hc ..
  refine h.next c h.family rfl hother (fun c' hc => ?_) (fun _ _ => Iff.rfl)
    (fun c' r hc hr => ⟨rfl, rfl, Machine.setPc_sched_proc⟩) ⟨?_, ?_, fun p hp => ?_⟩
    (fun r hr => ?_) fun r hr => .inl ?_
  · exact Function.update_of_ne (fun he => hc (Thread.sched.inj he)) ..
  · rw [Machine.thread_of_some (by rw [hself]), Machine.setPc_sched_proc]
    exact iff_of_true hres.locked (hlocked.mp rfl)
  · rw [hself, Machine.setPc_self]
    exact .away
  · rw [hself] at hp
    cases hp
    rw [Machine.setPc_sched_proc]
    exact .running hrun hfits
  · rw [Machine.setPc_sched_proc]
    refine h.off r fun c' => ?_
    by_cases hc : c' = c
    · rw [hc, hk]
      rintro ⟨⟩
    · exact hother c' hc ▸ hr c'
  · rw [hself] at hr
    rw [hk]
    exact hr

theorem Ok.swtch {next : Pc} (h : Ok m) (hs : (m.cpu c).stack = some p)
    (hpc : m.pc (.proc p) = .swtch next) (hl : m.lock .ptable = some c) :
    Ok ((m.setCpu c { m.cpu c with stack := none }).setPc (.proc p) next) := by
  obtain ⟨hk, hback⟩ := (h.cpus c).sched.away_eq hs
  obtain ⟨hleft, hsaved⟩ : Left (m.sys.proc p) ∧ Saved m.sys p next := by
    cases hpc ▸ (h.cpus c).proc p hs with
    | running _ hf => cases hf
    | leaving hl hs => exact ⟨hl, hs⟩
  rw [hk]
  have hself : ((m.setCpu c ⟨some p, none, some p⟩).setPc (.proc p) next).cpu c =
      ⟨some p, none, some p⟩ := Function.update_self ..
  have hother : ∀ c', c' ≠ c →
      ((m.setCpu c ⟨some p, none, some p⟩).setPc (.proc p) next).cpu c' = m.cpu c' :=
    fun c' hc => Function.update_of_ne hc ..
  have hne : ∀ {r}, r ≠ p → ((m.setCpu c ⟨some p, none, some p⟩).setPc (.proc p) next).pc
      (.proc r) = m.pc (.proc r) := fun hr =>
    Function.update_of_ne (fun he => hr (Thread.proc.inj he)) ..
  refine h.next c h.family rfl hother (fun c' hc => Machine.setPc_proc_sched) (fun _ _ => Iff.rfl)
    (fun c' r hc hr => ⟨rfl, rfl, hne ?_⟩) ⟨?_, ?_, fun q hq => ?_⟩ (fun r hr => ?_)
    fun r hr => .inl ?_
  · rintro rfl
    exact hc (h.unique c' c r hr (by rw [hk]))
  · rw [Machine.thread_of_none (by rw [hself]), Machine.setPc_proc_sched, Machine.setCpu_pc, hback]
    exact iff_of_true rfl hl
  · rw [hself, Machine.setPc_proc_sched, Machine.setCpu_pc, hback]
    exact .back hleft
  · rw [hself] at hq
    cases hq
  · by_cases hrp : r = p
    · subst hrp
      rw [Machine.setPc_self]
      exact hsaved
    · rw [hne hrp]
      refine h.off r fun c' => ?_
      by_cases hc : c' = c
      · rw [hc, hs]
        exact fun he => hrp (Option.some.inj he).symm
      · exact hother c' hc ▸ hr c'
  · rw [hself] at hr
    rw [hk]
    exact hr

theorem Machine.prepare_sched : (m.prepare l).pc (.sched c) = m.pc (.sched c) := by
  cases l with
  | fork _ _ _ => exact Machine.setPc_proc_sched
  | _ => rfl

theorem Machine.prepare_proc (hr : ∀ p i, l ≠ .fork p r i) :
    (m.prepare l).pc (.proc r) = m.pc (.proc r) := by
  cases l with
  | fork p np i =>
    exact Function.update_of_ne (fun he => hr p i (by rw [Thread.proc.inj he])) ..
  | _ => rfl

theorem Step.fork_embryo {i : ℕ} (h : Step s (.fork p np i) s') :
    (s'.proc np).state = .EMBRYO := by
  cases h with
  | fork _ _ halloc =>
    obtain ⟨-, rfl⟩ := Sys.allocproc_eq_some halloc
    rw [Sys.setCall_proc, Sys.embryo_proc, Function.update_self]

theorem Step.fork_unused {i : ℕ} (h : Step s (.fork p np i) s') : (s.proc np).state = .UNUSED := by
  cases h with
  | fork _ _ halloc => exact (Sys.allocproc_eq_some halloc).1

/-- A step of the table in a section. -/
theorem Ok.table (h : Ok m) (hstep : Step m.sys l m'.sys) (hl : m.lock .ptable = some c)
    (hactor : ∀ p, l.actor = some p → (m.cpu c).proc = some p) (hcpu : m'.cpu = m.cpu)
    (hlock : m'.lock = m.lock) (hpc : m'.pc = Function.update (m.prepare l).pc (m.thread c) pc)
    (hlocked : pc.locked = true) (hsched : (m.cpu c).stack = none → SchedOk m'.sys (m.cpu c) pc)
    (hproc : ∀ p, (m.cpu c).stack = some p → OnCpu m'.sys p pc)
    (hchosen : ∀ p, l.actor = some p → (m.cpu c).stack = none →
      Saved m'.sys p (m.pc (.proc p))) : Ok m' := by
  have hthread : m'.thread c = m.thread c := by rw [Machine.thread, Machine.thread, hcpu]
  refine h.next c (h.family.step hstep) hstep.initproc (fun c' _ => by rw [hcpu]) (fun c' hc => ?_)
    (fun c' _ => by rw [hlock]) (fun c' r hc hr => ?_) ⟨?_, ?_, fun p hp => ?_⟩ (fun r hr => ?_)
    fun r hr => .inl (hcpu ▸ hr)
  · rw [hpc, Function.update_of_ne (Machine.thread_ne_sched hc), Machine.prepare_sched]
  · -- the other CPU does not hold the lock, so it runs its process
    have hfree : m.lock .ptable ≠ some c' := fun he => hc (Option.some.inj (he.symm.trans hl))
    obtain ⟨-, hrun⟩ := (h.cpus c').busy hr hfree
    have hnew : ∀ p i, l ≠ .fork p r i := by
      rintro p i rfl
      rw [hstep.fork_unused] at hrun
      cases hrun
    have hu := hstep.untouched h.family (fun ha => hc (h.unique c' c r hr (hactor r ha))) hnew
    refine ⟨hu.call, (hu.running hrun).trans hrun.symm, ?_⟩
    rw [hpc, Function.update_of_ne (h.thread_ne_proc hc hr), Machine.prepare_proc hnew]
  · rw [hthread, hpc, Function.update_self, hlock]
    exact iff_of_true hlocked hl
  · rw [hcpu, hpc]
    cases hs : (m.cpu c).stack with
    | none =>
      rw [Machine.thread_of_none hs, Function.update_self]
      exact hsched hs
    | some p =>
      obtain ⟨hk, hback⟩ := (h.cpus c).sched.away_eq hs
      rw [Machine.thread_of_some hs,
        Function.update_of_ne (show (.sched c : Thread) ≠ .proc p from (by rintro ⟨⟩)),
        Machine.prepare_sched, hk, hback]
      exact .away
  · rw [hcpu] at hp
    rw [hpc, Machine.thread_of_some hp, Function.update_self]
    exact hproc p hp
  · rw [hcpu] at hr
    have hne : (.proc r : Thread) ≠ m.thread c := fun he => hr c (Machine.stack_of_thread he.symm)
    rw [hpc, Function.update_of_ne hne]
    by_cases hnew : ∃ p i, l = .fork p r i
    · -- a new process starts at `forkret`
      obtain ⟨p, i, rfl⟩ := hnew
      rw [Machine.prepare, Machine.setPc_self]
      refine fun _ _ => ⟨trivial, fun hw => ?_⟩
      exact ((h.family.step hstep).idle r (by simp [hw])).ne_embryo hstep.fork_embryo
    · have hnew : ∀ p i, l ≠ .fork p r i := fun p i he => hnew ⟨p, i, he⟩
      rw [Machine.prepare_proc hnew]
      by_cases ha : l.actor = some r
      · refine hchosen r ha ?_
        cases hs : (m.cpu c).stack with
        | none => rfl
        | some p =>
          have := (h.cpus c).sched.proc_of_stack hs
          rw [hactor r ha] at this
          cases this
          exact absurd hs (hr c)
      · have hu := hstep.untouched h.family ha hnew
        exact (h.off r hr).congr hu.call hstep.initproc hu.unused hu.zombie

theorem Unlocked.step {s' : Sys} (h : Unlocked s p l s') (hp : (s.proc p).state = .RUNNING) :
    Step s l s' := by
  cases h with
  | forkFails hc => exact .forkFails hp hc
  | forkLinks hc => exact .forkLinks hp hc
  | forks hc => exact .forks hp hc
  | trap hc => exact .trap hp hc

/-- A statement without the lock concerns only the process itself and its embryo. -/
theorem Unlocked.state_eq {s' : Sys} (h : Unlocked s p l s') (hf : Family s)
    (hre : (s.proc r).state ≠ .EMBRYO) : (s'.proc r).state = (s.proc r).state := by
  have hne : ∀ {np linked}, s.call p = .fork np linked → r ≠ np := by
    rintro np linked hc rfl
    exact hre (hf.embryo _ _ _ hc).1
  have hset : ∀ {x q'}, r ≠ x → ((s.set x q').proc r).state = (s.proc r).state := fun hx => by
    rw [Sys.set_proc, Function.update_of_ne hx]
  cases h with
  | forkFails hc => exact hset (hne hc)
  | forkLinks hc => exact hset (hne hc)
  | forks hc => exact hset (hne hc)
  | trap _ =>
    by_cases hr : r = p
    · rw [hr, Sys.set_proc, Function.update_self]
    · exact hset hr

theorem Unlocked.call_ne_wait {s' : Sys} (h : Unlocked s p l s') : s'.call p ≠ .wait := by
  cases h with
  | trap hc => simp [hc]
  | _ => simp

theorem Unlocked.actor {s' : Sys} (h : Unlocked s p l s') :
    l.actor = some p ∧ ∀ q np i, l ≠ .fork q np i := by
  cases h <;> exact ⟨rfl, by simp⟩

/-- The process that a CPU holds has been forked. -/
theorem CpuOk.ne_embryo (h : CpuOk m c) (hr : (m.cpu c).proc = some r) :
    (m.sys.proc r).state ≠ .EMBRYO := by
  have hleft : ∀ {q : Proc}, Left q → q.state ≠ .EMBRYO := by
    rintro q (h | h | h) <;> simp [h]
  cases hs : (m.cpu c).stack with
  | some p =>
    obtain rfl : p = r := Option.some.inj ((h.sched.proc_of_stack hs).symm.trans hr)
    generalize hpc : m.pc (.proc p) = pc
    cases hpc ▸ h.proc p hs with
    | running hrun _ => simp [hrun]
    | leaving hl _ => exact hleft hl
  | none =>
    have hsched := h.sched
    generalize m.cpu c = k at hsched hs hr
    generalize m.pc (.sched c) = pc at hsched
    cases hsched with
    | idle _ => cases hr
    | chosen h | loaded h | started h =>
      cases hr
      simp [h]
    | away => cases hs
    | back h | unloaded h =>
      cases hr
      exact hleft h

theorem Ok.unlocked {s' : Sys} (h : Ok m) (hs : (m.cpu c).stack = some p)
    (hpc : m.pc (.proc p) = .free) (hu : Unlocked m.sys p l s') : Ok { m with sys := s' } := by
  have hproc := (h.cpus c).sched.proc_of_stack hs
  obtain ⟨hrun, -⟩ := (h.cpus c).running hs hpc (by simp)
  have hstep := hu.step hrun
  have hother : ∀ r, r ≠ p → Untouched m.sys s' r := fun r hr =>
    hstep.untouched h.family (fun ha => hr (Option.some.inj (ha.symm.trans hu.actor.1)))
      fun q i => hu.actor.2 q r i
  refine h.next c (h.family.step hstep) hstep.initproc (fun _ _ => rfl) (fun _ _ => rfl)
    (fun _ _ => Iff.rfl) (fun c' r hc hr => ?_) ⟨(h.cpus c).locked, ?_, fun q hq => ?_⟩
    (fun r hr => ?_) fun r hr => .inl hr
  · have hrp : r ≠ p := fun he => hc (h.unique c' c r hr (he ▸ hproc))
    exact ⟨(hother r hrp).call, hu.state_eq h.family ((h.cpus c').ne_embryo hr), rfl⟩
  · obtain ⟨hk, hback⟩ := (h.cpus c).sched.away_eq hs
    rw [hk, hback]
    exact .away
  · obtain rfl : p = q := Option.some.inj (hs.symm.trans hq)
    refine .running ((hu.state_eq h.family ((h.cpus c).ne_embryo hproc)).trans hrun) ?_
    rw [hpc]
    exact hu.call_ne_wait
  · have hrp : r ≠ p := fun he => hr c (he ▸ hs)
    exact (h.off r hr).congr (hother r hrp).call hstep.initproc (hother r hrp).unused
      (hother r hrp).zombie

theorem Op.exec_wait (p : Slot) (s : Sys) :
    (Op.wait.exec p s).1 = .wait p (s.wait p).1 ∧ (Op.wait.exec p s).2.1 = (s.wait p).2 := by
  simp only [Op.exec]
  split <;> simp_all

/-- A section is a step of the table. -/
theorem Op.Fits.step (h : op.Fits s p) (hp : (s.proc p).state = .RUNNING) :
    Step s (op.exec p s).1 (op.exec p s).2.1 := by
  cases op with
  | sleep chan lk => exact .sleep chan hp h.1
  | yield => exact .yield hp h
  | exit => exact .exit hp h.1 h.2
  | wait =>
    obtain ⟨h₁, h₂⟩ := Op.exec_wait p s
    rw [h₁, h₂]
    exact .wait hp h
  | fork =>
    simp only [Op.exec]
    split
    · next np s' he => exact .fork hp h he
    · next he => exact .forkFull hp h he
  | kill pid => exact .kill pid
  | wakeup chan => exact .wakeup chan

theorem Op.exec_actor (hq : (op.exec p s).1.actor = some q) : q = p := by
  cases op with
  | wait =>
    rw [(Op.exec_wait p s).1] at hq
    exact (Option.some.inj hq).symm
  | fork =>
    simp only [Op.exec] at hq
    split at hq <;> exact (Option.some.inj hq).symm
  | kill pid => cases hq
  | wakeup chan => cases hq
  | _ => exact (Option.some.inj hq).symm

theorem Op.exec_locked (op : Op) (p : Slot) (s : Sys) : (op.exec p s).2.2.locked = true := by
  cases op <;> simp only [Op.exec] <;> first | rfl | (split <;> rfl)

/-- After its section a process runs on, or it has left its state and is about to switch. -/
theorem Op.Fits.onCpu (h : op.Fits s p) (hp : (s.proc p).state = .RUNNING) :
    OnCpu (op.exec p s).2.1 p (op.exec p s).2.2 := by
  cases op with
  | sleep chan lk =>
    have hself : ((s.sleep p chan).proc p).state = .SLEEPING := by
      rw [Sys.sleep_proc, Function.update_self]
    refine .leaving (.inl hself) fun _ _ => ⟨trivial, ?_⟩
    cases lk with
    | ptable => exact absurd rfl h.2
    | other n => exact h
  | yield =>
    have hself : ((s.setState p .RUNNABLE).proc p).state = .RUNNABLE := by
      rw [Sys.setState_proc, Function.update_self]
    exact .leaving (.inr (.inl hself)) fun _ _ => ⟨trivial, h⟩
  | exit =>
    have hself := (exited_exit p s).self
    exact .leaving (.inr (.inr hself)) fun _ hz => absurd hself hz
  | wait =>
    simp only [Op.exec]
    rcases s.wait_cases p with ⟨q, -, hz, he⟩ | ⟨-, he | he⟩
    · have hne : p ≠ q := by
        rintro rfl
        rw [hp] at hz
        cases hz
      rw [he]
      refine .running ?_ ?_
      · rw [Sys.setCall_proc, Sys.reap_proc, Function.update_of_ne hne, hp]
      · simp [Pc.Fits]
    · rw [he]
      exact .running hp (by simp [Pc.Fits])
    · rw [he]
      refine .leaving (.inl ?_) fun _ _ => ⟨trivial, ?_⟩
      · rw [Sys.setCall_proc, Sys.sleep_proc, Function.update_self]
      · simp [Pc.Fits]
  | fork =>
    simp only [Op.exec]
    split
    · next np s' he =>
      obtain ⟨hnp, rfl⟩ := Sys.allocproc_eq_some he
      have hne : p ≠ np := by
        rintro rfl
        rw [hp] at hnp
        cases hnp
      refine .running ?_ ?_
      · rw [Sys.setCall_proc, Sys.embryo_proc, Function.update_of_ne hne, hp]
      · simp [Pc.Fits]
    · exact .running hp (by simp [Pc.Fits, show s.call p = .other from h])
  | kill pid =>
    have hu := Untouched.kill s pid p
    exact .running (hu.running hp) fun hw => h (hu.call.symm.trans hw)
  | wakeup chan =>
    have hu : Untouched s (s.wakeup1 chan) p := .of_woken rfl (.wake _ _)
    exact .running (hu.running hp) h

/-- Where a thread that is not about to switch can go next. -/
structure Follows (m : Machine) (c : Cpu) (pc' pc : Pc) : Prop where
  here : m.pc (m.thread c) = pc'
  plain : pc'.handles = false
  stays : ∀ next, pc' ≠ .swtch next
  fits : ∀ p, (m.cpu c).stack = some p → pc'.Fits m.sys p → pc.Fits m.sys p
  idle : (m.cpu c).stack = none → pc'.Idle → pc.Idle

theorem Ok.advance (h : Ok m) (hf : Follows m c pc' pc) (hsys : m'.sys = m.sys)
    (hcpu : m'.cpu = m.cpu) (hpc : m'.pc = Function.update m.pc (m.thread c) pc)
    (hlock : ∀ c', c' ≠ c → (m'.lock .ptable = some c' ↔ m.lock .ptable = some c'))
    (hlocked : pc.locked = true ↔ m'.lock .ptable = some c) : Ok m' := by
  refine h.move hsys hcpu hpc hlock hlocked (fun p hp => ?_) fun hs => ?_
  · have hpc' := hf.here
    rw [Machine.thread_of_some hp] at hpc'
    obtain ⟨hr, hfits⟩ := (h.cpus c).running hp hpc' hf.stays
    exact ⟨hr, hf.fits p hp hfits⟩
  · have hpc' := hf.here
    rw [Machine.thread_of_none hs] at hpc'
    obtain ⟨hk, hi⟩ := (h.cpus c).idle hs hpc' hf.plain
    exact ⟨hk, hf.idle hs hi⟩

/-- Without `ptable.lock`, or with it all the time. -/
theorem Ok.stay {lock : Lock → Option Cpu} (h : Ok m) (hf : Follows m c pc' pc)
    (hlock : lock .ptable = m.lock .ptable) (hlocked : pc.locked = pc'.locked) :
    Ok (Machine.setPc { m with lock } (m.thread c) pc) := by
  refine h.advance hf rfl rfl rfl (fun c' _ => ?_) ?_
  · change lock .ptable = some c' ↔ _
    rw [hlock]
  · change _ ↔ lock .ptable = some c
    rw [hlock, hlocked, ← (h.cpus c).locked, hf.here]

theorem Ok.take (h : Ok m) (hf : Follows m c pc' pc) (hl : m.lock .ptable = none)
    (hlocked : pc.locked = true) : Ok ((m.setLock .ptable (some c)).setPc (m.thread c) pc) := by
  have hlock : ((m.setLock .ptable (some c)).setPc (m.thread c) pc).lock .ptable = some c := by
    rw [Machine.setPc_lock, Machine.setLock_lock, Function.update_self]
  refine h.advance hf rfl rfl rfl (fun c' hc => ?_) (iff_of_true hlocked hlock)
  rw [hlock, hl]
  exact iff_of_false (fun he => hc (Option.some.inj he).symm) (by simp)

theorem Ok.drop (h : Ok m) (hf : Follows m c pc' pc) (hl : m.lock .ptable = some c)
    (hlocked : pc.locked = false) : Ok ((m.setLock .ptable none).setPc (m.thread c) pc) := by
  have hlock : ((m.setLock .ptable none).setPc (m.thread c) pc).lock .ptable = none := by
    rw [Machine.setPc_lock, Machine.setLock_lock, Function.update_self]
  refine h.advance hf rfl rfl rfl (fun c' hc => ?_) (iff_of_false (by simp [hlocked]) ?_)
  · rw [hlock, hl]
    exact iff_of_false (by simp) fun he => hc (Option.some.inj he).symm
  · rw [hlock]
    rintro ⟨⟩

/-- A step on the stack of a process. -/
theorem Follows.proc (hs : (m.cpu c).stack = some p) (hpc : m.pc (.proc p) = pc')
    (hplain : pc'.handles = false) (hstays : ∀ next, pc' ≠ .swtch next)
    (hfits : pc'.Fits m.sys p → pc.Fits m.sys p) : Follows m c pc' pc := by
  refine ⟨by rw [Machine.thread_of_some hs, hpc], hplain, hstays, fun q hq => ?_, fun hn => ?_⟩
  · rw [hs] at hq
    cases hq
    exact hfits
  · rw [hs] at hn
    cases hn

/-- A step on the stack of a scheduler. -/
theorem Follows.sched (hs : (m.cpu c).stack = none) (hpc : m.pc (.sched c) = pc')
    (hplain : pc'.handles = false) (hstays : ∀ next, pc' ≠ .swtch next) (hidle : pc.Idle) :
    Follows m c pc' pc := by
  refine ⟨by rw [Machine.thread_of_none hs, hpc], hplain, hstays, fun q hq => ?_, fun _ _ => hidle⟩
  rw [hs] at hq
  cases hq

theorem Follows.any (hpc : m.pc (m.thread c) = pc') (hplain : pc'.handles = false)
    (hstays : ∀ next, pc' ≠ .swtch next) (hfits : ∀ p, pc'.Fits m.sys p → pc.Fits m.sys p)
    (hidle : pc'.Idle → pc.Idle) : Follows m c pc' pc :=
  ⟨hpc, hplain, hstays, fun p _ => hfits p, fun _ => hidle⟩

theorem Op.Callable.fits (h : op.Callable m c p) (hc : m.sys.call p ≠ .wait) :
    op.Fits m.sys p := by
  cases op with
  | sleep chan lk => exact ⟨hc, h.1⟩
  | exit => exact h
  | wait => exact .inl h
  | fork => exact h
  | _ => exact hc

/-- Other locks. -/
theorem Ok.locks {lock : Lock → Option Cpu} (h : Ok m) (hpc : m.pc (m.thread c) = .free)
    (hlock : lock .ptable = m.lock .ptable) : Ok { m with lock } := by
  have hok : Ok (Machine.setPc { m with lock } (m.thread c) .free) :=
    h.stay (.any hpc rfl (by simp) (fun _ => id) id) hlock rfl
  rwa [Machine.setPc, ← hpc, Function.update_eq_self] at hok

/-- Only a process stands here. -/
theorem CpuOk.proc_of_not_idle (h : CpuOk m c) (hpc : m.pc (m.thread c) = pc)
    (hn : pc.handles = false) (hsw : ∀ next, pc ≠ .swtch next) (hi : ¬ pc.Idle) :
    ∃ p, (m.cpu c).stack = some p ∧ pc.Fits m.sys p := by
  cases hs : (m.cpu c).stack with
  | none =>
    rw [Machine.thread_of_none hs] at hpc
    exact absurd (h.idle hs hpc hn).2 hi
  | some p =>
    rw [Machine.thread_of_some hs] at hpc
    exact ⟨p, rfl, (h.running hs hpc hsw).2⟩

theorem CpuOk.holds (h : CpuOk m c) (hpc : m.pc (m.thread c) = pc) (hl : pc.locked = true) :
    m.lock .ptable = some c := h.locked.mp (hpc ▸ hl)

theorem Machine.prepare_pc (s : Sys) : (Machine.prepare { m with sys := s } l).pc = (m.prepare l).pc := by
  cases l <;> rfl

theorem Machine.prepare_frame : (m.prepare l).sys = m.sys ∧ (m.prepare l).cpu = m.cpu ∧
    (m.prepare l).lock = m.lock := by
  cases l <;> exact ⟨rfl, rfl, rfl⟩

theorem Ok.inside (h : Ok m) (hs : (m.cpu c).stack = some p) (hpc : m.pc (.proc p) = .inside op) :
    Ok ((Machine.prepare { m with sys := (op.exec p m.sys).2.1 } (op.exec p m.sys).1).setPc (.proc p)
      (op.exec p m.sys).2.2) := by
  obtain ⟨hrun, hfits⟩ := (h.cpus c).running hs hpc (by simp)
  have hthread := Machine.thread_of_some hs
  obtain ⟨hsys, hcpu, hlock⟩ :=
    @Machine.prepare_frame (op.exec p m.sys).1 { m with sys := (op.exec p m.sys).2.1 }
  have hpcs : ((Machine.prepare { m with sys := (op.exec p m.sys).2.1 } (op.exec p m.sys).1).setPc
      (.proc p) (op.exec p m.sys).2.2).pc =
      Function.update (m.prepare (op.exec p m.sys).1).pc (m.thread c) (op.exec p m.sys).2.2 := by
    rw [hthread, Machine.setPc_pc, Machine.prepare_pc]
  refine h.table ?_ ?_ ?_ hcpu hlock hpcs (op.exec_locked p m.sys) ?_ ?_ ?_
  · exact hsys.symm ▸ Op.Fits.step hfits hrun
  · exact (h.cpus c).holds (hthread ▸ hpc) rfl
  · exact fun q hq => Op.exec_actor hq ▸ (h.cpus c).sched.proc_of_stack hs
  · rw [hs]
    rintro ⟨⟩
  · intro q hq
    obtain rfl : p = q := Option.some.inj (hs.symm.trans hq)
    exact hsys.symm ▸ Op.Fits.onCpu hfits hrun
  · rw [hs]
    rintro _ _ ⟨⟩

theorem Ok.tidies (h : Ok m) (hs : (m.cpu c).stack = some p) (hpc : m.pc (.proc p) = pc')
    (hsw : ∀ next, pc' ≠ .swtch next) (hl : pc'.locked = true) (hl' : pc.locked = true)
    (hfits : pc'.Fits m.sys p → pc.Fits m.sys p) :
    Ok (Machine.setPc { m with sys := m.sys.set p { m.sys.proc p with chan := none } } (.proc p)
      pc) := by
  obtain ⟨hrun, hf⟩ := (h.cpus c).running hs hpc hsw
  have hthread := Machine.thread_of_some hs
  refine h.table (c := c) (l := .tidy p) (.tidy hrun) ((h.cpus c).holds (hthread ▸ hpc) hl) ?_ rfl
    rfl (by rw [hthread]; rfl) hl' ?_ ?_ ?_
  · rintro q ⟨⟩
    exact (h.cpus c).sched.proc_of_stack hs
  · rw [hs]
    rintro ⟨⟩
  · intro q hq
    obtain rfl : p = q := Option.some.inj (hs.symm.trans hq)
    refine .running ?_ ((hfits hf).congr rfl rfl)
    rw [Machine.setPc_sys, Sys.set_proc, Function.update_self, hrun]
  · rw [hs]
    rintro _ _ ⟨⟩

theorem Ok.handle {chan : Option Chan} (h : Ok m) (hs : (m.cpu c).stack = none)
    (hpc : m.pc (.sched c) = .inside (.wakeup chan)) :
    Ok (Machine.setPc { m with sys := m.sys.wakeup1 chan } (.sched c) (.leave none)) := by
  have hthread := Machine.thread_of_none hs
  refine h.table (c := c) (.wakeup chan) ((h.cpus c).holds (hthread ▸ hpc) rfl) (by rintro _ ⟨⟩) rfl rfl
    (by rw [hthread]; rfl) rfl (fun _ => ?_) ?_ (by rintro _ ⟨⟩)
  · rw [((h.cpus c).idle hs hpc rfl).1]
    exact .idle trivial
  · rw [hs]
    rintro _ ⟨⟩

/-- The scheduler that holds `ptable.lock` finds a process that no CPU holds. -/
theorem Ok.runnable (h : Ok m) (hl : m.lock .ptable = some c)
    (hq : (m.sys.proc q).state = .RUNNABLE) (hc : c' ≠ c) : (m.cpu c').proc ≠ some q := by
  intro hp
  obtain ⟨-, hrun⟩ := (h.cpus c').busy hp fun he => hc (Option.some.inj (he.symm.trans hl))
  rw [hq] at hrun
  cases hrun

theorem SchedOk.chosen_eq {k : CpuState} (h : SchedOk s k (.chosen p)) :
    k = ⟨some p, none, none⟩ ∧ (s.proc p).state = .RUNNABLE := by
  cases h with
  | idle hi => cases hi
  | chosen hs => exact ⟨rfl, hs⟩

theorem SchedOk.loaded_eq {k : CpuState} (h : SchedOk s k (.loaded p)) :
    k = ⟨some p, none, some p⟩ ∧ (s.proc p).state = .RUNNABLE := by
  cases h with
  | idle hi => cases hi
  | loaded hs => exact ⟨rfl, hs⟩

theorem SchedOk.back_eq {k : CpuState} (h : SchedOk s k (.back p)) (hs : k.stack = none) :
    k = ⟨some p, none, some p⟩ ∧ Left (s.proc p) := by
  cases h with
  | idle hi => cases hi
  | away => cases hs
  | back hl => exact ⟨rfl, hl⟩

theorem SchedOk.unloaded_eq {k : CpuState} (h : SchedOk s k (.unloaded p)) :
    k = ⟨some p, none, none⟩ ∧ Left (s.proc p) := by
  cases h with
  | idle hi => cases hi
  | unloaded hl => exact ⟨rfl, hl⟩

theorem Ok.start (h : Ok m) (hs : (m.cpu c).stack = none) (hpc : m.pc (.sched c) = .loaded q) :
    Ok (Machine.setPc { m with sys := m.sys.setState q .RUNNING } (.sched c) (.started q)) := by
  obtain ⟨hk, hq⟩ := (hpc ▸ (h.cpus c).sched).loaded_eq
  have hthread := Machine.thread_of_none hs
  refine h.table (c := c) (l := .run q) (.run hq) ((h.cpus c).holds (hthread ▸ hpc) rfl) ?_ rfl rfl
    (by rw [hthread]; rfl) rfl (fun _ => ?_) ?_ ?_
  · rintro r ⟨⟩
    rw [hk]
  · rw [hk]
    refine .started ?_
    rw [Machine.setPc_sys, Sys.setState_proc, Function.update_self]
  · rw [hs]
    rintro _ ⟨⟩
  · rintro r ⟨⟩ -
    have hoff : ∀ c', (m.cpu c').stack ≠ some q := by
      intro c' hc'
      obtain rfl := h.unique c' c q ((h.cpus c').sched.proc_of_stack hc') (by rw [hk])
      rw [hs] at hc'
      cases hc'
    refine (h.off q hoff).congr rfl rfl ?_ ?_ <;> rw [hq] <;> rintro ⟨⟩

theorem Ok.act (h : Ok m) (ha : Act m c e m') : Ok m' := by
  have hc := h.cpus c
  cases ha with
  | acquire l hpc hl _ => exact h.locks hpc (Function.update_of_ne hl.symm ..)
  | release l hpc hl _ => exact h.locks hpc (Function.update_of_ne hl.symm ..)
  | unlocked hs hpc hu => exact h.unlocked hs hpc hu
  | sleep chan lk hs hpc hcall =>
    rw [← Machine.thread_of_some hs]
    exact h.stay (.proc hs hpc rfl (by simp) hcall.fits) rfl rfl
  | call op hs hpc hcall _ =>
    rw [← Machine.thread_of_some hs]
    exact h.stay (.proc hs hpc rfl (by simp) hcall.fits) rfl rfl
  | interrupt chan hs hpc =>
    rw [← Machine.thread_of_none hs]
    exact h.stay (.sched hs hpc rfl (by simp) trivial) rfl rfl
  | @enter op hpc hl hop =>
    refine h.take (.any hpc rfl (by simp) (fun _ => id) fun hi => ?_) hl rfl
    cases op with
    | wakeup chan => trivial
    | _ => cases hi
  | enterSleep hpc hl =>
    refine h.take (.any hpc rfl (by simp) (fun _ hf => hf) fun hi => ?_) hl rfl
    cases hi
  | @unlock chan lk hpc hl =>
    refine h.stay (.any hpc rfl (by simp) (fun _ hf => hf) fun hi => ?_) ?_ rfl
    · cases hi
    · obtain ⟨p, -, hf⟩ := hc.proc_of_not_idle hpc rfl (by simp) id
      exact Function.update_of_ne hf.2.symm ..
  | inside hs hpc => exact h.inside hs hpc
  | handle hs hpc => exact h.handle hs hpc
  | swtch hs hpc hl _ _ => exact h.swtch hs hpc hl
  | @tidy p lk hs hpc hlk =>
    refine h.tidies hs hpc (by simp) rfl rfl fun hf => ?_
    cases lk with
    | ptable => exact absurd rfl hlk
    | other n => exact hf
  | tidyWait hs hpc => exact h.tidies hs hpc (by simp) rfl rfl .inr
  | leave hpc hl => exact h.drop (.any hpc rfl (by simp) (fun _ hf => hf) fun _ => trivial) hl rfl
  | leaveSleep hpc hl =>
    refine h.drop (.any hpc rfl (by simp) (fun _ hf => hf) fun hi => ?_) hl rfl
    cases hi
  | @relock p lk hs hpc hl =>
    rw [← Machine.thread_of_some hs]
    refine h.stay (.proc hs hpc rfl (by simp) And.left) ?_ rfl
    exact Function.update_of_ne (hc.running hs hpc (by simp)).2.2.symm ..
  | sched hs hpc _ hl =>
    rw [← Machine.thread_of_none hs]
    exact h.take (.sched hs hpc rfl (by simp) trivial) hl rfl
  | skip hs hpc hq =>
    rw [← Machine.thread_of_none hs]
    exact h.stay (.sched hs hpc rfl (by simp) trivial) rfl rfl
  | choose hs hpc hq =>
    have hl := hc.holds (Machine.thread_of_none hs ▸ hpc) rfl
    obtain ⟨hk, -⟩ := hc.idle hs hpc rfl
    rw [hk]
    refine h.schedule hs hl (.chosen hq) rfl rfl ?_
    rintro r ⟨⟩
    exact .inr fun c' => h.runnable hl hq
  | load hs hpc =>
    obtain ⟨hk, hq⟩ := (hpc ▸ hc.sched).chosen_eq
    rw [hk]
    exact h.schedule hs (hc.holds (Machine.thread_of_none hs ▸ hpc) rfl) (.loaded hq) rfl rfl
      fun r hr => .inl (hk ▸ hr)
  | start hs hpc => exact h.start hs hpc
  | go hs hpc => exact h.go hpc
  | unload hs hpc =>
    obtain ⟨hk, hq⟩ := (hpc ▸ hc.sched).back_eq hs
    rw [hk]
    exact h.schedule hs (hc.holds (Machine.thread_of_none hs ▸ hpc) rfl) (.unloaded hq) rfl rfl
      fun r hr => .inl (hk ▸ hr)
  | done hs hpc =>
    obtain ⟨hk, -⟩ := (hpc ▸ hc.sched).unloaded_eq
    rw [hk]
    exact h.schedule hs (hc.holds (Machine.thread_of_none hs ▸ hpc) rfl) (.idle trivial) rfl rfl
      (by simp)
  | finish hs hpc hl =>
    rw [← Machine.thread_of_none hs]
    exact h.drop (.sched hs hpc rfl (by simp) trivial) hl rfl

theorem ok_boot : Ok Machine.boot := by
  refine ⟨family_userinit, fun c => ⟨?_, .idle trivial, ?_⟩, fun p _ _ _ => ⟨trivial, ?_⟩, ?_⟩
  · exact iff_of_false (by rintro ⟨⟩) (by rintro ⟨⟩)
  · rintro _ ⟨⟩
  · rintro ⟨⟩
  · rintro _ _ _ ⟨⟩

theorem ok_of_leads {es : List Event} (h : Leads Tick Machine.boot es m) : Ok m :=
  Leads.invariant (I := fun _ m => Ok m) h ok_boot fun hi ⟨_, ha⟩ => hi.act ha

/-- A CPU in a section: it holds the lock, and its process runs or is about to. -/
structure InSection (m : Machine) (c : Cpu) (l : Label) (s' : Sys) : Prop where
  step : Step m.sys l s'
  lock : m.lock .ptable = some c
  actor : ∀ p, l.actor = some p → (m.cpu c).stack = some p ∨ l = .run p
  proc : ∀ p, (m.cpu c).proc = some p →
    (m.sys.proc p).state = .RUNNING ∨ (m.sys.proc p).state = .RUNNABLE

/-- The machine runs the table: what it does is a step of the table, in a section or
without the lock, or leaves the table alone. -/
theorem Ok.sys_cases (h : Ok m) (ha : Act m c e m') : m'.sys = m.sys ∨
    (∃ p l, (m.cpu c).stack = some p ∧ m.pc (.proc p) = .free ∧ e = .table l ∧
      Unlocked m.sys p l m'.sys) ∨
    ∃ l, InSection m c l m'.sys ∧ (e = .table l ∨ ∃ p, e = .slept p) := by
  have hc := h.cpus c
  have hsection : ∀ {p pc l}, (m.cpu c).stack = some p → m.pc (.proc p) = pc →
      (∀ next, pc ≠ .swtch next) → pc.locked = true → (∀ q, l.actor = some q → q = p) →
      ((m.sys.proc p).state = .RUNNING → pc.Fits m.sys p → Step m.sys l m'.sys) →
      InSection m c l m'.sys := by
    intro p pc l hs hpc hsw hl hactor hstep
    obtain ⟨hrun, hfits⟩ := hc.running hs hpc hsw
    have hproc := hc.sched.proc_of_stack hs
    refine ⟨hstep hrun hfits, hc.holds (Machine.thread_of_some hs ▸ hpc) hl, fun q hq => .inl ?_,
      fun q hq => .inl ?_⟩
    · rw [hactor q hq, hs]
    · rw [hproc] at hq
      cases hq
      exact hrun
  cases ha with
  | unlocked hs hpc hu => exact .inr (.inl ⟨_, _, hs, hpc, rfl, hu⟩)
  | @inside p op hs hpc =>
    refine .inr (.inr ⟨_, hsection (l := (op.exec p m.sys).1) hs hpc (by simp) rfl
      (fun q => Op.exec_actor) fun hrun hfits => ?_, .inl rfl⟩)
    rw [Machine.setPc_sys, (@Machine.prepare_frame _ { m with sys := _ }).1]
    exact Op.Fits.step hfits hrun
  | @handle chan hs hpc =>
    refine .inr (.inr ⟨.wakeup chan, ⟨.wakeup chan, ?_, (by rintro _ ⟨⟩), ?_⟩, .inl rfl⟩)
    · exact hc.holds (Machine.thread_of_none hs ▸ hpc) rfl
    · rw [(hc.idle hs hpc rfl).1]
      rintro _ ⟨⟩
  | tidy hs hpc _ =>
    exact .inr (.inr ⟨_, hsection (l := .tidy _) hs hpc (by simp) rfl
      (fun q hq => (Option.some.inj hq).symm) fun hrun _ => .tidy hrun, .inl rfl⟩)
  | tidyWait hs hpc =>
    exact .inr (.inr ⟨_, hsection (l := .tidy _) hs hpc (by simp) rfl
      (fun q hq => (Option.some.inj hq).symm) fun hrun _ => .tidy hrun, .inr ⟨_, rfl⟩⟩)
  | @start q hs hpc =>
    obtain ⟨hk, hq⟩ := (hpc ▸ hc.sched).loaded_eq
    refine .inr (.inr ⟨.run q, ⟨.run hq, hc.holds (Machine.thread_of_none hs ▸ hpc) rfl, ?_, ?_⟩,
      .inl rfl⟩)
    · rintro r ⟨⟩
      exact .inr rfl
    · rw [hk]
      rintro r ⟨⟩
      exact .inr hq
  | _ => exact .inl rfl

/-- A process is run by at most one CPU; a CPU on the stack of a process has that process
as its `proc`; and when a zombie is reaped no CPU is on its stack or has its page table
loaded. -/
theorem one_cpu_per_process {es : List Event} (h : Leads Tick Machine.boot es m) :
    (∀ c c' p, (m.cpu c).proc = some p → (m.cpu c').proc = some p → c = c') ∧
    (∀ c p, (m.cpu c).stack = some p → (m.cpu c).proc = some p) ∧
    ∀ e m' q, Tick m e m' → (m.sys.proc q).state = .ZOMBIE → (m'.sys.proc q).state = .UNUSED →
      ∀ c, (m.cpu c).stack ≠ some q ∧ (m.cpu c).pgdir ≠ some q := by
  have hok := ok_of_leads h
  refine ⟨hok.unique, fun c p hp => (hok.cpus c).sched.proc_of_stack hp, ?_⟩
  rintro e m' q ⟨c, ha⟩ hz hu
  have hproc : ∀ c', (m.cpu c').proc ≠ some q := by
    intro c' hp
    rcases hok.sys_cases ha with he | ⟨p, l, -, -, -, hun⟩ | ⟨l, hsec, -⟩
    · rw [he, hz] at hu
      cases hu
    · rw [hun.state_eq hok.family (by simp [hz]), hz] at hu
      cases hu
    · by_cases hc : c' = c
      · subst hc
        rcases hsec.proc q hp with hr | hr <;> rw [hz] at hr <;> cases hr
      · obtain ⟨-, hr⟩ := (hok.cpus c').busy hp fun he => hc (Option.some.inj (he.symm.trans hsec.lock))
        rw [hz] at hr
        cases hr
  exact fun c' => ⟨fun hs => hproc c' ((hok.cpus c').sched.proc_of_stack hs),
    fun hg => hproc c' ((hok.cpus c').sched.proc_of_pgdir hg)⟩

/-- The first round of the first scheduler runs the first process. -/
theorem one_cpu_per_process_first : ∃ es m, Leads Tick Machine.boot es m ∧
    (m.cpu 0).stack = some 0 ∧ (m.cpu 0).proc = some 0 ∧
      ∀ c, (m.cpu c).proc = some 0 → c = 0 := by
  let m₁ := (Machine.boot.setLock .ptable (some 0)).setPc (.sched 0) (.scan 0)
  let m₂ := (m₁.setCpu 0 ⟨some 0, none, none⟩).setPc (.sched 0) (.chosen 0)
  let m₃ := (m₂.setCpu 0 ⟨some 0, none, some 0⟩).setPc (.sched 0) (.loaded 0)
  let m₄ := Machine.setPc { m₃ with sys := m₃.sys.setState 0 .RUNNING } (.sched 0) (.started 0)
  let m₅ := (m₄.setCpu 0 ⟨some 0, some 0, some 0⟩).setPc (.sched 0) (.back 0)
  have h₁ : Tick Machine.boot .silent m₁ := ⟨0, .sched rfl rfl (by rintro _ ⟨⟩) rfl⟩
  have h₂ : Tick m₁ .silent m₂ := ⟨0, .choose (q := 0) rfl rfl rfl⟩
  have h₃ : Tick m₂ .silent m₃ := ⟨0, .load (q := 0) rfl rfl⟩
  have h₄ : Tick m₃ (.table (.run 0)) m₄ := ⟨0, .start (q := 0) rfl rfl⟩
  have h₅ : Tick m₄ .silent m₅ := ⟨0, .go (q := 0) rfl rfl⟩
  have h := ((((Leads.single h₁).step h₂).step h₃).step h₄).step h₅
  obtain ⟨hone, hstack, -⟩ := one_cpu_per_process h
  exact ⟨_, m₅, h, rfl, hstack 0 0 rfl, fun c hc => hone c 0 0 hc rfl⟩

end Lainos.Proc
