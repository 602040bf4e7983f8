import Lainos.Proc.Switch

/-!
# No lost wake-up

`sleep` takes `ptable.lock` before it gives back the lock of its caller, and changes the
state before it gives back `ptable.lock`. So a CPU that holds the caller's lock and
`ptable.lock` finds every process that called `sleep` with that lock asleep, or woken.
-/

namespace Lainos.Proc

open Library

variable {s s' : Sys} {p q r : Slot} {l : Label} {m m' : Machine} {c c' : Cpu} {e : Event}
  {pc : Pc} {chan : Option Chan} {lk : Lock}

/-- A process calls `sleep(chan, lk)`; `wait` is the one caller with `ptable.lock`. -/
def Event.CallsSleep (p : Slot) (chan : Option Chan) (lk : Lock) (e : Event) : Prop :=
  e = .sleep p chan lk ∨
    lk = .ptable ∧ chan = some (.proc p) ∧ e = .table (.wait p .sleeps)

/-- `wakeup1(chan)` is executed: by `wakeup`, and by `exit` for the parent and, if it
passes on a zombie, for `initproc`. -/
def Label.Wakes (s : Sys) (chan : Option Chan) : Label → Prop
  | .wakeup chan' => chan' = chan
  | .exit p _ => chan = (s.proc p).parent.map .proc ∨ chan = some (.proc s.initproc) ∧
    ∃ q, (s.proc q).parent = some p ∧ (s.proc q).state = .ZOMBIE
  | _ => False

theorem Step.wakes (h : Step s l s') (hl : l.Wakes s chan) (hr : (s'.proc r).state = .SLEEPING) :
    (s'.proc r).chan ≠ chan := by
  cases h with
  | wakeup chan' =>
    obtain rfl : chan' = chan := hl
    rw [Sys.wakeup1_proc, (Woken.wake chan' (s.proc r)).chan]
    exact wake_sleeping hr
  | @exit p _ _ _ =>
    have he := exited_exit p s
    have hrp : r ≠ p := by
      rintro rfl
      rw [he.self] at hr
      cases hr
    rw [(he.woken r hrp).chan]
    rcases hl with rfl | ⟨rfl, q, hq, hz⟩
    · exact he.wakes r hr
    · exact he.wakesInit q hq hz r hr
  | _ => cases hl

/-- What is left of `sleep` after the state has been changed. -/
def Pc.AfterSleep (lk : Lock) (pc : Pc) : Prop :=
  pc = .swtch (.tidy lk) ∨ pc = .tidy lk ∨ pc = .leave (some lk) ∨ pc = .relock lk

/-- A process in its call of `sleep(chan, lk)`. -/
inductive Sleeping (m : Machine) (p : Slot) (chan : Option Chan) (lk : Lock) : Prop
  | before {c : Cpu} : (m.cpu c).stack = some p →
    m.pc (.proc p) = .acquire (.sleep chan lk) ∨ m.pc (.proc p) = .unlock chan lk →
    m.lock lk = some c → Sleeping m p chan lk
  | inside {c : Cpu} : (m.cpu c).stack = some p → m.pc (.proc p) = .inside (.sleep chan lk) →
    Sleeping m p chan lk
  | after : Alive (m.sys.proc p) → (m.pc (.proc p)).AfterSleep lk →
    ((m.sys.proc p).state = .SLEEPING → (m.sys.proc p).chan = chan) → Sleeping m p chan lk

/-! ## Other CPUs -/

/-- A CPU moves only the thread it executes, and prepares new ones. -/
theorem Act.pc_of_ne {t : Thread} (ha : Act m c e m') (ht : t ≠ m.thread c)
    (hnew : ∀ p np i, e = .table (.fork p np i) → t ≠ .proc np) : m'.pc t = m.pc t := by
  have hproc : ∀ {p}, (m.cpu c).stack = some p → t ≠ .proc p := fun hs =>
    Machine.thread_of_some hs ▸ ht
  have hsched : (m.cpu c).stack = none → t ≠ .sched c := fun hs => Machine.thread_of_none hs ▸ ht
  cases ha with
  | acquire => rfl
  | release => rfl
  | unlocked => rfl
  | @inside p op hs hpc =>
    rw [Machine.setPc_pc, Function.update_of_ne (hproc hs), Machine.prepare_pc]
    cases hl : (op.exec p m.sys).1 with
    | fork p' np i => exact Function.update_of_ne (hnew p' np i (by rw [hl])) ..
    | _ => rfl
  | enter => exact Function.update_of_ne ht ..
  | enterSleep => exact Function.update_of_ne ht ..
  | unlock => exact Function.update_of_ne ht ..
  | leave => exact Function.update_of_ne ht ..
  | leaveSleep => exact Function.update_of_ne ht ..
  | sleep _ _ hs => exact Function.update_of_ne (hproc hs) ..
  | call _ hs => exact Function.update_of_ne (hproc hs) ..
  | swtch hs => exact Function.update_of_ne (hproc hs) ..
  | tidy hs => exact Function.update_of_ne (hproc hs) ..
  | tidyWait hs => exact Function.update_of_ne (hproc hs) ..
  | relock hs => exact Function.update_of_ne (hproc hs) ..
  | interrupt _ hs => exact Function.update_of_ne (hsched hs) ..
  | handle hs => exact Function.update_of_ne (hsched hs) ..
  | sched hs => exact Function.update_of_ne (hsched hs) ..
  | skip hs => exact Function.update_of_ne (hsched hs) ..
  | choose hs => exact Function.update_of_ne (hsched hs) ..
  | load hs => exact Function.update_of_ne (hsched hs) ..
  | start hs => exact Function.update_of_ne (hsched hs) ..
  | go hs => exact Function.update_of_ne (hsched hs) ..
  | unload hs => exact Function.update_of_ne (hsched hs) ..
  | done hs => exact Function.update_of_ne (hsched hs) ..
  | finish hs => exact Function.update_of_ne (hsched hs) ..

theorem Act.cpu_of_ne (ha : Act m c e m') (hc : c' ≠ c) : m'.cpu c' = m.cpu c' := by
  cases ha with
  | @inside p op hs hpc =>
    rw [Machine.setPc_cpu, (@Machine.prepare_frame _ { m with sys := _ }).2.1]
  | swtch => exact Function.update_of_ne hc ..
  | choose => exact Function.update_of_ne hc ..
  | load => exact Function.update_of_ne hc ..
  | go => exact Function.update_of_ne hc ..
  | unload => exact Function.update_of_ne hc ..
  | done => exact Function.update_of_ne hc ..
  | _ => rfl

/-- Other CPUs do not take a lock away. -/
theorem Act.lock_of_ne (ha : Act m c e m') (hl : m.lock lk = some c') (hc : c' ≠ c) :
    m'.lock lk = some c' := by
  have hset : ∀ {l' : Lock} {o : Option Cpu}, m.lock l' = none ∨ m.lock l' = some c →
      Function.update m.lock l' o lk = some c' := by
    intro l' o hl'
    have hne : lk ≠ l' := by
      rintro rfl
      rcases hl' with h | h
      · rw [hl] at h
        cases h
      · exact hc (Option.some.inj (hl.symm.trans h))
    rw [Function.update_of_ne hne, hl]
  cases ha with
  | @inside p op hs hpc =>
    rw [Machine.setPc_lock, (@Machine.prepare_frame _ { m with sys := _ }).2.2]
    exact hl
  | acquire _ _ _ h => exact hset (.inl h)
  | release _ _ _ h => exact hset (.inr h)
  | enter _ h => exact hset (.inl h)
  | enterSleep _ h => exact hset (.inl h)
  | unlock _ h => exact hset (.inr h)
  | leave _ h => exact hset (.inr h)
  | leaveSleep _ h => exact hset (.inr h)
  | relock _ _ h => exact hset (.inl h)
  | sched _ _ _ h => exact hset (.inl h)
  | finish _ _ h => exact hset (.inr h)
  | _ => exact hl

theorem Op.exec_fork {op : Op} {i : ℕ} (h : (op.exec p s).1 = .fork q r i) :
    (s.proc r).state = .UNUSED := by
  cases op with
  | fork =>
    simp only [Op.exec] at h
    split at h
    · next np s' he =>
      cases h
      exact (Sys.allocproc_eq_some he).1
    · cases h
  | wait =>
    rw [(Op.exec_wait p s).1] at h
    cases h
  | _ => cases h

theorem Act.pc_eq (ha : Act m c e m') (hs : (m.cpu c).stack ≠ some p)
    (hp : Alive (m.sys.proc p)) : m'.pc (.proc p) = m.pc (.proc p) := by
  refine ha.pc_of_ne (fun he => hs (Machine.stack_of_thread he.symm)) ?_
  rintro q np i he hnp
  cases ha with
  | unlocked _ _ hu =>
    cases he
    exact hu.actor.2 _ _ _ rfl
  | inside _ _ =>
    obtain rfl := Thread.proc.inj hnp
    exact hp.ne_unused (Op.exec_fork (Event.table.inj he))
  | _ => cases he

/-- What a process can rely on while another thread acts. -/
theorem Act.awake (h : Ok m) (ha : Act m c e m') (hs : (m.cpu c).stack ≠ some p)
    (hp : Alive (m.sys.proc p)) : Alive (m'.sys.proc p) ∧ ((m'.sys.proc p).state = .SLEEPING →
      (m.sys.proc p).state = .SLEEPING ∧ (m'.sys.proc p).chan = (m.sys.proc p).chan) := by
  have hother : ∀ {l}, Step m.sys l m'.sys → l.actor ≠ some p → Untouched m.sys m'.sys p := by
    intro l hstep hl
    refine hstep.untouched h.family hl ?_
    rintro q i rfl
    exact hp.ne_unused hstep.fork_unused
  rcases h.sys_cases ha with he | ⟨q, l, hq, hpc, -, hu⟩ | ⟨l, hsec, -⟩
  · rw [he]
    exact ⟨hp, fun hsl => ⟨hsl, rfl⟩⟩
  · have hstep := hu.step ((h.cpus c).running hq hpc (by simp)).1
    have hunt := hother hstep fun ha => hs (hu.actor.1.symm.trans ha ▸ hq)
    exact ⟨hunt.alive hp, hunt.sleeping⟩
  · by_cases hl : l.actor = some p
    · rcases hsec.actor p hl with hc | rfl
      · exact absurd hc hs
      · have hstep := hsec.step
        generalize m'.sys = s' at hstep
        cases hstep with
        | run _ =>
          rw [Sys.setState_proc, Function.update_self]
          exact ⟨.of_running rfl, (by simp)⟩
    · have hunt := hother hsec.step hl
      exact ⟨hunt.alive hp, hunt.sleeping⟩

/-! ## The call of `sleep` -/

theorem Ok.stack_inj (h : Ok m) (hs : (m.cpu c).stack = some p) (hs' : (m.cpu c').stack = some p) :
    c = c' :=
  h.unique c c' p ((h.cpus c).sched.proc_of_stack hs) ((h.cpus c').sched.proc_of_stack hs')

/-- Where a process in `sleep` stands. -/
theorem Sleeping.pc_mem (h : Sleeping m p chan lk) : m.pc (.proc p) ∈
    [Pc.acquire (.sleep chan lk), .unlock chan lk, .inside (.sleep chan lk), .swtch (.tidy lk),
      .tidy lk, .leave (some lk), .relock lk] := by
  cases h with
  | before _ hpc _ => rcases hpc with hpc | hpc <;> simp [hpc]
  | inside _ hpc => simp [hpc]
  | after _ hpc _ => rcases hpc with hpc | hpc | hpc | hpc <;> simp [hpc]

theorem Sleeping.lock_of_before (h : Sleeping m p chan lk)
    (hpc : m.pc (.proc p) = .acquire (.sleep chan lk) ∨ m.pc (.proc p) = .unlock chan lk) :
    ∃ c, (m.cpu c).stack = some p ∧ m.lock lk = some c := by
  cases h with
  | before hs _ hl => exact ⟨_, hs, hl⟩
  | inside _ hpc' => simp [hpc'] at hpc
  | after _ hpc' _ => rcases hpc' with hpc' | hpc' | hpc' | hpc' <;> simp [hpc'] at hpc

theorem Sleeping.chan_of_after (h : Sleeping m p chan lk) (hpc : (m.pc (.proc p)).AfterSleep lk) :
    Alive (m.sys.proc p) ∧ ((m.sys.proc p).state = .SLEEPING → (m.sys.proc p).chan = chan) := by
  cases h with
  | before _ hpc' _ => rcases hpc' with hpc' | hpc' <;> simp [hpc', Pc.AfterSleep] at hpc
  | inside _ hpc' => simp [hpc', Pc.AfterSleep] at hpc
  | after ha _ hc => exact ⟨ha, hc⟩

/-- The thread of the process itself acts. -/
theorem Sleeping.own (h : Sleeping m p chan lk) (hok : Ok m) (ha : Act m c e m')
    (hs : (m.cpu c).stack = some p) (he : e ≠ .slept p) : Sleeping m' p chan lk := by
  have hthread := Machine.thread_of_some hs
  have hmem := h.pc_mem
  have hp : ∀ {p'}, (m.cpu c).stack = some p' → p' = p := fun hs' =>
    Option.some.inj (hs'.symm.trans hs)
  cases ha with
  | acquire l hpc _ _ | release l hpc _ _ | leave hpc _ =>
    rw [hthread] at hpc
    simp [hpc] at hmem
  | unlocked hs' hpc _ | sleep _ _ hs' hpc _ | call _ hs' hpc _ _ =>
    obtain rfl := hp hs'
    simp [hpc] at hmem
  | enter hpc _ hop =>
    rw [hthread] at hpc
    simp only [hpc, List.mem_cons, Pc.acquire.injEq, reduceCtorEq, List.not_mem_nil, or_false]
      at hmem
    exact absurd hmem (hop _ _)
  | @enterSleep chan' lk' hpc hl =>
    rw [hthread] at hpc ⊢
    obtain ⟨rfl, rfl⟩ : chan' = chan ∧ lk' = lk := by simpa [hpc] using hmem
    obtain ⟨c₁, hs₁, hl₁⟩ := h.lock_of_before (.inl hpc)
    obtain rfl := hok.stack_inj hs₁ hs
    have hlk := ((hok.cpus c₁).running hs hpc (by simp)).2.2
    exact .before hs (.inr (Machine.setPc_self _)) ((Function.update_of_ne hlk ..).trans hl₁)
  | @unlock chan' lk' hpc hl =>
    rw [hthread] at hpc ⊢
    obtain ⟨rfl, rfl⟩ : chan' = chan ∧ lk' = lk := by simpa [hpc] using hmem
    exact .inside hs (Machine.setPc_self _)
  | @inside p' op hs' hpc =>
    obtain rfl := hp hs'
    obtain rfl : op = .sleep chan lk := by simpa [hpc] using hmem
    have hself : ((m.sys.sleep p' chan).proc p') = _ := Function.update_self ..
    refine .after ?_ (.inl (Machine.setPc_self _)) fun _ => ?_
    · change Alive ((m.sys.sleep p' chan).proc p')
      rw [hself]
      exact .inl rfl
    · change ((m.sys.sleep p' chan).proc p').chan = chan
      rw [hself]
  | @swtch p' next hs' hpc _ _ _ =>
    obtain rfl := hp hs'
    obtain rfl : next = .tidy lk := by simpa [hpc] using hmem
    obtain ⟨halive, hchan⟩ := h.chan_of_after (.inl hpc)
    exact .after halive (.inr (.inl (Machine.setPc_self _))) hchan
  | @tidy p' lk' hs' hpc _ =>
    obtain rfl := hp hs'
    obtain rfl : lk' = lk := by simpa [hpc] using hmem
    have hrun := ((hok.cpus c).running hs hpc (by simp)).1
    refine .after ?_ (.inr (.inr (.inl (Machine.setPc_self _)))) ?_
    · rw [Machine.setPc_sys, Sys.set_proc, Function.update_self]
      exact .of_running hrun
    · rw [Machine.setPc_sys, Sys.set_proc, Function.update_self, hrun]
      rintro ⟨⟩
  | tidyWait hs' _ =>
    obtain rfl := hp hs'
    exact absurd rfl he
  | @leaveSleep lk' hpc _ =>
    rw [hthread] at hpc ⊢
    obtain rfl : lk' = lk := by simpa [hpc] using hmem
    obtain ⟨halive, hchan⟩ := h.chan_of_after (.inr (.inr (.inl hpc)))
    exact .after halive (.inr (.inr (.inr (Machine.setPc_self _)))) hchan
  | relock hs' _ _ =>
    obtain rfl := hp hs'
    exact absurd rfl he
  | _ =>
    simp_all

theorem Sleeping.act (h : Sleeping m p chan lk) (hok : Ok m) (ha : Act m c e m')
    (he : e ≠ .slept p) : Sleeping m' p chan lk := by
  by_cases hs : (m.cpu c).stack = some p
  · exact h.own hok ha hs he
  · cases h with
    | @before c₁ hs₁ hpc hl =>
      have hc : c₁ ≠ c := by
        rintro rfl
        exact hs hs₁
      have hrun : (m.sys.proc p).state = .RUNNING := by
        rcases hpc with hpc | hpc <;> exact ((hok.cpus c₁).running hs₁ hpc (by simp)).1
      rw [← ha.pc_eq hs (.of_running hrun)] at hpc
      exact .before (by rw [ha.cpu_of_ne hc, hs₁]) hpc (ha.lock_of_ne hl hc)
    | @inside c₁ hs₁ hpc =>
      have hc : c₁ ≠ c := by
        rintro rfl
        exact hs hs₁
      have hrun := ((hok.cpus c₁).running hs₁ hpc (by simp)).1
      rw [← ha.pc_eq hs (.of_running hrun)] at hpc
      exact .inside (by rw [ha.cpu_of_ne hc, hs₁]) hpc
    | after halive hpc hchan =>
      obtain ⟨halive', hsleeping⟩ := ha.awake hok hs halive
      rw [← ha.pc_eq hs halive] at hpc
      refine .after halive' hpc fun hsl => ?_
      obtain ⟨hsl', hch⟩ := hsleeping hsl
      exact hch.trans (hchan hsl')

theorem Op.exec_sleeps {op : Op} (h : (op.exec q s).1 = .wait p .sleeps) :
    q = p ∧ op.exec q s = (.wait p .sleeps, (s.sleep p (some (.proc p))).setCall p .wait,
      .swtch (.tidy .ptable)) := by
  cases op with
  | wait =>
    simp only [Op.exec] at h ⊢
    rcases s.wait_cases q with ⟨r, -, -, he⟩ | ⟨-, he | he⟩ <;> rw [he] at h ⊢ <;> cases h
    exact ⟨rfl, rfl⟩
  | fork =>
    simp only [Op.exec] at h
    split at h <;> cases h
  | _ => cases h

/-- The call begins. -/
theorem sleeping_of_calls (ha : Act m c e m') (he : e.CallsSleep p chan lk) :
    Sleeping m' p chan lk := by
  rcases he with he | ⟨rfl, rfl, he⟩
  · cases ha with
    | sleep _ _ hs _ hcall =>
      cases he
      exact .before hs (.inl (Machine.setPc_self _)) hcall.2
    | _ => cases he
  · cases ha with
    | @inside q op hs hpc =>
      obtain ⟨rfl, hexec⟩ := Op.exec_sleeps (Event.table.inj he)
      rw [hexec]
      refine .after ?_ (.inl (Machine.setPc_self _)) fun _ => ?_
      · change Alive ((m.sys.sleep q (some (.proc q))).proc q)
        rw [Sys.sleep_proc, Function.update_self]
        exact .inl rfl
      · change ((m.sys.sleep q (some (.proc q))).proc q).chan = _
        rw [Sys.sleep_proc, Function.update_self]
    | unlocked _ _ hu =>
      cases he
      cases hu
    | _ => cases he

theorem Sleeping.leads {es : List Event} (h : Sleeping m p chan lk) (hok : Ok m)
    (hrun : Leads Tick m es m') (hes : .slept p ∉ es) : Sleeping m' p chan lk ∧ Ok m' := by
  induction hrun with
  | refl => exact ⟨h, hok⟩
  | step _ ht ih =>
    obtain ⟨c, ha⟩ := ht
    obtain ⟨hes₁, hes₂⟩ := not_or.mp (List.mem_cons.not.mp hes)
    obtain ⟨h', hok'⟩ := ih hes₂
    exact ⟨h'.act hok' ha (Ne.symm hes₁), hok'.act ha⟩

/-- A CPU that wakes is in a section, and not in the one of `sleep`. -/
theorem Act.inside_of_wakes (hok : Ok m) (ha : Act m c (.table l) m') (hl : l.Wakes m.sys chan) :
    ∃ op, m.pc (m.thread c) = .inside op ∧ (∀ chan lk, op ≠ .sleep chan lk) ∧
      Step m.sys l m'.sys := by
  cases ha with
  | @inside q op hs hpc =>
    obtain ⟨hrun, hfits⟩ := (hok.cpus c).running hs hpc (by simp)
    refine ⟨op, by rw [Machine.thread_of_some hs, hpc], ?_, ?_⟩
    · rintro chan' lk' rfl
      exact hl
    · rw [Machine.setPc_sys, (@Machine.prepare_frame _ { m with sys := _ }).1]
      exact Op.Fits.step hfits hrun
  | handle hs hpc =>
    exact ⟨.wakeup _, by rw [Machine.thread_of_none hs, hpc], (by simp), .wakeup _⟩
  | unlocked _ _ hu => cases hu <;> cases hl
  | tidy => cases hl
  | start => cases hl

/-- The CPU that wakes holds both locks. -/
theorem Sleeping.wakes (h : Sleeping m p chan lk) (hok : Ok m) (ha : Act m c (.table l) m')
    (hl : l.Wakes m.sys chan) (hlock : m.lock lk = some c) :
    (m.pc (.proc p)).AfterSleep lk ∧ ((m.sys.proc p).state = .SLEEPING →
      (m.sys.proc p).chan = chan) ∧ (m'.sys.proc p).state ≠ .SLEEPING := by
  obtain ⟨op, hpc, hop, hstep⟩ := ha.inside_of_wakes hok hl
  have hown : (m.cpu c).stack = some p → m.pc (.proc p) = .inside op := fun hs => by
    rw [← Machine.thread_of_some hs, hpc]
  cases h with
  | before hs₁ hpc₁ hl₁ =>
    obtain rfl := Option.some.inj (hlock.symm.trans hl₁)
    rw [hown hs₁] at hpc₁
    rcases hpc₁ with hpc₁ | hpc₁ <;> cases hpc₁
  | @inside c₁ hs₁ hpc₁ =>
    have hl₁ := (hok.cpus c₁).holds (Machine.thread_of_some hs₁ ▸ hpc₁) rfl
    obtain rfl := Option.some.inj (hl₁.symm.trans ((hok.cpus c).holds hpc rfl))
    rw [hown hs₁] at hpc₁
    exact absurd (Pc.inside.inj hpc₁) (hop _ _)
  | after halive hafter hchan =>
    refine ⟨hafter, hchan, fun hsl => ?_⟩
    have hs : (m.cpu c).stack ≠ some p := by
      intro hs
      rw [hown hs] at hafter
      simp [Pc.AfterSleep] at hafter
    obtain ⟨hsl', hch⟩ := (ha.awake hok hs halive).2 hsl
    exact hstep.wakes hl hsl (hch.trans (hchan hsl'))

/-- If a process calls `sleep(chan, lk)` and later a CPU that holds `lk` executes
`wakeup1(chan)`, then the call has returned before, or the process is asleep on `chan` or
has been woken in this call; and after the wake-up it is not asleep. -/
theorem sleep_loses_no_wakeup {es es' : List Event} {m₀ m₁ m₂ m₃ : Machine}
    (h : Leads Tick Machine.boot es m₀) (hcall : Tick m₀ e m₁) (he : e.CallsSleep p chan lk)
    (hrun : Leads Tick m₁ es' m₂) (hwake : Act m₂ c (.table l) m₃) (hl : l.Wakes m₂.sys chan)
    (hlock : m₂.lock lk = some c) :
    .slept p ∈ es' ∨
      ((m₂.sys.proc p).state = .SLEEPING ∧ (m₂.sys.proc p).chan = chan ∨
        (m₂.sys.proc p).state ≠ .SLEEPING ∧ (m₂.pc (.proc p)).AfterSleep lk) ∧
      (m₃.sys.proc p).state ≠ .SLEEPING := by
  by_cases hes : .slept p ∈ es'
  · exact .inl hes
  · obtain ⟨c₀, ha⟩ := hcall
    have hok := ok_of_leads h
    obtain ⟨hs, hok₂⟩ := (sleeping_of_calls ha he).leads (hok.act ha) hrun hes
    obtain ⟨hpc, hchan, hawake⟩ := hs.wakes hok₂ hwake hl hlock
    refine .inr ⟨?_, hawake⟩
    by_cases hsl : (m₂.sys.proc p).state = .SLEEPING
    · exact .inl ⟨hsl, hchan hsl⟩
    · exact .inr ⟨hsl, hpc⟩

theorem Machine.setPc_setPc (t : Thread) (pc pc' : Pc) :
    (m.setPc t pc).setPc t pc' = m.setPc t pc' := by
  simp [Machine.setPc]

/-- A scheduler that finds no process to run goes through the whole table. -/
theorem leads_scan (hs : (m.cpu c).stack = none) (hall : ∀ q, (m.sys.proc q).state ≠ .RUNNABLE)
    {i n : ℕ} (hn : i + n = NPROC) (hpc : m.pc (.sched c) = .scan i) :
    ∃ es, Leads Tick m es (m.setPc (.sched c) (.scan NPROC)) := by
  induction n generalizing i m with
  | zero =>
    obtain rfl : i = NPROC := hn
    refine ⟨[], ?_⟩
    rw [Machine.setPc, ← hpc, Function.update_eq_self]
    exact .refl
  | succ n ih =>
    let q : Slot := ⟨i, by omega⟩
    have hskip : Tick m .silent (m.setPc (.sched c) (.scan (i + 1))) :=
      ⟨c, .skip (q := q) hs hpc (hall q)⟩
    obtain ⟨es, hes⟩ := ih (m := m.setPc (.sched c) (.scan (i + 1))) hs hall (by omega)
      (Machine.setPc_self _)
    rw [Machine.setPc_setPc] at hes
    exact ⟨_, (Leads.single hskip).trans hes⟩

/-- The first process sleeps with a lock; an interrupt on a second CPU takes the lock and
wakes it. -/
theorem sleep_loses_no_wakeup_interrupt : ∃ es es' m₀ m₁ m₂ m₃ e p chan lk c l,
    Leads Tick Machine.boot es m₀ ∧ Tick m₀ e m₁ ∧ e.CallsSleep p chan lk ∧
    Leads Tick m₁ es' m₂ ∧ Act m₂ c (.table l) m₃ ∧ l.Wakes m₂.sys chan ∧ m₂.lock lk = some c ∧
      (.slept p ∈ es' ∨
        ((m₂.sys.proc p).state = .SLEEPING ∧ (m₂.sys.proc p).chan = chan ∨
          (m₂.sys.proc p).state ≠ .SLEEPING ∧ (m₂.pc (.proc p)).AfterSleep lk) ∧
        (m₃.sys.proc p).state ≠ .SLEEPING) := by
  let lk := Lock.other 0
  let chan := some (Chan.other 0)
  let m₁ := (Machine.boot.setLock .ptable (some 0)).setPc (.sched 0) (.scan 0)
  let m₂ := (m₁.setCpu 0 ⟨some 0, none, none⟩).setPc (.sched 0) (.chosen 0)
  let m₃ := (m₂.setCpu 0 ⟨some 0, none, some 0⟩).setPc (.sched 0) (.loaded 0)
  let m₄ := Machine.setPc { m₃ with sys := m₃.sys.setState 0 .RUNNING } (.sched 0) (.started 0)
  let m₅ := (m₄.setCpu 0 ⟨some 0, some 0, some 0⟩).setPc (.sched 0) (.back 0)
  let m₆ := (m₅.setLock .ptable none).setPc (.proc 0) .free
  let m₇ := m₆.setLock lk (some 0)
  have h₁ : Tick Machine.boot .silent m₁ := ⟨0, .sched rfl rfl (by rintro _ ⟨⟩) rfl⟩
  have h₂ : Tick m₁ .silent m₂ := ⟨0, .choose (q := 0) rfl rfl rfl⟩
  have h₃ : Tick m₂ .silent m₃ := ⟨0, .load (q := 0) rfl rfl⟩
  have h₄ : Tick m₃ (.table (.run 0)) m₄ := ⟨0, .start (q := 0) rfl rfl⟩
  have h₅ : Tick m₄ .silent m₅ := ⟨0, .go (q := 0) rfl rfl⟩
  have h₆ : Tick m₅ .silent m₆ := ⟨0, .leave rfl rfl⟩
  have h₇ : Tick m₆ .silent m₇ := ⟨0, .acquire lk rfl (by simp) rfl⟩
  have h := ((((((Leads.single h₁).step h₂).step h₃).step h₄).step h₅).step h₆).step h₇
  -- it sleeps
  let m₈ := m₇.setPc (.proc 0) (.acquire (.sleep chan lk))
  let m₉ := (m₈.setLock .ptable (some 0)).setPc (.proc 0) (.unlock chan lk)
  let m₁₀ := (m₉.setLock lk none).setPc (.proc 0) (.inside (.sleep chan lk))
  let m₁₁ := Machine.setPc { m₁₀ with sys := m₁₀.sys.sleep 0 chan } (.proc 0) (.swtch (.tidy lk))
  let m₁₂ := (m₁₁.setCpu 0 ⟨some 0, none, some 0⟩).setPc (.proc 0) (.tidy lk)
  let m₁₃ := (m₁₂.setCpu 0 ⟨some 0, none, none⟩).setPc (.sched 0) (.unloaded 0)
  let m₁₄ := (m₁₃.setCpu 0 ⟨none, none, none⟩).setPc (.sched 0) (.scan 1)
  let m₁₅ := m₁₄.setPc (.sched 0) (.scan NPROC)
  let m₁₆ := (m₁₅.setLock .ptable none).setPc (.sched 0) .free
  have h₈ : Tick m₇ (.sleep 0 chan lk) m₈ := ⟨0, .sleep chan lk rfl rfl ⟨(by simp), rfl⟩⟩
  have h₉ : Tick m₈ .silent m₉ := ⟨0, .enterSleep rfl rfl⟩
  have h₁₀ : Tick m₉ .silent m₁₀ := ⟨0, .unlock rfl rfl⟩
  have h₁₁ : Tick m₁₀ (.table (.sleep 0 chan)) m₁₁ := ⟨0, @Act.inside m₁₀ 0 0 (.sleep chan lk) rfl rfl⟩
  have hother : ∀ l, l ≠ .ptable → m₁₁.lock l ≠ some 0 := by
    rintro (_ | _ | n) hl
    · exact absurd rfl hl
    · rintro ⟨⟩
    · rintro ⟨⟩
  have h₁₂ : Tick m₁₁ .silent m₁₂ := ⟨0, .swtch (p := 0) rfl rfl rfl hother (by rintro ⟨⟩)⟩
  have h₁₃ : Tick m₁₂ .silent m₁₃ := ⟨0, .unload (q := 0) rfl rfl⟩
  have h₁₄ : Tick m₁₃ .silent m₁₄ := ⟨0, .done (q := 0) rfl rfl⟩
  have hall : ∀ q, (m₁₄.sys.proc q).state ≠ .RUNNABLE := by
    intro q
    change ((Sys.userinit.setState 0 .RUNNING).sleep 0 chan |>.proc q).state ≠ _
    rw [Sys.sleep_proc, Function.update_apply]
    split_ifs with hq
    · rintro ⟨⟩
    · rw [Sys.setState_proc, Function.update_of_ne hq]
      rcases userinit_cases q with ⟨hc, -⟩ | ⟨-, he⟩
      · exact absurd hc hq
      · rw [he]
        rintro ⟨⟩
  obtain ⟨es, h₁₅⟩ : ∃ es, Leads Tick m₁₄ es m₁₅ := leads_scan rfl hall (i := 1) (n := 63) rfl rfl
  have h₁₆ : Tick m₁₅ .silent m₁₆ := ⟨0, .finish rfl rfl rfl⟩
  -- the interrupt
  let m₁₇ := m₁₆.setLock lk (some 1)
  let m₁₈ := m₁₇.setPc (.sched 1) (.acquire (.wakeup chan))
  let m₁₉ := (m₁₈.setLock .ptable (some 1)).setPc (.sched 1) (.inside (.wakeup chan))
  have h₁₇ : Tick m₁₆ .silent m₁₇ := ⟨1, .acquire lk rfl (by simp) rfl⟩
  have h₁₈ : Tick m₁₇ .silent m₁₈ := ⟨1, .interrupt chan rfl rfl⟩
  have h₁₉ : Tick m₁₈ .silent m₁₉ := ⟨1, .enter rfl rfl (by simp)⟩
  have hwake : Act m₁₉ 1 (.table (.wakeup chan))
    (Machine.setPc { m₁₉ with sys := m₁₉.sys.wakeup1 chan } (.sched 1) (.leave none)) :=
    .handle rfl rfl
  have hsleep := (((((Leads.single h₉).step h₁₀).step h₁₁).step h₁₂).step h₁₃).step h₁₄
  have hrun := (((((hsleep.trans h₁₅).step h₁₆).step h₁₇).step h₁₈)).step h₁₉
  have he : (Event.sleep 0 chan lk).CallsSleep 0 chan lk := .inl rfl
  exact ⟨_, _, _, _, _, _, _, 0, chan, lk, 1, _, h, h₈, he, hrun, hwake, rfl, rfl,
    sleep_loses_no_wakeup h h₈ he hrun hwake rfl rfl⟩

end Lainos.Proc
