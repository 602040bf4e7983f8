import Lainos.Proc.Family

/-!
# Whom `kill` hits

`kill` takes the first slot with the pid, used or not, and `allocproc` does not clear the
flag. A process starts life killed exactly if the slot it gets was hit while no process
used it.
-/

namespace Lainos.Proc

open Library

variable {s s' : Sys} {p q np : Slot} {l : Label} {ls : List Label}

/-- The process that a `fork` creates. -/
def Label.creates : Label → Option ℕ
  | .fork _ _ child => some child
  | _ => none

/-- Since the process with a number was created there was a `kill` with its pid, or it
took an unexpected trap in user mode. -/
def Hit (ls : List Label) (i : ℕ) (pid : Int32) : Prop :=
  ∃ l ∈ ls.takeWhile (·.creates ≠ some i), l = .kill pid ∨ ∃ p, l = .trap p i

/-- The processes that are killed were hit. -/
def Targeted (ls : List Label) (s : Sys) : Prop :=
  ∀ q, (s.proc q).state ≠ .UNUSED → (s.proc q).killed = true → Hit ls (s.id q) (s.proc q).pid

/-- `allocproc` finds a slot whose flag is set. -/
def Stale (s : Sys) (l : Label) : Prop := ∃ p np child, l = .fork p np child ∧ (s.proc np).killed

theorem Hit.cons {i : ℕ} {pid : Int32} (h : Hit ls i pid) (hl : l.creates ≠ some i) :
    Hit (l :: ls) i pid := by
  obtain ⟨l', hl', hhit⟩ := h
  refine ⟨l', ?_, hhit⟩
  rw [List.takeWhile_cons_of_pos (by simpa using hl)]
  exact List.mem_cons_of_mem _ hl'

theorem not_hit_of_creates {i : ℕ} {pid : Int32} (hl : l.creates = some i) :
    ¬ Hit (l :: ls) i pid := by
  rintro ⟨l', hl', -⟩
  rw [List.takeWhile_cons_of_neg (by simp [hl])] at hl'
  exact List.not_mem_nil hl'

theorem hit_of_kill (pid : Int32) (i : ℕ) : Hit (.kill pid :: ls) i pid :=
  ⟨.kill pid, by simp [Label.creates], .inl rfl⟩

theorem hit_of_trap (p : Slot) (i : ℕ) (pid : Int32) : Hit (.trap p i :: ls) i pid :=
  ⟨.trap p i, by simp [Label.creates], .inr ⟨p, rfl⟩⟩

/-- A step that hits no one and creates no one. -/
theorem Targeted.keep (h : Targeted ls s) (hl : l.creates = none) (hid : s'.id = s.id)
    (hkeep : ∀ q, (s'.proc q).state ≠ .UNUSED → (s.proc q).state ≠ .UNUSED ∧
      (s'.proc q).killed = (s.proc q).killed ∧ (s'.proc q).pid = (s.proc q).pid) :
    Targeted (l :: ls) s' := by
  intro q hu hk
  obtain ⟨hu', hkilled, hpid⟩ := hkeep q hu
  rw [hpid, hid]
  exact (h q hu' (hkilled ▸ hk)).cons (by simp [hl])

theorem Targeted.set {x : Slot} {q' : Proc} (h : Targeted ls s) (hl : l.creates = none)
    (hid : s'.id = s.id) (hproc : s'.proc = Function.update s.proc x q')
    (hkeep : q'.state ≠ .UNUSED → (s.proc x).state ≠ .UNUSED ∧
      q'.killed = (s.proc x).killed ∧ q'.pid = (s.proc x).pid) : Targeted (l :: ls) s' := by
  refine h.keep hl hid fun q hu => ?_
  rw [hproc, Function.update_apply] at hu ⊢
  split_ifs at hu ⊢ with hq
  · exact hq ▸ hkeep hu
  · exact ⟨hu, rfl, rfl⟩

/-- The entry of one process is marked. -/
theorem Targeted.mark {q' : Proc} (h : Targeted ls s) (hl : l.creates = none)
    (hhit : Hit (l :: ls) (s.id p) q'.pid) : Targeted (l :: ls) (s.set p q') := by
  intro q hu hk
  rw [Sys.set_proc, Function.update_apply] at hu hk ⊢
  split_ifs at hu hk ⊢ with hq
  · rw [hq]
    exact hhit
  · exact (h q hu hk).cons (by simp [hl])

theorem Targeted.kill (h : Targeted ls s) (pid : Int32) :
    Targeted (.kill pid :: ls) (s.kill pid) := by
  rw [Sys.kill]
  split
  · next p hp =>
    have hpid : (s.proc p).pid = pid := of_decide_eq_true (Sys.find_eq_some hp)
    refine h.mark rfl ?_
    rw [hpid]
    exact hit_of_kill pid _
  · exact h.keep rfl rfl fun q hu => ⟨hu, rfl, rfl⟩

theorem Targeted.waits (h : Targeted ls s) (hp : (s.proc p).state = .RUNNING) (w : Waited) :
    Targeted (.wait p w :: ls) (s.wait p).2 := by
  rcases s.wait_cases p with ⟨q, -, -, he⟩ | ⟨-, he | he⟩
  · rw [he]
    exact h.set rfl rfl rfl (by simp)
  · rw [he]
    exact h.keep rfl rfl fun q hu => ⟨hu, rfl, rfl⟩
  · rw [he]
    exact h.set rfl rfl rfl fun _ => ⟨by simp [hp], rfl, rfl⟩

theorem Targeted.exit (h : Targeted ls s) (hp : (s.proc p).state = .RUNNING) (i : ℕ) :
    Targeted (.exit p i :: ls) (s.exit p) := by
  have he := exited_exit p s
  refine h.keep rfl he.books.id fun q hu => ⟨fun hc => ?_, he.killed q, he.pid q⟩
  have hqp : q ≠ p := by
    rintro rfl
    rw [hp] at hc
    cases hc
  exact hu ((he.woken q hqp).state_eq (by simp [hc]) |>.trans hc)

theorem Targeted.wakeup1 (h : Targeted ls s) (chan : Option Chan) :
    Targeted (.wakeup chan :: ls) (s.wakeup1 chan) := by
  refine h.keep rfl rfl fun q hu => ?_
  have hw := Woken.wake chan (s.proc q)
  exact ⟨fun hc => hu ((hw.state_eq (by simp [hc])).trans hc), hw.killed, hw.pid⟩

theorem Targeted.fork_iff (h : Targeted ls s) (hh : History ls s) :
    Targeted (.fork p np s.nextid :: ls) ((s.embryo np).setCall p (.fork np false)) ↔
      (s.proc np).killed = false := by
  have hself : (s.embryo np).proc np = { s.proc np with state := .EMBRYO, pid := s.nextpid } :=
    Function.update_self ..
  have hid : (s.embryo np).id np = s.nextid := Function.update_self ..
  constructor
  · intro ht
    by_contra hk
    refine not_hit_of_creates rfl (hid ▸ ht np ?_ ?_)
    · rw [Sys.setCall_proc, hself]
      rintro ⟨⟩
    · rw [Sys.setCall_proc, hself]
      exact Bool.not_eq_false _ ▸ hk
  · intro hk q hu hq
    by_cases hqn : q = np
    · rw [hqn, Sys.setCall_proc, hself] at hq
      exact absurd (hk.symm.trans hq) (by rintro ⟨⟩)
    · rw [Sys.setCall_proc, Sys.embryo_proc, Function.update_of_ne hqn] at hu hq ⊢
      rw [Sys.setCall_id, Sys.embryo_id, Function.update_of_ne hqn]
      exact (h q hu hq).cons fun hc => (hh.lt q hu).ne' (Option.some.inj hc)

/-- Only `fork` can go wrong. -/
theorem Targeted.step (h : Targeted ls s) (hf : Family s) (hs : Step s l s')
    (hl : l.creates = none) : Targeted (l :: ls) s' := by
  cases hs with
  | fork hp hc halloc => cases hl
  | run hp => exact h.set rfl rfl rfl fun _ => ⟨by simp [hp], rfl, rfl⟩
  | yield hp _ => exact h.set rfl rfl rfl fun _ => ⟨by simp [hp], rfl, rfl⟩
  | sleep chan hp _ => exact h.set rfl rfl rfl fun _ => ⟨by simp [hp], rfl, rfl⟩
  | tidy hp => exact h.set rfl rfl rfl fun _ => ⟨by simp [hp], rfl, rfl⟩
  | wakeup chan => exact h.wakeup1 chan
  | forkFull _ _ _ => exact h.keep rfl rfl fun q hu => ⟨hu, rfl, rfl⟩
  | forkFails hp hc => exact h.set rfl rfl rfl (by simp)
  | forkLinks hp hc =>
    have hembryo := (hf.embryo _ _ _ hc).1
    exact h.set rfl rfl rfl fun _ => ⟨by simp [hembryo], rfl, rfl⟩
  | forks hp hc =>
    have hembryo := (hf.embryo _ _ _ hc).1
    exact h.set rfl rfl rfl fun _ => ⟨by simp [hembryo], rfl, rfl⟩
  | exit hp _ _ => exact h.exit hp _
  | wait hp _ => exact h.waits hp _
  | kill pid => exact h.kill pid
  | trap hp _ => exact h.mark rfl (hit_of_trap _ _ _)

theorem Targeted.step_iff (h : Targeted ls s) (hf : Family s) (hh : History ls s)
    (hs : Step s l s') : Targeted (l :: ls) s' ↔ ¬ Stale s l := by
  cases hl : l.creates with
  | none =>
    refine iff_of_true (h.step hf hs hl) ?_
    rintro ⟨p, np, child, rfl, -⟩
    cases hl
  | some child =>
    cases hs with
    | @fork p np _ hp hc halloc =>
      obtain ⟨-, rfl⟩ := Sys.allocproc_eq_some halloc
      rw [h.fork_iff hh, ← Bool.not_eq_true, not_iff_not]
      constructor
      · exact fun hk => ⟨p, np, _, rfl, hk⟩
      · rintro ⟨_, _, _, ⟨⟩, hk⟩
        exact hk
    | _ => cases hl

theorem targeted_userinit : Targeted [] Sys.userinit := by
  intro q _ hk
  rcases userinit_cases q with ⟨-, he⟩ | ⟨-, he⟩ <;> rw [he] at hk <;> cases hk

/-- As long as no `fork` has taken a slot with a stale flag, only processes that were hit
are killed; and the next step changes that exactly if it is such a `fork`. -/
theorem kill_hits_target (h : Leads (fun s l s' => Step s l s' ∧ ¬ Stale s l) Sys.userinit ls s) :
    Targeted ls s ∧ ∀ l s', Step s l s' → (Targeted (l :: ls) s' ↔ ¬ Stale s l) := by
  obtain ⟨hf, hh, ht⟩ := Leads.invariant (I := fun ls s => Family s ∧ History ls s ∧ Targeted ls s) h
    ⟨family_userinit, history_userinit, targeted_userinit⟩ fun ⟨hf, hh, ht⟩ ⟨hs, hl⟩ =>
      ⟨hf.step hs, hh.step hf hs, (ht.step_iff hf hh hs).mpr hl⟩
  exact ⟨ht, fun l s' hs => ht.step_iff hf hh hs⟩

/-- A `kill` of the first process marks it. -/
theorem kill_hits_target_initproc : ∃ ls s,
    Leads (fun s l s' => Step s l s' ∧ ¬ Stale s l) Sys.userinit ls s ∧
      (s.proc 0).killed = true ∧ Targeted ls s := by
  have h : Leads (fun s l s' => Step s l s' ∧ ¬ Stale s l) Sys.userinit [.kill 1]
      (Sys.userinit.kill 1) := .single ⟨.kill 1, fun ⟨_, _, _, hl, _⟩ => by cases hl⟩
  exact ⟨_, _, h, rfl, (kill_hits_target h).1⟩

/-- `kill(0)` marks the first unused slot, and the next `fork` creates its process there. -/
theorem kill_zero_hits_next : ∃ ls s, Leads Step Sys.userinit ls s ∧ ¬ Targeted ls s := by
  let s₁ := Sys.userinit.setState 0 .RUNNING
  let s₂ := s₁.kill 0
  have h₁ : Step Sys.userinit (.run 0) s₁ := .run rfl
  have h₂ : Step s₁ (.kill 0) s₂ := .kill 0
  have h₃ : Step s₂ (.fork 0 1 2) ((s₂.embryo 1).setCall 0 (.fork 1 false)) := .fork rfl rfl rfl
  refine ⟨_, _, ((Leads.single h₁).step h₂).step h₃, fun ht => ?_⟩
  exact not_hit_of_creates rfl (ht 1 (by rintro ⟨⟩) rfl)

/-- A `kill` finds no slot or one that is used, and a `fork` that fails does not give a
slot back that was hit meanwhile. -/
def Spares (s : Sys) (l : Label) : Prop :=
  (∀ pid p, l = .kill pid → s.find (·.pid = pid) = some p → (s.proc p).state ≠ .UNUSED) ∧
    ∀ p np, l = .forkFails p np → (s.proc np).killed = false

/-- No flag is set in a slot that is not used. -/
def Clean (s : Sys) : Prop := ∀ q, (s.proc q).state = .UNUSED → (s.proc q).killed = false

theorem Clean.set {x : Slot} {q' : Proc} (h : Clean s) (hproc : s'.proc = Function.update s.proc x q')
    (hx : q'.state = .UNUSED → q'.killed = false) : Clean s' := by
  intro q hu
  rw [hproc, Function.update_apply] at hu ⊢
  split_ifs at hu ⊢
  · exact hx hu
  · exact h q hu

theorem Clean.woken (h : Clean s) (hw : ∀ q, (s'.proc q).state = .UNUSED →
    Woken (s.proc q) (s'.proc q)) : Clean s' := by
  intro q hu
  rw [(hw q hu).killed]
  rcases (hw q hu).state with he | ⟨-, he⟩
  · exact h q (he.symm.trans hu)
  · rw [he] at hu
    cases hu

theorem Clean.waits (h : Clean s) : Clean (s.wait p).2 := by
  rcases s.wait_cases p with ⟨q, -, -, he⟩ | ⟨-, he | he⟩
  · rw [he]
    exact h.set rfl fun _ => rfl
  · rw [he]
    exact h
  · rw [he]
    exact h.set rfl (by rintro ⟨⟩)

theorem Clean.kill {pid : Int32} (h : Clean s)
    (hl : ∀ p, s.find (·.pid = pid) = some p → (s.proc p).state ≠ .UNUSED) :
    Clean (s.kill pid) := by
  rw [Sys.kill]
  split
  · next p hp =>
    refine h.set rfl fun hu => ?_
    dsimp only at hu
    split_ifs at hu
    exact absurd hu (hl p hp)
  · exact h

theorem Clean.step (h : Clean s) (hf : Family s) (hs : Step s l s') (hl : Spares s l) :
    Clean s' := by
  cases hs with
  | run hp => exact h.set rfl (by rintro ⟨⟩)
  | yield hp _ => exact h.set rfl (by rintro ⟨⟩)
  | sleep chan hp _ => exact h.set rfl (by rintro ⟨⟩)
  | tidy hp => exact h.set rfl (by simp [hp])
  | wakeup chan => exact h.woken fun q _ => .wake _ _
  | fork hp hc halloc =>
    obtain ⟨-, rfl⟩ := Sys.allocproc_eq_some halloc
    exact h.set rfl (by rintro ⟨⟩)
  | forkFull _ _ _ => exact h
  | forkFails hp hc => exact h.set rfl fun _ => hl.2 _ _ rfl
  | forkLinks hp hc => exact h.set rfl (by simp [(hf.embryo _ _ _ hc).1])
  | forks hp hc => exact h.set rfl (by rintro ⟨⟩)
  | @exit p hp _ _ =>
    have he := exited_exit p s
    refine h.woken fun q hu => he.woken q ?_
    rintro rfl
    exact absurd (he.self.symm.trans hu) (by rintro ⟨⟩)
  | wait hp _ => exact h.waits
  | kill pid => exact h.kill fun p => hl.1 pid p rfl
  | trap hp _ => exact h.set rfl (by simp [hp])

/-- Then no slot with a stale flag is ever taken. -/
theorem not_stale_of_spares (h : Leads (fun s l s' => Step s l s' ∧ Spares s l) Sys.userinit ls s)
    (hs : Step s l s') : ¬ Stale s l := by
  have hzero : Clean Sys.userinit := by
    intro q _
    rcases userinit_cases q with ⟨-, he⟩ | ⟨-, he⟩ <;> rw [he]
  obtain ⟨-, hc⟩ := Leads.invariant (I := fun _ s => Family s ∧ Clean s) h
    ⟨family_userinit, hzero⟩ fun hi hs => ⟨hi.1.step hs.1, hi.2.step hi.1 hs.1 hs.2⟩
  rintro ⟨p, np, child, rfl, hk⟩
  cases hs with
  | fork _ _ halloc =>
    rw [hc np (Sys.allocproc_eq_some halloc).1] at hk
    cases hk

end Lainos.Proc
