import Lainos.Proc.Table

/-!
# Parents and children

Every process past `fork` has a parent that lives, so that some `wait` can return it; a
process asleep in `wait` has no zombie among its children, because `exit` wakes the
parent, and `initproc` for the zombies it passes on, in the section that makes the zombie.
-/

namespace Lainos.Proc

open Library

variable {s s' : Sys} {p q r np : Slot} {l : Label} {ls : List Label}

/-- Past `fork` and before `exit`. -/
def Alive (q : Proc) : Prop := q.state = .SLEEPING ∨ q.state = .RUNNABLE ∨ q.state = .RUNNING

namespace Alive

variable {q q' : Proc}

theorem ne_unused (h : Alive q) : q.state ≠ .UNUSED := by
  rcases h with h | h | h <;> simp [h]

theorem ne_embryo (h : Alive q) : q.state ≠ .EMBRYO := by
  rcases h with h | h | h <;> simp [h]

theorem ne_zombie (h : Alive q) : q.state ≠ .ZOMBIE := by
  rcases h with h | h | h <;> simp [h]

theorem of_running (h : q.state = .RUNNING) : Alive q := .inr (.inr h)

theorem woken (hw : Woken q q') (h : Alive q) : Alive q' := by
  rcases hw.state with he | ⟨-, he⟩
  · rwa [Alive, he]
  · exact .inr (.inl he)

theorem of_woken (hw : Woken q q') (h : Alive q') : Alive q := by
  rcases hw.state with he | ⟨he, -⟩
  · rwa [Alive, ← he]
  · exact .inl he

end Alive

/-- The relations between processes. -/
structure Family (s : Sys) : Prop where
  init : Alive (s.proc s.initproc)
  orphan : (s.proc s.initproc).parent = none
  /-- every process past `fork` but `initproc` has a parent -/
  child : ∀ q, Alive (s.proc q) ∨ (s.proc q).state = .ZOMBIE → q ≠ s.initproc →
    ∃ r, (s.proc q).parent = some r
  /-- parents live -/
  parent : ∀ q r, (s.proc q).parent = some r → Alive (s.proc r)
  irrefl : ∀ q, (s.proc q).parent ≠ some q
  unused : ∀ q, (s.proc q).state = .UNUSED → (s.proc q).parent = none
  /-- only processes that live are in a call -/
  idle : ∀ p, s.call p ≠ .other → Alive (s.proc p)
  embryo : ∀ p np linked, s.call p = .fork np linked → (s.proc np).state = .EMBRYO ∧
    (s.proc np).parent = if linked then some p else none
  forker : ∀ p p' np linked linked', s.call p = .fork np linked → s.call p' = .fork np linked' →
    p = p'
  wait : ∀ p, s.call p = .wait → (s.proc p).state = .SLEEPING →
    (s.proc p).chan = some (.proc p) ∧
      ∀ q, (s.proc q).parent = some p → (s.proc q).state ≠ .ZOMBIE

/-- A step that only moves processes that live between their states, and lets no process
fall asleep in `wait`. -/
structure Quiet (s s' : Sys) : Prop where
  initproc : s'.initproc = s.initproc
  call : s'.call = s.call
  id : s'.id = s.id
  nextid : s'.nextid = s.nextid
  parent : ∀ q, (s'.proc q).parent = (s.proc q).parent
  state : ∀ q, (s'.proc q).state = (s.proc q).state ∨ Alive (s.proc q) ∧ Alive (s'.proc q)
  wait : ∀ p, s.call p = .wait → (s'.proc p).state = .SLEEPING →
    (s.proc p).state = .SLEEPING ∧ (s'.proc p).chan = (s.proc p).chan

namespace Quiet

theorem alive (h : Quiet s s') (q : Slot) : Alive (s'.proc q) ↔ Alive (s.proc q) := by
  rcases h.state q with he | ⟨h₁, h₂⟩
  · rw [Alive, he]
    rfl
  · exact iff_of_true h₂ h₁

theorem state_iff (h : Quiet s s') {state : ProcState} (q : Slot)
    (hs : ∀ q : Proc, Alive q → q.state ≠ state) :
    (s'.proc q).state = state ↔ (s.proc q).state = state := by
  rcases h.state q with he | ⟨h₁, h₂⟩
  · rw [he]
  · exact iff_of_false (hs _ h₂) (hs _ h₁)

/-- Only one entry changes. -/
theorem set {q' : Proc} (hparent : q'.parent = (s.proc p).parent)
    (hstate : q'.state = (s.proc p).state ∨ Alive (s.proc p) ∧ Alive q') (hwait : s.call p = .wait → q'.state = .SLEEPING →
      (s.proc p).state = .SLEEPING ∧ q'.chan = (s.proc p).chan) : Quiet s (s.set p q') := by
  have hcases : ∀ q, q = p ∧ (s.set p q').proc q = q' ∨ (s.set p q').proc q = s.proc q := by
    intro q
    rw [Sys.set_proc, Function.update_apply]
    split_ifs with hq
    · exact .inl ⟨hq, rfl⟩
    · exact .inr rfl
  refine ⟨rfl, rfl, rfl, rfl, fun q => ?_, fun q => ?_, fun q hc hs => ?_⟩
  · rcases hcases q with ⟨rfl, he⟩ | he
    · rw [he, hparent]
    · rw [he]
  · rcases hcases q with ⟨rfl, he⟩ | he
    · rwa [he]
    · exact .inl (by rw [he])
  · rcases hcases q with ⟨rfl, he⟩ | he
    · rw [he] at hs ⊢
      exact hwait hc hs
    · rw [he] at hs ⊢
      exact ⟨hs, rfl⟩

theorem wakeup1 (s : Sys) (chan : Option Chan) : Quiet s (s.wakeup1 chan) := by
  have hwoken := fun q => Woken.wake chan (s.proc q)
  refine ⟨rfl, rfl, rfl, rfl, fun _ => wake_parent _ _, fun q => ?_, fun p _ hs => ?_⟩
  · exact (hwoken q).state.imp_right fun h => ⟨.inl h.1, .inr (.inl h.2)⟩
  · exact ⟨(hwoken p).sleeping hs, (hwoken p).chan⟩

theorem refl (s : Sys) : Quiet s s :=
  ⟨rfl, rfl, rfl, rfl, fun _ => rfl, fun _ => .inl rfl, fun _ _ hs => ⟨hs, rfl⟩⟩

theorem kill (s : Sys) (pid : Int32) : Quiet s (s.kill pid) := by
  rw [Sys.kill]
  split
  · next p _ =>
    refine .set rfl ?_ fun _ hs => ?_
    · dsimp only
      split_ifs with hs
      · exact .inr ⟨.inl hs, .inr (.inl rfl)⟩
      · exact .inl rfl
    · dsimp only at hs
      split_ifs at hs with hc
      · exact absurd hs hc
  · exact .refl s

end Quiet

theorem Family.quiet (h : Family s) (hq : Quiet s s') : Family s' := by
  refine ⟨?_, ?_, fun q hc hi => ?_, fun q r hr => ?_, fun q => ?_, fun q hu => ?_,
    fun p hc => ?_, fun p np linked hc => ?_, fun p p' np linked linked' hc hc' => ?_,
    fun p hc hs => ?_⟩
  · rw [hq.initproc, hq.alive]
    exact h.init
  · rw [hq.initproc, hq.parent]
    exact h.orphan
  · rw [hq.alive, hq.state_iff q fun _ => Alive.ne_zombie] at hc
    rw [hq.parent]
    exact h.child q hc (hq.initproc ▸ hi)
  · rw [hq.parent] at hr
    rw [hq.alive]
    exact h.parent q r hr
  · rw [hq.parent]
    exact h.irrefl q
  · rw [hq.state_iff q fun _ => Alive.ne_unused] at hu
    rw [hq.parent]
    exact h.unused q hu
  · rw [hq.alive]
    exact h.idle p (hq.call ▸ hc)
  · rw [hq.call] at hc
    rw [hq.state_iff np fun _ => Alive.ne_embryo, hq.parent]
    exact h.embryo p np linked hc
  · rw [hq.call] at hc hc'
    exact h.forker p p' np linked linked' hc hc'
  · rw [hq.call] at hc
    obtain ⟨hs₀, hchan⟩ := hq.wait p hc hs
    obtain ⟨hproc, hchildren⟩ := h.wait p hc hs₀
    refine ⟨hchan.trans hproc, fun q hp hz => ?_⟩
    rw [hq.parent] at hp
    exact hchildren q hp ((hq.state_iff q fun _ => Alive.ne_zombie).mp hz)

/-! ## The steps -/

/-- The steps that concern only states of processes that live. -/
def Label.quiet : Label → Bool
  | .fork _ _ _ | .forkFails _ _ | .forkLinks _ _ | .forks _ _ | .exit _ _ | .wait _ _ => false
  | _ => true

theorem Step.quiet (h : Step s l s') (hl : l.quiet = true) : Quiet s s' := by
  cases h with
  | run hp => exact .set rfl (.inr ⟨.inr (.inl hp), .of_running rfl⟩) fun _ hs => by cases hs
  | yield hp _ => exact .set rfl (.inr ⟨.of_running hp, .inr (.inl rfl)⟩) fun _ hs => by cases hs
  | sleep chan hp hc => exact .set rfl (.inr ⟨.of_running hp, .inl rfl⟩) fun hw => absurd hw hc
  | tidy hp =>
    refine .set rfl (.inl rfl) fun _ hs => ?_
    rw [hp] at hs
    cases hs
  | wakeup chan => exact .wakeup1 s chan
  | forkFull _ _ _ => exact .refl s
  | kill pid => exact .kill s pid
  | trap hp _ => exact .set rfl (.inl rfl) fun _ hs => ⟨hs, rfl⟩
  | _ => cases hl

/-- A slot `x` whose process does not live gets a new entry, and the running process `p`
goes on in its call. -/
theorem Family.replace {x : Slot} {q' : Proc} {c : Call} (h : Family s)
    (hp : (s.proc p).state = .RUNNING) (hx : ¬ Alive (s.proc x))
    (hinit : s'.initproc = s.initproc) (hproc : s'.proc = Function.update s.proc x q')
    (hcall : s'.call = Function.update s.call p c)
    (hchild : Alive q' → ∃ r, q'.parent = some r) (hzombie : q'.state ≠ .ZOMBIE)
    (hparent : ∀ r, q'.parent = some r → Alive (s.proc r))
    (hunused : q'.state = .UNUSED → q'.parent = none)
    (hfork : ∀ np linked, c = .fork np linked → np = x ∧ q'.state = .EMBRYO ∧
      q'.parent = if linked then some p else none)
    (hforker : ∀ y linked, y ≠ p → s.call y ≠ .fork x linked) (hwait : c ≠ .wait) : Family s' := by
  have hself : s'.proc x = q' := by rw [hproc, Function.update_self]
  have hne : ∀ {q}, q ≠ x → s'.proc q = s.proc q := fun hq => by
    rw [hproc, Function.update_of_ne hq]
  have halive : ∀ {q}, Alive (s.proc q) → s'.proc q = s.proc q := fun ha =>
    hne fun he => hx (he ▸ ha)
  have hcases : ∀ {y}, y = p ∧ s'.call y = c ∨ y ≠ p ∧ s'.call y = s.call y := by
    intro y
    by_cases hy : y = p
    · exact .inl ⟨hy, by rw [hcall, hy, Function.update_self]⟩
    · exact .inr ⟨hy, by rw [hcall, Function.update_of_ne hy]⟩
  refine ⟨?_, ?_, fun q ha hi => ?_, fun q r hr => ?_, fun q hr => ?_, fun q hu => ?_,
    fun y hy => ?_, fun y np linked hy => ?_, fun y y' np linked linked' hy hy' => ?_,
    fun y hy hs => ?_⟩
  · rw [hinit, halive h.init]
    exact h.init
  · rw [hinit, halive h.init]
    exact h.orphan
  · by_cases hq : q = x
    · rw [hq, hself] at ha ⊢
      exact hchild (ha.resolve_right hzombie)
    · rw [hne hq] at ha ⊢
      exact h.child q ha (hinit ▸ hi)
  · have hr' : Alive (s.proc r) := by
      by_cases hq : q = x
      · exact hparent r (by rwa [hq, hself] at hr)
      · exact h.parent q r (by rwa [hne hq] at hr)
    rwa [halive hr']
  · by_cases hq : q = x
    · rw [hq, hself] at hr
      exact hx (hparent x hr)
    · exact h.irrefl q (by rwa [hne hq] at hr)
  · by_cases hq : q = x
    · rw [hq, hself] at hu ⊢
      exact hunused hu
    · rw [hne hq] at hu ⊢
      exact h.unused q hu
  · have hy' : Alive (s.proc y) := by
      rcases hcases (y := y) with ⟨rfl, -⟩ | ⟨-, he⟩
      · exact .of_running hp
      · exact h.idle y (he ▸ hy)
    rwa [halive hy']
  · rcases hcases (y := y) with ⟨rfl, he⟩ | ⟨hyp, he⟩
    · obtain ⟨rfl, hq⟩ := hfork np linked (he.symm.trans hy)
      rwa [hself]
    · rw [he] at hy
      rw [hne fun hnp => hforker y linked hyp (hnp ▸ hy)]
      exact h.embryo y np linked hy
  · rcases hcases (y := y) with ⟨rfl, he⟩ | ⟨hyp, he⟩ <;>
      rcases hcases (y := y') with ⟨rfl, he'⟩ | ⟨hyp', he'⟩
    · rfl
    · obtain ⟨rfl, -⟩ := hfork np linked (he.symm.trans hy)
      exact absurd (he'.symm.trans hy') (hforker y' linked' hyp')
    · obtain ⟨rfl, -⟩ := hfork np linked' (he'.symm.trans hy')
      exact absurd (he.symm.trans hy) (hforker y linked hyp)
    · exact h.forker y y' np linked linked' (he.symm.trans hy) (he'.symm.trans hy')
  · rcases hcases (y := y) with ⟨-, he⟩ | ⟨-, he⟩
    · exact absurd (he.symm.trans hy) hwait
    · rw [he] at hy
      rw [halive (h.idle y (by rw [hy]; rintro ⟨⟩))] at hs ⊢
      obtain ⟨hchan, hchildren⟩ := h.wait y hy hs
      refine ⟨hchan, fun q hq => ?_⟩
      by_cases hqx : q = x
      · rwa [hqx, hself]
      · rw [hne hqx] at hq ⊢
        exact hchildren q hq

theorem Family.not_forking (h : Family s) {x : Slot} (hx : (s.proc x).state ≠ .EMBRYO) {y : Slot}
    {linked : Bool} : s.call y ≠ .fork x linked := fun hc => hx (h.embryo y x linked hc).1

theorem Family.fork (h : Family s) (hp : (s.proc p).state = .RUNNING)
    (hnp : (s.proc np).state = .UNUSED) : Family ((s.embryo np).setCall p (.fork np false)) := by
  have hnone := h.unused np hnp
  refine h.replace hp (fun ha => ha.ne_unused hnp) rfl rfl rfl ?_ ?_ ?_ ?_ ?_ ?_ (by rintro ⟨⟩)
  · simp [Alive]
  · simp
  · simp [hnone]
  · simp
  · rintro np' linked ⟨⟩
    exact ⟨rfl, rfl, hnone⟩
  · exact fun y linked _ => h.not_forking (by simp [hnp])

section Forking

variable {linked : Bool}

/-- The rest of `fork`: only `p` is in `fork` for this slot. -/
theorem Family.forking {q' : Proc} {c : Call} (h : Family s) (hp : (s.proc p).state = .RUNNING)
    (hc : s.call p = .fork np linked) (hchild : Alive q' → q'.parent = some p)
    (hzombie : q'.state ≠ .ZOMBIE) (hparent : ∀ r, q'.parent = some r → r = p)
    (hunused : q'.state = .UNUSED → q'.parent = none)
    (hfork : ∀ np' linked, c = .fork np' linked → np' = np ∧ q'.state = .EMBRYO ∧
      q'.parent = if linked then some p else none) (hwait : c ≠ .wait) :
    Family ((s.set np q').setCall p c) := by
  obtain ⟨hembryo, -⟩ := h.embryo p np linked hc
  refine h.replace hp (fun ha => ha.ne_embryo hembryo) rfl rfl rfl ?_ hzombie ?_ hunused hfork ?_ hwait
  · exact fun ha => ⟨p, hchild ha⟩
  · exact fun r hr => hparent r hr ▸ .of_running hp
  · exact fun y linked' hy hc' => hy (h.forker y p np linked' linked hc' hc)

theorem Family.forkFails (h : Family s) (hp : (s.proc p).state = .RUNNING)
    (hc : s.call p = .fork np false) :
    Family ((s.setState np .UNUSED).setCall p .other) := by
  have hnone : (s.proc np).parent = none := (h.embryo p np false hc).2
  exact h.forking hp hc (by simp [Alive]) (by simp) (by simp [hnone]) (by simp [hnone])
    (by simp) (by simp)

theorem Family.forkLinks (h : Family s) (hp : (s.proc p).state = .RUNNING)
    (hc : s.call p = .fork np false) :
    Family ((s.set np { s.proc np with parent := some p }).setCall p (.fork np true)) := by
  have hembryo := (h.embryo p np false hc).1
  refine h.forking hp hc (by simp) (by simp [hembryo]) (by simp) (by simp [hembryo]) ?_
    (by simp)
  rintro np' linked ⟨⟩
  exact ⟨rfl, hembryo, rfl⟩

theorem Family.forks (h : Family s) (hp : (s.proc p).state = .RUNNING)
    (hc : s.call p = .fork np true) :
    Family ((s.setState np .RUNNABLE).setCall p .other) := by
  have hlinked : (s.proc np).parent = some p := (h.embryo p np true hc).2
  exact h.forking hp hc (by simp [hlinked]) (by simp) (by simp [hlinked]) (by simp)
    (by simp) (by simp)

end Forking

theorem Family.exit (h : Family s) (hp : (s.proc p).state = .RUNNING) (hc : s.call p = .other)
    (hi : p ≠ s.initproc) (he : Exited p s s') : Family s' := by
  have hcall : ∀ {x c}, s'.call x = c → c ≠ .other → x ≠ p := by
    rintro x c hx hne rfl
    rw [he.books.call, hc] at hx
    exact hne hx.symm
  have hparent : ∀ {q}, (s.proc q).parent ≠ some p → (s'.proc q).parent = (s.proc q).parent :=
    fun hq => by rw [he.parent, if_neg hq]
  have halive : ∀ {q}, q ≠ p → Alive (s.proc q) → Alive (s'.proc q) := fun hq =>
    Alive.woken (he.woken _ hq)
  have hstate : ∀ {q} {state : ProcState}, q ≠ p → (s'.proc q).state = state →
      (∀ q : Proc, Alive q → q.state ≠ state) → (s.proc q).state = state := by
    intro q state hq hs hne
    rcases (he.woken q hq).state with heq | ⟨-, heq⟩
    · exact heq.symm.trans hs
    · exact absurd hs (hne _ (.inr (.inl heq)))
  refine ⟨?_, ?_, fun q ha hiq => ?_, fun q r hr => ?_, fun q hr => ?_, fun q hu => ?_,
    fun x hx => ?_, fun x np linked hx => ?_, fun x x' np linked linked' hx hx' => ?_,
    fun x hx hs => ?_⟩
  · rw [he.books.initproc]
    exact halive hi.symm h.init
  · rw [he.books.initproc, hparent (by simp [h.orphan])]
    exact h.orphan
  · rw [he.books.initproc] at hiq
    have ha' : Alive (s.proc q) ∨ (s.proc q).state = .ZOMBIE := by
      by_cases hq : q = p
      · exact .inl (hq ▸ .of_running hp)
      · exact ha.imp (Alive.of_woken (he.woken q hq)) fun hz => hstate hq hz fun _ => Alive.ne_zombie
    obtain ⟨r, hr⟩ := h.child q ha' hiq
    rw [he.parent]
    split_ifs
    · exact ⟨_, rfl⟩
    · exact ⟨r, hr⟩
  · rw [he.parent] at hr
    split_ifs at hr with hq
    · cases hr
      exact halive hi.symm h.init
    · exact halive (fun hrp => hq (hrp ▸ hr)) (h.parent q r hr)
  · rw [he.parent] at hr
    split_ifs at hr with hq
    · cases hr
      rw [h.orphan] at hq
      cases hq
    · exact h.irrefl q hr
  · have hq : q ≠ p := by
      rintro rfl
      rw [he.self] at hu
      cases hu
    have hnone := h.unused q (hstate hq hu fun _ => Alive.ne_unused)
    rw [hparent (by simp [hnone]), hnone]
  · exact halive (hcall rfl hx) (h.idle x (he.books.call ▸ hx))
  · have hxp := hcall hx (by rintro ⟨⟩)
    rw [he.books.call] at hx
    obtain ⟨hembryo, hpar⟩ := h.embryo x np linked hx
    have hnp : np ≠ p := by
      rintro rfl
      rw [hp] at hembryo
      cases hembryo
    rw [(he.woken np hnp).state_eq (by simp [hembryo]), hparent]
    · exact ⟨hembryo, hpar⟩
    · rw [hpar]
      cases linked <;> simp [hxp]
  · rw [he.books.call] at hx hx'
    exact h.forker x x' np linked linked' hx hx'
  · have hxp := hcall hx (by rintro ⟨⟩)
    rw [he.books.call] at hx
    obtain ⟨hchan, hchildren⟩ := h.wait x hx ((he.woken x hxp).sleeping hs)
    refine ⟨(he.woken x hxp).chan.trans hchan, fun q hq hz => ?_⟩
    by_cases hqp : q = p
    · -- the process that exits has woken its parent
      subst hqp
      rw [hparent (h.irrefl q)] at hq
      have := he.wakes x hs
      rw [hq] at this
      exact this hchan
    · have hz' := hstate hqp hz fun _ => Alive.ne_zombie
      rw [he.parent] at hq
      split_ifs at hq with hqc
      · -- a zombie is passed on
        cases hq
        exact he.wakesInit q hqc hz' _ hs hchan
      · exact hchildren q hq hz'

/-- A process that is not in `fork` enters or leaves `wait`. -/
theorem Family.setCall {c : Call} (h : Family s) (hp : Alive (s.proc p)) (hc : c = .other ∨
      c = .wait ∧ ((s.proc p).state = .SLEEPING → (s.proc p).chan = some (.proc p) ∧
        ∀ q, (s.proc q).parent = some p → (s.proc q).state ≠ .ZOMBIE)) :
    Family (s.setCall p c) := by
  have hnf : ∀ {np linked}, c ≠ .fork np linked := by
    rintro np linked rfl
    rcases hc with hc | ⟨hc, -⟩ <;> cases hc
  have hcases : ∀ {x}, x = p ∧ (s.setCall p c).call x = c ∨ (s.setCall p c).call x = s.call x := by
    intro x
    rw [Sys.setCall_call, Function.update_apply]
    split_ifs with hx
    · exact .inl ⟨hx, rfl⟩
    · exact .inr rfl
  have hfork : ∀ {x np linked}, (s.setCall p c).call x = .fork np linked →
      s.call x = .fork np linked := by
    intro x np linked hx
    rcases hcases (x := x) with ⟨-, he⟩ | he
    · exact absurd (he.symm.trans hx) hnf
    · exact he.symm.trans hx
  refine ⟨h.init, h.orphan, h.child, h.parent, h.irrefl, h.unused, fun x hx => ?_,
    fun x np linked hx => h.embryo x np linked (hfork hx),
    fun x x' np linked linked' hx hx' => h.forker x x' np linked linked' (hfork hx) (hfork hx'),
    fun x hx => ?_⟩
  · rcases hcases (x := x) with ⟨rfl, -⟩ | he
    · exact hp
    · exact h.idle x (he ▸ hx)
  · rcases hcases (x := x) with ⟨rfl, he⟩ | he
    · rw [he] at hx
      exact (hc.resolve_left (by simp [hx])).2
    · exact h.wait x (he.symm.trans hx)

theorem Family.waits (h : Family s) (hp : (s.proc p).state = .RUNNING) : Family (s.wait p).2 := by
  rcases s.wait_cases p with ⟨q, hparent, hz, he⟩ | ⟨hnone, he | he⟩
  · rw [he]
    refine h.replace hp (fun ha => ha.ne_zombie hz) rfl rfl rfl ?_ ?_ ?_ ?_ (by simp) ?_
      (by simp)
    · simp [Alive]
    · simp
    · simp
    · simp
    · exact fun y linked _ => h.not_forking (by simp [hz])
  · rw [he]
    exact h.setCall (.of_running hp) (.inl rfl)
  · -- as if the process first left `wait` and then went to sleep
    have hcall : ((s.setCall p .other).sleep p (some (.proc p))).setCall p .wait =
        (s.sleep p (some (.proc p))).setCall p .wait := by
      simp [Sys.setCall, Sys.sleep, Sys.set]
    rw [he, ← hcall]
    have h₁ : Family (s.setCall p .other) := h.setCall (.of_running hp) (.inl rfl)
    have h₂ : Family ((s.setCall p .other).sleep p (some (.proc p))) := by
      refine h₁.quiet (.set rfl (.inr ⟨.of_running hp, .inl rfl⟩) fun hw => ?_)
      rw [Sys.setCall_call, Function.update_self] at hw
      cases hw
    refine h₂.setCall ?_ (.inr ⟨rfl, fun _ => ⟨?_, fun q hq hz => ?_⟩⟩)
    · rw [Sys.sleep_proc, Function.update_self]
      exact .inl rfl
    · rw [Sys.sleep_proc, Function.update_self]
    · rw [Sys.sleep_proc, Function.update_apply] at hq hz
      split_ifs at hq hz
      exact hnone q hq hz

theorem Family.step (h : Family s) (hs : Step s l s') : Family s' := by
  have hquiet := fun hl => h.quiet (hs.quiet hl)
  cases hs with
  | fork hp hc halloc =>
    obtain ⟨hnp, rfl⟩ := Sys.allocproc_eq_some halloc
    exact h.fork hp hnp
  | forkFails hp hc => exact h.forkFails hp hc
  | forkLinks hp hc => exact h.forkLinks hp hc
  | forks hp hc => exact h.forks hp hc
  | exit hp hc hi => exact h.exit hp hc hi (exited_exit _ _)
  | wait hp _ => exact h.waits hp
  | _ => exact hquiet rfl

/-! ## Who has exited and who has been waited for -/

/-- The process that a `wait` returns. -/
def Label.reaped : Label → Option ℕ
  | .wait _ (.reaped child _) => some child
  | _ => none

/-- The numbers tell the processes in the table apart, from each other and from those
that some `wait` has returned. -/
structure History (ls : List Label) (s : Sys) : Prop where
  lt : ∀ q, (s.proc q).state ≠ .UNUSED → s.id q < s.nextid
  inj : ∀ q r, (s.proc q).state ≠ .UNUSED → (s.proc r).state ≠ .UNUSED → s.id q = s.id r → q = r
  exited : ∀ q, (s.proc q).state = .ZOMBIE → .exit q (s.id q) ∈ ls
  reaped_lt : ∀ i ∈ ls.filterMap Label.reaped, i < s.nextid
  gone : ∀ q, (s.proc q).state ≠ .UNUSED → s.id q ∉ ls.filterMap Label.reaped
  nodup : (ls.filterMap Label.reaped).Nodup

/-- A step that brings no new process and reaps none. -/
theorem History.keep (h : History ls s) (hid : s'.id = s.id) (hnext : s'.nextid = s.nextid)
    (hused : ∀ q, (s'.proc q).state ≠ .UNUSED → (s.proc q).state ≠ .UNUSED)
    (hzombie : ∀ q, (s'.proc q).state = .ZOMBIE →
      (s.proc q).state = .ZOMBIE ∨ l = .exit q (s.id q))
    (hl : l.reaped = none) : History (l :: ls) s' := by
  have hreaped : (l :: ls).filterMap Label.reaped = ls.filterMap Label.reaped :=
    List.filterMap_cons_none hl
  refine ⟨fun q hq => ?_, fun q r hq hr he => ?_, fun q hq => ?_, ?_, fun q hq => ?_, ?_⟩
  · rw [hid, hnext]
    exact h.lt q (hused q hq)
  · rw [hid] at he
    exact h.inj q r (hused q hq) (hused r hr) he
  · rw [hid]
    rcases hzombie q hq with hz | rfl
    · exact List.mem_cons_of_mem _ (h.exited q hz)
    · exact List.mem_cons_self
  · rw [hreaped, hnext]
    exact h.reaped_lt
  · rw [hreaped, hid]
    exact h.gone q (hused q hq)
  · rw [hreaped]
    exact h.nodup

/-- As `History.keep`, when only one entry changes. -/
theorem History.set {x : Slot} {q' : Proc} (h : History ls s) (hid : s'.id = s.id)
    (hnext : s'.nextid = s.nextid) (hproc : s'.proc = Function.update s.proc x q')
    (hused : q'.state ≠ .UNUSED → (s.proc x).state ≠ .UNUSED) (hzombie : q'.state ≠ .ZOMBIE)
    (hl : l.reaped = none) : History (l :: ls) s' := by
  refine h.keep hid hnext (fun q hu => ?_) (fun q hz => ?_) hl
  · rw [hproc, Function.update_apply] at hu
    split_ifs at hu with hq
    · exact hq ▸ hused hu
    · exact hu
  · rw [hproc, Function.update_apply] at hz
    split_ifs at hz
    · exact absurd hz hzombie
    · exact .inl hz

theorem History.fork (h : History ls s) (hnp : (s.proc np).state = .UNUSED) :
    History (.fork p np s.nextid :: ls) ((s.embryo np).setCall p (.fork np false)) := by
  have hne : ∀ {q}, q ≠ np → (s.embryo np).proc q = s.proc q ∧ (s.embryo np).id q = s.id q :=
    fun hq => ⟨Function.update_of_ne hq .., Function.update_of_ne hq ..⟩
  have hid : (s.embryo np).id np = s.nextid := Function.update_self ..
  have hlt : ∀ {q}, q ≠ np → ((s.embryo np).proc q).state ≠ .UNUSED →
      (s.embryo np).id q < s.nextid := by
    intro q hq hu
    rw [(hne hq).1] at hu
    rw [(hne hq).2]
    exact h.lt q hu
  refine ⟨fun q hq => ?_, fun q r hq hr he => ?_, fun q hz => ?_, fun i hi => ?_, fun q hq => ?_,
    h.nodup⟩
  · by_cases hqn : q = np
    · rw [hqn, Sys.setCall_id, hid]
      exact Nat.lt_succ_self _
    · exact (hlt hqn hq).trans (Nat.lt_succ_self _)
  · rw [Sys.setCall_id] at he
    by_cases hqn : q = np <;> by_cases hrn : r = np
    · rw [hqn, hrn]
    · rw [hqn, hid] at he
      exact absurd he.symm (hlt hrn hr).ne
    · rw [hrn, hid] at he
      exact absurd he (hlt hqn hq).ne
    · rw [(hne hqn).2, (hne hrn).2] at he
      rw [Sys.setCall_proc, (hne hqn).1] at hq
      rw [Sys.setCall_proc, (hne hrn).1] at hr
      exact h.inj q r hq hr he
  · have hqn : q ≠ np := by
      rintro rfl
      rw [Sys.setCall_proc, Sys.embryo_proc, Function.update_self] at hz
      cases hz
    rw [Sys.setCall_proc, (hne hqn).1] at hz
    rw [Sys.setCall_id, (hne hqn).2]
    exact List.mem_cons_of_mem _ (h.exited q hz)
  · exact (h.reaped_lt i hi).trans (Nat.lt_succ_self _)
  · by_cases hqn : q = np
    · rw [hqn, Sys.setCall_id, hid]
      exact fun hi => lt_irrefl _ (h.reaped_lt _ hi)
    · rw [Sys.setCall_proc, (hne hqn).1] at hq
      rw [Sys.setCall_id, (hne hqn).2]
      exact h.gone q hq

theorem History.reap (h : History ls s) (hz : (s.proc q).state = .ZOMBIE) :
    History (.wait p (.reaped (s.id q) (s.proc q).pid) :: ls) ((s.reap q).setCall p .other) := by
  have hused : (s.proc q).state ≠ .UNUSED := by simp [hz]
  have hne : ∀ {r}, ((s.reap q).proc r).state ≠ .UNUSED →
      r ≠ q ∧ (s.proc r).state ≠ .UNUSED ∧ (s.reap q).proc r = s.proc r := by
    intro r hr
    rw [Sys.reap_proc, Function.update_apply] at hr ⊢
    split_ifs at hr with hrq
    · exact absurd rfl hr
    · exact ⟨hrq, hr, if_neg hrq⟩
  refine ⟨fun r hr => h.lt r (hne hr).2.1, fun r t hr ht => h.inj r t (hne hr).2.1 (hne ht).2.1,
    fun r hr => ?_, fun i hi => ?_, fun r hr hi => ?_, ?_⟩
  · have hr' := (hne (r := r) (hr ▸ (by rintro ⟨⟩))).2.2
    rw [Sys.setCall_proc, hr'] at hr
    exact List.mem_cons_of_mem _ (h.exited r hr)
  · rcases List.mem_cons.mp hi with rfl | hi
    · exact h.lt q hused
    · exact h.reaped_lt i hi
  · obtain ⟨hrq, hu, -⟩ := hne hr
    rcases List.mem_cons.mp hi with he | hi
    · exact hrq (h.inj r q hu hused he)
    · exact h.gone r hu hi
  · exact List.nodup_cons.mpr ⟨h.gone q hused, h.nodup⟩

theorem History.step (h : History ls s) (hf : Family s) (hs : Step s l s') :
    History (l :: ls) s' := by
  have hquiet : l.quiet = true → l.reaped = none → History (l :: ls) s' := by
    intro hl hr
    have hq := hs.quiet hl
    refine h.keep hq.id hq.nextid (fun q hu => ?_) (fun q hz => ?_) hr
    · rwa [Ne, ← hq.state_iff q fun _ => Alive.ne_unused]
    · exact .inl ((hq.state_iff q fun _ => Alive.ne_zombie).mp hz)
  cases hs with
  | fork hp hc halloc =>
    obtain ⟨hnp, rfl⟩ := Sys.allocproc_eq_some halloc
    exact h.fork hnp
  | forkFails hp hc => exact h.set rfl rfl rfl (by simp) (by simp) rfl
  | forkLinks hp hc =>
    have hembryo := (hf.embryo _ _ _ hc).1
    exact h.set rfl rfl rfl id (by simp [hembryo]) rfl
  | forks hp hc =>
    have hembryo := (hf.embryo _ _ _ hc).1
    exact h.set rfl rfl rfl (by simp [hembryo]) (by simp) rfl
  | @exit p hp hc hi =>
    have he := exited_exit p s
    refine h.keep he.books.id he.books.nextid (fun q hu hq => ?_) (fun q hz => ?_) rfl
    · have hqp : q ≠ p := by
        rintro rfl
        rw [hp] at hq
        cases hq
      rw [(he.woken q hqp).state_eq (by simp [hq])] at hu
      exact hu hq
    · by_cases hqp : q = p
      · exact .inr (by rw [hqp])
      · rcases (he.woken q hqp).state with hs | ⟨-, hs⟩
        · exact .inl (hs.symm.trans hz)
        · rw [hs] at hz
          cases hz
  | @wait p hp _ =>
    rcases s.wait_cases p with ⟨q, -, hz, he⟩ | ⟨-, he | he⟩
    · rw [he]
      exact h.reap hz
    · rw [he]
      exact h.keep rfl rfl (fun _ hu => hu) (fun _ hz => .inl hz) rfl
    · rw [he]
      exact h.set rfl rfl rfl (by simp [hp]) (by simp) rfl
  | _ => exact hquiet rfl rfl

/-! ## Runs -/

theorem userinit_proc : Sys.userinit.proc =
    Function.update Sys.zero.proc 0 ⟨.RUNNABLE, 1, none, none, false⟩ := by
  have hfind : Sys.zero.find (·.state = .UNUSED) = some 0 := rfl
  rw [Sys.userinit, Sys.allocproc, hfind]
  exact Function.update_idem ..

/-- After `userinit` there is one process. -/
theorem userinit_cases (q : Slot) :
    q = 0 ∧ Sys.userinit.proc q = ⟨.RUNNABLE, 1, none, none, false⟩ ∨
      q ≠ 0 ∧ Sys.userinit.proc q = ⟨.UNUSED, 0, none, none, false⟩ := by
  rw [userinit_proc, Function.update_apply]
  split_ifs with hq
  · exact .inl ⟨hq, rfl⟩
  · exact .inr ⟨hq, rfl⟩

theorem family_userinit : Family Sys.userinit := by
  have hcall : ∀ p, Sys.userinit.call p = .other := fun _ => rfl
  have hparent : ∀ q, (Sys.userinit.proc q).parent = none := fun q => by
    rcases userinit_cases q with ⟨-, he⟩ | ⟨-, he⟩ <;> rw [he]
  refine ⟨.inr (.inl rfl), hparent _, fun q ha hi => ?_, fun q r hr => ?_, fun q hq => ?_,
    fun q _ => hparent q, fun p hp => absurd (hcall p) hp, fun p np linked hp => ?_,
    fun p _ np linked _ hp => ?_, fun p hp => ?_⟩
  · rcases userinit_cases q with ⟨hq, -⟩ | ⟨-, he⟩
    · exact absurd hq hi
    · rw [he] at ha
      simp [Alive] at ha
  · exact absurd ((hparent q).symm.trans hr) (by rintro ⟨⟩)
  · exact absurd ((hparent q).symm.trans hq) (by rintro ⟨⟩)
  all_goals exact absurd ((hcall p).symm.trans hp) (by rintro ⟨⟩)

theorem history_userinit : History [] Sys.userinit := by
  have hused : ∀ q, (Sys.userinit.proc q).state ≠ .UNUSED → q = 0 := fun q hq => by
    rcases userinit_cases q with ⟨rfl, -⟩ | ⟨-, he⟩
    · rfl
    · exact absurd (by rw [he]) hq
  refine ⟨fun q hq => ?_, fun q r hq hr _ => ?_, fun q hz => ?_, by simp, by simp,
    List.nodup_nil⟩
  · rw [hused q hq]
    exact Nat.one_lt_two
  · rw [hused q hq, hused r hr]
  · rcases userinit_cases q with ⟨-, he⟩ | ⟨-, he⟩ <;> rw [he] at hz <;> cases hz

theorem family_history (h : Leads Step Sys.userinit ls s) : Family s ∧ History ls s :=
  Leads.invariant (I := fun ls s => Family s ∧ History ls s) h
    ⟨family_userinit, history_userinit⟩ fun hi hs => ⟨hi.1.step hs, hi.2.step hi.1 hs⟩

theorem Step.wait_eq {w : Waited} (h : Step s (.wait p w) s') : (s.wait p).1 = w := by
  cases h
  rfl

/-- In every run, what a `wait` returns is the pid of a child that has exited, and no
child is returned twice; every process past `fork` but `initproc` has a parent that is
neither unused nor a zombie; and no process sleeps in `wait` while it has a zombie
child. -/
theorem exit_wait_agree (h : Leads Step Sys.userinit ls s) :
    (∀ p child pid s', Step s (.wait p (.reaped child pid)) s' → ∃ q, (s.proc q).parent = some p ∧
      s.id q = child ∧ (s.proc q).pid = pid ∧ .exit q child ∈ ls) ∧
    (ls.filterMap Label.reaped).Nodup ∧
    (∀ q, (s.proc q).state ≠ .UNUSED → (s.proc q).state ≠ .EMBRYO → q ≠ s.initproc →
      ∃ r, (s.proc q).parent = some r ∧ (s.proc r).state ≠ .UNUSED ∧
        (s.proc r).state ≠ .ZOMBIE) ∧
    ∀ p, s.call p = .wait → (s.proc p).state = .SLEEPING →
      ∀ q, (s.proc q).parent = some p → (s.proc q).state ≠ .ZOMBIE := by
  obtain ⟨hf, hh⟩ := family_history h
  refine ⟨fun p child pid s' hs => ?_, hh.nodup, fun q hu he hi => ?_,
    fun p hc hs => (hf.wait p hc hs).2⟩
  · have hw := hs.wait_eq
    rcases s.wait_cases p with ⟨q, hparent, hz, he⟩ | ⟨-, he | he⟩
    · rw [he] at hw
      cases hw
      exact ⟨q, hparent, rfl, rfl, hh.exited q hz⟩
    · rw [he] at hw
      cases hw
    · rw [he] at hw
      cases hw
  · have hq : Alive (s.proc q) ∨ (s.proc q).state = .ZOMBIE := by
      rw [Alive]
      cases hs : (s.proc q).state <;> simp_all
    obtain ⟨r, hr⟩ := hf.child q hq hi
    have hr' := hf.parent q r hr
    exact ⟨r, hr, hr'.ne_unused, hr'.ne_zombie⟩

/-- `initproc` forks, and `wait` returns the pid of its child after that has exited. -/
theorem exit_wait_agree_child : ∃ ls s s' child pid, Leads Step Sys.userinit ls s ∧
    Step s (.wait 0 (.reaped child pid)) s' ∧ ∃ q, (s.proc q).parent = some 0 ∧ s.id q = child ∧
      (s.proc q).pid = pid ∧ .exit q child ∈ ls := by
  let s₁ := Sys.userinit.setState 0 .RUNNING
  let s₂ := (s₁.embryo 1).setCall 0 (.fork 1 false)
  let s₃ := (s₂.set 1 { s₂.proc 1 with parent := some 0 }).setCall 0 (.fork 1 true)
  let s₄ := ((s₃.setState 1 .RUNNABLE).setCall 0 .other).setState 1 .RUNNING
  have h₁ : Step Sys.userinit (.run 0) s₁ := .run rfl
  have h₂ : Step s₁ (.fork 0 1 2) s₂ := .fork rfl rfl rfl
  have h₃ : Step s₂ (.forkLinks 0 1) s₃ := .forkLinks rfl rfl
  have h₄ : Leads Step s₃ [.run 1, .forks 0 1] s₄ :=
    (Leads.single (.forks rfl rfl)).step (.run rfl)
  have h₅ : Step s₄ (.exit 1 2) (s₄.exit 1) := .exit rfl rfl (by rintro ⟨⟩)
  have h := ((((Leads.single h₁).step h₂).step h₃).trans h₄).step h₅
  have he := exited_exit 1 s₄
  have hrun : ((s₄.exit 1).proc 0).state = .RUNNING := (he.woken 0 (by rintro ⟨⟩)).state_eq (by rintro ⟨⟩)
  have hcall : (s₄.exit 1).call 0 = .other := congrFun he.books.call 0
  rcases (s₄.exit 1).wait_cases 0 with ⟨q, -, -, hw⟩ | ⟨hnone, -⟩
  · have hs := Step.wait hrun (.inl hcall)
    rw [hw] at hs
    exact ⟨_, _, _, _, _, h, hs, (exit_wait_agree h).1 _ _ _ _ hs⟩
  · exact absurd he.self (hnone 1 (he.parent 1))

end Lainos.Proc
