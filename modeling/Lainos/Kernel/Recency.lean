import Lainos.Kernel.BufferSupply

/-!
# Least recently released

The list of `bio.c` is kept in the order in which the buffers were released, the latest
in front, and `bget` looks for a buffer to reuse from its end. Over whole runs: the
buffer that is given to another sector is, of those that are free and clean, the one that
was released longest ago.
-/

namespace Lainos.Bio

open Library

variable {c c' : Bcache} {b : ℕ} {disk : ℕ → Disk}

/-- What a step may do to the list, the busy flags and the sectors. -/
inductive Turn (c c' : Bcache) : Prop
  | keeps (hnext : c'.next = c.next) (hprev : c'.prev = c.prev)
    (hbusy : ∀ b, (c.buf b).busy = true → (c'.buf b).busy = true)
    (htag : ∀ b, (c'.buf b).dev = (c.buf b).dev ∧ (c'.buf b).sector = (c.buf b).sector ∨
      victim c = some b)
  | releases (b : ℕ) (hbusy : (c.buf b).busy = true)
    (hbuf : c'.buf = Function.update c.buf b { c.buf b with busy := false })
    (hnext : c'.next = ((c.unlink b).insert b).next)
    (hprev : c'.prev = ((c.unlink b).insert b).prev)

theorem Turn.refl (c : Bcache) : Turn c c :=
  .keeps rfl rfl (fun _ h => h) fun _ => Or.inl ⟨rfl, rfl⟩

/-- A step on one buffer that does not release it. -/
theorem Turn.of_update {x : Buf} (hnext : c'.next = c.next) (hprev : c'.prev = c.prev)
    (hbuf : c'.buf = Function.update c.buf b x) (hbusy : (c.buf b).busy = true → x.busy = true)
    (htag : x.dev = (c.buf b).dev ∧ x.sector = (c.buf b).sector ∨ victim c = some b) :
    Turn c c' := by
  refine .keeps hnext hprev (fun b' h => ?_) fun b' => ?_
  · rw [hbuf]
    by_cases hb : b' = b
    · subst hb
      rw [Function.update_self]
      exact hbusy h
    · rwa [Function.update_of_ne hb]
  · rw [hbuf]
    by_cases hb : b' = b
    · subst hb
      rw [Function.update_self]
      exact htag
    · rw [Function.update_of_ne hb]
      exact Or.inl ⟨rfl, rfl⟩

theorem turn_bget {p : Pid} {dev sector : ℕ} (hrun : bget p dev sector c = .ok (b, c')) :
    Turn c c' := by
  obtain ⟨-, -, rfl⟩ | ⟨-, hvictim, rfl⟩ := bget_cases hrun
  · exact .of_update rfl rfl rfl (fun _ => rfl) (Or.inl ⟨rfl, rfl⟩)
  · exact .of_update rfl rfl rfl (fun _ => rfl) (Or.inr hvictim)

theorem turn_iderw (hrun : iderw b c = .ok ((), c')) : Turn c c' := by
  obtain rfl | rfl := iderw_cases hrun
  · exact .of_update rfl rfl rfl id (Or.inl ⟨rfl, rfl⟩)
  · exact .of_update rfl rfl rfl id (Or.inl ⟨rfl, rfl⟩)

theorem turn_brelse {p : Pid} {a : Unit} (hrun : brelse p b c = .ok (a, c')) : Turn c c' := by
  obtain ⟨_, c₁, hcheck, hrun⟩ := Exec.bind_eq_ok.mp hrun
  have hbusy : (c.buf b).busy = true := by
    by_contra hfree
    rw [Bool.not_eq_true] at hfree
    rw [checkBusy, Exec.bind_of_ok Exec.get_run, hfree] at hcheck
    cases hcheck
  rw [checkBusy_eq hcheck] at hrun
  obtain ⟨-, rfl⟩ := Prod.mk.inj (Except.ok.inj hrun)
  exact .releases b hbusy rfl rfl rfl

/-! ## Calls -/

section Turns

open Thread

theorem turns_bread (p : Pid) (dev sector : ℕ) : (bread p dev sector).Steps Turn := by
  refine Steps.bind (Steps.lift fun c b c' hrun => turn_bget hrun) fun b =>
    Steps.bind (Steps.lift fun c _ c' hrun => ?_) fun _ => Steps.pure b
  rw [fill, Exec.bind_of_ok Exec.get_run] at hrun
  cases hvalid : (c.buf b).valid with
  | true =>
    rw [hvalid] at hrun
    exact (Prod.mk.inj (Except.ok.inj hrun)).2 ▸ Turn.refl c
  | false =>
    rw [hvalid] at hrun
    exact turn_iderw hrun

/-- A change of data or of the dirty flag. -/
theorem turns_modify (x : Bcache → Buf) (hbusy : ∀ c, (x c).busy = (c.buf b).busy)
    (htag : ∀ c, (x c).dev = (c.buf b).dev ∧ (x c).sector = (c.buf b).sector) :
    (liftM (modify fun c => c.setBuf b (x c) : BAct Unit) : Thread Stop Bcache Unit).Steps Turn :=
  Steps.lift fun c _ _ hrun => (Prod.mk.inj (Except.ok.inj hrun)).2 ▸
    .of_update rfl rfl rfl (fun h => (hbusy c).trans h) (Or.inl (htag c))

theorem turns_edit (b : ℕ) (data : Block) :
    (liftM (edit b data) : Thread Stop Bcache Unit).Steps Turn :=
  turns_modify _ (fun _ => rfl) fun _ => ⟨rfl, rfl⟩

theorem turns_bwrite (b : ℕ) : (bwrite b).Steps Turn :=
  Steps.bind (Steps.lift fun c _ _ hrun => (checkBusy_eq hrun).symm ▸ Turn.refl c) fun _ =>
    Steps.bind (turns_modify _ (fun _ => rfl) fun _ => ⟨rfl, rfl⟩) fun _ =>
      Steps.lift fun _ _ _ hrun => turn_iderw hrun

theorem turns_brelse (p : Pid) (b : ℕ) :
    (liftM (brelse p b) : Thread Stop Bcache Unit).Steps Turn :=
  Steps.lift fun _ _ _ hrun => turn_brelse hrun

theorem turns_logWrite (p : Pid) (slot b : ℕ) : (logWrite p slot b).Steps Turn := by
  have hget : (liftM (get : BAct Bcache) : Thread Stop Bcache Bcache).Steps Turn :=
    Steps.lift fun c _ _ hrun => (Prod.mk.inj (Except.ok.inj hrun)).2 ▸ Turn.refl c
  exact Steps.bind hget fun _ => Steps.bind (turns_bread ..) fun _ => Steps.bind hget fun _ =>
    Steps.bind (turns_edit ..) fun _ => Steps.bind (turns_bwrite _) fun _ =>
      Steps.bind (turns_brelse ..) fun _ => turns_modify _ (fun _ => rfl) fun _ => ⟨rfl, rfl⟩

theorem turns_script (p : Pid) (cmds : List Cmd) (held : List ℕ) :
    (script p cmds held).Steps Turn := by
  induction cmds generalizing held with
  | nil =>
    rw [script]
    induction held with
    | nil => exact Steps.pure ()
    | cons b held ih => exact Steps.bind (turns_brelse p b) fun _ => ih
  | cons cmd cmds ih =>
    cases cmd with
    | bread dev sector => exact Steps.bind (turns_bread ..) fun b => ih (b :: held)
    | bwrite i data =>
      rw [script]
      cases held[i]? with
      | none => exact ih held
      | some b =>
        exact Steps.bind (turns_edit ..) fun _ => Steps.bind (turns_bwrite b) fun _ => ih held
    | logWrite slot i data =>
      rw [script]
      cases held[i]? with
      | none => exact ih held
      | some b =>
        exact Steps.bind (turns_edit ..) fun _ => Steps.bind (turns_logWrite ..) fun _ => ih held
    | brelse i =>
      rw [script]
      cases held[i]? with
      | none => exact ih held
      | some b => exact Steps.bind (turns_brelse ..) fun _ => ih (held.erase b)

end Turns

/-! ## Runs -/

/-- The times of the last releases after step `n`. -/
def stamp (c c' : Bcache) (n : ℕ) (time : ℕ → ℕ) (b : ℕ) : ℕ :=
  if (c.buf b).busy = true ∧ (c'.buf b).busy = false then n else time b

/-- The list is in the order of the last releases, which were all before step `n`. -/
def InOrder (c : Bcache) (n : ℕ) (time : ℕ → ℕ) : Prop :=
  ∃ l, Ring c.next c.prev head l ∧ l.Perm (List.range NBUF) ∧
    l.Pairwise (fun b b' => time b' < time b) ∧ ∀ b ∈ l, time b < n

variable {n : ℕ} {time : ℕ → ℕ} {g : Pid → Hold}

theorem stamp_of_busy (h : (c.buf b).busy = true → (c'.buf b).busy = true) :
    stamp c c' n time b = time b := by
  rw [stamp, if_neg]
  rintro ⟨hwas, hfree⟩
  rw [h hwas] at hfree
  cases hfree

theorem Inv.busy_lt (h : Inv c g) (hbusy : (c.buf b).busy = true) : b < NBUF := by
  obtain ⟨p, hp⟩ := (h.disciplined.busy b).mp hbusy
  exact h.lt p b ((h.holds p b).mpr hp)

theorem InOrder.step (h : InOrder c n time) (hinv : Inv c g) (hturn : Turn c c') :
    InOrder c' (n + 1) (stamp c c' n time) := by
  obtain ⟨l, hring, hperm, hsorted, hpast⟩ := h
  cases hturn with
  | keeps hnext hprev hbusy =>
    have htime : stamp c c' n time = time := funext fun b => stamp_of_busy (hbusy b)
    rw [htime]
    exact ⟨l, hnext ▸ hprev ▸ hring, hperm, hsorted, fun b hb => (hpast b hb).trans n.lt_succ_self⟩
  | releases b hbusy hbuf hnext hprev =>
    -- Buffer `b` goes to the front with the latest time; the others stay as they were.
    have hlt := hinv.busy_lt hbusy
    obtain ⟨l₁, l₂, rfl⟩ := List.append_of_mem (hperm.mem_iff.mpr (List.mem_range.mpr hlt))
    have hnodup := List.nodup_cons.mp
      (List.perm_middle.nodup_iff.mp (List.nodup_cons.mp hring.nodup).2)
    have hsub : (l₁ ++ l₂).Sublist (l₁ ++ b :: l₂) := (List.sublist_cons_self b l₂).append_left l₁
    have hself : stamp c c' n time b = n := if_pos ⟨hbusy, by rw [hbuf, Function.update_self]⟩
    have hrest : ∀ x ∈ l₁ ++ l₂, stamp c c' n time x = time x := by
      intro x hx
      refine stamp_of_busy fun hwas => ?_
      have hxb : x ≠ b := fun heq => hnodup.1 (heq ▸ hx)
      rwa [hbuf, Function.update_of_ne hxb]
    refine ⟨b :: (l₁ ++ l₂), ?_, List.perm_middle.symm.trans hperm, List.pairwise_cons.mpr
      ⟨fun x hx => ?_, ?_⟩, fun x hx => ?_⟩
    · rw [hnext, hprev]
      refine hring.unlink.insert ?_
      rw [List.mem_cons, not_or]
      exact ⟨Nat.ne_of_lt hlt, hnodup.1⟩
    · rw [hself, hrest x hx]
      exact hpast x (hsub.subset hx)
    · refine (hsorted.sublist hsub).imp_of_mem fun hx hy hxy => ?_
      rwa [hrest _ hx, hrest _ hy]
    · obtain rfl | hx := List.mem_cons.mp hx
      · rw [hself]
        exact n.lt_succ_self
      · rw [hrest x hx]
        exact (hpast x (hsub.subset hx)).trans n.lt_succ_self

/-- `time b` is the number of the step in which buffer `b` was last released; `binit`
counts as the first `NBUF` steps. -/
inductive Stamped (disk : ℕ → Disk) : Pool Pid Stop Bcache → ℕ → (ℕ → ℕ) → Prop
  | start : Stamped disk ⟨binit disk, fun _ => none⟩ NBUF id
  | step {s s' : Pool Pid Stop Bcache} {n : ℕ} {time : ℕ → ℕ} : Stamped disk s n time →
    Pool.Step Enters s s' → Stamped disk s' (n + 1) (stamp s.state s'.state n time)

variable {s s' : Pool Pid Stop Bcache}

theorem Stamped.reach (h : Stamped disk s n time) : Reach disk s := by
  induction h with
  | start => exact .refl
  | step _ hstep ih => exact ih.step hstep trivial

theorem Reach.turn (h : Reach disk s) (hstep : Pool.Step Enters s s') : Turn s.state s'.state := by
  refine h.step_related Turn.refl ?_ (fun _ => rfl) hstep
  rintro p c t ⟨cmds, rfl⟩
  exact turns_script p cmds []

theorem Stamped.inOrder (h : Stamped disk s n time) : InOrder s.state n time := by
  induction h with
  | start => exact ⟨_, initBufs_ring disk le_rfl, List.reverse_perm _, by decide, by decide⟩
  | step hbefore hstep ih =>
    obtain ⟨g, hinv⟩ := hbefore.reach.inv
    exact ih.step hinv (hbefore.reach.turn hstep)

/-- What is found first from the end of a list comes last in it. -/
theorem find_reverse_last {R : ℕ → ℕ → Prop} {q : ℕ → Bool} {l : List ℕ} {a x : ℕ}
    (h : l.Pairwise R) (ha : l.reverse.find? q = some a) (hx : x ∈ l) (hqx : q x = true)
    (hne : x ≠ a) : R x a := by
  obtain ⟨-, front, back, hl, hnone⟩ := List.find?_eq_some_iff_append.mp ha
  rw [List.reverse_eq_iff] at hl
  subst hl
  rw [List.reverse_append, List.reverse_cons, List.append_assoc, List.singleton_append] at h hx
  refine (List.pairwise_append.mp h).2.2 x ?_ a List.mem_cons_self
  rcases List.mem_append.mp hx with hx | hx
  · exact hx
  · rcases List.mem_cons.mp hx with heq | hx
    · exact absurd heq hne
    · have hnot := hnone x (List.mem_reverse.mp hx)
      simp [hqx] at hnot

/-- A buffer that the next step gives to another sector is free and clean, and was
released before all other buffers that are. -/
def RecyclesOldest (s : Pool Pid Stop Bcache) (time : ℕ → ℕ) : Prop :=
  ∀ s' b, Pool.Step Enters s s' → ((s'.state.buf b).dev ≠ (s.state.buf b).dev ∨
      (s'.state.buf b).sector ≠ (s.state.buf b).sector) →
    (s.state.buf b).busy = false ∧ (s.state.buf b).dirty = false ∧
      ∀ x < NBUF, x ≠ b → (s.state.buf x).busy = false → (s.state.buf x).dirty = false →
        time b < time x

/-- In every interleaving of system calls the list is in the order of the last releases,
and of the buffers that can be reused the one released longest ago is. -/
theorem recycles_least_recent (h : Stamped disk s n time) :
    InOrder s.state n time ∧ RecyclesOldest s time := by
  refine ⟨h.inOrder, fun s' b hstep hmoved => ?_⟩
  have hvictim : victim s.state = some b := by
    cases h.reach.turn hstep with
    | keeps _ _ _ htag => exact (htag b).resolve_left fun hsame => by simp [hsame] at hmoved
    | releases b' _ hbuf =>
      rw [hbuf] at hmoved
      by_cases hb : b = b'
      · subst hb
        simp at hmoved
      · simp [Function.update_of_ne hb] at hmoved
  obtain ⟨l, hring, hperm, hsorted, -⟩ := h.inOrder
  have hlen : l.length < NBUF + 1 := by rw [hperm.length_eq, List.length_range]; omega
  refine ⟨(victim_eq_some hvictim).1, (victim_eq_some hvictim).2, fun x hx hne hfree hclean => ?_⟩
  rw [victim, hring.walk_prev hlen] at hvictim
  exact find_reverse_last (R := fun b b' => time b' < time b) hsorted hvictim
    (hperm.mem_iff.mpr (List.mem_range.mpr hx)) (by simp [hfree, hclean]) hne

/-- A process is about to call `bget`. -/
theorem recycles_least_recent_first : ∃ s n time,
    s.thread 0 = some (script 0 (readi [100]) []) ∧
      InOrder s.state n time ∧ RecyclesOldest s time := by
  have hstart : Stamped (fun _ _ => zeroBlock) _ _ _ := .start
  exact ⟨_, _, _, rfl, recycles_least_recent
    (hstart.step (.call 0 (script 0 (readi [100]) []) rfl ⟨_, rfl⟩))⟩

end Lainos.Bio
