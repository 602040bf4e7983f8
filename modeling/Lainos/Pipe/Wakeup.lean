import Lainos.Pipe.Queue

/-!
# Wake-ups of pipes

Every stretch of `pipewrite` that stores bytes wakes the readers, unless it is cut
short: a process that is killed, or finds the read end closed, after it went on
writing returns without a wake-up. That is the only way in which a sleeper is
stranded.
-/

namespace Lainos.Pipe

open Library

variable {s s' s₁ : Sys} {p q : Pid} {n : ℕ} {e : Label} {bytes : List UInt8}

def Reading (s : Sys) (p : Pid) : Prop := (∃ n, s.call p = some (.read n)) ∧ s.sleeping p ≠ none

def Writing (s : Sys) (p : Pid) : Prop :=
  (∃ n rest, s.call p = some (.write n rest)) ∧ s.sleeping p ≠ none

/-- No process sleeps in `piperead` or `pipewrite` that could go on. -/
structure NoneStranded (s : Sys) : Prop where
  reader : ∀ p, Reading s p → s.Empty ∧ s.writeopen = true
  writer : ∀ p, Writing s p → s.Full ∧ s.readopen = true

/-- `pipewrite` returns −1 while a reader sleeps. -/
def CutShort (s : Sys) (e : Label) : Prop := (∃ p, e = .write p (some (-1))) ∧ ∃ q, Reading s q

/-- Processes sleep on the channel of the call they are in. -/
structure Parked (s : Sys) : Prop where
  reader : ∀ p, s.sleeping p = some .nread → ∃ n, s.call p = some (.read n)
  writer : ∀ p, s.sleeping p = some .nwrite → ∃ n rest, s.call p = some (.write n rest)

theorem Parked.reading (h : Parked s) : Reading s p ↔ s.sleeping p = some .nread := by
  refine ⟨fun ⟨⟨n, hcall⟩, hne⟩ => ?_, fun hs => ⟨h.reader p hs, by rw [hs]; simp⟩⟩
  cases hs : s.sleeping p with
  | none => exact absurd hs hne
  | some chan =>
    cases chan with
    | nread => rfl
    | nwrite =>
      obtain ⟨m, rest, hcall'⟩ := h.writer p hs
      rw [hcall] at hcall'
      cases hcall'

theorem Parked.writing (h : Parked s) : Writing s p ↔ s.sleeping p = some .nwrite := by
  refine ⟨fun ⟨⟨n, rest, hcall⟩, hne⟩ => ?_, fun hs => ⟨h.writer p hs, by rw [hs]; simp⟩⟩
  cases hs : s.sleeping p with
  | none => exact absurd hs hne
  | some chan =>
    cases chan with
    | nwrite => rfl
    | nread =>
      obtain ⟨m, hcall'⟩ := h.reader p hs
      rw [hcall] at hcall'
      cases hcall'

theorem Parked.noneStranded_iff (h : Parked s) : NoneStranded s ↔
    (∀ p, s.sleeping p = some .nread → s.Empty ∧ s.writeopen = true) ∧
      ∀ p, s.sleeping p = some .nwrite → s.Full ∧ s.readopen = true := by
  refine ⟨fun hs => ⟨fun p hp => ?_, fun p hp => ?_⟩, fun hs => ⟨fun p hp => ?_, fun p hp => ?_⟩⟩
  · exact hs.reader p (h.reading.mpr hp)
  · exact hs.writer p (h.writing.mpr hp)
  · exact hs.1 p (h.reading.mp hp)
  · exact hs.2 p (h.writing.mp hp)

/-! ## Sleeping in the right call -/

theorem sleeping_wakeup {chan c : Chan} (h : (s.wakeup chan).sleeping p = some c) :
    s.sleeping p = some c ∧ c ≠ chan := by
  change (if s.sleeping p = some chan then none else s.sleeping p) = some c at h
  split_ifs at h with hc
  refine ⟨h, fun heq => hc ?_⟩
  rw [h, heq]

theorem sleeping_wakeup_eq_none (h : s.sleeping p = none) (chan : Chan) :
    (s.wakeup chan).sleeping p = none := by
  change (if s.sleeping p = some chan then none else s.sleeping p) = none
  rw [h]
  rfl

/-- Fewer processes sleep, in the same calls. -/
theorem Parked.mono (h : Parked s) (hsleep : ∀ p c, s'.sleeping p = some c → s.sleeping p = some c)
    (hcall : ∀ p c, s'.sleeping p = some c → s'.call p = s.call p) : Parked s' := by
  refine ⟨fun p hp => ?_, fun p hp => ?_⟩
  · rw [hcall p _ hp]
    exact h.reader p (hsleep p _ hp)
  · rw [hcall p _ hp]
    exact h.writer p (hsleep p _ hp)

theorem Parked.wakeup (h : Parked s) (chan : Chan) : Parked (s.wakeup chan) :=
  h.mono (fun _ _ hp => (sleeping_wakeup hp).1) fun _ _ _ => rfl

theorem Parked.leave (h : Parked s) (hp : s.sleeping p = none) : Parked (s.leave p) := by
  refine h.mono (fun _ _ hq => hq) fun q c hq => Function.update_of_ne (fun heq => ?_) ..
  rw [heq] at hq
  exact absurd (hp.symm.trans hq) (by simp)

theorem Parked.stored (h : Parked s) (hs : Stored s bytes s') : Parked s' :=
  h.mono (fun p c hp => by rwa [hs.sleeping] at hp) fun p c _ => by rw [hs.call]

theorem Parked.taken (h : Parked s) (hs : Taken s s') : Parked s' :=
  h.mono (fun p c hp => by rwa [hs.sleeping] at hp) fun p c _ => by rw [hs.call]

theorem Parked.sleep {chan : Chan} {call : Call} (h : Parked s)
    (hr : chan = .nread → ∃ n, call = .read n) (hw : chan = .nwrite → ∃ n rest, call = .write n rest) :
    Parked (s.sleep p chan call) := by
  refine ⟨fun q hq => ?_, fun q hq => ?_⟩
  all_goals
    rw [Sys.sleep_sleeping] at hq
    rw [Sys.sleep_call]
    by_cases hqp : q = p
    · subst hqp
      rw [Function.update_self, Option.some.injEq] at hq
      rw [Function.update_self]
      simpa using ‹chan = _ → _› hq
    · rw [Function.update_of_ne hqp] at hq ⊢
      first | exact h.reader q hq | exact h.writer q hq

theorem Parked.wrote {r : Option ℤ × Sys} (h : Parked s) (hp : s.sleeping p = none)
    (hw : Wrote p n bytes s r) : Parked r.2 := by
  cases hw with
  | all hs =>
    refine ((h.stored hs.stored).wakeup _).leave (sleeping_wakeup_eq_none ?_ _)
    rw [hs.stored.sleeping, hp]
  | cut _ hs _ _ =>
    refine (h.stored hs.stored).leave ?_
    rw [hs.stored.sleeping, hp]
  | sleeps _ hs _ _ _ =>
    exact ((h.stored hs.stored).wakeup _).sleep (fun hc => by cases hc) fun _ => ⟨_, _, rfl⟩

theorem Parked.piperead (h : Parked s) (hp : s.sleeping p = none) (n : ℕ) :
    Parked (piperead p n s).2 := by
  rw [Pipe.piperead]
  split_ifs
  · exact h.leave hp
  · exact h.sleep (fun _ => ⟨_, rfl⟩) fun hc => by cases hc
  · have ht := (copied_copy n s).taken
    refine ((h.taken ht).wakeup _).leave (sleeping_wakeup_eq_none ?_ _)
    rw [ht.sleeping, hp]

theorem Parked.sleeping_eq_none (h : Parked s) (hp : s.call p = none) : s.sleeping p = none := by
  cases hs : s.sleeping p with
  | none => rfl
  | some chan =>
    cases chan with
    | nread =>
      obtain ⟨n, hc⟩ := h.reader p hs
      rw [hp] at hc
      cases hc
    | nwrite =>
      obtain ⟨n, rest, hc⟩ := h.writer p hs
      rw [hp] at hc
      cases hc

theorem Parked.pipeclose (h : Parked s) (writable : Bool) : Parked (s.pipeclose writable) := by
  cases writable with
  | false => exact h.mono (fun _ _ hp => (sleeping_wakeup hp).1) fun _ _ _ => rfl
  | true => exact h.mono (fun _ _ hp => (sleeping_wakeup hp).1) fun _ _ _ => rfl

theorem sleeping_kill {c : Chan} (h : (s.kill p).sleeping q = some c) : s.sleeping q = some c := by
  rw [Sys.kill_sleeping] at h
  by_cases hq : q = p
  · rw [hq, Function.update_self] at h
    cases h
  · rwa [Function.update_of_ne hq] at h

theorem Parked.step (h : Parked s) (hstep : Step s e s') : Parked s' := by
  cases hstep with
  | write p bytes _ hc => exact h.wrote (h.sleeping_eq_none hc) (wrote_pipewrite p _ bytes s)
  | writeOn p n rest _ _ hp => exact h.wrote hp (wrote_pipewrite p n rest s)
  | read p n _ hc => exact h.piperead (h.sleeping_eq_none hc) n
  | readOn p n _ _ hp => exact h.piperead hp n
  | close writable => exact h.pipeclose writable
  | kill p => exact h.mono (fun _ _ => sleeping_kill) fun _ _ _ => rfl

theorem Reach.parked {P : Sys → Label → Sys → Prop} (h : Reach P s) : Parked s := by
  induction h with
  | pipealloc page => exact ⟨(fun _ hp => by cases hp), (fun _ hp => by cases hp)⟩
  | step _ hstep _ ih => exact ih.step hstep

/-! ## Who is woken -/

/-- Nothing can be stored in a full pipe. -/
theorem Stores.eq_of_full (h : Stores s bytes s') (hfull : s.Full) : s' = s := by
  cases h with
  | nil => rfl
  | cons hne _ => exact absurd hfull hne

theorem not_empty_of_full (h : s.Full) : ¬ s.Empty := by
  rw [full_iff] at h
  rw [empty_iff, h]
  decide

/-- A stretch of `pipewrite` strands nobody, unless it is cut short while a reader
sleeps. -/
theorem NoneStranded.wrote_iff {r : Option ℤ × Sys} (h : NoneStranded s) (hpark : Parked s)
    (hp : s.sleeping p = none) (hw : Wrote p n bytes s r) :
    NoneStranded r.2 ↔ ¬ (r.1 = some (-1) ∧ ∃ q, Reading s q) := by
  obtain ⟨hread, hwrite⟩ := hpark.noneStranded_iff.mp h
  rw [(hpark.wrote hp hw).noneStranded_iff]
  cases hw with
  | @all s₁ hs =>
    refine iff_of_true ⟨fun q hq => ?_, fun q hq => ?_⟩ fun hc => by simp at hc
    · exact absurd rfl (sleeping_wakeup hq).2
    · have hq' := (sleeping_wakeup hq).1
      rw [hs.stored.sleeping] at hq'
      rw [hs.eq_of_full (hwrite q hq').1]
      exact hwrite q hq'
  | @cut done rest s₁ heq hs hfull hcut =>
    have hsleep : ∀ q c, (s₁.leave p).sleeping q = some c ↔ s.sleeping q = some c := fun q c => by
      rw [Sys.leave_sleeping, hs.stored.sleeping]
    refine ⟨fun hs' ⟨_, q, hq⟩ => ?_, fun hc => ⟨fun q hq => ?_, fun q hq => ?_⟩⟩
    · exact not_empty_of_full hfull (hs'.1 q ((hsleep q _).mpr (hpark.reading.mp hq))).1
    · exact absurd ⟨rfl, q, hpark.reading.mpr ((hsleep q _).mp hq)⟩ hc
    · have hq' := hwrite q ((hsleep q _).mp hq)
      rw [hs.eq_of_full hq'.1]
      exact hq'
  | @sleeps done rest s₁ heq hs hfull hopen _ =>
    refine iff_of_true ⟨fun q hq => ?_, fun q hq => ⟨hfull, hopen⟩⟩ fun hc => by cases hc.1
    rw [Sys.sleep_sleeping] at hq
    by_cases hqp : q = p
    · rw [hqp, Function.update_self] at hq
      cases hq
    · rw [Function.update_of_ne hqp] at hq
      exact absurd rfl (sleeping_wakeup hq).2

theorem NoneStranded.piperead (h : NoneStranded s) (hpark : Parked s) (hp : s.sleeping p = none)
    (n : ℕ) : NoneStranded (piperead p n s).2 := by
  obtain ⟨hread, hwrite⟩ := hpark.noneStranded_iff.mp h
  rw [(hpark.piperead hp n).noneStranded_iff, Pipe.piperead]
  split_ifs with hwait
  · exact ⟨hread, hwrite⟩
  · refine ⟨fun q _ => hwait, fun q hq => ?_⟩
    rw [Sys.sleep_sleeping] at hq
    by_cases hqp : q = p
    · rw [hqp, Function.update_self] at hq
      cases hq
    · rw [Function.update_of_ne hqp] at hq
      exact hwrite q hq
  · have ht := (copied_copy n s).taken
    refine ⟨fun q hq => ?_, fun q hq => absurd rfl (sleeping_wakeup hq).2⟩
    have hq' := (sleeping_wakeup hq).1
    rw [ht.sleeping] at hq'
    exact absurd (hread q hq') hwait

theorem NoneStranded.pipeclose (h : NoneStranded s) (hpark : Parked s) (writable : Bool) :
    NoneStranded (s.pipeclose writable) := by
  obtain ⟨hread, hwrite⟩ := hpark.noneStranded_iff.mp h
  rw [(hpark.pipeclose writable).noneStranded_iff]
  cases writable with
  | true =>
    refine ⟨fun q hq => absurd rfl (sleeping_wakeup hq).2, fun q hq => ?_⟩
    exact hwrite q (sleeping_wakeup hq).1
  | false =>
    refine ⟨fun q hq => ?_, fun q hq => absurd rfl (sleeping_wakeup hq).2⟩
    exact hread q (sleeping_wakeup hq).1

theorem not_cutShort (he : ∀ p, e ≠ .write p (some (-1))) : ¬ CutShort s e :=
  fun ⟨⟨p, hp⟩, _⟩ => he p hp

theorem NoneStranded.step_iff (h : NoneStranded s) (hpark : Parked s) (hstep : Step s e s') :
    NoneStranded s' ↔ ¬ CutShort s e := by
  cases hstep with
  | write p bytes _ hc =>
    rw [h.wrote_iff hpark (hpark.sleeping_eq_none hc) (wrote_pipewrite p _ bytes s), CutShort]
    simp
  | writeOn p n rest _ _ hp =>
    rw [h.wrote_iff hpark hp (wrote_pipewrite p n rest s), CutShort]
    simp
  | read p n _ hc =>
    exact iff_of_true (h.piperead hpark (hpark.sleeping_eq_none hc) n) (not_cutShort (by simp))
  | readOn p n _ _ hp => exact iff_of_true (h.piperead hpark hp n) (not_cutShort (by simp))
  | close writable => exact iff_of_true (h.pipeclose hpark writable) (not_cutShort (by simp))
  | kill p =>
    obtain ⟨hread, hwrite⟩ := hpark.noneStranded_iff.mp h
    refine iff_of_true ?_ (not_cutShort (by simp))
    have hpark' : Parked (s.kill p) := hpark.mono (fun _ _ => sleeping_kill) fun _ _ _ => rfl
    rw [hpark'.noneStranded_iff]
    exact ⟨fun q hq => hread q (sleeping_kill hq), fun q hq => hwrite q (sleeping_kill hq)⟩

theorem Stores.count (h : Stores s bytes s') (hq : Queued s) :
    s'.ring.count = s.ring.count + bytes.length := by
  have hacc := (hq.stores h).accepted
  rw [h.stored.accepted, h.stored.delivered, hq.accepted, List.append_assoc,
    List.append_cancel_left_eq] at hacc
  have := congrArg List.length hacc
  rw [List.length_append, Fifo.length_toList, Fifo.length_toList] at this
  exact this.symm

/-- A writer with more bytes than fit into an empty pipe fills it; then it sleeps, or
it is cut short if it has been killed. -/
theorem pipewrite_fills (hq : Queued s) (hempty : s.Empty) (hopen : s.readopen = true)
    (hlen : PIPESIZE < bytes.length) (p : Pid) (n : ℕ) : ∃ done rest s₁, bytes = done ++ rest ∧
      done.length = PIPESIZE ∧ Stored s done s₁ ∧ s₁.Full ∧ pipewrite p n bytes s =
        if s.killed p then (some (-1), s₁.leave p)
        else (none, (s₁.wakeup .nread).sleep p .nwrite (.write n rest)) := by
  have hzero := empty_iff.mp hempty
  have hw := wrote_pipewrite p n bytes s
  generalize pipewrite p n bytes s = r at hw ⊢
  cases hw with
  | all hs =>
    have hcount := hs.count hq
    have hle := (hq.stores hs).count
    omega
  | @cut done rest s₁ heq hs hfull hcut =>
    have hcount := hs.count hq
    have hkilled : s.killed p = true := by
      rw [hs.stored.readopen, hs.stored.killed, hopen] at hcut
      exact hcut.resolve_left (by simp)
    refine ⟨done, rest, s₁, heq, ?_, hs.stored, hfull, ?_⟩
    · rw [full_iff.mp hfull] at hcount
      omega
    · rw [if_pos hkilled]
  | @sleeps done rest s₁ heq hs hfull _ hkilled =>
    have hcount := hs.count hq
    rw [hs.stored.killed] at hkilled
    refine ⟨done, rest, s₁, heq, ?_, hs.stored, hfull, ?_⟩
    · rw [full_iff.mp hfull] at hcount
      omega
    · rw [if_neg (by rw [hkilled]; simp)]

/-- A reader takes everything out that it has room for. -/
theorem Copied.count {r : ℕ × Sys} (h : Copied n s r) : r.2.ring.count = s.ring.count - n := by
  induction h with
  | none => rfl
  | empty n hempty => rw [empty_iff.mp hempty, Nat.zero_sub]
  | @some s s' n i hempty _ ih =>
    have hpos : 0 < s.ring.count := Nat.pos_of_ne_zero fun hc => hempty (empty_iff.mpr hc)
    have := Fifo.count_take hpos
    rw [ih, Sys.deliver_ring]
    omega

end Lainos.Pipe
