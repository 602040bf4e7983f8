import Lainos.Pipe.Model

/-!
# Pipes are queues

The bytes that wait in the ring are exactly those that were accepted and not yet
delivered, in order.
-/

namespace Lainos.Pipe

open Library

variable {s s' : Sys} {p : Pid} {n : ℕ} {e : Label}

theorem full_iff : s.Full ↔ s.ring.count = PIPESIZE := (Fifo.count_eq_size_iff (by decide)).symm

theorem empty_iff : s.Empty ↔ s.ring.count = 0 := s.ring.count_eq_zero_iff.symm

/-- What is in the ring is what is missing from `delivered`. -/
structure Queued (s : Sys) : Prop where
  count : s.ring.count ≤ PIPESIZE
  accepted : s.accepted = s.delivered ++ s.ring.toList PIPESIZE

theorem toList_eq_nil (h : s.Empty) : s.ring.toList PIPESIZE = [] := by
  rw [← List.length_eq_zero_iff, Fifo.length_toList, ← empty_iff]
  exact h

theorem queued_pipealloc (page : ℕ → UInt8) : Queued (.pipealloc page) := by
  have hempty : (Sys.pipealloc page).Empty := rfl
  refine ⟨?_, ?_⟩
  · rw [empty_iff.mp hempty]
    exact Nat.zero_le _
  · rw [toList_eq_nil hempty]
    rfl

/-- Sleeping, waking, closing and killing do not touch the bytes. -/
theorem Queued.congr (h : Queued s) (hring : s'.ring = s.ring) (hacc : s'.accepted = s.accepted)
    (hdel : s'.delivered = s.delivered) : Queued s' := by
  refine ⟨?_, ?_⟩
  · rw [hring]
    exact h.count
  · rw [hacc, hdel, hring]
    exact h.accepted

theorem Queued.store (h : Queued s) (hfull : ¬ s.Full) (b : UInt8) : Queued (s.store b) := by
  have hlt : s.ring.count < PIPESIZE := by
    rw [full_iff] at hfull
    have := h.count
    omega
  refine ⟨?_, ?_⟩
  · rw [Sys.store_ring, Fifo.count_put b hlt (by decide)]
    exact hlt
  · rw [Sys.store_accepted, Sys.store_delivered, Sys.store_ring,
      Fifo.toList_put b hlt (by decide) (by decide), h.accepted, List.append_assoc]

theorem Queued.deliver (h : Queued s) (hempty : ¬ s.Empty) : Queued s.deliver := by
  have hpos : 0 < s.ring.count := by
    rw [empty_iff] at hempty
    omega
  have hcount := Fifo.count_take hpos
  refine ⟨?_, ?_⟩
  · have := h.count
    rw [Sys.deliver_ring]
    omega
  · rw [Sys.deliver_accepted, Sys.deliver_delivered, Sys.deliver_ring, List.append_assoc,
      List.singleton_append, ← Fifo.toList_take hpos (by decide), h.accepted]

theorem Queued.stores {bytes : List UInt8} (h : Queued s) (hs : Stores s bytes s') : Queued s' := by
  induction hs with
  | nil => exact h
  | cons hfull _ ih => exact ih (h.store hfull _)

theorem Queued.copied {r : ℕ × Sys} (h : Queued s) (hc : Copied n s r) : Queued r.2 := by
  induction hc with
  | none => exact h
  | empty => exact h
  | some hempty _ ih => exact ih (h.deliver hempty)

theorem Queued.wrote {bytes : List UInt8} {r : Option ℤ × Sys} (h : Queued s)
    (hw : Wrote p n bytes s r) : Queued r.2 := by
  cases hw with
  | all hs => exact (h.stores hs).congr rfl rfl rfl
  | cut _ hs _ _ => exact (h.stores hs).congr rfl rfl rfl
  | sleeps _ hs _ _ _ => exact (h.stores hs).congr rfl rfl rfl

theorem Queued.piperead (h : Queued s) (p : Pid) (n : ℕ) : Queued (piperead p n s).2 := by
  rw [Pipe.piperead]
  split_ifs
  · exact h.congr rfl rfl rfl
  · exact h.congr rfl rfl rfl
  · exact (h.copied (copied_copy n s)).congr rfl rfl rfl

theorem Queued.pipeclose (h : Queued s) (writable : Bool) : Queued (s.pipeclose writable) := by
  cases writable with
  | false => exact h.congr rfl rfl rfl
  | true => exact h.congr rfl rfl rfl

theorem Queued.step (h : Queued s) (hstep : Step s e s') : Queued s' := by
  cases hstep with
  | write p bytes => exact h.wrote (wrote_pipewrite p _ bytes s)
  | writeOn p n rest => exact h.wrote (wrote_pipewrite p n rest s)
  | read p n => exact h.piperead p n
  | readOn p n => exact h.piperead p n
  | close writable => exact h.pipeclose writable
  | kill p => exact h.congr rfl rfl rfl

theorem Reach.queued {P : Sys → Label → Sys → Prop} (h : Reach P s) : Queued s := by
  induction h with
  | pipealloc page => exact queued_pipealloc page
  | step _ hstep _ ih => exact ih.step hstep

/-! ## End of file -/

/-- A loop that should copy something and copies nothing finds the pipe empty. -/
theorem Copied.empty_of_eq_zero {s₁ : Sys} (h : Copied n s (0, s₁)) (hn : 0 < n) : s.Empty ∧ s₁ = s := by
  cases h with
  | none => omega
  | empty _ hempty => exact ⟨hempty, rfl⟩

/-- `piperead` returns 0 at the end of the stream only. -/
theorem Queued.piperead_eq_zero (h : Queued s) (hn : 0 < n) (hr : (Pipe.piperead p n s).1 = some 0) :
    (Pipe.piperead p n s).2.writeopen = false ∧
      (Pipe.piperead p n s).2.delivered = (Pipe.piperead p n s).2.accepted := by
  rw [Pipe.piperead] at hr ⊢
  split_ifs at hr ⊢ with hwait hkilled
  · simp at hr
  have hc := copied_copy n s
  generalize copy n s = r at hr hc ⊢
  obtain ⟨i, s₁⟩ := r
  obtain rfl : i = 0 := by simpa using hr
  obtain ⟨hempty, rfl⟩ := hc.empty_of_eq_zero hn
  refine ⟨?_, ?_⟩
  · rw [not_and, Bool.not_eq_true] at hwait
    exact hwait hempty
  · have hacc := h.accepted
    rw [toList_eq_nil hempty, List.append_nil] at hacc
    exact hacc.symm

theorem Queued.step_eq_zero {p : Pid} (h : Queued s) (hn : 0 < n)
    (hstep : Step s (.read p n (some 0)) s') : s'.writeopen = false ∧ s'.delivered = s'.accepted := by
  generalize he : Label.read p n (some 0) = e at hstep
  cases hstep with
  | read q m _ _ =>
    obtain ⟨rfl, rfl, hr⟩ := Label.read.inj he
    exact h.piperead_eq_zero hn hr.symm
  | readOn q m _ _ _ =>
    obtain ⟨rfl, rfl, hr⟩ := Label.read.inj he
    exact h.piperead_eq_zero hn hr.symm
  | _ => cases he

/-- A pipe delivers what it accepts, in order, and its counters stay within a pipe's
size of each other; `piperead` returns 0 only when everything has been delivered and
the write end is closed. -/
theorem pipe_fifo (h : Reach (fun _ _ _ => True) s) :
    (s.ring.nwrite - s.ring.nread).toNat ≤ PIPESIZE ∧
      s.accepted = s.delivered ++ s.ring.toList PIPESIZE ∧
      ∀ p n s', 0 < n → Step s (.read p n (some 0)) s' →
        s'.writeopen = false ∧ s'.delivered = s'.accepted :=
  ⟨h.queued.count, h.queued.accepted, fun _ _ _ hn hstep => h.queued.step_eq_zero hn hstep⟩

/-- A pipe with one byte in it. -/
def oneByte : Sys := (pipewrite 1 1 [7] (.pipealloc fun _ => 0)).2

theorem pipe_fifo_one_byte : (oneByte.ring.nwrite - oneByte.ring.nread).toNat ≤ PIPESIZE ∧
    oneByte.accepted = oneByte.delivered ++ oneByte.ring.toList PIPESIZE ∧
      ∀ p n s', 0 < n → Step oneByte (.read p n (some 0)) s' →
        s'.writeopen = false ∧ s'.delivered = s'.accepted :=
  pipe_fifo (.step (.pipealloc fun _ => 0) (.write 1 [7] rfl rfl) trivial)

end Lainos.Pipe
