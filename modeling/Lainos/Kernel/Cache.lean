import Lainos.Kernel.Calls

/-!
# The inode cache

What `iget` finds: the entry that already holds the inode, or else the first one
that nobody references.
-/

namespace Lainos.Kernel

open Library

variable {s s' : Sys} {icache : ℕ → Inode} {inum k l n : ℕ}

/-- A cache entry that is in use for an inode. -/
def Uses (icache : ℕ → Inode) (inum k : ℕ) : Prop := 0 < (icache k).ref ∧ (icache k).inum = inum

theorem cached_eq_some (h : cached icache inum n = some k) : k < n ∧ Uses icache inum k := by
  induction n with
  | zero => simp [cached] at h
  | succ n ih =>
    rw [cached] at h
    cases hc : cached icache inum n with
    | some l =>
      rw [hc, Option.some.injEq] at h
      obtain ⟨hlt, hu⟩ := ih (h ▸ hc)
      exact ⟨by omega, hu⟩
    | none =>
      simp only [hc, Option.ite_none_right_eq_some, Option.some.injEq] at h
      exact ⟨by omega, h.2 ▸ h.1⟩

theorem cached_eq_none : cached icache inum n = none ↔ ∀ l < n, ¬ Uses icache inum l := by
  induction n with
  | zero => simp [cached]
  | succ n ih =>
    rw [cached, Nat.forall_lt_succ_right, ← ih]
    cases cached icache inum n with
    | some l => simp
    | none => simp [Uses]

theorem unusedEntry_eq_some (h : unusedEntry icache n = some k) : k < n ∧ (icache k).ref = 0 := by
  induction n with
  | zero => simp [unusedEntry] at h
  | succ n ih =>
    rw [unusedEntry] at h
    cases hc : unusedEntry icache n with
    | some l =>
      rw [hc, Option.some.injEq] at h
      obtain ⟨hlt, hu⟩ := ih (h ▸ hc)
      exact ⟨by omega, hu⟩
    | none =>
      simp only [hc, Option.ite_none_right_eq_some, Option.some.injEq] at h
      exact ⟨by omega, h.2 ▸ h.1⟩

theorem unusedEntry_eq_none : unusedEntry icache n = none ↔ ∀ l < n, (icache l).ref ≠ 0 := by
  induction n with
  | zero => simp [unusedEntry]
  | succ n ih =>
    rw [unusedEntry, Nat.forall_lt_succ_right, ← ih]
    cases unusedEntry icache n with
    | some l => simp
    | none => simp

/-- What `iget` does to the cache. -/
inductive Got (s : Sys) (inum : ℕ) : ℕ → Sys → Prop
  | again {k : ℕ} (hk : k < NINODE) (hu : Uses s.icache inum k) :
    Got s inum k (s.setRef k ((s.icache k).ref + 1))
  | fresh {k : ℕ} (hk : k < NINODE) (href : (s.icache k).ref = 0)
    (hnone : ∀ l < NINODE, ¬ Uses s.icache inum l) :
    Got s inum k (s.setInode k ⟨inum, 1, false, false, (s.icache k).d⟩)

theorem Got.d (h : Got s inum k s') (j : ℕ) : (s'.icache j).d = (s.icache j).d := by
  by_cases hj : j = k
  · subst hj
    cases h with
    | again => rw [Sys.setRef_icache, Function.update_self]
    | fresh => rw [Sys.setInode_icache, Function.update_self]
  · cases h with
    | again => rw [Sys.setRef_icache, Function.update_of_ne hj]
    | fresh => rw [Sys.setInode_icache, Function.update_of_ne hj]

theorem ends_iget {Q : ℕ → Sys → Prop} {E : Halt → Prop} (h : ∀ k s', Got s inum k s' → Q k s')
    (hE : E ⟨.panic "iget: no inodes", s⟩) : Exec.Ends (iget inum) Q E s := by
  rw [iget, Exec.ends_bind, Exec.ends_get]
  cases hc : cached s.icache inum NINODE with
  | some k =>
    obtain ⟨hk, hu⟩ := cached_eq_some hc
    exact h k _ (.again hk hu)
  | none =>
    cases hf : unusedEntry s.icache NINODE with
    | none => exact hE
    | some k =>
      obtain ⟨hk, href⟩ := unusedEntry_eq_some hf
      exact h k _ (.fresh hk href (cached_eq_none.mp hc))

/-- `iget` of an inode that nobody uses, with room in the cache. -/
theorem iget_fresh (hnone : ∀ l < NINODE, ¬ Uses s.icache inum l) (hl : l < NINODE)
    (href : (s.icache l).ref = 0) : ∃ k < NINODE, (s.icache k).ref = 0 ∧
      iget inum s = .ok (k, s.setInode k ⟨inum, 1, false, false, (s.icache k).d⟩) := by
  cases hf : unusedEntry s.icache NINODE with
  | none => exact absurd href (unusedEntry_eq_none.mp hf l hl)
  | some k =>
    obtain ⟨hk, hkref⟩ := unusedEntry_eq_some hf
    refine ⟨k, hk, hkref, ?_⟩
    rw [iget, Exec.bind_of_ok Exec.get_run, cached_eq_none.mpr hnone]
    simp only [hf]
    rfl

/-! ## Locking -/

/-- The trace entry of `ilock`. -/
def lockEvent (s : Sys) (t : Option Ticket) (k : ℕ) : Event :=
  .locks t (s.icache k).inum (dinodeAt s.disk (s.icache k).inum).type

theorem ilockLoad_of_valid {t : Option Ticket} (h : (s.icache k).valid = true) :
    ilockLoad t k s = .ok ((s.icache k).d, s.note (lockEvent s t k)) := by
  rw [ilockLoad, Exec.bind_of_ok (Exec.modify_run _), Exec.bind_of_ok Exec.get_run,
    Sys.note_icache, if_pos h]
  rfl

theorem ilockLoad_of_invalid {t : Option Ticket} (h : (s.icache k).valid = false)
    (htype : (dinodeAt s.disk (s.icache k).inum).type ≠ 0) :
    ilockLoad t k s = .ok (dinodeAt s.disk (s.icache k).inum, (s.note (lockEvent s t k)).setInode k
      ⟨(s.icache k).inum, (s.icache k).ref, (s.icache k).busy, true,
        dinodeAt s.disk (s.icache k).inum⟩) := by
  rw [ilockLoad, Exec.bind_of_ok (Exec.modify_run _), Exec.bind_of_ok Exec.get_run,
    Sys.note_icache, Sys.note_disk, if_neg (by rw [h]; decide), Exec.bind_of_ok Exec.set_run,
    if_neg htype]
  rfl

end Lainos.Kernel
