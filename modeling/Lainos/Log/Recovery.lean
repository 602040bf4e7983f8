import Lainos.Log.Journal

/-!
# Crash recovery

`recovered d` is what the home sectors will hold once the log on disk `d` has
been replayed. Every sector write the log issues leaves it as it is, except the
one that writes a nonempty header: that write turns it into the contents after
the transaction. A crash therefore finds the contents before or after the
transaction, and recovery, interrupted any number of times, brings them home.
-/

namespace Lainos.Log

open Library

/-- The sector lies outside the log area of header and slots. -/
def Home (start size s : ℕ) : Prop := s ≠ start ∧ (s < start ∨ start + size ≤ s)

instance (start size s : ℕ) : Decidable (Home start size s) :=
  inferInstanceAs (Decidable (_ ∧ _))

/-- The last of the first `k` log entries for sector `s`. -/
def entryOf (sector : ℕ → UInt32) (s : ℕ) : ℕ → Option ℕ
  | 0 => none
  | k + 1 => if (sector k).toNat = s then some k else entryOf sector s k

theorem entryOf_eq_some {sector : ℕ → UInt32} {s k t : ℕ} (h : entryOf sector s k = some t) :
    t < k ∧ (sector t).toNat = s := by
  induction k with
  | zero => simp [entryOf] at h
  | succ k ih =>
    rw [entryOf] at h
    split_ifs at h with hk
    · cases h
      exact ⟨by omega, hk⟩
    · exact ⟨(ih h).1.trans (by omega), (ih h).2⟩

theorem entryOf_eq_none {sector : ℕ → UInt32} {s k : ℕ} (h : entryOf sector s k = none) :
    ∀ t < k, (sector t).toNat ≠ s := by
  induction k with
  | zero => intro t ht; omega
  | succ k ih =>
    rw [entryOf] at h
    split_ifs at h with hk
    intro t ht
    by_cases htk : t = k
    · exact htk ▸ hk
    · exact ih h t (by omega)

theorem entryOf_congr {f g : ℕ → UInt32} {s k : ℕ} (h : ∀ t < k, f t = g t) :
    entryOf f s k = entryOf g s k := by
  induction k with
  | zero => rfl
  | succ k ih =>
    rw [entryOf, entryOf, h k (by omega), ih fun t ht => h t (by omega)]

variable (start size : ℕ)

/-- Number of entries in the log on disk. -/
def logged (d : Disk) : ℕ := (hdrN (d start)).toNat

/-- The contents of the home sectors once the log has been replayed. -/
def recovered (d : Disk) : Disk := fun s =>
  match entryOf (hdrSector (d start)) s (logged start d) with
  | some t => d (start + t + 1)
  | none => d s

/-- The log on disk is well formed, and replaying it gives `A`. -/
structure Settled (A d : Disk) : Prop where
  fits : ∀ t < logged start d, t + 1 < size
  home : ∀ t < logged start d, Home start size (hdrSector (d start) t).toNat
  contents : ∀ s, Home start size s → recovered start d s = A s

/-- The log on disk is empty and the home sectors hold `A`. -/
structure Clean (A d : Disk) : Prop where
  empty : hdrN (d start) = 0
  contents : ∀ s, Home start size s → d s = A s

variable {start size} {A d : Disk}

theorem recovered_of_empty (h : logged start d = 0) : recovered start d = d := by
  funext s
  rw [recovered, h]
  rfl

theorem Clean.logged (h : Clean start size A d) : logged start d = 0 := by
  rw [Log.logged, h.empty]
  rfl

theorem Clean.settled (h : Clean start size A d) : Settled start size A d := by
  refine ⟨?_, ?_, ?_⟩
  · intro t ht
    simp [h.logged] at ht
  · intro t ht
    simp [h.logged] at ht
  · intro s hs
    rw [recovered_of_empty h.logged]
    exact h.contents s hs

theorem Settled.congr {B : Disk} (h : Settled start size A d)
    (hAB : ∀ s, Home start size s → A s = B s) : Settled start size B d :=
  ⟨h.fits, h.home, fun s hs => (h.contents s hs).trans (hAB s hs)⟩

/-- A write to a slot of an empty log is invisible. -/
theorem Clean.slot (h : Clean start size A d) {s : ℕ} (hs : ¬ Home start size s) (hne : s ≠ start)
    (v : Block) : Clean start size A (Function.update d s v) := by
  refine ⟨?_, ?_⟩
  · rw [Function.update_of_ne hne.symm]
    exact h.empty
  · intro t ht
    rw [Function.update_of_ne (by rintro rfl; exact hs ht)]
    exact h.contents t ht

theorem not_home_slot {t : ℕ} (h : t + 1 < size) : ¬ Home start size (start + t + 1) := by
  unfold Home
  omega

/-- Copying a logged block home does not change what recovery will produce. -/
theorem Settled.install (h : Settled start size A d) {t : ℕ} (ht : t < logged start d) :
    Settled start size A
      (Function.update d (hdrSector (d start) t).toNat (d (start + t + 1))) := by
  have hhome := h.home t ht
  have hhdr : Function.update d (hdrSector (d start) t).toNat (d (start + t + 1)) start = d start :=
    Function.update_of_ne hhome.1.symm ..
  have hlen : logged start (Function.update d (hdrSector (d start) t).toNat (d (start + t + 1))) =
      logged start d := by rw [logged, hhdr, logged]
  refine ⟨?_, ?_, ?_⟩
  · rw [hlen]; exact h.fits
  · rw [hlen, hhdr]; exact h.home
  · intro s hs
    rw [← h.contents s hs]
    unfold recovered
    rw [hlen, hhdr]
    cases he : entryOf (hdrSector (d start)) s (logged start d) with
    | some u =>
      have hu := entryOf_eq_some he
      refine Function.update_of_ne ?_ ..
      intro heq
      exact not_home_slot (h.fits u hu.1) (heq ▸ hhome)
    | none =>
      exact Function.update_of_ne (entryOf_eq_none he t ht).symm ..

/-- Emptying the log once every logged block is home. -/
theorem Settled.clear (h : Settled start size A d) (hdone : ∀ s, Home start size s →
    recovered start d s = d s) {b : Block} (hb : hdrN b = 0) :
    Clean start size A (Function.update d start b) := by
  refine ⟨by rw [Function.update_self, hb], ?_⟩
  intro s hs
  rw [Function.update_of_ne hs.1, ← hdone s hs, h.contents s hs]

section Install

variable {D : Disk} {sector : ℕ → UInt32}

theorem installWrites_concat (k : ℕ) : installWrites D start sector 0 (k + 1) =
    installWrites D start sector 0 k ++ [((sector k).toNat, D (start + k + 1))] := by
  simp [installWrites, List.range'_concat]

/-- The loop copies the last entry of each sector home. -/
theorem replay_installWrites (e : Disk) (k s : ℕ) :
    replay e (installWrites D start sector 0 k) s =
      match entryOf sector s k with
      | some t => D (start + t + 1)
      | none => e s := by
  induction k with
  | zero => rfl
  | succ k ih =>
    rw [installWrites_concat, replay_append, replay_cons, replay_nil, entryOf]
    by_cases hs : (sector k).toNat = s
    · rw [if_pos hs, ← hs, Function.update_self]
    · rw [if_neg hs, Function.update_of_ne (Ne.symm hs)]
      exact ih

/-- Every write of the loop keeps the log settled. -/
theorem throughout_install (h : Settled start size A d) {tail k : ℕ}
    (hk : tail + k ≤ logged start d)
    (hD : ∀ t < logged start d, D (start + t + 1) = d (start + t + 1))
    (hsec : ∀ t < logged start d, sector t = hdrSector (d start) t) :
    Throughout (Settled start size A) d (installWrites D start sector tail k) := by
  induction k generalizing d tail with
  | zero => exact throughout_nil h
  | succ k ih =>
    have ht : tail < logged start d := by omega
    have hhome := h.home tail ht
    have hhdr : Function.update d (hdrSector (d start) tail).toNat (d (start + tail + 1)) start =
        d start := Function.update_of_ne hhome.1.symm ..
    have hlen : logged start (Function.update d (hdrSector (d start) tail).toNat
        (d (start + tail + 1))) = logged start d := by rw [logged, hhdr, logged]
    rw [installWrites_succ]
    refine throughout_cons h ?_
    rw [hsec tail ht, hD tail ht]
    refine ih (h.install ht) (by omega) ?_ ?_
    · intro t htl
      rw [hlen] at htl
      rw [hD t htl, Function.update_of_ne]
      intro heq
      exact not_home_slot (h.fits t htl) (heq ▸ hhome)
    · intro t htl
      rw [hlen] at htl
      rw [hhdr, hsec t htl]

end Install

end Lainos.Log
