import Lainos.Kernel.BufferCache

/-!
# Running out of buffers

`bget` takes a buffer that no process holds and that does not wait for the commit of
the running transaction, and panics if there is none. Nothing else bounds the number
of buffers in use: one reader more than there are buffers is enough.
-/

namespace Lainos.Bio

open Library

variable {c : Bcache} {p : Pid} {dev sector : ℕ} {disk : ℕ → Disk}

theorem bget_eq_panic_iff : bget p dev sector c = .error (.panic "bget: no buffers") ↔
    lookup c dev sector = none ∧ victim c = none := by
  rw [bget, Exec.bind_of_ok Exec.get_run]
  cases lookup c dev sector with
  | some b =>
    refine iff_of_false (fun hrun => ?_) (fun hnone => by cases hnone.1)
    cases hbusy : (c.buf b).busy with
    | true =>
      simp only [hbusy] at hrun
      cases hrun
    | false =>
      simp only [hbusy] at hrun
      cases hrun
  | none =>
    cases victim c with
    | some b => exact iff_of_false (fun hrun => by cases hrun) (fun hnone => by cases hnone.2)
    | none => exact iff_of_true rfl ⟨rfl, rfl⟩

/-- Buffers that a process holds or that wait for the commit of a transaction. -/
def taken (c : Bcache) : Finset ℕ :=
  (Finset.range NBUF).filter fun b => c.holders b ≠ [] ∨ (c.buf b).dirty = true

/-- Whatever sector is looked for and not cached, there is a buffer for it. -/
def HasBuffer (c : Bcache) : Prop :=
  ∀ p dev sector, (∀ b < NBUF, (c.buf b).dev = dev → (c.buf b).sector ≠ sector) →
    (∃ b < NBUF, (c.buf b).busy = false ∧ (c.buf b).dirty = false) ∧
      bget p dev sector c ≠ .error (.panic "bget: no buffers")

variable {g : Pid → Hold}

theorem Inv.holders_ne_nil_iff (h : Inv c g) (b : ℕ) :
    c.holders b ≠ [] ↔ (c.buf b).busy = true := by
  rw [← List.length_pos_iff, h.busy b]
  cases (c.buf b).busy <;> simp

theorem Inv.taken_lt_iff (h : Inv c g) :
    (taken c).card < NBUF ↔ ∃ b < NBUF, (c.buf b).busy = false ∧ (c.buf b).dirty = false := by
  have hcard : (taken c).card < (Finset.range NBUF).card ↔ taken c ≠ Finset.range NBUF :=
    ⟨fun hlt heq => by rw [heq] at hlt; exact lt_irrefl _ hlt,
      fun hne => Finset.card_lt_card ((Finset.filter_subset _ _).ssubset_of_ne hne)⟩
  rw [Finset.card_range] at hcard
  rw [hcard, taken, Ne, Finset.filter_eq_self]
  simp only [Finset.mem_range, h.holders_ne_nil_iff, not_forall, not_or, Bool.not_eq_true,
    exists_prop]

/-- Some sector is not in the cache. -/
theorem exists_uncached (c : Bcache) (dev : ℕ) :
    ∃ sector, ∀ b < NBUF, (c.buf b).dev = dev → (c.buf b).sector ≠ sector := by
  obtain ⟨sector, hsector⟩ := Infinite.exists_notMem_finset
    ((Finset.range NBUF).image fun b => (c.buf b).sector)
  refine ⟨sector, fun b hb _ heq => hsector ?_⟩
  exact Finset.mem_image.mpr ⟨b, Finset.mem_range.mpr hb, heq⟩

/-- The use `readi` makes of buffers for direct blocks of an inode in memory. -/
def readi (sectors : List ℕ) : List Cmd :=
  sectors.flatMap fun sector => [.bread ⟨1, by decide⟩ sector, .brelse 0]

/-- Process `p` reads one block of its file. -/
def Reads (p : Pid) (_ : Bcache) (t : Thread Stop Bcache Unit) : Prop :=
  p ≤ NBUF ∧ t = script p (readi [100 + p]) []

theorem script_readi (p : Pid) (sector : ℕ) :
    ∃ next, script p (readi [sector]) [] = .step (bget p 1 sector) next :=
  ⟨_, rfl⟩

/-- `n` processes wait in `iderw` for their block. -/
structure Waiting (n : ℕ) (c : Pool Pid Stop Bcache) : Prop where
  idle : ∀ p, n ≤ p → c.thread p = none
  inv : ∃ g, Inv c.state g
  clean : ∀ b < NBUF, (c.state.buf b).dirty = false
  busy : ((Finset.range NBUF).filter fun b => (c.state.buf b).busy = true).card = n
  sector : ∀ b < NBUF, (c.state.buf b).busy = true → (c.state.buf b).sector < 100 + n
  unused : ∀ b < NBUF, (c.state.buf b).busy = false → (c.state.buf b).dev = nodev

theorem Waiting.lookup {n : ℕ} {c : Pool Pid Stop Bcache} (h : Waiting n c) :
    lookup c.state 1 (100 + n) = none := by
  obtain ⟨g, hinv⟩ := h.inv
  rw [hinv.lookup_eq_none]
  intro b hb hdev hsector
  cases hbusy : (c.state.buf b).busy with
  | true =>
    have := h.sector b hb hbusy
    omega
  | false =>
    rw [h.unused b hb hbusy] at hdev
    cases hdev

theorem Waiting.step {n : ℕ} {c : Pool Pid Stop Bcache} (hn : n < NBUF) (h : Waiting n c)
    (hreach : Pool.Reach Reads (fun _ => True) ⟨binit disk, fun _ => none⟩ c) :
    ∃ c', Pool.Reach Reads (fun _ => True) ⟨binit disk, fun _ => none⟩ c' ∧ Waiting (n + 1) c' := by
  obtain ⟨g, hinv⟩ := h.inv
  obtain ⟨b, hvictim⟩ : ∃ b, victim c.state = some b := by
    refine Option.ne_none_iff_exists'.mp fun hnone => ?_
    have hall : ∀ b ∈ Finset.range NBUF, (c.state.buf b).busy = true := fun b hb => by
      have hb := Finset.mem_range.mp hb
      exact (hinv.victim_eq_none.mp hnone b hb).resolve_right (by simp [h.clean b hb])
    have hcard := h.busy
    rw [Finset.filter_true_of_mem hall, Finset.card_range] at hcard
    omega
  have hrun : bget n 1 (100 + n) c.state = .ok (b, (c.state.setBuf b
      ⟨1, 100 + n, true, false, false, (c.state.buf b).data⟩).setHolders b
        (n :: c.state.holders b)) := by
    rw [bget, Exec.bind_of_ok Exec.get_run, h.lookup]
    simp only [hvictim]
    rfl
  have hlt := hinv.victim_lt hvictim
  have hfree := (victim_eq_some hvictim).1
  have hcall : Pool.Step Reads c ⟨c.state, _⟩ :=
    .call n (script n (readi [100 + n]) []) (h.idle n le_rfl) ⟨hn.le, rfl⟩
  obtain ⟨next, hnext⟩ := script_readi n (100 + n)
  have hact : Pool.Step Reads ⟨c.state, Function.update c.thread n _⟩ ⟨_, _⟩ :=
    .act n _ next b _ ((Function.update_self ..).trans (congrArg some hnext)) hrun
  refine ⟨_, (hreach.step hcall trivial).step hact trivial, ?_, ?_, ?_, ?_, ?_, ?_⟩
  · intro p hp
    simp only [Function.update_of_ne (show p ≠ n by omega)]
    exact h.idle p (by omega)
  · exact ⟨_, hinv.bget rfl (by decide) hrun⟩
  · intro x hx
    simp only [Bcache.setHolders_buf, Bcache.setBuf_buf]
    by_cases hxb : x = b
    · rw [hxb, Function.update_self]
    · rw [Function.update_of_ne hxb]
      exact h.clean x hx
  · have hinsert : ((Finset.range NBUF).filter fun x => (Function.update c.state.buf b
        ⟨1, 100 + n, true, false, false, (c.state.buf b).data⟩ x).busy = true) =
        insert b ((Finset.range NBUF).filter fun x => (c.state.buf x).busy = true) := by
      ext x
      by_cases hxb : x = b
      · simp [hxb, hlt]
      · simp [hxb]
    simp only [Bcache.setHolders_buf, Bcache.setBuf_buf, hinsert]
    rw [Finset.card_insert_of_notMem (by simp [hfree]), h.busy]
  · intro x hx
    simp only [Bcache.setHolders_buf, Bcache.setBuf_buf]
    by_cases hxb : x = b
    · rw [hxb, Function.update_self]
      intro _
      simp
    · rw [Function.update_of_ne hxb]
      intro hbusy
      have := h.sector x hx hbusy
      omega
  · intro x hx
    simp only [Bcache.setHolders_buf, Bcache.setBuf_buf]
    by_cases hxb : x = b
    · rw [hxb, Function.update_self]
      rintro ⟨⟩
    · rw [Function.update_of_ne hxb]
      exact h.unused x hx

theorem exists_waiting (disk : ℕ → Disk) {n : ℕ} (hn : n ≤ NBUF) :
    ∃ c, Pool.Reach Reads (fun _ => True) ⟨binit disk, fun _ => none⟩ c ∧ Waiting n c := by
  induction n with
  | zero =>
    have hbuf : ∀ b, (binit disk).buf b = _ := initBufs_buf disk NBUF
    refine ⟨_, .refl, fun _ _ => rfl, ⟨_, inv_binit disk⟩, ?_, ?_, ?_, ?_⟩
    · exact fun b _ => by rw [hbuf]
    · rw [Finset.card_eq_zero, Finset.filter_eq_empty_iff]
      intro b _
      rw [hbuf]
      exact Bool.false_ne_true
    · intro b _ hbusy
      rw [hbuf] at hbusy
      cases hbusy
    · exact fun b hb _ => by rw [hbuf, if_pos hb]
  | succ n ih =>
    obtain ⟨c, hreach, hwaiting⟩ := ih (Nat.le_of_succ_le hn)
    exact hwaiting.step hn hreach

end Lainos.Bio
