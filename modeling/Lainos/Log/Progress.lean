import Lainos.Log.Crash

/-!
# Crash atomicity

`bget` panics when every buffer is busy or dirty. In a log of at most `NBUF`
sectors a transaction that stays within the log limit pins at most one buffer
for each logged sector, and uses two more for a moment, so there is always one
left. `Roomy m S B` bounds the pinned buffers by the sectors `S` and the busy
ones by the sectors `B`. So a life within the limit runs to its end, and crash
atomicity speaks about every such life.
-/

namespace Lainos.Log

open Library

structure Roomy (m : Machine) (S B : List ℕ) : Prop where
  nodup : m.lru.Nodup
  length : m.lru.length = NBUF
  pinned : ∀ p ∈ m.lru, (m.buf p).busy = true ∨ (m.buf p).dirty = true →
    (m.buf p).dev = ROOTDEV ∧ (m.buf p).sector ∈ S
  busy : ∀ p ∈ m.lru, (m.buf p).busy = true → (m.buf p).sector ∈ B

variable {m m' : Machine} {D : Disk} {S B : List ℕ} {p s : ℕ}

/-- Fewer pinned sectors than buffers leave a buffer to recycle. -/
theorem Roomy.victim (h : Roomy m S B) (hc : Coherent m D) (hS : S.length < NBUF) :
    ∃ p, victim m = some p := by
  by_contra hno
  have hnone : Log.victim m = none := by
    cases hv : Log.victim m with
    | none => rfl
    | some p => exact absurd ⟨p, hv⟩ hno
  have hall : ∀ p ∈ m.lru, (m.buf p).dev = ROOTDEV ∧ (m.buf p).sector ∈ S := by
    intro p hp
    have hp' := List.find?_eq_none.mp hnone p (List.mem_reverse.mpr hp)
    apply h.pinned p hp
    cases hb : (m.buf p).busy <;> cases hd : (m.buf p).dirty <;> simp_all
  have hnd : (m.lru.map fun p => (m.buf p).sector).Nodup := by
    refine List.Nodup.map_on ?_ h.nodup
    intro x hx y hy hxy
    exact hc.unique x hx y hy (hall x hx).1 (hall y hy).1 hxy
  have hsub : (m.lru.map fun p => (m.buf p).sector) ⊆ S := by
    intro x hx
    obtain ⟨p, hp, rfl⟩ := List.mem_map.mp hx
    exact (hall p hp).2
  have hle := (List.subperm_of_subset hnd hsub).length_le
  rw [List.length_map, h.length] at hle
  omega

theorem Roomy.mono (h : Roomy m S B) {S' B' : List ℕ} (hS : S ⊆ S') (hB : B ⊆ B') :
    Roomy m S' B' :=
  ⟨h.nodup, h.length, fun p hp hb => ⟨(h.pinned p hp hb).1, hS (h.pinned p hp hb).2⟩,
    fun p hp hb => hB (h.busy p hp hb)⟩

/-- `bget` needs a buffer to recycle only for a sector that is not cached, and
then that sector is not among the pinned ones. -/
theorem bget_ok (h : Roomy m S B) (hc : Coherent m D) (hS : (S.erase s).length < NBUF)
    (hs : s ∉ B) : ∃ p m', bget ROOTDEV s m = .ok (p, m') := by
  rw [bget, Exec.bind_of_ok Exec.get_run]
  cases hf : cached m ROOTDEV s with
  | some p =>
    obtain ⟨hp, hd, hsec⟩ := mem_of_cached hf
    have hb : (m.buf p).busy = false := by
      by_contra hb
      exact hs (hsec ▸ h.busy p hp (by simpa using hb))
    simp only [hb, Bool.false_eq_true, if_false]
    exact ⟨_, _, rfl⟩
  | none =>
    have hsmall : Roomy m (S.erase s) B := by
      refine ⟨h.nodup, h.length, fun p hp hb => ?_, h.busy⟩
      have hpS := h.pinned p hp hb
      exact ⟨hpS.1, (List.mem_erase_of_ne (absent_of_cached hf p hp hpS.1)).mpr hpS.2⟩
    obtain ⟨p, hv⟩ := hsmall.victim hc hS
    simp only [hv]
    exact ⟨_, _, rfl⟩

theorem bread_ok (h : Roomy m S B) (hc : Coherent m D) (hS : (S.erase s).length < NBUF)
    (hs : s ∉ B) : ∃ p m', bread ROOTDEV s m = .ok (p, m') ∧
      Roomy m' (s :: S.erase s) (s :: B) ∧ ((m'.buf p).dirty = true → s ∈ S) := by
  obtain ⟨p, m₁, hget⟩ := bget_ok h hc hS hs
  obtain ⟨hmem, -, hcases⟩ := bget_cases hget
  have hdirty₁ : (m₁.buf p).dirty = true → s ∈ S := by
    rcases hcases with ⟨-, hsec, rfl⟩ | ⟨-, -, rfl⟩
    · intro hd
      exact hsec ▸ (h.pinned p hmem (Or.inr (by simpa using hd))).2
    · simp [Buf.recycle]
  have hok : ∃ m', bread ROOTDEV s m = .ok (p, m') ∧ (m'.buf p).dirty = (m₁.buf p).dirty := by
    rw [bread, Exec.bind_of_ok hget, Exec.bind_of_ok Exec.get_run]
    cases hv : (m₁.buf p).valid with
    | true =>
      simp only [Bool.not_true, Bool.false_eq_true, if_false]
      exact ⟨_, rfl, rfl⟩
    | false =>
      have hbusy : (m₁.buf p).busy = true := by
        rcases hcases with ⟨-, -, rfl⟩ | ⟨-, -, rfl⟩ <;> simp [Buf.recycle]
      have hdirty : (m₁.buf p).dirty = false := by
        rcases hcases with ⟨-, -, rfl⟩ | ⟨-, -, rfl⟩
        · by_contra hd
          have := hc.dirty p hmem (by simpa using hd)
          simp [this] at hv
        · simp [Buf.recycle]
      simp only [Bool.not_false, if_true]
      rw [Exec.bind_of_ok (iderw_read hbusy hv hdirty)]
      exact ⟨_, rfl, by simp⟩
  obtain ⟨m', hread, hdirty⟩ := hok
  obtain ⟨-, -, hheld, -, hlru, hother, -⟩ := bread_spec hc hread
  have hlru' : ∀ q ∈ m'.lru, q ∈ m.lru := fun q hq => hlru ▸ hq
  refine ⟨p, m', hread, ⟨hlru ▸ h.nodup, hlru ▸ h.length, ?_, ?_⟩, hdirty ▸ hdirty₁⟩
  · intro q hq hpin
    by_cases hqp : q = p
    · subst hqp
      exact ⟨hheld.dev, by simp [hheld.sector]⟩
    · rw [hother q hqp] at hpin ⊢
      obtain ⟨hd, hS'⟩ := h.pinned q (hlru' q hq) hpin
      refine ⟨hd, ?_⟩
      by_cases hqs : (m.buf q).sector = s
      · rw [hqs]
        exact List.mem_cons_self
      · exact List.mem_cons_of_mem _ ((List.mem_erase_of_ne hqs).mpr hS')
  · intro q hq hb
    by_cases hqp : q = p
    · subst hqp
      simp [hheld.sector]
    · rw [hother q hqp] at hb ⊢
      exact List.mem_cons_of_mem _ (h.busy q (hlru' q hq) hb)

/-- A buffer changed in place stays within the same bounds while it is held. -/
theorem Roomy.put (h : Roomy m S B) {b : Buf} (hdev : b.dev = ROOTDEV) (hS : b.sector ∈ S)
    (hB : b.sector ∈ B) : Roomy (m.put p b) S B := by
  refine ⟨h.nodup, h.length, ?_, ?_⟩
  · intro q hq hpin
    by_cases hqp : q = p
    · subst hqp
      simp [hdev, hS]
    · rw [put_buf_of_ne _ hqp] at hpin ⊢
      exact h.pinned q hq hpin
  · intro q hq hb
    by_cases hqp : q = p
    · subst hqp
      simp [hB]
    · rw [put_buf_of_ne _ hqp] at hb ⊢
      exact h.busy q hq hb

theorem Roomy.held_mem (h : Roomy m S B) (hp : Held m p s) : s ∈ S ∧ s ∈ B :=
  ⟨hp.sector ▸ (h.pinned p hp.mem (Or.inl hp.busy)).2, hp.sector ▸ h.busy p hp.mem hp.busy⟩

theorem Roomy.withHeader (h : Roomy m S B) (lh : Header) : Roomy (m.withHeader lh) S B :=
  ⟨h.nodup, h.length, h.pinned, h.busy⟩

theorem Roomy.withBusy (h : Roomy m S B) (b : Bool) : Roomy (m.withBusy b) S B :=
  ⟨h.nodup, h.length, h.pinned, h.busy⟩

theorem bwrite_ok (h : Roomy m S B) (hp : Held m p s) :
    ∃ m', bwrite p m = .ok ((), m') ∧ Roomy m' S B ∧ (m'.buf p).dirty = false := by
  rw [bwrite, Exec.bind_of_ok Exec.get_run, if_neg (by simp [hp.busy]), setBuf,
    Exec.bind_of_ok (Exec.modify_run _), iderw_write (by simp [hp.busy]) (by simp)]
  refine ⟨_, rfl, ?_, by simp [Machine.put]⟩
  have hm := h.held_mem hp
  simp only [put_buf_self, put_put]
  have hput : Roomy (m.put p { m.buf p with dirty := false, valid := true }) S B :=
    h.put hp.dev (hp.sector.symm ▸ hm.1) (hp.sector.symm ▸ hm.2)
  exact ⟨hput.nodup, hput.length, hput.pinned, hput.busy⟩

/-- Releasing a buffer gives its sector back: it is no longer busy, and no longer
pinned unless it is dirty. -/
theorem brelse_ok (h : Roomy m S (s :: B)) (hc : Coherent m D) (hp : Held m p s) :
    ∃ m', brelse p m = .ok ((), m') ∧ Roomy m' S B ∧
      ∀ T, S = s :: T → (m.buf p).dirty = false → Roomy m' T B := by
  rw [brelse, Exec.bind_of_ok Exec.get_run, if_neg (by simp [hp.busy])]
  have hperm : (p :: m.lru.erase p).Perm m.lru := (List.perm_cons_erase hp.mem).symm
  have hne : ∀ q ∈ m.lru, q ≠ p → (m.buf q).dev = ROOTDEV → (m.buf q).sector ≠ s :=
    fun q hq hqp hd => hp.sector ▸ hc.other_sector hp.mem hp.dev q hq hqp hd
  have hbusy : ∀ q ∈ m.lru, ((m.put p { m.buf p with busy := false }).buf q).busy = true →
      ((m.put p { m.buf p with busy := false }).buf q).sector ∈ B := by
    intro q hq hb
    by_cases hqp : q = p
    · subst hqp
      simp at hb
    · rw [put_buf_of_ne _ hqp] at hb ⊢
      rcases List.mem_cons.mp (h.busy q hq hb) with hs | hs
      · exact absurd hs (hne q hq hqp (h.pinned q hq (Or.inl hb)).1)
      · exact hs
  refine ⟨_, rfl, ⟨hperm.nodup_iff.mpr h.nodup, hperm.length_eq.trans h.length, ?_, ?_⟩, ?_⟩
  · intro q hq hpin
    replace hq := hperm.mem_iff.mp hq
    change ((m.put p _).buf q).busy = true ∨ ((m.put p _).buf q).dirty = true at hpin
    change ((m.put p _).buf q).dev = _ ∧ ((m.put p _).buf q).sector ∈ _
    by_cases hqp : q = p
    · subst hqp
      simp only [put_buf_self]
      exact ⟨hp.dev, hp.sector ▸ (h.held_mem hp).1⟩
    · rw [put_buf_of_ne _ hqp] at hpin ⊢
      exact h.pinned q hq hpin
  · exact fun q hq => hbusy q (hperm.mem_iff.mp hq)
  · rintro T rfl hclean
    refine ⟨hperm.nodup_iff.mpr h.nodup, hperm.length_eq.trans h.length, ?_,
      fun q hq => hbusy q (hperm.mem_iff.mp hq)⟩
    intro q hq hpin
    replace hq := hperm.mem_iff.mp hq
    change ((m.put p _).buf q).busy = true ∨ ((m.put p _).buf q).dirty = true at hpin
    change ((m.put p _).buf q).dev = _ ∧ ((m.put p _).buf q).sector ∈ _
    by_cases hqp : q = p
    · subst hqp
      simp [hclean] at hpin
    · rw [put_buf_of_ne _ hqp] at hpin ⊢
      have hq' := h.pinned q hq hpin
      refine ⟨hq'.1, ?_⟩
      rcases List.mem_cons.mp hq'.2 with hs | hs
      · exact absurd hs (hne q hq hqp hq'.1)
      · exact hs

/-- A buffer that is released unchanged leaves no trace. -/
theorem brelse_clean_ok {m₁ : Machine} (h : Roomy m₁ (s :: S.erase s) (s :: B))
    (hc : Coherent m₁ D) (hp : Held m₁ p s) (hd : (m₁.buf p).dirty = true → s ∈ S) :
    ∃ m', brelse p m₁ = .ok ((), m') ∧ Roomy m' S B := by
  obtain ⟨m', hrel, hall, hdrop⟩ := brelse_ok h hc hp
  refine ⟨m', hrel, ?_⟩
  cases hdirty : (m₁.buf p).dirty with
  | false => exact (hdrop _ rfl hdirty).mono (List.erase_subset) (List.Subset.refl _)
  | true =>
    refine hall.mono ?_ (List.Subset.refl _)
    exact List.cons_subset.mpr ⟨hd hdirty, List.erase_subset⟩

theorem readHead_ok (h : Roomy m S []) (hc : Coherent m D) (hS : S.length < NBUF) :
    ∃ m', readHead m = .ok ((), m') ∧ Roomy m' S [] := by
  obtain ⟨p, m₁, hread, hroom, hdirty⟩ :=
    bread_ok h hc ((List.length_erase_le).trans_lt hS) (List.not_mem_nil (a := m.log.start))
  obtain ⟨-, hc₁, hheld, -⟩ := bread_spec hc hread
  obtain ⟨m', hrel, hroom'⟩ := brelse_clean_ok
    (hroom.withHeader (m₁.log.lh.load (m₁.buf p).data)) (hc₁.withHeader _) (hheld.withHeader _) hdirty
  refine ⟨m', ?_, hroom'⟩
  rw [readHead, Exec.bind_of_ok Exec.get_run, Exec.bind_of_ok hread,
    Exec.bind_of_ok (Exec.modify_run _)]
  exact hrel

theorem writeHead_ok (h : Roomy m S []) (hc : Coherent m D) (hS : S.length < NBUF) :
    ∃ m', writeHead m = .ok ((), m') ∧ Roomy m' S [] := by
  obtain ⟨p, m₁, hread, hroom, -⟩ :=
    bread_ok h hc ((List.length_erase_le).trans_lt hS) (List.not_mem_nil (a := m.log.start))
  obtain ⟨-, hc₁, hheld, -⟩ := bread_spec hc hread
  have hm := hroom.held_mem hheld
  have hroom₂ : Roomy (m₁.put p { m₁.buf p with data := putHeader (m₁.buf p).data m₁.log.lh }) _ _ :=
    hroom.put hheld.dev (hheld.sector.symm ▸ hm.1) (hheld.sector.symm ▸ hm.2)
  obtain ⟨m₃, hwrite, hroom₃, hdirty⟩ := bwrite_ok hroom₂ (hheld.store _)
  obtain ⟨-, -, -, hc₃, hheld₃, -⟩ := bwrite_spec (hc₁.store hheld _) (hheld.store _) hwrite
  obtain ⟨m', hrel, hroom'⟩ := brelse_clean_ok hroom₃ hc₃ hheld₃ (by simp [hdirty])
  refine ⟨m', ?_, hroom'⟩
  rw [writeHead, Exec.bind_of_ok Exec.get_run, Exec.bind_of_ok hread,
    Exec.bind_of_ok (Exec.modify_run _), Exec.bind_of_ok hwrite]
  exact hrel

/-- The install loop unpins the sectors it writes home. -/
theorem installFrom_ok {k tail : ℕ} (h : Roomy m S []) (hc : Coherent m D) (hS : S.length < NBUF)
    (hhome : ∀ t, tail ≤ t → t < tail + k → (m.log.lh.sector t).toNat ∈ S ∨ S.length + 1 < NBUF)
    (hout : ∀ t u, tail ≤ t → t < tail + k → tail ≤ u → u < tail + k →
      (m.log.lh.sector t).toNat ≠ m.log.start + u + 1) :
    ∃ m' S', installFrom k tail m = .ok ((), m') ∧ Roomy m' S' [] ∧ S' ⊆ S ∧
      ∀ t, tail ≤ t → t < tail + k → (m.log.lh.sector t).toNat ∉ S' := by
  induction k generalizing m D tail S with
  | zero => exact ⟨m, S, rfl, h, List.Subset.refl _, by omega⟩
  | succ k ih =>
    have hne := hout tail tail (by omega) (by omega) (by omega) (by omega)
    obtain ⟨l, m₁, hread₁, hroom₁, hdirty₁⟩ := bread_ok h hc
      ((List.length_erase_le).trans_lt hS) (List.not_mem_nil (a := m.log.start + tail + 1))
    obtain ⟨hsame₁, hc₁, hl₁, -, -, -, hrel₁⟩ := bread_spec hc hread₁
    generalize hslot : m.log.start + tail + 1 = slot at *
    generalize hhm : (m.log.lh.sector tail).toNat = home at *
    have hroom₁' : ((slot :: S.erase slot).erase home).length < NBUF := by
      rw [List.erase_cons_tail (by simpa using Ne.symm hne), List.length_cons]
      have hle := List.length_erase_le (a := slot) (l := S)
      rcases hhm ▸ hhome tail (by omega) (by omega) with hin | hroomy
      · have hin' : home ∈ S.erase slot := (List.mem_erase_of_ne hne).mpr hin
        rw [List.length_erase_of_mem hin']
        have := List.length_pos_of_mem hin'
        omega
      · have := List.length_erase_le (a := home) (l := S.erase slot)
        omega
    obtain ⟨d, m₂, hread₂, hroom₂, -⟩ := bread_ok hroom₁ hc₁ hroom₁' (by simpa using hne)
    obtain ⟨hsame₂, hc₂, hd₂, hfree, hlru₂, hother₂, -⟩ := bread_spec hc₁ hread₂
    have hld : l ≠ d := hl₁.ne_of_not_busy hfree
    have hl₂ : Held m₂ l slot := hl₁.frame (hlru₂ ▸ hl₁.mem) (hother₂ l hld)
    have hm := hroom₂.held_mem hd₂
    have hroom₃ : Roomy (m₂.put d { m₂.buf d with data := (m₂.buf l).data }) _ _ :=
      hroom₂.put hd₂.dev (hd₂.sector.symm ▸ hm.1) (hd₂.sector.symm ▸ hm.2)
    obtain ⟨m₄, hwrite, hroom₄, hdirty₄⟩ := bwrite_ok hroom₃ (hd₂.store _)
    obtain ⟨hdisk₄, -, -, hc₄, hd₄, hlru₄, hother₄⟩ :=
      bwrite_spec (hc₂.store hd₂ _) (hd₂.store _) hwrite
    have hbuf₄ : m₄.buf l = m₁.buf l := by
      rw [hother₄ l hld, put_buf_of_ne _ hld, hother₂ l hld]
    have hl₄ : Held m₄ l slot := hl₂.frame (hlru₄ ▸ hl₂.mem) (hbuf₄.trans (hother₂ l hld).symm)
    have hroom₄' : Roomy m₄ (slot :: (home :: S).erase slot) [slot, home] := by
      refine hroom₄.mono ?_ (by intro x; simp [or_comm])
      have herase : (home :: S).erase slot = home :: S.erase slot :=
        List.erase_cons_tail (by simpa using hne)
      rw [herase]
      intro x hx
      rcases List.mem_cons.mp hx with hx | hx
      · simp [hx]
      · have hx' := List.mem_of_mem_erase hx
        simp only [List.mem_cons] at hx' ⊢
        tauto
    obtain ⟨m₅, hrel₅, hroom₅⟩ := brelse_clean_ok hroom₄' hc₄ hl₄
      (fun hd => List.mem_cons_of_mem _ (hdirty₁ (hbuf₄ ▸ hd)))
    have hrel₄ : (m₄.buf l).dirty = true ∨
        Function.update D home (m₂.buf l).data slot = m₄.disk slot := by
      rw [hbuf₄, hdisk₄, Function.update_of_ne hne.symm, Function.update_of_ne hne.symm,
        Machine.put, hsame₂.disk, hsame₁.disk]
      exact hrel₁
    obtain ⟨-, hc₅, hmem₅, hother₅⟩ := brelse_spec hc₄ hl₄ hrel₄ hrel₅
    have hd₅ : Held m₅ d home := hd₄.frame ((hmem₅ d).mpr hd₄.mem) (hother₅ d hld.symm)
    have hroom₅' : Roomy m₅ (home :: S.filter (· ≠ home)) [home] := by
      refine hroom₅.mono ?_ (List.Subset.refl _)
      intro x hx
      by_cases hxh : x = home
      · simp [hxh]
      · simpa [hxh] using hx
    obtain ⟨m₆, hrel₆, -, hdrop⟩ := brelse_ok hroom₅' hc₅ hd₅
    have hroom₆ := hdrop _ rfl (by rw [hother₅ d hld.symm, hdirty₄])
    obtain ⟨-, -, hlog₆, hc₆⟩ := install_one hc hne hread₁ hread₂ hwrite hrel₅ hrel₆
    have hle := List.length_filter_le (· ≠ home) S
    have hless : (S.filter (· ≠ home)).length + 1 < NBUF := by
      rcases hhm ▸ hhome tail (by omega) (by omega) with hin | hroomy
      · have hlt : (S.filter (· ≠ home)).length < S.length :=
          List.length_filter_lt_length_iff_exists.mpr ⟨home, hin, by simp⟩
        omega
      · omega
    obtain ⟨m', S', hrest, hroom', hsub, hgone⟩ : ∃ m' S', installFrom k (tail + 1) m₆ =
        .ok ((), m') ∧ Roomy m' S' [] ∧ S' ⊆ S.filter (· ≠ home) ∧
        ∀ t, tail + 1 ≤ t → t < tail + 1 + k → (m₆.log.lh.sector t).toNat ∉ S' := by
      refine ih hroom₆ hc₆ (by omega) (fun _ _ _ => Or.inr hless) ?_
      intro t u ht₁ ht₂ hu₁ hu₂
      rw [hlog₆]
      exact hout t u (by omega) (by omega) (by omega) (by omega)
    refine ⟨m', S', ?_, hroom', fun x hx => (List.mem_filter.mp (hsub hx)).1, ?_⟩
    · rw [installFrom, Exec.bind_of_ok Exec.get_run, hslot, Exec.bind_of_ok hread₁, hhm,
        Exec.bind_of_ok hread₂, Exec.bind_of_ok (Exec.modify_run _), Exec.bind_of_ok hwrite,
        Exec.bind_of_ok hrel₅, Exec.bind_of_ok hrel₆]
      exact hrest
    · intro t ht₁ ht₂ hin
      by_cases htt : t = tail
      · have := (List.mem_filter.mp (hsub hin)).2
        simp [htt, hhm] at this
      · exact hgone t (by omega) (by omega) (hlog₆ ▸ hin)

/-- A logged update needs two buffers besides those of the sectors logged so far,
and leaves one more sector pinned. -/
theorem update_ok {w : UInt32 × Block} (h : Roomy m S []) (hc : Coherent m D)
    (hS : S.length + 1 < NBUF) (hbusy : m.log.busy = true) (hn : m.log.lh.n < LOGSIZE)
    (hsize : m.log.lh.n < (m.log.size : ℤ) - 1)
    (hne : w.1.toNat ≠ m.log.start + slotOf m.log.lh w.1 + 1) :
    ∃ m', update w m = .ok ((), m') ∧ Roomy m' (w.1.toNat :: S.erase w.1.toNat) [] := by
  obtain ⟨p, m₁, hread, hroom₁, -⟩ := bread_ok h hc
    ((List.length_erase_le).trans_lt (by omega)) (List.not_mem_nil (a := w.1.toNat))
  obtain ⟨hsame₁, hc₁, hp₁, -⟩ := bread_spec hc hread
  have hlen := List.length_erase_le (a := w.1.toNat) (l := S)
  generalize hT : w.1.toNat :: S.erase w.1.toNat = T at *
  have hTlen : T.length < NBUF := by
    rw [← hT, List.length_cons]
    omega
  have hm₁ := hroom₁.held_mem hp₁
  have hroom₂ : Roomy (m₁.put p { m₁.buf p with data := w.2 }) T [w.1.toNat] :=
    hroom₁.put hp₁.dev (hp₁.sector.symm ▸ hm₁.1) (hp₁.sector.symm ▸ hm₁.2)
  have hc₂ := hc₁.store hp₁ w.2
  have hp₂ := hp₁.store w.2
  generalize hm₂ : m₁.put p { m₁.buf p with data := w.2 } = m₂ at *
  have hlog₂ : m₂.log = m.log := by rw [← hm₂]; exact hsame₁.log
  generalize hi : slotOf m.log.lh w.1 = i at *
  generalize hslot : m.log.start + i + 1 = slot at *
  have hroom₂' := hroom₂.withHeader (m₂.log.lh.record i w.1)
  obtain ⟨l, m₃, hread₃, hroom₃, hdirty₃⟩ := bread_ok hroom₂' (hc₂.withHeader _)
    ((List.length_erase_le).trans_lt hTlen) (by simpa using hne.symm)
  obtain ⟨-, hc₃, hl₃, hfree₃, hlru₃, hother₃, -⟩ := bread_spec (hc₂.withHeader _) hread₃
  have hpl : p ≠ l := (hp₂.withHeader _).ne_of_not_busy hfree₃
  have hm₃ := hroom₃.held_mem hl₃
  have hroom₄ : Roomy (m₃.put l { m₃.buf l with data := (m₃.buf p).data }) _ _ :=
    hroom₃.put hl₃.dev (hl₃.sector.symm ▸ hm₃.1) (hl₃.sector.symm ▸ hm₃.2)
  obtain ⟨m₄, hwrite, hroom₅, hdirty₄⟩ := bwrite_ok hroom₄ (hl₃.store _)
  obtain ⟨hdisk₄, -, -, hc₄, hl₄, hlru₄, hother₄⟩ :=
    bwrite_spec (hc₃.store hl₃ _) (hl₃.store _) hwrite
  obtain ⟨m₅, hrelse₅, hroom₆⟩ := brelse_clean_ok hroom₅ hc₄ hl₄ (by simp [hdirty₄])
  obtain ⟨-, hc₅, hmem₅, hother₅⟩ :=
    brelse_spec hc₄ hl₄ (Or.inr (by simp [hdisk₄])) hrelse₅
  have hp₅ : Held m₅ p w.1.toNat := by
    refine hp₂.frame ((hmem₅ p).mpr ?_) ?_
    · rw [hlru₄]
      exact hlru₃ ▸ hp₂.mem
    · rw [hother₅ p hpl, hother₄ p hpl, put_buf_of_ne _ hpl, hother₃ p hpl]
      rfl
  have hp₆ := hp₅.withHeader (m₅.log.lh.bump i)
  have hm₆ := (hroom₆.withHeader (m₅.log.lh.bump i)).held_mem hp₆
  have hroom₇ : Roomy ((m₅.withHeader (m₅.log.lh.bump i)).put p
      { (m₅.withHeader (m₅.log.lh.bump i)).buf p with dirty := true }) T [w.1.toNat] :=
    (hroom₆.withHeader _).put hp₆.dev (hp₆.sector.symm ▸ hm₆.1) (hp₆.sector.symm ▸ hm₆.2)
  obtain ⟨m', hrelse, hroom', -⟩ := brelse_ok hroom₇ ((hc₅.withHeader _).setDirty hp₆) hp₆.setDirty
  refine ⟨m', ?_, hroom'⟩
  rw [update, Exec.bind_of_ok hread, Exec.bind_of_ok (Exec.modify_run _), hm₂]
  refine (Exec.bind_of_ok (a := ()) ?_).trans hrelse
  rw [logWrite, Exec.bind_of_ok Exec.get_run, hlog₂, if_neg (by omega), if_neg (by simp [hbusy])]
  dsimp only
  rw [hp₂.sector, UInt32.ofNat_toNat, hp₂.dev, hi, hslot, Exec.bind_of_ok (Exec.modify_run _),
    Exec.bind_of_ok hread₃, Exec.bind_of_ok (Exec.modify_run _), Exec.bind_of_ok hwrite,
    Exec.bind_of_ok hrelse₅, Exec.bind_of_ok (Exec.modify_run _), setBuf, Exec.modify_run]

/-! ## Runs within the log limit -/

/-- The sectors that occupy a slot of the log. -/
def loggedSectors (lh : Header) : List ℕ := (List.range lh.n.toNat).map fun i => (lh.sector i).toNat

/-- At each log write the sectors logged before it leave a slot. -/
def WithinLimit (size : ℕ) (t : Txn) : Prop :=
  ∀ us w vs, t = us ++ w :: vs → (us.map Prod.fst).dedup.length < LOGSIZE ∧
    (us.map Prod.fst).dedup.length + 1 < size

variable {start size : ℕ} {A : Disk}

theorem Logging.length_loggedSectors {d : Disk} {ws : Txn} {n : ℕ} (h : Logging start size d ws n D m) :
    (loggedSectors m.log.lh).length = n := by
  rw [loggedSectors, List.length_map, List.length_range, h.n_eq, Int.toNat_natCast]

theorem Logging.mem_loggedSectors {d : Disk} {ws : Txn} {n : ℕ} (h : Logging start size d ws n D m) :
    s ∈ loggedSectors m.log.lh ↔ ∃ u ∈ ws.map Prod.fst, u.toNat = s := by
  simp only [loggedSectors, List.mem_map (f := fun i => (m.log.lh.sector i).toNat), List.mem_range, h.n_eq,
    Int.toNat_natCast, ← h.entries]
  constructor
  · rintro ⟨i, hi, rfl⟩
    exact ⟨_, ⟨i, hi, rfl⟩, rfl⟩
  · rintro ⟨u, ⟨i, hi, rfl⟩, rfl⟩
    exact ⟨i, hi, rfl⟩

/-- As many slots are taken as there are distinct sectors. -/
theorem Logging.n_eq_dedup {d : Disk} {ws : Txn} {n : ℕ} (h : Logging start size d ws n D m) :
    n = (ws.map Prod.fst).dedup.length := by
  have hnd : ((List.range n).map m.log.lh.sector).Nodup := by
    refine List.Nodup.map_on ?_ List.nodup_range
    intro i hi j hj
    exact h.distinct i (List.mem_range.mp hi) j (List.mem_range.mp hj)
  have hperm : ((List.range n).map m.log.lh.sector).Perm (ws.map Prod.fst).dedup := by
    rw [List.perm_ext_iff_of_nodup hnd (List.nodup_dedup _)]
    intro u
    rw [List.mem_dedup, ← h.entries]
    simp
  simpa using hperm.length_eq

theorem updates_ok {d : Disk} {ws t : Txn} {n : ℕ} (h : Logging start size d ws n D m)
    (hroom : Roomy m (loggedSectors m.log.lh) []) (hbusy : m.log.busy = true) (hsize : size ≤ NBUF)
    (ht : ∀ w ∈ t, Home start size w.1.toNat)
    (hlim : ∀ us w vs, t = us ++ w :: vs → ((ws ++ us).map Prod.fst).dedup.length < LOGSIZE ∧
      ((ws ++ us).map Prod.fst).dedup.length + 1 < size) :
    ∃ m', updates t m = .ok ((), m') ∧ Roomy m' (loggedSectors m'.log.lh) [] := by
  induction t generalizing m D ws n with
  | nil => exact ⟨m, rfl, hroom⟩
  | cons w t ih =>
    have hl := hlim [] w t rfl
    rw [List.append_nil, ← h.n_eq_dedup] at hl
    have hw := ht w List.mem_cons_self
    have hi : slotOf m.log.lh w.1 ≤ n := by
      rcases slotOf_cases h.n_eq w.1 with hs | hs <;> omega
    obtain ⟨m₁, hone, hroom₁⟩ := update_ok (w := w) hroom h.coherent (by rw [h.length_loggedSectors]; omega)
      hbusy (by rw [h.n_eq]; omega) (by rw [h.n_eq, h.size_eq]; omega) (by
        rw [h.start_eq]
        intro heq
        exact not_home_slot (by omega) (heq ▸ hw))
    obtain ⟨n₁, D₁, slot, h₁, -, -, -, -, hbusy₁⟩ := h.update hw hone
    have hsub : w.1.toNat :: (loggedSectors m.log.lh).erase w.1.toNat ⊆ loggedSectors m₁.log.lh := by
      intro x hx
      rw [h₁.mem_loggedSectors]
      rcases List.mem_cons.mp hx with rfl | hx
      · exact ⟨w.1, by simp, rfl⟩
      · obtain ⟨u, hu, rfl⟩ := h.mem_loggedSectors.mp (List.mem_of_mem_erase hx)
        exact ⟨u, by simpa using Or.inl (by simpa using hu), rfl⟩
    obtain ⟨m', hrest, hroom'⟩ := ih h₁ (hroom₁.mono hsub (List.Subset.refl _))
      (hbusy₁.trans hbusy) (fun v hv => ht v (List.mem_cons_of_mem _ hv)) (by
        rintro us v vs rfl
        simpa using hlim (w :: us) v vs rfl)
    exact ⟨m', by rw [updates, Exec.bind_of_ok hone, hrest], hroom'⟩

/-- Installing and erasing a log that covers all pinned sectors. -/
theorem finish_ok (h : Roomy m S []) (hc : Coherent m D) (hS : S.length < NBUF)
    (hsub : S ⊆ loggedSectors m.log.lh)
    (hhome : ∀ t < m.log.lh.n.toNat, (m.log.lh.sector t).toNat ∈ S ∨ S.length + 1 < NBUF)
    (hout : ∀ t < m.log.lh.n.toNat, ∀ u < m.log.lh.n.toNat,
      (m.log.lh.sector t).toNat ≠ m.log.start + u + 1) :
    ∃ m₁ m', installTrans m = .ok ((), m₁) ∧
      writeHead (m₁.withHeader m₁.log.lh.clear) = .ok ((), m') ∧ Roomy m' [] [] := by
  have hout' : ∀ t u, 0 ≤ t → t < 0 + m.log.lh.n.toNat → 0 ≤ u → u < 0 + m.log.lh.n.toNat →
      (m.log.lh.sector t).toNat ≠ m.log.start + u + 1 :=
    fun t u _ ht _ hu => hout t (by omega) u (by omega)
  obtain ⟨m₁, S', hinst, hroom, hsub', hgone⟩ :=
    installFrom_ok h hc hS (fun t _ ht => hhome t (by omega)) hout'
  obtain rfl : S' = [] := by
    rw [List.eq_nil_iff_forall_not_mem]
    intro x hx
    obtain ⟨t, ht, rfl⟩ := List.mem_map.mp (hsub (hsub' hx))
    rw [List.mem_range] at ht
    exact hgone t (by omega) (by omega) hx
  obtain ⟨-, -, hc₁, -⟩ := installFrom_spec hc hout' hinst
  obtain ⟨m', hwrite, hroom'⟩ := writeHead_ok (hroom.withHeader m₁.log.lh.clear)
    (hc₁.withHeader _) (by simp [NBUF])
  exact ⟨m₁, m', by rw [installTrans, Exec.bind_of_ok Exec.get_run, hinst], hwrite, hroom'⟩

theorem recoverFromLog_ok (h : Roomy m [] []) (hc : Coherent m m.disk)
    (hstart : m.log.start = start) (hset : Settled start size A m.disk) :
    ∃ m', recoverFromLog m = .ok ((), m') ∧ Roomy m' [] [] := by
  obtain ⟨m₀, hread, hroom₀⟩ := readHead_ok h hc (by simp [NBUF])
  obtain ⟨-, -, hc₀, hlog₀⟩ := readHead_spec hc hread
  rw [hstart] at hlog₀
  have hn : m₀.log.lh.n.toNat = logged start m.disk := by rw [hlog₀]; rfl
  have hsec : ∀ t < logged start m.disk, m₀.log.lh.sector t = hdrSector (m.disk start) t := by
    intro t ht
    rw [hlog₀]
    exact if_pos ht
  have hst₀ : m₀.log.start = start := by rw [hlog₀]; exact hstart
  obtain ⟨m₁, m', hinst, hwrite, hroom'⟩ := finish_ok hroom₀ hc₀ (by simp [NBUF])
    (List.nil_subset _) (fun _ _ => Or.inr (by simp [NBUF])) (by
      intro t ht u hu heq
      rw [hn] at ht hu
      rw [hst₀, hsec t ht] at heq
      exact not_home_slot (hset.fits u hu) (heq ▸ hset.home t ht))
  refine ⟨m', ?_, hroom'⟩
  rw [recoverFromLog, Exec.bind_of_ok hread, Exec.bind_of_ok hinst, clearHead,
    Exec.bind_of_ok (Exec.modify_run _), hwrite]

theorem transaction_ok {t : Txn} (h : Ready start size A m) (hroom : Roomy m [] [])
    (hbusy : m.log.busy = false) (hsize : size ≤ NBUF) (hlim : WithinLimit size t)
    (ht : ∀ w ∈ t, Home start size w.1.toNat) :
    ∃ m', transaction t m = .ok ((), m') ∧ Roomy m' [] [] := by
  have hlogging := h.begin
  obtain ⟨m₁, hupd, hroom₁⟩ := updates_ok hlogging
    ((hroom.withBusy true).mono (List.nil_subset _) (List.Subset.refl _)) rfl hsize ht
    (by
      intro us w vs hsplit
      simpa using hlim us w vs hsplit)
  obtain ⟨n, D, vs, hl, -⟩ := hlogging.updates h.clean ht hupd
  rw [List.nil_append] at hl
  have hbegin : beginTrans m = .ok ((), m.withBusy true) := by
    rw [beginTrans, Exec.bind_of_ok Exec.get_run, if_neg (by simp [hbusy]), Exec.set_run]
  have hcommit : ∃ m', commitTrans m₁ = .ok ((), m') ∧ Roomy m' [] [] := by
    rw [commitTrans, Exec.bind_of_ok Exec.get_run, hl.n_eq]
    by_cases hpos : (0 : ℤ) < n
    · have hfit := hl.fits (n - 1) (by omega)
      have hlen : (loggedSectors m₁.log.lh).length < NBUF := by
        rw [hl.length_loggedSectors]
        omega
      obtain ⟨m₂, hhead, hroom₂⟩ := writeHead_ok hroom₁ hl.coherent hlen
      obtain ⟨b, -, -, -, hlog₂, hc₂⟩ := writeHead_spec hl.coherent hhead
      obtain ⟨m₃, m₄, hinst, herase, hroom₄⟩ := finish_ok hroom₂ hc₂ hlen
        (by rw [hlog₂]; exact List.Subset.refl _)
        (by
          intro u hu
          rw [hlog₂] at hu ⊢
          exact Or.inl (List.mem_map.mpr ⟨u, List.mem_range.mpr hu, rfl⟩))
        (by
          intro u hu v hv heq
          rw [hlog₂] at hu hv heq
          rw [hl.n_eq, Int.toNat_natCast] at hu hv
          rw [hl.start_eq] at heq
          obtain ⟨w, hw, hwu⟩ := List.mem_map.mp ((hl.entries _).mp ⟨u, hu, rfl⟩)
          have hhome := ht w hw
          rw [hwu, heq] at hhome
          exact not_home_slot (hl.fits v hv) hhome)
      refine ⟨m₄.withBusy false, ?_, hroom₄.withBusy _⟩
      rw [if_pos hpos, Exec.bind_of_ok hhead, Exec.bind_of_ok hinst, clearHead,
        Exec.bind_of_ok (Exec.modify_run _), Exec.bind_of_ok herase, Exec.modify_run]
    · have hnil : loggedSectors m₁.log.lh = [] := by
        rw [← List.length_eq_zero_iff, hl.length_loggedSectors]
        omega
      rw [if_neg hpos, Exec.modify_run]
      exact ⟨_, rfl, (hnil ▸ hroom₁).withBusy _⟩
  obtain ⟨m', hcommit, hroom'⟩ := hcommit
  exact ⟨m', by rw [transaction, Exec.bind_of_ok hbegin, Exec.bind_of_ok hupd, hcommit], hroom'⟩

theorem session_ok {ts : List Txn} (h : Ready start size A m) (hroom : Roomy m [] [])
    (hbusy : m.log.busy = false) (hsize : size ≤ NBUF) (hlim : ∀ t ∈ ts, WithinLimit size t)
    (hts : ∀ t ∈ ts, ∀ w ∈ t, Home start size w.1.toNat) :
    ∃ marks m', session ts m = .ok (marks, m') := by
  induction ts generalizing m A with
  | nil => exact ⟨[], m, rfl⟩
  | cons t ts ih =>
    have ht := hts t List.mem_cons_self
    obtain ⟨m₁, htxn, hroom₁⟩ :=
      transaction_ok h hroom hbusy hsize (hlim t List.mem_cons_self) ht
    obtain ⟨-, -, -, -, hready, hbusy₁⟩ := transaction_spec h ht htxn
    obtain ⟨marks, m', hrest⟩ := ih hready hroom₁ hbusy₁
      (fun u hu => hlim u (List.mem_cons_of_mem _ hu)) (fun u hu => hts u (List.mem_cons_of_mem _ hu))
    refine ⟨m₁.issued.length :: marks, m', ?_⟩
    rw [session, Exec.bind_of_ok htxn, Exec.bind_of_ok Exec.get_run, Exec.bind_of_ok hrest,
      Exec.pure_run]

theorem powerOn_roomy (d : Disk) : Roomy (powerOn start size d) [] [] := by
  refine ⟨?_, by simp [powerOn], by simp [powerOn], by simp [powerOn]⟩
  exact List.nodup_reverse.mpr List.nodup_range

/-- A life whose transactions respect the log limit runs to its end. -/
theorem live_ok {ts : List Txn} {d : Disk} (hset : Settled start size A d) (hsize : size ≤ NBUF)
    (hlim : ∀ t ∈ ts, WithinLimit size t) (hts : ∀ t ∈ ts, ∀ w ∈ t, Home start size w.1.toNat) :
    ∃ marks m', live ts (powerOn start size d) = .ok (marks, m') := by
  obtain ⟨m₁, hrec, hroom⟩ := recoverFromLog_ok (powerOn_roomy d) (powerOn_coherent d) rfl hset
  obtain ⟨-, -, -, -, hready, hbusy⟩ :=
    recoverFromLog_spec (powerOn_coherent d) rfl rfl hset hrec
  obtain ⟨marks, m', hrun⟩ := session_ok hready hroom hbusy hsize hlim hts
  exact ⟨marks, m', by rw [live, Exec.bind_of_ok hrec, hrun]⟩

/-- Every life within the limits can be lived and cut after any number of writes,
and the recovery after it runs to its end. -/
theorem History.extend {d₀ d : Disk} {hs : List (List Txn × ℕ)} {ts : List Txn}
    (h : History start size d₀ hs d) (hempty : hdrN (d₀ start) = 0)
    (hhome : ∀ life ∈ hs, ∀ t ∈ life.1, ∀ w ∈ t, Home start size w.1.toNat) (hsize : size ≤ NBUF)
    (hlim : ∀ t ∈ ts, WithinLimit size t) (hts : ∀ t ∈ ts, ∀ w ∈ t, Home start size w.1.toNat)
    (k : ℕ) : ∃ n d' m, History start size d₀ (hs ++ [(ts, n)]) d' ∧
      recoverFromLog (powerOn start size d') = .ok ((), m) := by
  obtain ⟨kept, -, hset⟩ := h.settled hempty hhome
  obtain ⟨marks, m₁, hlive⟩ := live_ok hset hsize hlim hts
  obtain ⟨j, -, hset', -⟩ := live_spec hset hts hlive k
  obtain ⟨m, hrec, -⟩ := recoverFromLog_ok (powerOn_roomy _) (powerOn_coherent _) rfl hset'
  exact ⟨_, _, m, h.crash ts k hlive, hrec⟩

/-- Crash atomicity: after any history of crashes, a recovery that runs to its
end leaves the home sectors with the contents after the surviving transactions,
whole transactions only, and an empty log. -/
theorem recoverFromLog_crash_atomic {d₀ d : Disk} {hs : List (List Txn × ℕ)}
    (hempty : hdrN (d₀ start) = 0) (hist : History start size d₀ hs d)
    (hhome : ∀ life ∈ hs, ∀ t ∈ life.1, ∀ w ∈ t, Home start size w.1.toNat)
    (hrec : recoverFromLog (powerOn start size d) = .ok ((), m)) :
    hdrN (m.disk start) = 0 ∧ ∃ kept, List.Forall₂ Survives hs kept ∧
      ∀ s, Home start size s → m.disk s = after d₀ kept.flatten s := by
  obtain ⟨kept, hkept, hset⟩ := hist.settled hempty hhome
  obtain ⟨ws, -, -, -, hready, -⟩ := recoverFromLog_spec (powerOn_coherent d) rfl rfl hset hrec
  exact ⟨hready.clean.empty, kept, hkept, hready.clean.contents⟩

/-- One life that updates sector 29 and loses its power after the first write. -/
theorem recoverFromLog_crash_atomic_one_update :
    ∃ n d m, History 1014 10 (fun _ => zeroBlock) [([[(29, fun _ => 7)]], n)] d ∧
      recoverFromLog (powerOn 1014 10 d) = .ok ((), m) ∧ hdrN (m.disk 1014) = 0 ∧
      ∃ kept, List.Forall₂ Survives [([[(29, fun _ => 7)]], n)] kept ∧
        ∀ s, Home 1014 10 s → m.disk s = after (fun _ => zeroBlock) kept.flatten s := by
  have hempty : hdrN zeroBlock = 0 := by decide
  have hts : ∀ t ∈ [[((29 : UInt32), (fun _ => 7 : Block))]], ∀ w ∈ t,
      Home 1014 10 w.1.toNat := by simp [Home]
  have hlim : ∀ t ∈ [[((29 : UInt32), (fun _ => 7 : Block))]], WithinLimit 10 t := by
    intro t ht us w vs hsplit
    have hlen : us.length = 0 := by
      have := congrArg List.length ((List.mem_singleton.mp ht).symm.trans hsplit)
      simp at this
      omega
    simp [List.length_eq_zero_iff.mp hlen, LOGSIZE]
  obtain ⟨n, d, m, hist, hrec⟩ :=
    History.extend (.new : History 1014 10 (fun _ => zeroBlock) [] _) hempty (by simp) (by decide)
      hlim hts 1
  exact ⟨n, d, m, hist, hrec, recoverFromLog_crash_atomic hempty hist (by simpa using hts) hrec⟩

end Lainos.Log
