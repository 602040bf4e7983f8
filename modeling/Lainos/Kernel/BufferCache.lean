import Lainos.Kernel.Bio

/-!
# Discipline of the buffer cache

The invariant of the buffer cache says which buffers each process holds and which of
those it has changed and not yet given to `bwrite` or `log_write`. Each section of
`bio.c` and each transfer keeps it, hence so does any interleaving of system calls.
-/

namespace Lainos.Bio

open Library

variable {c c' : Bcache} {p q : Pid} {b b' dev sector : ℕ} {disk : ℕ → Disk}

/-- The buffers a process holds, and those among them with changes not yet passed
on. -/
structure Hold where
  held : List ℕ
  changed : List ℕ

structure Inv (c : Bcache) (g : Pid → Hold) : Prop where
  ring : ∃ l, Ring c.next c.prev head l ∧ l.Perm (List.range NBUF)
  distinct : ∀ b b', b < NBUF → b' < NBUF → b ≠ b' → (c.buf b).dev = (c.buf b').dev →
    (c.buf b).sector = (c.buf b').sector → (c.buf b).dev = nodev
  real : ∀ b, (c.buf b).busy ∨ (c.buf b).valid → (c.buf b).dev ≠ nodev
  busy : ∀ b, (c.holders b).length = if (c.buf b).busy then 1 else 0
  holds : ∀ p b, b ∈ (g p).held ↔ p ∈ c.holders b
  nodup : ∀ p, (g p).held.Nodup
  lt : ∀ p b, b ∈ (g p).held → b < NBUF
  changed : ∀ p b, b ∈ (g p).changed → b ∈ (g p).held
  synced : ∀ b, b < NBUF → (c.buf b).valid → (c.buf b).dirty = false →
    (∀ p, b ∉ (g p).changed) → (c.buf b).data = c.home b

/-! ## Scans of the list -/

variable {g : Pid → Hold}

theorem Inv.lookup_eq_none (h : Inv c g) : lookup c dev sector = none ↔
    ∀ b < NBUF, (c.buf b).dev = dev → (c.buf b).sector ≠ sector := by
  obtain ⟨l, hring, hperm⟩ := h.ring
  have hlen : l.length < NBUF + 1 := by rw [hperm.length_eq, List.length_range]; omega
  rw [lookup, hring.walk_next hlen, List.find?_eq_none]
  simp [hperm.mem_iff]

theorem Inv.lookup_eq_some (h : Inv c g) (hb : lookup c dev sector = some b) :
    b < NBUF ∧ (c.buf b).dev = dev ∧ (c.buf b).sector = sector := by
  have hmatch := walk_some hb
  obtain ⟨l, hring, hperm⟩ := h.ring
  have hlen : l.length < NBUF + 1 := by rw [hperm.length_eq, List.length_range]; omega
  rw [lookup, hring.walk_next hlen] at hb
  have hmem := hperm.mem_iff.mp (List.mem_of_find?_eq_some hb)
  exact ⟨List.mem_range.mp hmem, by simpa using hmatch⟩

theorem Inv.victim_eq_none (h : Inv c g) : victim c = none ↔
    ∀ b < NBUF, (c.buf b).busy = true ∨ (c.buf b).dirty = true := by
  obtain ⟨l, hring, hperm⟩ := h.ring
  have hlen : l.length < NBUF + 1 := by rw [hperm.length_eq, List.length_range]; omega
  rw [victim, hring.walk_prev hlen, List.find?_eq_none]
  simp only [List.mem_reverse, hperm.mem_iff, List.mem_range, Bool.and_eq_true,
    Bool.not_eq_true', not_and, Bool.not_eq_false, or_iff_not_imp_left, Bool.not_eq_true]

theorem victim_eq_some (hb : victim c = some b) :
    (c.buf b).busy = false ∧ (c.buf b).dirty = false := by
  simpa using walk_some hb

theorem Inv.victim_lt (h : Inv c g) (hb : victim c = some b) : b < NBUF := by
  obtain ⟨l, hring, hperm⟩ := h.ring
  have hlen : l.length < NBUF + 1 := by rw [hperm.length_eq, List.length_range]; omega
  rw [victim, hring.walk_prev hlen] at hb
  exact List.mem_range.mp (hperm.mem_iff.mp (List.mem_reverse.mp (List.mem_of_find?_eq_some hb)))

/-! ## What a step can do -/

theorem iderw_cases (hrun : iderw b c = .ok ((), c')) :
    c' = (c.setHome b (c.buf b).data).setBuf b { c.buf b with valid := true, dirty := false } ∨
      c' = c.setBuf b { c.buf b with valid := true, data := c.home b } := by
  rw [iderw, Exec.bind_of_ok Exec.get_run] at hrun
  cases hbusy : (c.buf b).busy with
  | false =>
    rw [hbusy] at hrun
    cases hrun
  | true =>
    rw [hbusy] at hrun
    cases hdirty : (c.buf b).dirty with
    | true =>
      rw [hdirty, Bool.not_true, Bool.and_false] at hrun
      exact Or.inl (Prod.mk.inj (Except.ok.inj hrun)).2.symm
    | false =>
      rw [hdirty] at hrun
      cases hvalid : (c.buf b).valid with
      | true =>
        rw [hvalid] at hrun
        cases hrun
      | false =>
        rw [hvalid] at hrun
        exact Or.inr (Prod.mk.inj (Except.ok.inj hrun)).2.symm

theorem bget_cases (hrun : bget p dev sector c = .ok (b, c')) :
    (lookup c dev sector = some b ∧ (c.buf b).busy = false ∧
      c' = (c.setBuf b { c.buf b with busy := true }).setHolders b (p :: c.holders b)) ∨
    (lookup c dev sector = none ∧ victim c = some b ∧
      c' = (c.setBuf b ⟨dev, sector, true, false, false, (c.buf b).data⟩).setHolders b
        (p :: c.holders b)) := by
  rw [bget, Exec.bind_of_ok Exec.get_run] at hrun
  cases hlookup : lookup c dev sector with
  | some x =>
    rw [hlookup] at hrun
    cases hbusy : (c.buf x).busy with
    | true =>
      simp only [hbusy] at hrun
      cases hrun
    | false =>
      simp only [hbusy] at hrun
      obtain ⟨rfl, rfl⟩ := Prod.mk.inj (Except.ok.inj hrun)
      exact Or.inl ⟨rfl, hbusy, rfl⟩
  | none =>
    rw [hlookup] at hrun
    cases hvictim : victim c with
    | none =>
      simp only [hvictim] at hrun
      cases hrun
    | some x =>
      simp only [hvictim] at hrun
      obtain ⟨rfl, rfl⟩ := Prod.mk.inj (Except.ok.inj hrun)
      exact Or.inr ⟨rfl, rfl, rfl⟩

/-! ## Steps keep the invariant -/

namespace Inv

theorem busy_of_held (h : Inv c g) (hb : b ∈ (g p).held) : (c.buf b).busy = true := by
  have hlen := h.busy b
  by_contra hbusy
  rw [if_neg hbusy, List.length_eq_zero_iff] at hlen
  have hmem := (h.holds p b).mp hb
  rw [hlen] at hmem
  cases hmem

theorem not_held_of_not_busy (h : Inv c g) (hb : (c.buf b).busy = false) (p : Pid) :
    b ∉ (g p).held := by
  intro hmem
  rw [h.busy_of_held hmem] at hb
  cases hb

theorem holders_of_held (h : Inv c g) (hb : b ∈ (g p).held) : c.holders b = [p] := by
  have hlen := h.busy b
  rw [if_pos (h.busy_of_held hb), List.length_eq_one_iff] at hlen
  obtain ⟨q, hq⟩ := hlen
  have hmem := (h.holds p b).mp hb
  rw [hq, List.mem_singleton] at hmem
  rw [hq, hmem]

theorem eq_of_held (h : Inv c g) (hp : b ∈ (g p).held) (hq : b ∈ (g q).held) : p = q := by
  have := h.holders_of_held hp
  rw [h.holders_of_held hq, List.singleton_inj] at this
  exact this.symm

/-- A step that changes the data, the flags or the disk sector of one buffer, and
nothing else. -/
theorem rewrite (h : Inv c g) {held ch ch' : List ℕ} (hg : g p = ⟨held, ch⟩) (hb : b ∈ held)
    (hnext : c'.next = c.next) (hprev : c'.prev = c.prev) (hholders : c'.holders = c.holders)
    (hbuf : ∀ x, x ≠ b → c'.buf x = c.buf x) (hdev : (c'.buf b).dev = (c.buf b).dev)
    (hsector : (c'.buf b).sector = (c.buf b).sector) (hbusy : (c'.buf b).busy = (c.buf b).busy)
    (hhome : ∀ x, x ≠ b → x < NBUF → (c.buf x).dev ≠ nodev → c'.home x = c.home x)
    (hsub : ∀ x ∈ ch', x ∈ held) (hkeep : ∀ x ∈ ch, x ≠ b → x ∈ ch')
    (hsync : (c'.buf b).valid → (c'.buf b).dirty = false → b ∉ ch' → (c'.buf b).data = c'.home b) :
    Inv c' (Function.update g p ⟨held, ch'⟩) := by
  have hbusyAll : ∀ x, (c'.buf x).busy = (c.buf x).busy := fun x => by
    by_cases hx : x = b
    · exact hx ▸ hbusy
    · rw [hbuf x hx]
  have hdevAll : ∀ x, (c'.buf x).dev = (c.buf x).dev := fun x => by
    by_cases hx : x = b
    · exact hx ▸ hdev
    · rw [hbuf x hx]
  have hsectorAll : ∀ x, (c'.buf x).sector = (c.buf x).sector := fun x => by
    by_cases hx : x = b
    · exact hx ▸ hsector
    · rw [hbuf x hx]
  have hheld : ∀ q, ((Function.update g p ⟨held, ch'⟩) q).held = (g q).held := fun q => by
    by_cases hq : q = p
    · rw [hq, Function.update_self, hg]
    · rw [Function.update_of_ne hq]
  have hreal : (c.buf b).dev ≠ nodev :=
    h.real b (Or.inl (h.busy_of_held (p := p) (by rw [hg]; exact hb)))
  constructor
  · rw [hnext, hprev]
    exact h.ring
  · intro x y
    rw [hdevAll, hdevAll, hsectorAll, hsectorAll]
    exact h.distinct x y
  · intro x hx
    rw [hdevAll]
    by_cases hxb : x = b
    · exact hxb ▸ hreal
    · rw [hbuf x hxb] at hx
      exact h.real x hx
  · intro x
    rw [hholders, hbusyAll]
    exact h.busy x
  · intro q x
    rw [hheld, hholders]
    exact h.holds q x
  · intro q
    rw [hheld]
    exact h.nodup q
  · intro q x
    rw [hheld]
    exact h.lt q x
  · intro q x
    rw [hheld]
    by_cases hq : q = p
    · rw [hq, Function.update_self, hg]
      exact hsub x
    · rw [Function.update_of_ne hq]
      exact h.changed q x
  · intro x hx hvalid hdirty hch
    by_cases hxb : x = b
    · subst hxb
      refine hsync hvalid hdirty ?_
      have := hch p
      rwa [Function.update_self] at this
    · rw [hbuf x hxb] at hvalid hdirty ⊢
      rw [hhome x hxb hx (h.real x (Or.inr hvalid))]
      refine h.synced x hx hvalid hdirty fun q hmem => ?_
      have hq := hch q
      by_cases hqp : q = p
      · rw [hqp, Function.update_self] at hq
        rw [hqp, hg] at hmem
        exact hq (hkeep x hmem hxb)
      · rw [Function.update_of_ne hqp] at hq
        exact hq hmem

theorem update_self_eq {l : Hold} (hg : g p = l) : Function.update g p l = g := by
  rw [← hg, Function.update_eq_self]

theorem edit (h : Inv c g) {held ch : List ℕ} (hg : g p = ⟨held, ch⟩) (hb : b ∈ held)
    (data : Block) : Inv (c.setBuf b { c.buf b with data := data })
      (Function.update g p ⟨held, b :: ch⟩) := by
  have hch : ∀ x ∈ ch, x ∈ held := fun x hx => by
    have := h.changed p x
    rw [hg] at this
    exact this hx
  refine h.rewrite hg hb rfl rfl rfl ?_ ?_ ?_ ?_ ?_ ?_ ?_ ?_
  · exact fun x hx => Function.update_of_ne hx ..
  · simp
  · simp
  · simp
  · intro x hx _ _
    simp [Bcache.home, Function.update_of_ne hx]
  · rintro x (_ | ⟨_, hx⟩)
    · exact hb
    · exact hch x hx
  · exact fun x hx _ => List.mem_cons_of_mem _ hx
  · exact fun _ _ hnot => absurd List.mem_cons_self hnot

theorem setDirty (h : Inv c g) {held ch : List ℕ} (hg : g p = ⟨held, ch⟩) (hb : b ∈ held) :
    Inv (c.setBuf b { c.buf b with dirty := true })
      (Function.update g p ⟨held, ch.filter (· ≠ b)⟩) := by
  have hch : ∀ x ∈ ch, x ∈ held := fun x hx => by
    have := h.changed p x
    rw [hg] at this
    exact this hx
  refine h.rewrite hg hb rfl rfl rfl ?_ ?_ ?_ ?_ ?_ ?_ ?_ ?_
  · exact fun x hx => Function.update_of_ne hx ..
  · simp
  · simp
  · simp
  · intro x hx _ _
    simp [Bcache.home, Function.update_of_ne hx]
  · exact fun x hx => hch x (List.mem_of_mem_filter hx)
  · intro x hx hne
    simpa using ⟨hx, hne⟩
  · intro _ hdirty _
    simp at hdirty

/-- A write changes the sector of no other buffer. -/
theorem home_setHome_ne (h : Inv c g) {x : ℕ} (hb : b ∈ (g p).held) (hx : x ≠ b) (hlt : x < NBUF)
    (hreal : (c.buf x).dev ≠ nodev) (data : Block) (y : Buf) :
    ((c.setHome b data).setBuf b y).home x = c.home x := by
  simp only [Bcache.home, Bcache.setBuf_disk, Bcache.setBuf_buf, Bcache.setHome_disk,
    Bcache.setHome_buf, Function.update_of_ne hx]
  by_cases hdev : (c.buf x).dev = (c.buf b).dev
  · have hsector : (c.buf x).sector ≠ (c.buf b).sector := fun heq =>
      hreal (h.distinct x b hlt (h.lt p b hb) hx hdev heq)
    rw [hdev, Function.update_self, Function.update_of_ne hsector]
  · rw [Function.update_of_ne hdev]

theorem iderw (h : Inv c g) {held ch : List ℕ} (hg : g p = ⟨held, ch⟩) (hb : b ∈ held)
    (hrun : iderw b c = .ok ((), c')) : Inv c' g := by
  have hb' : b ∈ (g p).held := by rw [hg]; exact hb
  have hsub : ∀ x ∈ ch, x ∈ held := fun x hx => by
    have := h.changed p x
    rw [hg] at this
    exact this hx
  rw [← update_self_eq hg]
  obtain rfl | rfl := iderw_cases hrun
  · refine h.rewrite hg hb rfl rfl rfl ?_ ?_ ?_ ?_ ?_ hsub (fun x hx _ => hx) ?_
    · exact fun x hx => Function.update_of_ne hx ..
    · simp
    · simp
    · simp
    · exact fun x hx hlt hreal => h.home_setHome_ne hb' hx hlt hreal _ _
    · intro _ _ _
      simp [Bcache.home]
  · refine h.rewrite hg hb rfl rfl rfl ?_ ?_ ?_ ?_ ?_ hsub (fun x hx _ => hx) ?_
    · exact fun x hx => Function.update_of_ne hx ..
    · simp
    · simp
    · simp
    · intro x hx _ _
      simp [Bcache.home, Function.update_of_ne hx]
    · intro _ _ _
      simp [Bcache.home]

/-- A step that takes a free buffer, under a new tag or its old one. -/
theorem acquire (h : Inv c g) {held ch : List ℕ} (hg : g p = ⟨held, ch⟩) (hb : b < NBUF)
    (hfree : (c.buf b).busy = false) {x : Buf} (hbusy : x.busy = true) (hreal : x.dev ≠ nodev)
    (htag : ∀ b' < NBUF, b' ≠ b → (c.buf b').dev = x.dev → (c.buf b').sector ≠ x.sector)
    (hsync : x.valid → x.dirty = false → x.data = c.disk x.dev x.sector) :
    Inv ((c.setBuf b x).setHolders b (p :: c.holders b)) (Function.update g p ⟨b :: held, ch⟩) := by
  have hnot := h.not_held_of_not_busy hfree
  have hnone : c.holders b = [] := by
    have hlen := h.busy b
    rwa [hfree, if_neg Bool.false_ne_true, List.length_eq_zero_iff] at hlen
  have hnodup := h.nodup p
  have hheld : ∀ y, y ∈ held ↔ y ∈ (g p).held := fun y => by rw [hg]
  rw [hg] at hnodup
  constructor
  · exact h.ring
  · intro y z hy hz hyz
    simp only [Bcache.setHolders_buf, Bcache.setBuf_buf]
    by_cases hyb : y = b
    · subst hyb
      rw [Function.update_self, Function.update_of_ne (Ne.symm hyz)]
      exact fun hdev hsector => absurd hsector.symm (htag z hz (Ne.symm hyz) hdev.symm)
    · rw [Function.update_of_ne hyb]
      by_cases hzb : z = b
      · subst hzb
        rw [Function.update_self]
        exact fun hdev hsector => absurd hsector (htag y hy hyb hdev)
      · rw [Function.update_of_ne hzb]
        exact h.distinct y z hy hz hyz
  · intro y
    simp only [Bcache.setHolders_buf, Bcache.setBuf_buf]
    by_cases hyb : y = b
    · rw [hyb, Function.update_self]
      exact fun _ => hreal
    · rw [Function.update_of_ne hyb]
      exact h.real y
  · intro y
    simp only [Bcache.setHolders_buf, Bcache.setBuf_buf, Bcache.setHolders_holders]
    by_cases hyb : y = b
    · rw [hyb, Function.update_self, Function.update_self, hbusy, hnone]
      rfl
    · rw [Function.update_of_ne hyb, Function.update_of_ne hyb]
      exact h.busy y
  · intro q y
    simp only [Bcache.setHolders_holders, Bcache.setBuf_holders]
    by_cases hyb : y = b
    · subst hyb
      by_cases hqp : q = p
      · simp [hqp]
      · simp [hnone, hqp, hnot q]
    · rw [Function.update_of_ne hyb, ← h.holds]
      by_cases hqp : q = p
      · simp [hqp, hyb, hheld]
      · rw [Function.update_of_ne hqp]
  · intro q
    by_cases hqp : q = p
    · rw [hqp, Function.update_self]
      exact List.nodup_cons.mpr ⟨fun hmem => hnot p ((hheld b).mp hmem), hnodup⟩
    · rw [Function.update_of_ne hqp]
      exact h.nodup q
  · intro q y
    by_cases hqp : q = p
    · rw [hqp, Function.update_self]
      rintro (_ | ⟨_, hy⟩)
      · exact hb
      · exact h.lt p y ((hheld y).mp hy)
    · rw [Function.update_of_ne hqp]
      exact h.lt q y
  · intro q y
    by_cases hqp : q = p
    · rw [hqp, Function.update_self]
      intro hy
      have := h.changed p y
      rw [hg] at this
      exact List.mem_cons_of_mem _ (this hy)
    · rw [Function.update_of_ne hqp]
      exact h.changed q y
  · intro y hy
    simp only [Bcache.home, Bcache.setHolders_buf, Bcache.setBuf_buf, Bcache.setHolders_disk,
      Bcache.setBuf_disk]
    by_cases hyb : y = b
    · rw [hyb, Function.update_self]
      exact fun hvalid hdirty _ => hsync hvalid hdirty
    · rw [Function.update_of_ne hyb]
      intro hvalid hdirty hch
      refine h.synced y hy hvalid hdirty fun q => ?_
      have hq := hch q
      by_cases hqp : q = p
      · rw [hqp, Function.update_self] at hq
        rw [hqp, hg]
        exact hq
      · rwa [Function.update_of_ne hqp] at hq

theorem bget (h : Inv c g) {held ch : List ℕ} (hg : g p = ⟨held, ch⟩) (hdev : dev ≠ nodev)
    (hrun : bget p dev sector c = .ok (b, c')) : Inv c' (Function.update g p ⟨b :: held, ch⟩) := by
  obtain ⟨hlookup, hfree, rfl⟩ | ⟨hlookup, hvictim, rfl⟩ := bget_cases hrun
  · obtain ⟨hlt, rfl, rfl⟩ := h.lookup_eq_some hlookup
    refine h.acquire hg hlt hfree rfl hdev ?_ ?_
    · intro x hx hne hdev' hsector
      exact hdev (hdev' ▸ h.distinct x b hx hlt hne hdev' hsector)
    · intro hvalid hdirty
      exact h.synced b hlt hvalid hdirty fun q hmem =>
        h.not_held_of_not_busy hfree q (h.changed q b hmem)
  · refine h.acquire hg (h.victim_lt hvictim) (victim_eq_some hvictim).1 rfl hdev ?_ ?_
    · exact fun x hx _ => h.lookup_eq_none.mp hlookup x hx
    · rintro ⟨⟩

theorem ring_brelse (h : Inv c g) (hb : b < NBUF) :
    ∃ l, Ring ((c.unlink b).insert b).next ((c.unlink b).insert b).prev head l ∧
      l.Perm (List.range NBUF) := by
  obtain ⟨l, hring, hperm⟩ := h.ring
  obtain ⟨l₁, l₂, rfl⟩ := List.append_of_mem (hperm.mem_iff.mpr (List.mem_range.mpr hb))
  refine ⟨b :: (l₁ ++ l₂), hring.unlink.insert ?_, List.perm_middle.symm.trans hperm⟩
  have hnodup := (List.perm_middle.nodup_iff.mp (List.nodup_cons.mp hring.nodup).2)
  rw [List.mem_cons, not_or]
  exact ⟨Nat.ne_of_lt hb, (List.nodup_cons.mp hnodup).1⟩

theorem brelse (h : Inv c g) {held ch : List ℕ} (hg : g p = ⟨held, ch⟩) (hb : b ∈ held)
    (hch : b ∉ ch) :
    Inv ((((c.unlink b).insert b).setBuf b { c.buf b with busy := false }).setHolders b
      ((c.holders b).erase p)) (Function.update g p ⟨held.erase b, ch⟩) := by
  have hb' : b ∈ (g p).held := by rw [hg]; exact hb
  have hheld : ∀ y, y ∈ held ↔ y ∈ (g p).held := fun y => by rw [hg]
  have hnodup : held.Nodup := by
    have := h.nodup p
    rwa [hg] at this
  have hreal := h.real b (Or.inl (h.busy_of_held hb'))
  have hother : ∀ q, q ≠ p → b ∉ (g q).held := fun q hq hmem => hq (h.eq_of_held hmem hb')
  rw [h.holders_of_held hb', List.erase_cons_head]
  have hdev : ∀ y, (Function.update c.buf b { c.buf b with busy := false } y).dev =
      (c.buf y).dev := fun y => by
    by_cases hyb : y = b
    · rw [hyb, Function.update_self]
    · rw [Function.update_of_ne hyb]
  have hsector : ∀ y, (Function.update c.buf b { c.buf b with busy := false } y).sector =
      (c.buf y).sector := fun y => by
    by_cases hyb : y = b
    · rw [hyb, Function.update_self]
    · rw [Function.update_of_ne hyb]
  constructor
  · exact h.ring_brelse (h.lt p b hb')
  · intro y z
    simp only [Bcache.setHolders_buf, Bcache.setBuf_buf, Bcache.insert_buf, Bcache.unlink_buf]
    rw [hdev, hdev, hsector, hsector]
    exact h.distinct y z
  · intro y
    simp only [Bcache.setHolders_buf, Bcache.setBuf_buf, Bcache.insert_buf, Bcache.unlink_buf]
    by_cases hyb : y = b
    · rw [hyb, Function.update_self]
      exact fun _ => hreal
    · rw [Function.update_of_ne hyb]
      exact h.real y
  · intro y
    simp only [Bcache.setHolders_buf, Bcache.setBuf_buf, Bcache.insert_buf, Bcache.unlink_buf,
      Bcache.setHolders_holders, Bcache.setBuf_holders, Bcache.insert_holders,
      Bcache.unlink_holders]
    by_cases hyb : y = b
    · rw [hyb, Function.update_self, Function.update_self]
      rfl
    · rw [Function.update_of_ne hyb, Function.update_of_ne hyb]
      exact h.busy y
  · intro q y
    simp only [Bcache.setHolders_holders, Bcache.setBuf_holders, Bcache.insert_holders,
      Bcache.unlink_holders]
    by_cases hyb : y = b
    · subst hyb
      by_cases hqp : q = p
      · simp [hqp, hnodup.mem_erase_iff]
      · simp [Function.update_of_ne hqp, hother q hqp]
    · rw [Function.update_of_ne hyb, ← h.holds]
      by_cases hqp : q = p
      · simp [hqp, hyb, hheld, hnodup.mem_erase_iff]
      · rw [Function.update_of_ne hqp]
  · intro q
    by_cases hqp : q = p
    · rw [hqp, Function.update_self]
      exact hnodup.erase b
    · rw [Function.update_of_ne hqp]
      exact h.nodup q
  · intro q y
    by_cases hqp : q = p
    · rw [hqp, Function.update_self]
      exact fun hy => h.lt p y ((hheld y).mp (List.mem_of_mem_erase hy))
    · rw [Function.update_of_ne hqp]
      exact h.lt q y
  · intro q y
    by_cases hqp : q = p
    · rw [hqp, Function.update_self]
      intro hy
      have hmem := h.changed p y
      rw [hg] at hmem
      exact hnodup.mem_erase_iff.mpr ⟨fun hyb => hch (hyb ▸ hy), hmem hy⟩
    · rw [Function.update_of_ne hqp]
      exact h.changed q y
  · intro y hy
    simp only [Bcache.home, Bcache.setHolders_buf, Bcache.setBuf_buf, Bcache.setHolders_disk,
      Bcache.setBuf_disk, Bcache.insert_buf, Bcache.unlink_buf, Bcache.insert_disk,
      Bcache.unlink_disk]
    rw [hdev, hsector]
    intro hvalid hdirty hnot
    have hsync := h.synced y hy
    have hchanged : ∀ q, y ∉ (g q).changed := fun q => by
      have hq := hnot q
      by_cases hqp : q = p
      · rw [hqp, Function.update_self] at hq
        rw [hqp, hg]
        exact hq
      · rwa [Function.update_of_ne hqp] at hq
    by_cases hyb : y = b
    · subst hyb
      rw [Function.update_self] at hvalid hdirty ⊢
      exact hsync hvalid hdirty hchanged
    · rw [Function.update_of_ne hyb] at hvalid hdirty ⊢
      exact hsync hvalid hdirty hchanged

end Inv

/-! ## Any interleaving keeps the invariant -/

def outline : Outline Pid Bcache (Pid → Hold) Hold := ⟨Inv, fun g p => g p⟩

/-- The steps of `t`, taken by `p` holding `l`, keep the invariant. -/
abbrev Keeps {α : Type} (p : Pid) (Q : α → Hold → Prop) (t : Thread Stop Bcache α) (l : Hold) :
    Prop :=
  Safe outline (fun _ => True) (fun _ _ => False) p Q t l

section Keeps

variable {α : Type} {Q : α → Hold → Prop} {held ch : List ℕ}

theorem Keeps.lift {act : BAct α} {l : Hold}
    (h : ∀ c g a c', Inv c g → g p = l → act c = .ok (a, c') →
      ∃ l', Inv c' (Function.update g p l') ∧ Q a l') : Keeps p Q (liftM act) l := by
  refine Safe.lift fun c g hinv hown => Exec.ends_iff.mpr ⟨?_, fun _ _ hbad => hbad⟩
  intro a c' hrun _
  obtain ⟨l', hinv', hQ⟩ := h c g a c' hinv hown hrun
  refine ⟨Function.update g p l', hinv', fun q hq => Function.update_of_ne hq .., ?_⟩
  rwa [show outline.own (Function.update g p l') p = l' from Function.update_self ..]

theorem keeps_edit {Q : Unit → Hold → Prop} (hb : b ∈ held) (data : Block)
    (hQ : Q () ⟨held, b :: ch⟩) : Keeps p Q (liftM (edit b data)) ⟨held, ch⟩ :=
  Keeps.lift fun _ _ _ _ hinv hg hrun =>
    ⟨_, (Prod.mk.inj (Except.ok.inj hrun)).2 ▸ hinv.edit hg hb data, hQ⟩

theorem keeps_setDirty {Q : Unit → Hold → Prop} (hb : b ∈ held)
    (hQ : Q () ⟨held, ch.filter (· ≠ b)⟩) : Keeps p Q (liftM (setDirty b)) ⟨held, ch⟩ :=
  Keeps.lift fun _ _ _ _ hinv hg hrun =>
    ⟨_, (Prod.mk.inj (Except.ok.inj hrun)).2 ▸ hinv.setDirty hg hb, hQ⟩

theorem keeps_iderw {Q : Unit → Hold → Prop} (hb : b ∈ held) (hQ : Q () ⟨held, ch⟩) :
    Keeps p Q (liftM (iderw b)) ⟨held, ch⟩ :=
  Keeps.lift fun _ _ _ _ hinv hg hrun =>
    ⟨⟨held, ch⟩, (Inv.update_self_eq hg).symm ▸ hinv.iderw hg hb hrun, hQ⟩

theorem checkBusy_eq {message : String} {a : Unit} (hrun : checkBusy b message c = .ok (a, c')) :
    c' = c := by
  rw [checkBusy, Exec.bind_of_ok Exec.get_run] at hrun
  cases hbusy : (c.buf b).busy with
  | false =>
    rw [hbusy] at hrun
    cases hrun
  | true =>
    rw [hbusy] at hrun
    exact (Prod.mk.inj (Except.ok.inj hrun)).2.symm

theorem keeps_bwrite {Q : Unit → Hold → Prop} (hb : b ∈ held)
    (hQ : Q () ⟨held, ch.filter (· ≠ b)⟩) : Keeps p Q (bwrite b) ⟨held, ch⟩ := by
  refine Safe.bind (Keeps.lift fun c g _ c' hinv hg hrun => ⟨⟨held, ch⟩, ?_, ?_⟩)
  · rw [checkBusy_eq hrun, Inv.update_self_eq hg]
    exact hinv
  · exact Safe.bind (keeps_setDirty hb (keeps_iderw hb hQ))

theorem keeps_brelse {Q : Unit → Hold → Prop} (hb : b ∈ held) (hch : b ∉ ch)
    (hQ : Q () ⟨held.erase b, ch⟩) : Keeps p Q (liftM (brelse p b)) ⟨held, ch⟩ := by
  refine Keeps.lift fun c g _ c' hinv hg hrun => ⟨_, ?_, hQ⟩
  obtain ⟨_, c₁, hcheck, hrun⟩ := Exec.bind_eq_ok.mp hrun
  rw [checkBusy_eq hcheck] at hrun
  exact (Prod.mk.inj (Except.ok.inj hrun)).2 ▸ hinv.brelse hg hb hch

theorem keeps_bread {Q : ℕ → Hold → Prop} (hdev : dev ≠ nodev)
    (hQ : ∀ b, b ∉ ch → Q b ⟨b :: held, ch⟩) :
    Keeps p Q (bread p dev sector) ⟨held, ch⟩ := by
  refine Safe.bind (Keeps.lift fun c g b c' hinv hg hrun => ?_)
  have hinv' := hinv.bget hg hdev hrun
  refine ⟨_, hinv', ?_⟩
  have hch : b ∉ ch := by
    intro hmem
    have hnodup := hinv'.nodup p
    rw [Function.update_self, List.nodup_cons] at hnodup
    have hsub := hinv.changed p b
    rw [hg] at hsub
    exact hnodup.1 (hsub hmem)
  refine Safe.bind (Keeps.lift fun c g _ c' hinv hg hrun => ⟨⟨b :: held, ch⟩, ?_, hQ b hch⟩)
  rw [Inv.update_self_eq hg]
  rw [fill, Exec.bind_of_ok Exec.get_run] at hrun
  cases hvalid : (c.buf b).valid with
  | true =>
    rw [hvalid] at hrun
    exact (Prod.mk.inj (Except.ok.inj hrun)).2 ▸ hinv
  | false =>
    rw [hvalid] at hrun
    exact hinv.iderw hg List.mem_cons_self hrun

theorem keeps_get {Q : Bcache → Hold → Prop}
    (hQ : ∀ c g, Inv c g → g p = ⟨held, ch⟩ → Q c ⟨held, ch⟩) :
    Keeps p Q (liftM (get : BAct Bcache)) ⟨held, ch⟩ := by
  refine Keeps.lift fun c g _ c' hinv hg hrun => ⟨⟨held, ch⟩, ?_⟩
  obtain ⟨rfl, rfl⟩ := Prod.mk.inj (Except.ok.inj hrun)
  rw [Inv.update_self_eq hg]
  exact ⟨hinv, hQ c g hinv hg⟩

theorem keeps_logWrite {Q : Unit → Hold → Prop} {slot : ℕ} (hb : b ∈ held)
    (hQ : Q () ⟨held, ch.filter (· ≠ b)⟩) : Keeps p Q (logWrite p slot b) ⟨held, ch⟩ := by
  refine Safe.bind (keeps_get fun c g hinv hg => ?_)
  have hreal : (c.buf b).dev ≠ nodev :=
    hinv.real b (Or.inl (hinv.busy_of_held (p := p) (by rw [hg]; exact hb)))
  refine Safe.bind (keeps_bread hreal fun lbuf hlbuf => Safe.bind (keeps_get fun c _ _ _ => ?_))
  refine Safe.bind (keeps_edit List.mem_cons_self _ (Safe.bind (keeps_bwrite List.mem_cons_self ?_)))
  have hfilter : (lbuf :: ch).filter (· ≠ lbuf) = ch := by
    rw [List.filter_cons_of_neg (by simp), List.filter_eq_self]
    intro x hx
    simpa using fun heq : x = lbuf => hlbuf (heq ▸ hx)
  rw [hfilter]
  refine Safe.bind (keeps_brelse List.mem_cons_self hlbuf ?_)
  rw [List.erase_cons_head]
  exact keeps_setDirty hb hQ

end Keeps

theorem keeps_brelseAll (p : Pid) (held : List ℕ) :
    Keeps p (fun _ l => l = ⟨[], []⟩) (brelseAll p held) ⟨held, []⟩ := by
  induction held with
  | nil => exact rfl
  | cons b held ih =>
    refine Safe.bind (keeps_brelse List.mem_cons_self List.not_mem_nil ?_)
    rw [List.erase_cons_head]
    exact ih

theorem keeps_script (p : Pid) (cmds : List Cmd) (held : List ℕ) :
    Keeps p (fun _ l => l = ⟨[], []⟩) (script p cmds held) ⟨held, []⟩ := by
  induction cmds generalizing held with
  | nil => exact keeps_brelseAll p held
  | cons cmd cmds ih =>
    cases cmd with
    | bread dev sector => exact Safe.bind (keeps_bread dev.2 fun b _ => ih (b :: held))
    | bwrite i data =>
      rw [script]
      cases hget : held[i]? with
      | none => exact ih held
      | some b =>
        have hb := List.mem_of_getElem? hget
        refine Safe.bind (keeps_edit hb data (Safe.bind (keeps_bwrite hb ?_)))
        rw [List.filter_cons_of_neg (by simp), List.filter_nil]
        exact ih held
    | logWrite slot i data =>
      rw [script]
      cases hget : held[i]? with
      | none => exact ih held
      | some b =>
        have hb := List.mem_of_getElem? hget
        refine Safe.bind (keeps_edit hb data (Safe.bind (keeps_logWrite hb ?_)))
        rw [List.filter_cons_of_neg (by simp), List.filter_nil]
        exact ih held
    | brelse i =>
      rw [script]
      cases hget : held[i]? with
      | none => exact ih held
      | some b =>
        exact Safe.bind (keeps_brelse (List.mem_of_getElem? hget) List.not_mem_nil
          (ih (held.erase b)))

/-! ## The state after `binit` -/

theorem initBufs_buf (disk : ℕ → Disk) (n b : ℕ) :
    ((List.range n).foldl initBuf (blank disk)).buf b =
      ⟨if b < n then nodev else 0, 0, false, false, false, zeroBlock⟩ := by
  induction n with
  | zero => rfl
  | succ n ih =>
    rw [List.range_succ, List.foldl_append, List.foldl_cons, List.foldl_nil, initBuf,
      Bcache.insert_buf, Bcache.setBuf_buf]
    by_cases hb : b = n
    · subst hb
      rw [Function.update_self, ih, if_pos (Nat.lt_succ_self b)]
    · rw [Function.update_of_ne hb, ih]
      congr 1
      exact if_congr (by omega) rfl rfl

theorem initBufs_holders (disk : ℕ → Disk) (n b : ℕ) :
    ((List.range n).foldl initBuf (blank disk)).holders b = [] := by
  induction n with
  | zero => rfl
  | succ n ih =>
    rw [List.range_succ, List.foldl_append, List.foldl_cons, List.foldl_nil, initBuf,
      Bcache.insert_holders, Bcache.setBuf_holders, ih]

theorem initBufs_ring (disk : ℕ → Disk) {n : ℕ} (hn : n ≤ NBUF) :
    Ring ((List.range n).foldl initBuf (blank disk)).next
      ((List.range n).foldl initBuf (blank disk)).prev head (List.range n).reverse := by
  induction n with
  | zero => exact ⟨⟨rfl, rfl⟩, List.nodup_singleton _⟩
  | succ n ih =>
    rw [List.range_succ, List.foldl_append, List.foldl_cons, List.foldl_nil, List.reverse_append,
      List.reverse_singleton, List.singleton_append]
    refine (ih (Nat.le_of_succ_le hn)).insert ?_
    simp only [List.mem_cons, List.mem_reverse, List.mem_range, not_or]
    exact ⟨Nat.ne_of_lt hn, lt_irrefl n⟩

theorem inv_binit (disk : ℕ → Disk) : Inv (binit disk) fun _ => ⟨[], []⟩ := by
  have hbuf : ∀ b, (binit disk).buf b = _ := initBufs_buf disk NBUF
  have hholders : ∀ b, (binit disk).holders b = [] := initBufs_holders disk NBUF
  constructor
  · exact ⟨_, initBufs_ring disk le_rfl, List.reverse_perm _⟩
  · intro b _ hb _ _ _ _
    rw [hbuf, if_pos hb]
  · intro b hb
    rw [hbuf] at hb
    simp at hb
  · intro b
    rw [hholders, hbuf]
    rfl
  · intro p b
    simp [hholders]
  · exact fun _ => List.nodup_nil
  · rintro p b ⟨⟩
  · rintro p b ⟨⟩
  · intro b _ hvalid
    rw [hbuf] at hvalid
    cases hvalid

theorem Reach.inv {c : Pool Pid Stop Bcache} (h : Reach disk c) : ∃ g, Inv c.state g := by
  have hsound : c.Sound outline (fun _ => True) (fun _ _ => False) fun _ l => l = ⟨[], []⟩ := by
    refine Pool.Reach.sound ?_ ?_ h
    · rintro p c g t hinv hrest ⟨cmds, rfl⟩
      refine ⟨g, hinv, fun _ _ => rfl, ?_⟩
      rw [hrest]
      exact keeps_script p cmds []
    · exact ⟨fun _ => ⟨[], []⟩, inv_binit disk, fun _ => rfl⟩
  obtain ⟨g, hinv, -⟩ := hsound
  exact ⟨g, hinv⟩

/-! ## Dirty buffers keep their sector -/

/-- Dirty buffers stand for the same sector in `c'` as in `c`. -/
def KeepsDirty (c c' : Bcache) : Prop :=
  ∀ b, (c.buf b).dirty = true →
    (c'.buf b).dev = (c.buf b).dev ∧ (c'.buf b).sector = (c.buf b).sector

theorem KeepsDirty.refl (c : Bcache) : KeepsDirty c c := fun _ _ => ⟨rfl, rfl⟩

theorem KeepsDirty.of_update {x : Buf} (hbuf : c'.buf = Function.update c.buf b x)
    (hx : (c.buf b).dirty = true → x.dev = (c.buf b).dev ∧ x.sector = (c.buf b).sector) :
    KeepsDirty c c' := by
  intro b' hdirty
  rw [hbuf]
  by_cases hb : b' = b
  · subst hb
    rw [Function.update_self]
    exact hx hdirty
  · rw [Function.update_of_ne hb]
    exact ⟨rfl, rfl⟩

theorem bget_keepsDirty (hrun : bget p dev sector c = .ok (b, c')) : KeepsDirty c c' := by
  obtain ⟨-, -, rfl⟩ | ⟨-, hvictim, rfl⟩ := bget_cases hrun
  · exact KeepsDirty.of_update rfl fun _ => ⟨rfl, rfl⟩
  · refine KeepsDirty.of_update rfl fun hdirty => ?_
    rw [(victim_eq_some hvictim).2] at hdirty
    cases hdirty

theorem iderw_keepsDirty (hrun : iderw b c = .ok ((), c')) : KeepsDirty c c' := by
  obtain rfl | rfl := iderw_cases hrun
  · exact KeepsDirty.of_update rfl fun _ => ⟨rfl, rfl⟩
  · exact KeepsDirty.of_update rfl fun _ => ⟨rfl, rfl⟩

section Steps

open Thread

theorem steps_bread (p : Pid) (dev sector : ℕ) : (bread p dev sector).Steps KeepsDirty := by
  refine Steps.bind (Steps.lift fun c b c' hrun => bget_keepsDirty hrun) fun b =>
    Steps.bind (Steps.lift fun c _ c' hrun => ?_) fun _ => Steps.pure b
  rw [fill, Exec.bind_of_ok Exec.get_run] at hrun
  cases hvalid : (c.buf b).valid with
  | true =>
    rw [hvalid] at hrun
    exact (Prod.mk.inj (Except.ok.inj hrun)).2 ▸ KeepsDirty.refl c
  | false =>
    rw [hvalid] at hrun
    exact iderw_keepsDirty hrun

theorem steps_edit (b : ℕ) (data : Block) :
    (liftM (edit b data) : Thread Stop Bcache Unit).Steps KeepsDirty :=
  Steps.lift fun _ _ _ hrun => (Prod.mk.inj (Except.ok.inj hrun)).2 ▸
    KeepsDirty.of_update rfl fun _ => ⟨rfl, rfl⟩

theorem steps_setDirty (b : ℕ) :
    (liftM (setDirty b) : Thread Stop Bcache Unit).Steps KeepsDirty :=
  Steps.lift fun _ _ _ hrun => (Prod.mk.inj (Except.ok.inj hrun)).2 ▸
    KeepsDirty.of_update rfl fun _ => ⟨rfl, rfl⟩

theorem steps_get : (liftM (get : BAct Bcache) : Thread Stop Bcache Bcache).Steps KeepsDirty :=
  Steps.lift fun c _ _ hrun => (Prod.mk.inj (Except.ok.inj hrun)).2 ▸ KeepsDirty.refl c

theorem steps_bwrite (b : ℕ) : (bwrite b).Steps KeepsDirty :=
  Steps.bind (Steps.lift fun c _ _ hrun => (checkBusy_eq hrun).symm ▸ KeepsDirty.refl c) fun _ =>
    Steps.bind (steps_setDirty b) fun _ => Steps.lift fun _ _ _ hrun => iderw_keepsDirty hrun

theorem steps_brelse (p : Pid) (b : ℕ) :
    (liftM (brelse p b) : Thread Stop Bcache Unit).Steps KeepsDirty := by
  refine Steps.lift fun c _ c' hrun => ?_
  obtain ⟨_, c₁, hcheck, hrun⟩ := Exec.bind_eq_ok.mp hrun
  rw [checkBusy_eq hcheck] at hrun
  exact (Prod.mk.inj (Except.ok.inj hrun)).2 ▸ KeepsDirty.of_update rfl fun _ => ⟨rfl, rfl⟩

theorem steps_logWrite (p : Pid) (slot b : ℕ) : (logWrite p slot b).Steps KeepsDirty :=
  Steps.bind steps_get fun _ => Steps.bind (steps_bread ..) fun _ => Steps.bind steps_get fun _ =>
    Steps.bind (steps_edit ..) fun _ => Steps.bind (steps_bwrite _) fun _ =>
      Steps.bind (steps_brelse ..) fun _ => steps_setDirty b

theorem steps_brelseAll (p : Pid) (held : List ℕ) : (brelseAll p held).Steps KeepsDirty := by
  induction held with
  | nil => exact Steps.pure ()
  | cons b held ih => exact Steps.bind (steps_brelse p b) fun _ => ih

theorem steps_script (p : Pid) (cmds : List Cmd) (held : List ℕ) :
    (script p cmds held).Steps KeepsDirty := by
  induction cmds generalizing held with
  | nil => exact steps_brelseAll p held
  | cons cmd cmds ih =>
    cases cmd with
    | bread dev sector => exact Steps.bind (steps_bread ..) fun b => ih (b :: held)
    | bwrite i data =>
      rw [script]
      cases held[i]? with
      | none => exact ih held
      | some b =>
        exact Steps.bind (steps_edit ..) fun _ => Steps.bind (steps_bwrite b) fun _ => ih held
    | logWrite slot i data =>
      rw [script]
      cases held[i]? with
      | none => exact ih held
      | some b =>
        exact Steps.bind (steps_edit ..) fun _ => Steps.bind (steps_logWrite ..) fun _ => ih held
    | brelse i =>
      rw [script]
      cases held[i]? with
      | none => exact ih held
      | some b => exact Steps.bind (steps_brelse ..) fun _ => ih (held.erase b)

end Steps

theorem Reach.keepsDirty {c c' : Pool Pid Stop Bcache} (h : Reach disk c)
    (hstep : Pool.Step Enters c c') : KeepsDirty c.state c'.state := by
  refine h.step_related KeepsDirty.refl ?_ (fun _ => rfl) hstep
  rintro p c t ⟨cmds, rfl⟩
  exact steps_script p cmds []

/-! ## The discipline -/

structure Disciplined (c : Bcache) : Prop where
  /-- Head and buffers form one cycle, in both directions. -/
  cycle : ∃ l, Ring c.next c.prev head l ∧ l.Perm (List.range NBUF)
  distinct : ∀ b b', b < NBUF → b' < NBUF → (c.buf b).dev ≠ nodev →
    (c.buf b).dev = (c.buf b').dev → (c.buf b).sector = (c.buf b').sector → b = b'
  busy : ∀ b, (c.buf b).busy = true ↔ ∃ p, p ∈ c.holders b
  exclusive : ∀ p q b, p ∈ c.holders b → q ∈ c.holders b → p = q
  synced : ∀ b < NBUF, (c.buf b).valid = true → (c.buf b).busy = false →
    (c.buf b).dirty = false → (c.buf b).data = c.home b

theorem Inv.disciplined {g : Pid → Hold} (h : Inv c g) : Disciplined c where
  cycle := h.ring
  distinct b b' hb hb' hreal hdev hsector := by
    by_contra hne
    exact hreal (h.distinct b b' hb hb' hne hdev hsector)
  busy b := by
    have hlen := h.busy b
    constructor
    · intro hbusy
      rw [if_pos hbusy] at hlen
      exact List.exists_mem_of_length_pos (by omega)
    · rintro ⟨p, hp⟩
      exact h.busy_of_held ((h.holds p b).mpr hp)
  exclusive p q b hp hq := h.eq_of_held ((h.holds p b).mpr hp) ((h.holds q b).mpr hq)
  synced b hb hvalid hfree hdirty := h.synced b hb hvalid hdirty fun p hmem =>
    h.not_held_of_not_busy hfree p (h.changed p b hmem)

end Lainos.Bio
