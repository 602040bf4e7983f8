import Lainos.Disk.Layout
import Lainos.Library.Exec
import Lainos.Library.Replay

/-!
# The buffer cache

`bio.c` with the synchronous disk of `memide.c`, as one process sees it. Buffers
are addressed by their index and `lru` lists these indices from the most to the
least recently released one, as the `next` pointers from `bcache.head` do. The
machine records the sector writes it issues, in order.

`Coherent m D` says that `D` is what the file system sees through the cache: a
valid buffer holds `D`, and `D` differs from the disk only under a buffer that
cannot be recycled.
-/

namespace Lainos.Log

open Library

structure Buf where
  busy : Bool
  valid : Bool
  dirty : Bool
  dev : ℕ
  sector : ℕ
  data : Block

/-- `struct logheader`, the in-memory copy. -/
structure Header where
  n : ℤ
  sector : ℕ → UInt32

structure LogState where
  start : ℕ
  size : ℕ
  busy : Bool
  lh : Header

structure Machine where
  disk : Disk
  issued : List (ℕ × Block)
  buf : ℕ → Buf
  lru : List ℕ
  log : LogState

abbrev K := Exec Stuck Machine

def Machine.put (m : Machine) (p : ℕ) (b : Buf) : Machine :=
  { m with buf := Function.update m.buf p b }

def setBuf (p : ℕ) (f : Buf → Buf) : K Unit := modify fun m => m.put p (f (m.buf p))

/-- A buffer taken over for another sector; its old bytes stay until it is read. -/
def Buf.recycle (b : Buf) (dev sector : ℕ) : Buf :=
  { b with dev := dev, sector := sector, busy := true, valid := false, dirty := false }

/-- The buffer that caches a sector, searched from the most recently used one. -/
def cached (m : Machine) (dev sector : ℕ) : Option ℕ :=
  m.lru.find? fun p => (m.buf p).dev == dev && (m.buf p).sector == sector

/-- The least recently used buffer that is neither busy nor dirty. -/
def victim (m : Machine) : Option ℕ :=
  m.lru.reverse.find? fun p => !(m.buf p).busy && !(m.buf p).dirty

/-- Look through the cache for a sector; if it is not there, recycle a buffer. -/
def bget (dev sector : ℕ) : K ℕ := do
  let m ← get
  match cached m dev sector with
  | some p =>
    if (m.buf p).busy then throw .sleep
    else
      setBuf p fun b => { b with busy := true }
      return p
  | none =>
    match victim m with
    | some p =>
      setBuf p fun b => b.recycle dev sector
      return p
    | none => throw (.panic "bget: no buffers")

/-- Sync a buffer with the disk: write it if it is dirty, else read it. -/
def iderw (p : ℕ) : K Unit := do
  let m ← get
  let b := m.buf p
  if !b.busy then throw (.panic "iderw: buf not busy")
  else if b.valid && !b.dirty then throw (.panic "iderw: nothing to do")
  else if b.dirty then
    set { m.put p { b with dirty := false, valid := true } with
      disk := Function.update m.disk b.sector b.data
      issued := m.issued ++ [(b.sector, b.data)] }
  else
    set (m.put p { b with data := m.disk b.sector, valid := true })

def bread (dev sector : ℕ) : K ℕ := do
  let p ← bget dev sector
  let m ← get
  if !(m.buf p).valid then
    iderw p
    return p
  else return p

def bwrite (p : ℕ) : K Unit := do
  let m ← get
  if !(m.buf p).busy then throw (.panic "bwrite")
  else
    setBuf p fun b => { b with dirty := true }
    iderw p

def brelse (p : ℕ) : K Unit := do
  let m ← get
  if !(m.buf p).busy then throw (.panic "brelse")
  else
    set { m.put p { m.buf p with busy := false } with lru := p :: m.lru.erase p }

/-! ## What the cache stands for -/

/-- The buffer holds the contents of sector `s` and will not be recycled. -/
def Buf.Pins (b : Buf) (s : ℕ) : Prop :=
  b.dev = ROOTDEV ∧ b.sector = s ∧ b.valid = true ∧ (b.dirty = true ∨ b.busy = true)

structure Coherent (m : Machine) (D : Disk) : Prop where
  unique : ∀ p ∈ m.lru, ∀ q ∈ m.lru, (m.buf p).dev = ROOTDEV → (m.buf q).dev = ROOTDEV →
    (m.buf p).sector = (m.buf q).sector → p = q
  data : ∀ p ∈ m.lru, (m.buf p).dev = ROOTDEV → (m.buf p).valid = true →
    (m.buf p).data = D (m.buf p).sector
  pinned : ∀ s, D s ≠ m.disk s → ∃ p ∈ m.lru, (m.buf p).Pins s
  dirty : ∀ p ∈ m.lru, (m.buf p).dirty = true → (m.buf p).valid = true

/-- Buffer `p` has been returned by `bread` for sector `s` and not released. -/
structure Held (m : Machine) (p s : ℕ) : Prop where
  mem : p ∈ m.lru
  dev : (m.buf p).dev = ROOTDEV
  sector : (m.buf p).sector = s
  valid : (m.buf p).valid = true
  busy : (m.buf p).busy = true

variable {m m' : Machine} {D : Disk} {p q s : ℕ}

theorem Coherent.held_data (h : Coherent m D) (hp : Held m p s) : (m.buf p).data = D s := by
  rw [h.data p hp.mem hp.dev hp.valid, hp.sector]

/-- Replacing one buffer keeps the cache coherent with `D'` when the new buffer
is coherent with `D'` itself and the others do not notice the change. -/
theorem Coherent.replace (h : Coherent m D) {b : Buf} {D' disk : Disk}
    {issued : List (ℕ × Block)}
    (hunique : b.dev = ROOTDEV → ∀ q ∈ m.lru, q ≠ p → (m.buf q).dev = ROOTDEV →
      (m.buf q).sector ≠ b.sector)
    (hdata : b.dev = ROOTDEV → b.valid = true → b.data = D' b.sector)
    (hother : ∀ q ∈ m.lru, q ≠ p → (m.buf q).dev = ROOTDEV →
      D' (m.buf q).sector = D (m.buf q).sector)
    (hpinned : ∀ s, D' s ≠ disk s → (p ∈ m.lru ∧ b.Pins s) ∨
      ∃ q ∈ m.lru, q ≠ p ∧ (m.buf q).Pins s)
    (hdirty : b.dirty = true → b.valid = true) :
    Coherent { m.put p b with disk := disk, issued := issued } D' := by
  simp only [Machine.put]
  refine ⟨?_, ?_, ?_, ?_⟩
  · intro x hx y hy hdx hdy hs
    by_cases hxp : x = p <;> by_cases hyp : y = p
    · exact hxp.trans hyp.symm
    · subst hxp
      simp only [Function.update_self, Function.update_of_ne hyp] at hdx hdy hs
      exact absurd hs.symm (hunique hdx y hy hyp hdy)
    · subst hyp
      simp only [Function.update_self, Function.update_of_ne hxp] at hdx hdy hs
      exact absurd hs (hunique hdy x hx hxp hdx)
    · simp only [Function.update_of_ne hxp, Function.update_of_ne hyp] at hdx hdy hs
      exact h.unique x hx y hy hdx hdy hs
  · intro x hx hdx hv
    by_cases hxp : x = p
    · subst hxp
      simp only [Function.update_self] at hdx hv ⊢
      exact hdata hdx hv
    · simp only [Function.update_of_ne hxp] at hdx hv ⊢
      rw [hother x hx hxp hdx]
      exact h.data x hx hdx hv
  · intro s hs
    rcases hpinned s hs with ⟨hp, hb⟩ | ⟨x, hx, hxp, hb⟩
    · exact ⟨p, hp, by simpa using hb⟩
    · exact ⟨x, hx, by simpa [Function.update_of_ne hxp] using hb⟩
  · intro x hx hd
    by_cases hxp : x = p
    · subst hxp
      simp only [Function.update_self] at hd ⊢
      exact hdirty hd
    · simp only [Function.update_of_ne hxp] at hd ⊢
      exact h.dirty x hx hd

/-- The parts of the machine that reading through the cache leaves alone. -/
structure SameDisk (m m' : Machine) : Prop where
  disk : m'.disk = m.disk
  issued : m'.issued = m.issued
  log : m'.log = m.log

theorem mem_of_cached (h : cached m ROOTDEV s = some p) :
    p ∈ m.lru ∧ (m.buf p).dev = ROOTDEV ∧ (m.buf p).sector = s := by
  have hkey := List.find?_some h
  simp only [Bool.and_eq_true, beq_iff_eq] at hkey
  exact ⟨List.mem_of_find?_eq_some h, hkey⟩

theorem absent_of_cached (h : cached m ROOTDEV s = none) :
    ∀ q ∈ m.lru, (m.buf q).dev = ROOTDEV → (m.buf q).sector ≠ s := by
  intro q hq hd hs
  have := List.find?_eq_none.mp h q hq
  simp [hd, hs] at this

theorem mem_of_victim (h : victim m = some p) :
    p ∈ m.lru ∧ (m.buf p).busy = false ∧ (m.buf p).dirty = false := by
  have hfree := List.find?_some h
  simp only [Bool.and_eq_true, Bool.not_eq_true'] at hfree
  exact ⟨by simpa using List.mem_of_find?_eq_some h, hfree⟩

/-- `bget` returns a buffer of the sector that was free to take: either one that
was cached already, or a recycled one whose contents are still to be read. -/
theorem bget_cases (h : bget ROOTDEV s m = .ok (p, m')) :
    p ∈ m.lru ∧ (m.buf p).busy = false ∧ ((
      (m.buf p).dev = ROOTDEV ∧ (m.buf p).sector = s ∧
      m' = m.put p { m.buf p with busy := true }) ∨
    ((m.buf p).dirty = false ∧ (∀ q ∈ m.lru, (m.buf q).dev = ROOTDEV → (m.buf q).sector ≠ s) ∧
      m' = m.put p ((m.buf p).recycle ROOTDEV s))) := by
  rw [bget, Exec.bind_of_ok Exec.get_run] at h
  cases hfind : cached m ROOTDEV s with
  | some x =>
    obtain ⟨hmem, hdev, hsec⟩ := mem_of_cached hfind
    cases hbusy : (m.buf x).busy with
    | true => simp [hfind, hbusy] at h
    | false =>
      simp only [hfind, hbusy, Bool.false_eq_true, if_false, setBuf, Exec.bind_eq_ok,
        Exec.modify_run, Exec.pure_run, Except.ok.injEq, Prod.mk.injEq] at h
      obtain ⟨_, _, ⟨-, rfl⟩, rfl, rfl⟩ := h
      exact ⟨hmem, hbusy, Or.inl ⟨hdev, hsec, rfl⟩⟩
  | none =>
    cases hvic : victim m with
    | none => simp [hfind, hvic] at h
    | some x =>
      obtain ⟨hmem, hbusy, hdirty⟩ := mem_of_victim hvic
      simp only [hfind, hvic, setBuf, Exec.bind_eq_ok, Exec.modify_run, Exec.pure_run,
        Except.ok.injEq, Prod.mk.injEq] at h
      obtain ⟨_, _, ⟨-, rfl⟩, rfl, rfl⟩ := h
      exact ⟨hmem, hbusy, Or.inr ⟨hdirty, absent_of_cached hfind, rfl⟩⟩

/-- Reading a busy, clean and not yet valid buffer from the disk. -/
theorem iderw_read (hb : (m.buf p).busy = true) (hv : (m.buf p).valid = false)
    (hd : (m.buf p).dirty = false) : iderw p m =
      .ok ((), m.put p { m.buf p with data := m.disk (m.buf p).sector, valid := true }) := by
  rw [iderw, Exec.bind_of_ok Exec.get_run]
  simp [hb, hv, hd]

/-- Writing a busy and dirty buffer to the disk. -/
theorem iderw_write (hb : (m.buf p).busy = true) (hd : (m.buf p).dirty = true) : iderw p m =
      .ok ((), { m.put p { m.buf p with dirty := false, valid := true } with
        disk := Function.update m.disk (m.buf p).sector (m.buf p).data
        issued := m.issued ++ [((m.buf p).sector, (m.buf p).data)] }) := by
  rw [iderw, Exec.bind_of_ok Exec.get_run]
  simp [hb, hd]

theorem Coherent.other_sector (h : Coherent m D) (hp : p ∈ m.lru) (hd : (m.buf p).dev = ROOTDEV) :
    ∀ q ∈ m.lru, q ≠ p → (m.buf q).dev = ROOTDEV → (m.buf q).sector ≠ (m.buf p).sector :=
  fun q hq hne hdq hs => hne (h.unique q hq p hp hdq hd hs)

/-- What is pinned stays pinned when a buffer that pins nothing is replaced. -/
theorem Coherent.pinned_elsewhere (h : Coherent m D) (hp : ¬ (m.buf p).Pins s)
    (hs : D s ≠ m.disk s) : ∃ q ∈ m.lru, q ≠ p ∧ (m.buf q).Pins s := by
  obtain ⟨q, hq, hpin⟩ := h.pinned s hs
  exact ⟨q, hq, fun hqp => hp (hqp ▸ hpin), hpin⟩

@[simp] theorem put_buf_self (b : Buf) : (m.put p b).buf p = b := Function.update_self ..

theorem put_buf_of_ne (b : Buf) (h : q ≠ p) : (m.put p b).buf q = m.buf q :=
  Function.update_of_ne h ..

theorem put_put (b c : Buf) : (m.put p b).put p c = m.put p c := by
  simp [Machine.put]

/-- A read returns the contents the cache stands for. The buffer was free, the
others are untouched, and it may be released again as it is. -/
theorem bread_spec (hc : Coherent m D) (h : bread ROOTDEV s m = .ok (p, m')) :
    SameDisk m m' ∧ Coherent m' D ∧ Held m' p s ∧ (m.buf p).busy = false ∧
      m'.lru = m.lru ∧ (∀ q, q ≠ p → m'.buf q = m.buf q) ∧
      ((m'.buf p).dirty = true ∨ D s = m.disk s) := by
  rw [bread, Exec.bind_eq_ok] at h
  obtain ⟨x, m₁, hget, h⟩ := h
  rw [Exec.bind_of_ok Exec.get_run] at h
  obtain ⟨hmem, hbusy, ⟨hdev, hsec, rfl⟩ | ⟨hdirty, habsent, rfl⟩⟩ := bget_cases hget
  · cases hv : (m.buf x).valid with
    | true =>
      rw [if_neg (by simp [hv]), Exec.pure_run, Except.ok.injEq, Prod.mk.injEq] at h
      obtain ⟨rfl, rfl⟩ := h
      have hpin : ∀ t, D t ≠ m.disk t → (x ∈ m.lru ∧ ({ m.buf x with busy := true } : Buf).Pins t) ∨
          ∃ q ∈ m.lru, q ≠ x ∧ (m.buf q).Pins t := by
        intro t ht
        obtain ⟨q, hq, hp⟩ := hc.pinned t ht
        by_cases hqx : q = x
        · subst hqx
          exact Or.inl ⟨hq, hp.1, hp.2.1, hp.2.2.1, Or.inr rfl⟩
        · exact Or.inr ⟨q, hq, hqx, hp⟩
      have hrel : (m.buf x).dirty = true ∨ D s = m.disk s := by
        by_contra hno
        rw [not_or] at hno
        obtain ⟨q, hq, hp⟩ := hc.pinned s hno.2
        have hqx := hc.unique q hq x hmem hp.1 hdev (hp.2.1.trans hsec.symm)
        subst hqx
        exact hp.2.2.2.elim hno.1 (by simp [hbusy])
      refine ⟨⟨rfl, rfl, rfl⟩, ?_, ⟨hmem, ?_, ?_, ?_, ?_⟩, hbusy, rfl, fun q => put_buf_of_ne _,
        by simpa using hrel⟩
      · exact hc.replace (fun _ => hc.other_sector hmem hdev) (fun _ => hc.data x hmem hdev)
          (fun _ _ _ _ => rfl) hpin (hc.dirty x hmem)
      all_goals simp [hdev, hsec, hv]
    | false =>
      -- a buffer that was never read is clean, so the disk holds what the cache stands for
      have hclean : (m.buf x).dirty = false := by
        by_contra hd
        simp [hc.dirty x hmem (by simpa using hd)] at hv
      have hno : ∀ t, ¬ (m.buf x).Pins t := fun t ht => by simp [ht.2.2.1] at hv
      have hdisk : D s = m.disk s := by
        by_contra hne
        obtain ⟨q, hq, hqx, hp⟩ := hc.pinned_elsewhere (hno s) hne
        exact hc.other_sector hmem hdev q hq hqx hp.1 (hp.2.1.trans hsec.symm)
      rw [if_pos (by simp [hv]), Exec.bind_of_ok (iderw_read (by simp) (by simp [hv])
        (by simp [hclean])), Exec.pure_run, Except.ok.injEq, Prod.mk.injEq] at h
      obtain ⟨rfl, rfl⟩ := h
      simp only [put_put, put_buf_self]
      refine ⟨⟨rfl, rfl, rfl⟩, ?_, ⟨hmem, ?_, ?_, ?_, ?_⟩, hbusy, rfl, fun q => put_buf_of_ne _,
        Or.inr hdisk⟩
      · refine hc.replace (fun _ => hc.other_sector hmem hdev) ?_ (fun _ _ _ _ => rfl)
          (fun t ht => Or.inr (hc.pinned_elsewhere (hno t) ht)) (fun _ => rfl)
        intro _ _
        simpa [hsec, Machine.put] using hdisk.symm
      all_goals simp [hdev, hsec]
  · have hno : ∀ t, ¬ (m.buf x).Pins t := by
      rintro t ⟨-, -, -, hp⟩
      simp [hdirty, hbusy] at hp
    have hdisk : D s = m.disk s := by
      by_contra hne
      obtain ⟨q, hq, hp⟩ := hc.pinned s hne
      exact habsent q hq hp.1 hp.2.1
    rw [if_pos (by simp [Buf.recycle]), Exec.bind_of_ok (iderw_read (by simp [Buf.recycle])
      (by simp [Buf.recycle]) (by simp [Buf.recycle])), Exec.pure_run, Except.ok.injEq,
      Prod.mk.injEq] at h
    obtain ⟨rfl, rfl⟩ := h
    rw [put_put]
    refine ⟨⟨rfl, rfl, rfl⟩, ?_, ⟨hmem, ?_, ?_, ?_, ?_⟩, hbusy, rfl, fun q => put_buf_of_ne _,
      Or.inr hdisk⟩
    · refine hc.replace ?_ ?_ (fun _ _ _ _ => rfl)
        (fun t ht => Or.inr (hc.pinned_elsewhere (hno t) ht)) (fun _ => rfl)
      · intro _ q hq _ hd
        simpa [Buf.recycle] using habsent q hq hd
      · intro _ _
        simpa [Buf.recycle, Machine.put] using hdisk.symm
    all_goals simp [Buf.recycle]

/-- Overwriting the bytes of a held buffer changes what the cache stands for. -/
theorem Coherent.store (hc : Coherent m D) (hp : Held m p s) (v : Block) :
    Coherent (m.put p { m.buf p with data := v }) (Function.update D s v) := by
  refine hc.replace (fun _ => hc.other_sector hp.mem hp.dev) ?_ ?_ ?_ (hc.dirty p hp.mem)
  · intro _ _
    simp [hp.sector]
  · intro q hq hqp hd
    exact Function.update_of_ne (hp.sector ▸ hc.other_sector hp.mem hp.dev q hq hqp hd) ..
  · intro t ht
    by_cases hts : t = s
    · exact Or.inl ⟨hp.mem, hp.dev, hts ▸ hp.sector, hp.valid, Or.inr hp.busy⟩
    · rw [Function.update_of_ne hts] at ht
      right
      refine hc.pinned_elsewhere (fun hpin => hts ?_) ht
      rw [← hpin.2.1, hp.sector]

theorem Held.store (hp : Held m p s) (v : Block) :
    Held (m.put p { m.buf p with data := v }) p s := by
  refine ⟨hp.mem, ?_, ?_, ?_, ?_⟩ <;> simp [hp.dev, hp.sector, hp.valid, hp.busy]

theorem bwrite_spec (hc : Coherent m D) (hp : Held m p s) (h : bwrite p m = .ok ((), m')) :
    m'.disk = Function.update m.disk s (D s) ∧ m'.issued = m.issued ++ [(s, D s)] ∧
      m'.log = m.log ∧ Coherent m' D ∧ Held m' p s ∧ m'.lru = m.lru ∧
      ∀ q, q ≠ p → m'.buf q = m.buf q := by
  rw [bwrite, Exec.bind_of_ok Exec.get_run, if_neg (by simp [hp.busy]), setBuf,
    Exec.bind_of_ok (Exec.modify_run _), iderw_write (by simp [hp.busy]) (by simp)] at h
  simp only [put_buf_self, put_put, Except.ok.injEq, Prod.mk.injEq, true_and] at h
  subst h
  have hdata := hc.held_data hp
  refine ⟨by simp [Machine.put, hp.sector, hdata], by simp [Machine.put, hp.sector, hdata], rfl, ?_,
    ⟨hp.mem, ?_, ?_, ?_, ?_⟩, rfl, fun q => put_buf_of_ne _⟩
  · refine hc.replace (fun _ => hc.other_sector hp.mem hp.dev)
      (fun _ _ => hc.data p hp.mem hp.dev hp.valid) (fun _ _ _ _ => rfl) ?_ (fun _ => rfl)
    intro t ht
    have hts : t ≠ s := by
      rintro rfl
      simp [hp.sector, hdata] at ht
    simp only [Machine.put, hp.sector, Function.update_of_ne hts] at ht
    right
    refine hc.pinned_elsewhere (fun hpin => hts ?_) ht
    rw [← hpin.2.1, hp.sector]
  all_goals simp [Machine.put, hp.dev, hp.sector, hp.busy]

/-- A buffer may be released when it is dirty or agrees with the disk. -/
theorem brelse_spec (hc : Coherent m D) (hp : Held m p s)
    (hs : (m.buf p).dirty = true ∨ D s = m.disk s) (h : brelse p m = .ok ((), m')) :
    SameDisk m m' ∧ Coherent m' D ∧ (∀ q, q ∈ m'.lru ↔ q ∈ m.lru) ∧
      ∀ q, q ≠ p → m'.buf q = m.buf q := by
  rw [brelse, Exec.bind_of_ok Exec.get_run, if_neg (by simp [hp.busy])] at h
  simp only [Exec.set_run, Except.ok.injEq, Prod.mk.injEq, true_and] at h
  subst h
  have hlru : ∀ q, q ∈ p :: m.lru.erase p ↔ q ∈ m.lru := by
    intro q
    by_cases hq : q = p
    · simp [hq, hp.mem]
    · simp [hq, List.mem_erase_of_ne hq]
  refine ⟨⟨rfl, rfl, rfl⟩, ?_, hlru, fun q => put_buf_of_ne _⟩
  have hr : Coherent (m.put p { m.buf p with busy := false }) D := by
    refine hc.replace (fun _ => hc.other_sector hp.mem hp.dev)
      (fun _ => hc.data p hp.mem hp.dev) (fun _ _ _ _ => rfl) ?_ (hc.dirty p hp.mem)
    intro t ht
    by_cases hts : t = s
    · rcases hs with hd | hd
      · exact Or.inl ⟨hp.mem, hp.dev, hts ▸ hp.sector, hp.valid, Or.inl hd⟩
      · exact absurd (hts ▸ hd) ht
    · right
      refine hc.pinned_elsewhere (fun hpin => hts ?_) ht
      rw [← hpin.2.1, hp.sector]
  refine ⟨?_, ?_, ?_, ?_⟩
  · intro x hx y hy
    exact hr.unique x ((hlru x).mp hx) y ((hlru y).mp hy)
  · intro x hx
    exact hr.data x ((hlru x).mp hx)
  · intro t ht
    obtain ⟨x, hx, hpin⟩ := hr.pinned t ht
    exact ⟨x, (hlru x).mpr hx, hpin⟩
  · intro x hx
    exact hr.dirty x ((hlru x).mp hx)

/-- Another buffer that was held stays held. -/
theorem Held.frame (hp : Held m p s) (hmem : p ∈ m'.lru) (hbuf : m'.buf p = m.buf p) :
    Held m' p s :=
  ⟨hmem, hbuf ▸ hp.dev, hbuf ▸ hp.sector, hbuf ▸ hp.valid, hbuf ▸ hp.busy⟩

theorem Held.ne_of_not_busy (hp : Held m p s) (hq : (m.buf q).busy = false) : p ≠ q := by
  rintro rfl
  simp [hp.busy] at hq

end Lainos.Log
