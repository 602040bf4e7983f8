import Lainos.Log.Buffer

/-!
# The redo log

`log.c` over the buffer cache. The header block of the log holds the number of
logged sectors and their home sectors; slot `i` of the log is the block after
it. A client of the log overwrites a buffer and passes it to `logWrite`.
-/

namespace Lainos.Log

open Library

/-! ## Header block -/

/-- The `n` of a header block, a signed 32-bit field. -/
def hdrN (b : Block) : ℤ := (get32 b 0).toInt32.toInt

def hdrSector (b : Block) (i : ℕ) : UInt32 := get32 b (4 + 4 * i)

def putSectors (b : Block) (sector : ℕ → UInt32) : ℕ → Block
  | 0 => b
  | k + 1 => put32 (putSectors b sector k) (4 + 4 * k) (sector k)

def putHeader (b : Block) (lh : Header) : Block :=
  putSectors (put32 b 0 (Int32.ofInt lh.n).toUInt32) lh.sector lh.n.toNat

theorem get32_putSectors_zero (b : Block) (sector : ℕ → UInt32) (k : ℕ) :
    get32 (putSectors b sector k) 0 = get32 b 0 := by
  induction k with
  | zero => rfl
  | succ k ih => rw [putSectors, get32_put32_disjoint (by omega), ih]

theorem hdrSector_putSectors (b : Block) (sector : ℕ → UInt32) {i k : ℕ} (h : i < k) :
    hdrSector (putSectors b sector k) i = sector i := by
  induction k with
  | zero => omega
  | succ k ih =>
    by_cases hik : i = k
    · subst hik
      exact get32_put32 _ _ _
    · rw [hdrSector, putSectors, get32_put32_disjoint (by omega)]
      exact ih (by omega)

theorem hdrN_putHeader (b : Block) {lh : Header} (h₀ : 0 ≤ lh.n) (h₁ : lh.n < 2 ^ 31) :
    hdrN (putHeader b lh) = lh.n := by
  rw [hdrN, putHeader, get32_putSectors_zero, get32_put32, Int32.toInt32_toUInt32]
  exact Int32.toInt_ofInt_of_le (by omega) (by omega)

theorem hdrSector_putHeader (b : Block) {lh : Header} {i : ℕ} (h : i < lh.n.toNat) :
    hdrSector (putHeader b lh) i = lh.sector i :=
  hdrSector_putSectors _ _ h

/-- The in-memory header after reading a header block: `n` and the first `n`
sectors are copied, the rest of the array stays. -/
def Header.load (lh : Header) (b : Block) : Header :=
  ⟨hdrN b, fun i => if i < (hdrN b).toNat then hdrSector b i else lh.sector i⟩

def Header.record (lh : Header) (i : ℕ) (s : UInt32) : Header :=
  ⟨lh.n, Function.update lh.sector i s⟩

/-- `if (i == log.lh.n) log.lh.n++` -/
def Header.bump (lh : Header) (i : ℕ) : Header :=
  ⟨if (i : ℤ) = lh.n then lh.n + 1 else lh.n, lh.sector⟩

def Header.clear (lh : Header) : Header := ⟨0, lh.sector⟩

def LogState.withHeader (l : LogState) (lh : Header) : LogState := ⟨l.start, l.size, l.busy, lh⟩

def Machine.withHeader (m : Machine) (lh : Header) : Machine :=
  { m with log := m.log.withHeader lh }

def Machine.withBusy (m : Machine) (busy : Bool) : Machine :=
  { m with log := ⟨m.log.start, m.log.size, busy, m.log.lh⟩ }

/-! ## Source functions -/

/-- Copy committed blocks from the log to their home location. -/
def installFrom : ℕ → ℕ → K Unit
  | 0, _ => pure ()
  | k + 1, tail => do
    let m ← get
    let lbuf ← bread ROOTDEV (m.log.start + tail + 1)
    let dbuf ← bread ROOTDEV (m.log.lh.sector tail).toNat
    modify fun m => m.put dbuf { m.buf dbuf with data := (m.buf lbuf).data }
    bwrite dbuf
    brelse lbuf
    brelse dbuf
    installFrom k (tail + 1)

def installTrans : K Unit := do
  let m ← get
  installFrom m.log.lh.n.toNat 0

/-- Read the log header from disk into the in-memory log header. -/
def readHead : K Unit := do
  let m ← get
  let p ← bread ROOTDEV m.log.start
  modify fun m => m.withHeader (m.log.lh.load (m.buf p).data)
  brelse p

/-- Write the in-memory log header to disk. With `n > 0` this is the commit. -/
def writeHead : K Unit := do
  let m ← get
  let p ← bread ROOTDEV m.log.start
  modify fun m => m.put p { m.buf p with data := putHeader (m.buf p).data m.log.lh }
  bwrite p
  brelse p

def clearHead : K Unit := modify fun m => m.withHeader m.log.lh.clear

def recoverFromLog : K Unit := do
  readHead
  installTrans
  clearHead
  writeHead

def beginTrans : K Unit := do
  let m ← get
  if m.log.busy then throw .sleep
  else set (m.withBusy true)

def commitTrans : K Unit := do
  let m ← get
  if 0 < m.log.lh.n then do
    writeHead
    installTrans
    clearHead
    writeHead
    modify fun m => m.withBusy false
  else modify fun m => m.withBusy false

/-- The slot a sector already has, or the next free one. -/
def slotOf (lh : Header) (s : UInt32) : ℕ :=
  ((List.range lh.n.toNat).find? fun i => lh.sector i == s).getD lh.n.toNat

/-- Append a modified buffer to the log, or absorb it into its slot. -/
def logWrite (p : ℕ) : K Unit := do
  let m ← get
  if (LOGSIZE : ℤ) ≤ m.log.lh.n ∨ (m.log.size : ℤ) - 1 ≤ m.log.lh.n then
    throw (.panic "too big a transaction")
  else if !m.log.busy then throw (.panic "write outside of trans")
  else do
    let s := UInt32.ofNat (m.buf p).sector
    let i := slotOf m.log.lh s
    modify fun m => m.withHeader (m.log.lh.record i s)
    let lbuf ← bread (m.buf p).dev (m.log.start + i + 1)
    modify fun m => m.put lbuf { m.buf lbuf with data := (m.buf p).data }
    bwrite lbuf
    brelse lbuf
    modify fun m => m.withHeader (m.log.lh.bump i)
    setBuf p fun b => { b with dirty := true }

/-- What a caller of the log does with one sector: read it, overwrite the
buffer, log it and release it. -/
def update (w : UInt32 × Block) : K Unit := do
  let p ← bread ROOTDEV w.1.toNat
  modify fun m => m.put p { m.buf p with data := w.2 }
  logWrite p
  brelse p

/-- The log writes of one transaction, in order. -/
abbrev Txn := List (UInt32 × Block)

def updates : Txn → K Unit
  | [] => pure ()
  | w :: ws => do
    update w
    updates ws

def transaction (t : Txn) : K Unit := do
  beginTrans
  updates t
  commitTrans

/-! ## What they do -/

variable {m m' : Machine} {D : Disk} {p s : ℕ}

/-- The cache does not depend on the in-memory log. -/
theorem Coherent.withHeader (hc : Coherent m D) (lh : Header) : Coherent (m.withHeader lh) D :=
  ⟨hc.unique, hc.data, hc.pinned, hc.dirty⟩

theorem Coherent.withBusy (hc : Coherent m D) (b : Bool) : Coherent (m.withBusy b) D :=
  ⟨hc.unique, hc.data, hc.pinned, hc.dirty⟩

theorem Held.withHeader (hp : Held m p s) (lh : Header) : Held (m.withHeader lh) p s :=
  ⟨hp.mem, hp.dev, hp.sector, hp.valid, hp.busy⟩

theorem readHead_spec (hc : Coherent m D) (h : readHead m = .ok ((), m')) :
    m'.disk = m.disk ∧ m'.issued = m.issued ∧ Coherent m' D ∧
      m'.log = m.log.withHeader (m.log.lh.load (D m.log.start)) := by
  rw [readHead, Exec.bind_of_ok Exec.get_run, Exec.bind_eq_ok] at h
  obtain ⟨p, m₁, hread, h⟩ := h
  rw [Exec.bind_of_ok (Exec.modify_run _)] at h
  obtain ⟨hsame, hc₁, hheld, -, -, -, hrel⟩ := bread_spec hc hread
  rw [hc₁.held_data hheld] at h
  rw [← hsame.disk] at hrel
  obtain ⟨hsame', hc', -, -⟩ := brelse_spec (hc₁.withHeader (m₁.log.lh.load (D m.log.start)))
    (hheld.withHeader _) hrel h
  refine ⟨hsame'.disk.trans hsame.disk, hsame'.issued.trans hsame.issued, hc', ?_⟩
  rw [hsame'.log, Machine.withHeader, hsame.log]

theorem writeHead_spec (hc : Coherent m D) (h : writeHead m = .ok ((), m')) :
    ∃ b, b = putHeader (D m.log.start) m.log.lh ∧
      m'.disk = Function.update m.disk m.log.start b ∧
      m'.issued = m.issued ++ [(m.log.start, b)] ∧ m'.log = m.log ∧
      Coherent m' (Function.update D m.log.start b) := by
  rw [writeHead, Exec.bind_of_ok Exec.get_run, Exec.bind_eq_ok] at h
  obtain ⟨p, m₁, hread, h⟩ := h
  rw [Exec.bind_of_ok (Exec.modify_run _), Exec.bind_eq_ok] at h
  obtain ⟨_, m₂, hwrite, hrelse⟩ := h
  obtain ⟨hsame, hc₁, hheld, -, -, -, -⟩ := bread_spec hc hread
  rw [hc₁.held_data hheld, hsame.log] at hwrite
  obtain ⟨hdisk, hissued, hlog, hc₂, hheld₂, -, -⟩ :=
    bwrite_spec (hc₁.store hheld _) (hheld.store _) hwrite
  simp only [Function.update_self] at hdisk hissued
  obtain ⟨hsame', hc', -, -⟩ := brelse_spec hc₂ hheld₂ (Or.inr (by simp [hdisk])) hrelse
  refine ⟨_, rfl, ?_, ?_, ?_, hc'⟩
  · rw [hsame'.disk, hdisk, Machine.put, hsame.disk]
  · rw [hsame'.issued, hissued, Machine.put, hsame.issued]
  · rw [hsame'.log, hlog, Machine.put, hsame.log]

/-- Marking a held buffer dirty does not change what the cache stands for. -/
theorem Coherent.setDirty (hc : Coherent m D) (hp : Held m p s) :
    Coherent (m.put p { m.buf p with dirty := true }) D := by
  refine hc.replace (fun _ => hc.other_sector hp.mem hp.dev) (fun _ => hc.data p hp.mem hp.dev)
    (fun _ _ _ _ => rfl) ?_ (fun _ => hp.valid)
  intro t ht
  by_cases hts : t = s
  · exact Or.inl ⟨hp.mem, hp.dev, hts ▸ hp.sector, hp.valid, Or.inl rfl⟩
  · right
    refine hc.pinned_elsewhere (fun hpin => hts ?_) ht
    rw [← hpin.2.1, hp.sector]

theorem Held.setDirty (hp : Held m p s) : Held (m.put p { m.buf p with dirty := true }) p s := by
  refine ⟨hp.mem, ?_, ?_, ?_, ?_⟩ <;> simp [hp.dev, hp.sector, hp.valid, hp.busy]

/-- The home writes of the log entries `tail .. tail + k - 1`. -/
def installWrites (D : Disk) (start : ℕ) (sector : ℕ → UInt32) (tail k : ℕ) : List (ℕ × Block) :=
  (List.range' tail k).map fun t => ((sector t).toNat, D (start + t + 1))

theorem installWrites_succ (D : Disk) (start : ℕ) (sector : ℕ → UInt32) (tail k : ℕ) :
    installWrites D start sector tail (k + 1) =
      ((sector tail).toNat, D (start + tail + 1)) :: installWrites D start sector (tail + 1) k := by
  simp [installWrites, List.range'_succ]

/-- One entry: its slot is copied to its home sector and reaches the disk. -/
theorem install_one {m₁ m₂ m₄ m₅ : Machine} {l d start : ℕ} {home : ℕ}
    (hc : Coherent m D) (hne : home ≠ start)
    (h₁ : bread ROOTDEV start m = .ok (l, m₁)) (h₂ : bread ROOTDEV home m₁ = .ok (d, m₂))
    (h₃ : bwrite d (m₂.put d { m₂.buf d with data := (m₂.buf l).data }) = .ok ((), m₄))
    (h₄ : brelse l m₄ = .ok ((), m₅)) (h₅ : brelse d m₅ = .ok ((), m')) :
    m'.disk = Function.update m.disk home (D start) ∧
      m'.issued = m.issued ++ [(home, D start)] ∧ m'.log = m.log ∧
      Coherent m' (Function.update D home (D start)) := by
  obtain ⟨hsame₁, hc₁, hl₁, -, -, -, hrel⟩ := bread_spec hc h₁
  obtain ⟨hsame₂, hc₂, hd₂, hfree, hlru₂, hother₂, -⟩ := bread_spec hc₁ h₂
  have hld : l ≠ d := hl₁.ne_of_not_busy hfree
  have hl₂ : Held m₂ l start := hl₁.frame (hlru₂ ▸ hl₁.mem) (hother₂ l hld)
  rw [hc₂.held_data hl₂] at h₃
  obtain ⟨hdisk₄, hissued₄, hlog₄, hc₄, hd₄, hlru₄, hother₄⟩ :=
    bwrite_spec (hc₂.store hd₂ _) (hd₂.store _) h₃
  simp only [Function.update_self] at hdisk₄ hissued₄
  have hl₄ : Held m₄ l start := by
    refine hl₂.frame ?_ ?_
    · rw [hlru₄]; exact hl₂.mem
    · rw [hother₄ l hld, put_buf_of_ne _ hld]
  have hrel₄ : (m₄.buf l).dirty = true ∨
      Function.update D home (D start) start = m₄.disk start := by
    rw [hother₄ l hld, put_buf_of_ne _ hld, hother₂ l hld, hdisk₄,
      Function.update_of_ne hne.symm, Function.update_of_ne hne.symm, Machine.put, hsame₂.disk,
      hsame₁.disk]
    exact hrel
  obtain ⟨hsame₅, hc₅, hmem₅, hother₅⟩ := brelse_spec hc₄ hl₄ hrel₄ h₄
  have hd₅ : Held m₅ d home := hd₄.frame ((hmem₅ d).mpr hd₄.mem) (hother₅ d hld.symm)
  obtain ⟨hsame₆, hc₆, -, -⟩ := brelse_spec hc₅ hd₅
    (Or.inr (by simp [hsame₅.disk, hdisk₄])) h₅
  refine ⟨?_, ?_, ?_, hc₆⟩
  · rw [hsame₆.disk, hsame₅.disk, hdisk₄, Machine.put, hsame₂.disk, hsame₁.disk]
  · rw [hsame₆.issued, hsame₅.issued, hissued₄, Machine.put, hsame₂.issued, hsame₁.issued]
  · rw [hsame₆.log, hsame₅.log, hlog₄, Machine.put, hsame₂.log, hsame₁.log]

/-- The whole loop, when no home sector is a slot of the log. -/
theorem installFrom_spec {k tail : ℕ} (hc : Coherent m D)
    (hout : ∀ t u, tail ≤ t → t < tail + k → tail ≤ u → u < tail + k →
      (m.log.lh.sector t).toNat ≠ m.log.start + u + 1)
    (h : installFrom k tail m = .ok ((), m')) :
    m'.issued = m.issued ++ installWrites D m.log.start m.log.lh.sector tail k ∧
      m'.disk = replay m.disk (installWrites D m.log.start m.log.lh.sector tail k) ∧
      Coherent m' (replay D (installWrites D m.log.start m.log.lh.sector tail k)) ∧
      m'.log = m.log := by
  induction k generalizing m D tail with
  | zero =>
    simp only [installFrom, Exec.pure_run, Except.ok.injEq, Prod.mk.injEq, true_and] at h
    subst h
    exact ⟨by simp [installWrites], rfl, hc, rfl⟩
  | succ k ih =>
    rw [installFrom, Exec.bind_of_ok Exec.get_run, Exec.bind_eq_ok] at h
    obtain ⟨l, m₁, h₁, h⟩ := h
    rw [Exec.bind_eq_ok] at h
    obtain ⟨d, m₂, h₂, h⟩ := h
    rw [Exec.bind_of_ok (Exec.modify_run _), Exec.bind_eq_ok] at h
    obtain ⟨_, m₄, h₃, h⟩ := h
    rw [Exec.bind_eq_ok] at h
    obtain ⟨_, m₅, h₄, h⟩ := h
    rw [Exec.bind_eq_ok] at h
    obtain ⟨_, m₆, h₅, h⟩ := h
    obtain ⟨hdisk, hissued, hlog, hc₆⟩ := install_one hc
      (hout tail tail (by omega) (by omega) (by omega) (by omega)) h₁ h₂ h₃ h₄ h₅
    have hslots : installWrites (Function.update D (m.log.lh.sector tail).toNat
        (D (m.log.start + tail + 1))) m.log.start m.log.lh.sector (tail + 1) k =
        installWrites D m.log.start m.log.lh.sector (tail + 1) k := by
      apply List.map_congr_left
      intro t ht
      rw [List.mem_range'_1] at ht
      rw [Function.update_of_ne (hout tail t (by omega) (by omega) (by omega) (by omega)).symm]
    have hrest := ih hc₆ (by
      intro t u ht₁ ht₂ hu₁ hu₂
      rw [hlog]
      exact hout t u (by omega) (by omega) (by omega) (by omega)) h
    rw [hlog, hslots] at hrest
    obtain ⟨hi, hd, hcoh, hl⟩ := hrest
    rw [installWrites_succ]
    refine ⟨?_, ?_, ?_, hl⟩
    · rw [hi, hissued, List.append_assoc, List.singleton_append]
    · rw [hd, hdisk, replay_cons]
    · simpa using hcoh

/-- A logged update: the new contents of the sector go to its slot on disk, and
the sector itself changes only in the cache. -/
theorem update_spec {w : UInt32 × Block} {i : ℕ} (hi : i = slotOf m.log.lh w.1)
    (hc : Coherent m D) (h : update w m = .ok ((), m')) :
    m.log.lh.n < LOGSIZE ∧ m.log.lh.n < (m.log.size : ℤ) - 1 ∧ m.log.busy = true ∧
      w.1.toNat ≠ m.log.start + i + 1 ∧
      m'.disk = Function.update m.disk (m.log.start + i + 1) w.2 ∧
      m'.issued = m.issued ++ [(m.log.start + i + 1, w.2)] ∧
      Coherent m' (Function.update (Function.update D w.1.toNat w.2) (m.log.start + i + 1) w.2) ∧
      m'.log = m.log.withHeader ((m.log.lh.record i w.1).bump i) := by
  rw [update, Exec.bind_eq_ok] at h
  obtain ⟨p, m₁, hread, h⟩ := h
  rw [Exec.bind_of_ok (Exec.modify_run _), Exec.bind_eq_ok] at h
  obtain ⟨_, m₆, hlog, hrelse⟩ := h
  obtain ⟨hsame₁, hc₁, hp₁, -, -, -, -⟩ := bread_spec hc hread
  have hc₂ := hc₁.store hp₁ w.2
  have hp₂ := hp₁.store w.2
  generalize hm₂ : m₁.put p { m₁.buf p with data := w.2 } = m₂ at hlog hc₂ hp₂
  have hlog₂ : m₂.log = m.log := by rw [← hm₂]; exact hsame₁.log
  have hdisk₂ : m₂.disk = m.disk := by rw [← hm₂]; exact hsame₁.disk
  have hissued₂ : m₂.issued = m.issued := by rw [← hm₂]; exact hsame₁.issued
  rw [logWrite, Exec.bind_of_ok Exec.get_run] at hlog
  rw [hlog₂] at hlog
  split_ifs at hlog with hbig hbusy
  · simp at hlog
  · simp at hlog
  dsimp only at hlog
  rw [hp₂.sector, UInt32.ofNat_toNat, hp₂.dev, ← hi,
    Exec.bind_of_ok (Exec.modify_run _), Exec.bind_eq_ok] at hlog
  obtain ⟨l, m₃, hread₃, hlog⟩ := hlog
  rw [Exec.bind_of_ok (Exec.modify_run _), Exec.bind_eq_ok] at hlog
  obtain ⟨_, m₄, hwrite, hlog⟩ := hlog
  rw [Exec.bind_eq_ok] at hlog
  obtain ⟨_, m₅, hrelse₅, hlog⟩ := hlog
  rw [Exec.bind_of_ok (Exec.modify_run _), setBuf, Exec.modify_run] at hlog
  simp only [Except.ok.injEq, Prod.mk.injEq, true_and] at hlog
  obtain ⟨hsame₃, hc₃, hl₃, hfree₃, hlru₃, hother₃, -⟩ := bread_spec (hc₂.withHeader _) hread₃
  have hpl : p ≠ l := (hp₂.withHeader _).ne_of_not_busy hfree₃
  have hp₃ : Held m₃ p w.1.toNat := hp₂.frame (hlru₃ ▸ hp₂.mem) (hother₃ p hpl)
  have hsec : w.1.toNat ≠ m.log.start + i + 1 := by
    intro heq
    exact hpl (hc₃.unique p hp₃.mem l hl₃.mem hp₃.dev hl₃.dev
      (hp₃.sector.trans (heq.trans hl₃.sector.symm)))
  rw [hc₃.held_data hp₃, Function.update_self] at hwrite
  obtain ⟨hdisk₄, hissued₄, hlog₄, hc₄, hl₄, hlru₄, hother₄⟩ :=
    bwrite_spec (hc₃.store hl₃ _) (hl₃.store _) hwrite
  simp only [Function.update_self] at hdisk₄ hissued₄
  obtain ⟨hsame₅, hc₅, hmem₅, hother₅⟩ :=
    brelse_spec hc₄ hl₄ (Or.inr (by simp [hdisk₄])) hrelse₅
  have hp₅ : Held m₅ p w.1.toNat := by
    refine hp₃.frame ((hmem₅ p).mpr ?_) ?_
    · rw [hlru₄]; exact hp₃.mem
    · rw [hother₅ p hpl, hother₄ p hpl, put_buf_of_ne _ hpl]
  have hc₆ := (hc₅.withHeader (m₅.log.lh.bump i)).setDirty (hp₅.withHeader _)
  have hp₆ := (hp₅.withHeader (m₅.log.lh.bump i)).setDirty
  rw [hlog] at hc₆ hp₆
  obtain ⟨hsame', hc', -, -⟩ := brelse_spec hc₆ hp₆ (Or.inl (by rw [← hlog]; simp)) hrelse
  refine ⟨by omega, by omega, by simpa using hbusy, hsec, ?_, ?_, hc', ?_⟩
  · rw [hsame'.disk, ← hlog]
    change m₅.disk = _
    rw [hsame₅.disk, hdisk₄]
    change Function.update m₃.disk _ _ = _
    rw [hsame₃.disk]
    change Function.update m₂.disk _ _ = _
    rw [hdisk₂]
  · rw [hsame'.issued, ← hlog]
    change m₅.issued = _
    rw [hsame₅.issued, hissued₄]
    change m₃.issued ++ _ = _
    rw [hsame₃.issued]
    change m₂.issued ++ _ = _
    rw [hissued₂]
  · have hlog₅ : m₅.log = m.log.withHeader (m.log.lh.record i w.1) := by
      rw [hsame₅.log, hlog₄]
      change m₃.log = _
      rw [hsame₃.log, Machine.withHeader, hlog₂]
    rw [hsame'.log, ← hlog]
    change m₅.log.withHeader _ = _
    rw [hlog₅]
    rfl

end Lainos.Log
