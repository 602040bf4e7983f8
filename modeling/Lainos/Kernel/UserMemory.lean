import Lainos.Kernel.Calls

/-!
# Memory that `read` and `write` touch

Which bytes of user memory the two calls store into or fetch, from the check in
`argptr` down to the loops that transfer. Addresses and counts are 32-bit values as
in the source: `argptr` and `fileread` take the count as an `int`, `readi` takes it
as a `uint`.
-/

namespace Lainos.Kernel

open Library

def KERNBASE : ℕ := 0x80000000

/-- `argptr` for a pointer argument with value `i`. -/
def argptr (sz i : UInt32) (size : Int32) : Option UInt32 :=
  if sz ≤ i ∨ sz < i + size.toUInt32 then none else some i

/-- `n` bytes of memory from `a` on. -/
def span (a : UInt32) (n : ℕ) : List UInt32 := (List.range n).map fun i => a + UInt32.ofNat i

/-! ## Transfers -/

/-- How many bytes `readi` copies out of a file that is not a device. -/
def readiCount (size off n : UInt32) : UInt32 :=
  if size < off ∨ off + n < off then 0 else if size < off + n then size - off else n

/-- How many bytes `writei` takes for a file that is not a device; `none` if it
refuses. -/
def writeiCount (size off n : UInt32) : Option UInt32 :=
  if size < off ∨ off + n < off then none
  else if UInt32.ofNat (MAXFILE * BSIZE) < off + n then none
  else some n

/-- How many characters `consoleread` stores when `input` is what is typed: a line,
or what comes before an end of file. -/
def consoleCount : List UInt8 → ℤ → ℕ
  | [], _ => 0
  | c :: cs, n =>
    if n ≤ 0 then 0
    else if c = 4 then 0
    else if c = 10 then 1
    else consoleCount cs (n - 1) + 1

/-- What a file descriptor stands for. Of a pipe it matters how many bytes it holds
and how many it takes until its reader is gone. -/
inductive Backing where
  | inode (size off : UInt32)
  | console (input : List UInt8)
  | pipe (avail room : ℕ)

structure OpenFile where
  readable : Bool
  writable : Bool
  backing : Backing

/-- The addresses that `fileread` stores into. -/
def filereadStores (f : OpenFile) (addr : UInt32) (n : Int32) : List UInt32 :=
  if f.readable = false then []
  else match f.backing with
    | .inode size off => span addr (readiCount size off n.toUInt32).toNat
    | .console input => span addr (consoleCount input n.toInt)
    | .pipe avail _ => span addr (min avail n.toInt.toNat)

/-- The addresses that the loop of `filewrite` fetches from, `i` of `n` bytes being
written. -/
def chunkFetches (addr : UInt32) (n : ℕ) : ℕ → UInt32 → UInt32 → ℕ → List UInt32
  | 0, _, _, _ => []
  | fuel + 1, size, off, i =>
    if n ≤ i then []
    else
      let n1 := min (n - i) writeMax
      match writeiCount size off (UInt32.ofNat n1) with
      | none => []
      | some r =>
        span (addr + UInt32.ofNat i) r.toNat ++
          chunkFetches addr n fuel (max size (off + r)) (off + r) (i + n1)

/-- The addresses that `filewrite` fetches from. -/
def filewriteFetches (f : OpenFile) (addr : UInt32) (n : Int32) : List UInt32 :=
  if f.writable = false then []
  else match f.backing with
    | .inode size off => chunkFetches addr n.toInt.toNat n.toInt.toNat size off 0
    | .console _ => span addr n.toInt.toNat
    | .pipe _ room => span addr (min room n.toInt.toNat)

def sysReadStores (sz : UInt32) (f : OpenFile) (p : UInt32) (n : Int32) : List UInt32 :=
  match argptr sz p n with
  | none => []
  | some addr => filereadStores f addr n

def sysWriteFetches (sz : UInt32) (f : OpenFile) (p : UInt32) (n : Int32) : List UInt32 :=
  match argptr sz p n with
  | none => []
  | some addr => filewriteFetches f addr n

/-! ## Transfers of the file system -/

/-- `readiCount` is the length of what `readi` returns. -/
theorem length_readLoop {p : Pid} {k fuel off n : ℕ} {s : Sys} (h : n ≤ fuel) :
    Exec.Ends (readLoop p k fuel off n) (fun bytes _ => bytes.length = n) (fun _ => True) s := by
  induction fuel generalizing off n s with
  | zero =>
    obtain rfl : n = 0 := by omega
    rfl
  | succ fuel ih =>
    rw [readLoop, Exec.ends_ite]
    refine ⟨fun hz => hz.symm, fun hz => ?_⟩
    have hB : BSIZE = 512 := rfl
    have hpos : 0 < min n (BSIZE - off % BSIZE) := by
      rw [hB]
      omega
    rw [Exec.ends_bind, Exec.ends_modify, Exec.ends_bind]
    refine Exec.ends_iff.mpr ⟨fun b t _ => ?_, fun _ _ => trivial⟩
    rw [Exec.ends_bind, Exec.ends_get, Exec.ends_bind]
    refine (ih (by omega)).mono (fun bytes u hlen => ?_) fun _ _ => trivial
    rw [Exec.ends_pure, List.length_append, hlen, bytesFrom, List.length_map, List.length_range]
    omega

theorem readFile_length {p : Pid} {k : ℕ} {off n : UInt32} {s : Sys} :
    Exec.Ends (readFile p k off n)
      (fun r _ => (r.getD []).length = (readiCount (s.icache k).d.size off n).toNat)
      (fun _ => True) s := by
  rw [readFile, Exec.ends_bind, Exec.ends_get, Exec.ends_ite]
  constructor
  · intro hbad
    rw [readiCount, if_pos hbad]
    rfl
  · intro hbad
    rw [readiCount, if_neg hbad, Exec.ends_bind]
    refine (length_readLoop le_rfl).mono (fun bytes t hlen => ?_) fun _ _ => trivial
    exact hlen

theorem writeFile_count {p : Pid} {k : ℕ} {src : Bytes} {off n : UInt32} {s : Sys} :
    Exec.Ends (writeFile p k src off n)
      (fun r _ => r = (writeiCount (s.icache k).d.size off n).map UInt32.toNat)
      (fun _ => True) s := by
  rw [writeFile, Exec.ends_bind, Exec.ends_get, Exec.ends_ite]
  constructor
  · intro hbad
    rw [writeiCount, if_pos hbad]
    rfl
  intro hbad
  rw [writeiCount, if_neg hbad, Exec.ends_ite]
  constructor
  · intro hbig
    rw [if_pos hbig]
    rfl
  intro hbig
  rw [if_neg hbig, Exec.ends_bind]
  refine Exec.ends_iff.mpr ⟨fun _ t _ => ?_, fun _ _ => trivial⟩
  rw [Exec.ends_ite]
  refine ⟨fun _ => ?_, fun _ => rfl⟩
  rw [Exec.ends_bind, Exec.ends_modify, Exec.ends_bind]
  exact Exec.ends_iff.mpr ⟨fun _ _ _ => rfl, fun _ _ => trivial⟩

/-! ## Staying below the size of the process -/

theorem toNat_span {a : UInt32} {i : ℕ} (h : a.toNat + i < 2 ^ 32) :
    (a + UInt32.ofNat i).toNat = a.toNat + i := by
  rw [UInt32.toNat_add, UInt32.toNat_ofNat', Nat.mod_eq_of_lt (show i < 2 ^ 32 by omega),
    Nat.mod_eq_of_lt h]

/-- A span that starts below `sz` stays there exactly if it ends there. -/
theorem span_lt_iff {a sz : UInt32} {n : ℕ} (ha : a < sz) :
    (∀ b ∈ span a n, b < sz) ↔ a.toNat + n ≤ sz.toNat := by
  have hsz := sz.toNat_lt
  rw [UInt32.lt_iff_toNat_lt] at ha
  simp only [span, List.mem_map, List.mem_range, forall_exists_index, and_imp,
    forall_apply_eq_imp_iff₂]
  constructor
  · intro h
    by_contra hlt
    -- The first byte at the size of the process is one of those touched.
    have hfirst := h (sz.toNat - a.toNat) (by omega)
    rw [UInt32.lt_iff_toNat_lt, toNat_span (by omega)] at hfirst
    omega
  · intro h i hi
    rw [UInt32.lt_iff_toNat_lt, toNat_span (by omega)]
    omega

theorem span_subset {a : UInt32} {i m n : ℕ} (h : i + m ≤ n) (hn : a.toNat + n < 2 ^ 32) :
    ∀ b ∈ span (a + UInt32.ofNat i) m, b ∈ span a n := by
  simp only [span, List.mem_map, List.mem_range, forall_exists_index, and_imp,
    forall_apply_eq_imp_iff₂]
  intro j hj
  refine ⟨i + j, by omega, ?_⟩
  apply UInt32.toNat_inj.mp
  have hi := toNat_span (a := a) (i := i) (by omega)
  rw [toNat_span (by omega), toNat_span (by omega), hi]
  omega

/-- `filewrite` fetches nothing but the bytes it was given. -/
theorem chunkFetches_subset {addr : UInt32} {n : ℕ} (hn : addr.toNat + n < 2 ^ 32) (fuel : ℕ)
    (size off : UInt32) (i : ℕ) :
    ∀ b ∈ chunkFetches addr n fuel size off i, b ∈ span addr n := by
  induction fuel generalizing size off i with
  | zero => simp [chunkFetches]
  | succ fuel ih =>
    rw [chunkFetches]
    split_ifs with hi
    · simp
    · have hmax : writeMax = 1536 := rfl
      have hone : (UInt32.ofNat (min (n - i) writeMax)).toNat = min (n - i) writeMax := by
        rw [UInt32.toNat_ofNat', Nat.mod_eq_of_lt]
        omega
      intro b hb
      simp only at hb
      cases hc : writeiCount size off (UInt32.ofNat (min (n - i) writeMax)) with
      | none => simp [hc] at hb
      | some r =>
        rw [hc] at hb
        have hr : r = UInt32.ofNat (min (n - i) writeMax) := by
          rw [writeiCount] at hc
          split_ifs at hc
          exact (Option.some.inj hc).symm
        rcases List.mem_append.mp hb with hb | hb
        · rw [hr, hone] at hb
          exact span_subset (by omega) hn b hb
        · exact ih _ _ _ b hb

/-- A negative `int` is a large `uint`. -/
theorem toNat_toUInt32 (n : Int32) :
    (n.toUInt32.toNat : ℤ) = if 0 ≤ n.toInt then n.toInt else n.toInt + 2 ^ 32 := by
  have hlt := n.toUInt32.toNat_lt
  have hint : n.toInt = if 2 * n.toUInt32.toNat < 2 ^ 32 then (n.toUInt32.toNat : ℤ)
      else (n.toUInt32.toNat : ℤ) - (2 ^ 32 : ℕ) := rfl
  rw [hint]
  split_ifs <;> omega

/-- A count of at least zero that passes `argptr` covers memory of the process. -/
theorem argptr_nonneg {sz p a : UInt32} {n : Int32} (hsz : sz.toNat < KERNBASE) (hn : 0 ≤ n.toInt)
    (h : argptr sz p n = some a) : a = p ∧ p < sz ∧ p.toNat + n.toInt.toNat ≤ sz.toNat := by
  rw [argptr] at h
  split_ifs at h with hbad
  simp only [not_or, UInt32.not_le, UInt32.not_lt] at hbad
  obtain ⟨hp, hend⟩ := hbad
  have hn32 : n.toUInt32.toNat = n.toInt.toNat := by
    have := toNat_toUInt32 n
    rw [if_pos hn] at this
    omega
  have hlt := n.toInt_lt
  rw [UInt32.le_iff_toNat_le, UInt32.toNat_add, hn32] at hend
  have hp' := UInt32.lt_iff_toNat_lt.mp hp
  simp only [KERNBASE] at hsz
  refine ⟨(Option.some.inj h).symm, hp, ?_⟩
  rw [Nat.mod_eq_of_lt (by omega)] at hend
  exact hend

theorem consoleCount_le (input : List UInt8) (n : ℤ) : consoleCount input n ≤ n.toNat := by
  induction input generalizing n with
  | nil => exact Nat.zero_le _
  | cons c cs ih =>
    have hrest := ih (n - 1)
    rw [consoleCount]
    split_ifs <;> omega

theorem readiCount_le (size off n : UInt32) : readiCount size off n ≤ n := by
  rw [readiCount]
  split_ifs with h₁ h₂
  · exact UInt32.le_iff_toNat_le.mpr (Nat.zero_le _)
  · simp only [not_or, UInt32.lt_iff_toNat_lt, UInt32.le_iff_toNat_le, not_lt] at *
    have hs := UInt32.toNat_sub_of_le size off (UInt32.le_iff_toNat_le.mpr h₁.1)
    have hoff := off.toNat_lt
    have hnn := n.toNat_lt
    rw [UInt32.toNat_add] at h₁ h₂
    omega
  · exact UInt32.le_refl n

/-- `filewrite` fetches at most the bytes of its count. -/
theorem filewriteFetches_subset {addr : UInt32} {n : Int32} {f : OpenFile}
    (h : addr.toNat + n.toInt.toNat < 2 ^ 32) :
    ∀ a ∈ filewriteFetches f addr n, a ∈ span addr n.toInt.toNat := by
  have hmin : ∀ room a, a ∈ span addr (min room n.toInt.toNat) → a ∈ span addr n.toInt.toNat := by
    simp only [span, List.mem_map, List.mem_range]
    rintro room a ⟨i, hi, rfl⟩
    exact ⟨i, by omega, rfl⟩
  intro a ha
  rw [filewriteFetches] at ha
  split_ifs at ha
  · simp at ha
  · cases hb : f.backing with
    | inode size off =>
      rw [hb] at ha
      exact chunkFetches_subset h _ _ _ _ a ha
    | console input =>
      rw [hb] at ha
      exact ha
    | pipe avail room =>
      rw [hb] at ha
      exact hmin room a ha

/-- Writes fetch from memory of the process, whatever the count. -/
theorem sysWriteFetches_lt {sz p : UInt32} {f : OpenFile} {n : Int32} (hsz : sz.toNat < KERNBASE) :
    ∀ a ∈ sysWriteFetches sz f p n, a < sz := by
  intro a ha
  rw [sysWriteFetches] at ha
  cases harg : argptr sz p n with
  | none => simp [harg] at ha
  | some addr =>
    rw [harg] at ha
    have haddr := addr.toNat_lt
    by_cases hn : 0 ≤ n.toInt
    · obtain ⟨rfl, hp, hend⟩ := argptr_nonneg hsz hn harg
      have hlt := sz.toNat_lt
      exact (span_lt_iff hp).mpr hend a (filewriteFetches_subset (by omega) a ha)
    · -- A negative count transfers nothing.
      have hzero : n.toInt.toNat = 0 := by omega
      have := filewriteFetches_subset (by omega) a ha
      simp [hzero, span] at this

/-- The count is negative and passes all checks, and the rest of the file, which
`readi` then copies, is more than the memory behind the pointer. -/
def Overrun (sz : UInt32) (f : OpenFile) (p : UInt32) (n : Int32) : Prop :=
  n < 0 ∧ p < sz ∧ p + n.toUInt32 ≤ sz ∧ f.readable = true ∧
    ∃ size off, f.backing = .inode size off ∧ off ≤ size ∧ off ≤ off + n.toUInt32 ∧
      sz.toNat < p.toNat + (size - off).toNat

theorem argptr_eq_some {sz p a : UInt32} {n : Int32} :
    argptr sz p n = some a ↔ a = p ∧ p < sz ∧ p + n.toUInt32 ≤ sz := by
  rw [argptr]
  split_ifs with h
  · simp only [reduceCtorEq, false_iff, not_and, UInt32.not_le]
    rintro - hp
    exact h.resolve_left (UInt32.not_le.mpr hp)
  · simp only [not_or, UInt32.not_le, UInt32.not_lt] at h
    simp [h, eq_comm]

/-- With a count of at least zero, reads store into memory of the process. -/
theorem filereadStores_nonneg {sz p : UInt32} {f : OpenFile} {n : Int32} (hn : 0 ≤ n.toInt)
    (hp : p < sz) (hend : p.toNat + n.toInt.toNat ≤ sz.toNat) :
    ∀ a ∈ filereadStores f p n, a < sz := by
  have hshort : ∀ m ≤ n.toInt.toNat, ∀ a ∈ span p m, a < sz :=
    fun m hm => (span_lt_iff hp).mpr (by omega)
  have hn32 := toNat_toUInt32 n
  rw [if_pos hn] at hn32
  rw [filereadStores]
  split_ifs
  · simp
  · cases f.backing with
    | inode size off =>
      have hcount := UInt32.le_iff_toNat_le.mp (readiCount_le size off n.toUInt32)
      exact hshort _ (by omega)
    | console input => exact hshort _ (consoleCount_le input n.toInt)
    | pipe avail room => exact hshort _ (by omega)

/-- With a negative count, only a read from a file stores anything: the rest of the
file, if the offset passes the check for overflow. -/
theorem filereadStores_neg {sz p : UInt32} {f : OpenFile} {n : Int32} (hsz : sz.toNat < KERNBASE)
    (hn : n.toInt < 0) (hp : p < sz) : (∀ a ∈ filereadStores f p n, a < sz) ↔
      ¬ (f.readable = true ∧ ∃ size off, f.backing = .inode size off ∧ off ≤ size ∧
        off ≤ off + n.toUInt32 ∧ sz.toNat < p.toNat + (size - off).toNat) := by
  have hn32 := toNat_toUInt32 n
  rw [if_neg (by omega)] at hn32
  have hge := n.le_toInt
  have hzero : n.toInt.toNat = 0 := by omega
  have hp' := UInt32.lt_iff_toNat_lt.mp hp
  simp only [KERNBASE] at hsz
  rw [filereadStores]
  cases hr : f.readable with
  | false => simp
  | true =>
    rw [if_neg (by decide)]
    cases hb : f.backing with
    | console input =>
      have := consoleCount_le input n.toInt
      simp [show consoleCount input n.toInt = 0 by omega, span]
    | pipe avail room => simp [hzero, span]
    | inode size off =>
      rw [span_lt_iff hp, readiCount]
      split_ifs with h₁ h₂
      · refine iff_of_true (by simp; omega) ?_
        rintro ⟨-, size', off', heq, hle, hwrap, -⟩
        obtain ⟨rfl, rfl⟩ := Backing.inode.inj heq
        exact h₁.elim (UInt32.not_lt.mpr hle) (UInt32.not_lt.mpr hwrap)
      · simp only [not_or, UInt32.not_lt] at h₁
        simp only [true_and, Backing.inode.injEq, existsAndEq, h₁]
        omega
      · simp only [not_or, UInt32.not_lt] at h₁ h₂
        have hsub := UInt32.toNat_sub_of_le size off h₁.1
        have hnn := n.toUInt32.toNat_lt
        have hoff := off.toNat_lt
        have hwrap := UInt32.le_iff_toNat_le.mp h₁.2
        have hrest := UInt32.le_iff_toNat_le.mp h₂
        rw [UInt32.toNat_add] at hwrap hrest
        refine iff_of_false (by omega) (not_not.mpr ⟨rfl, size, off, rfl, h₁.1, h₁.2, ?_⟩)
        omega

/-- `read` and `write` keep to the memory of the process exactly if no negative
count makes `readi` copy more of a file than fits. -/
theorem sysRead_sysWrite_confined_iff {sz p : UInt32} {f : OpenFile} {n : Int32}
    (hsz : sz.toNat < KERNBASE) : ((∀ a ∈ sysReadStores sz f p n, a < sz) ∧
      ∀ a ∈ sysWriteFetches sz f p n, a < sz) ↔ ¬ Overrun sz f p n := by
  rw [and_iff_left (sysWriteFetches_lt hsz), sysReadStores, Overrun]
  cases harg : argptr sz p n with
  | none =>
    refine iff_of_true (by simp) ?_
    rintro ⟨-, hp, hend, -⟩
    have := argptr_eq_some.mpr ⟨rfl, hp, hend⟩
    simp [harg] at this
  | some addr =>
    obtain ⟨rfl, hp, hend⟩ := argptr_eq_some.mp harg
    by_cases hn : 0 ≤ n.toInt
    · refine iff_of_true (filereadStores_nonneg hn hp (argptr_nonneg hsz hn harg).2.2) ?_
      rintro ⟨hneg, -⟩
      rw [Int32.lt_iff_toInt_lt] at hneg
      exact absurd hneg (not_lt.mpr hn)
    · have hneg : n < 0 := Int32.lt_iff_toInt_lt.mpr (not_le.mp hn)
      rw [filereadStores_neg hsz (not_le.mp hn) hp]
      simp only [hneg, hp, hend, true_and]

theorem sysRead_sysWrite_confined_iff_page :
    ¬ Overrun 8192 ⟨true, true, .inode 600 0⟩ 4096 512 ∧
      ((∀ a ∈ sysReadStores 8192 ⟨true, true, .inode 600 0⟩ 4096 512, a < 8192) ∧
        ∀ a ∈ sysWriteFetches 8192 ⟨true, true, .inode 600 0⟩ 4096 512, a < 8192) := by
  have hno : ¬ Overrun 8192 ⟨true, true, .inode 600 0⟩ 4096 512 := fun h => absurd h.1 (by decide)
  exact ⟨hno, (sysRead_sysWrite_confined_iff (by decide)).mpr hno⟩

/-- `read(fd, sz - 4, -1)` at the start of a file of 100 bytes stores 96 bytes
behind the memory of the process. -/
theorem sysRead_overrun : (8192 : UInt32) ∈ sysReadStores 8192 ⟨true, false, .inode 100 0⟩ 8188 (-1) ∧
    ¬ ((8192 : UInt32) < 8192) := by
  decide

end Lainos.Kernel
