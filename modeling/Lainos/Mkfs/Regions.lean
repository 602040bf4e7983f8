import Lainos.Mkfs.Tree

/-!
# Where mkfs writes

mkfs checks neither that the inodes it numbers are below `ninodes` nor that the
blocks it hands out end before the log. `InRegions` is what it should keep to,
and it does exactly for trees that are small enough.
-/

namespace Lainos.Mkfs

open Library

variable {st st' : State} {i : ℕ}

/-! ## Inode and block numbers are given in order -/

/-- The inodes written are those numbered so far, and the blocks assigned are
those from the first data block up to `freeblock`. This does not depend on where
the inodes lie, so it holds for trees of any size. -/
structure Counted (st : State) : Prop where
  used : st.usedblocks = st.freeblock
  low : firstData ≤ st.freeblock
  assigned : st.assigned = List.range' firstData (st.freeblock - firstData)
  written : ∀ i, i ∈ st.written ↔ Live st i

theorem Counted.store (h : Counted st) (sec : ℕ) (buf : Block) : Counted (st.store sec buf) :=
  ⟨h.used, h.low, h.assigned, h.written⟩

theorem Counted.take (h : Counted st) : Counted st.take := by
  have hlow := h.low
  refine ⟨congrArg (· + 1) h.used, Nat.le_succ_of_le hlow, ?_, h.written⟩
  change st.assigned ++ [st.freeblock] = List.range' firstData (st.freeblock + 1 - firstData)
  rw [h.assigned, Nat.succ_sub hlow, List.range'_concat]
  congr 2
  omega

theorem Counted.wrote (h : Counted st) (hi : Live st i) : Counted (st.wrote i) := by
  refine ⟨h.used, h.low, h.assigned, fun j => ?_⟩
  change j ∈ st.written ++ [i] ↔ Live st j
  rw [List.mem_append, h.written, List.mem_singleton]
  exact ⟨fun hj => hj.elim id fun hji => hji ▸ hi, Or.inl⟩

theorem winode_counted {d : Dinode} (h : Counted st) (hi : Live st i)
    (hrun : winode i d st = .ok ((), st')) : Counted st' ∧ st'.freeinode = st.freeinode := by
  obtain ⟨-, rfl⟩ := winode_eq_ok.mp hrun
  exact ⟨(h.store _ _).wrote hi, rfl⟩

theorem indirectOf_counted {d d' : Dinode} (h : Counted st)
    (hrun : indirectOf d st = .ok (d', st')) : Counted st' ∧ st'.freeinode = st.freeinode := by
  rw [indirectOf] at hrun
  split_ifs at hrun with hd
  · rw [Exec.bind_of_ok takeBlock_run] at hrun
    simp only [Exec.pure_run, Except.ok.injEq, Prod.mk.injEq] at hrun
    obtain ⟨-, rfl⟩ := hrun
    exact ⟨h.take, rfl⟩
  · simp only [Exec.pure_run, Except.ok.injEq, Prod.mk.injEq] at hrun
    obtain ⟨-, rfl⟩ := hrun
    exact ⟨h, rfl⟩

theorem blockFor_counted {d : Dinode} {fbn : ℕ} {r : Dinode × UInt32} (h : Counted st)
    (hrun : blockFor d fbn st = .ok (r, st')) : Counted st' ∧ st'.freeinode = st.freeinode := by
  rw [blockFor] at hrun
  split_ifs at hrun with hdir h₀
  · rw [Exec.bind_of_ok takeBlock_run] at hrun
    simp only [Exec.pure_run, Except.ok.injEq, Prod.mk.injEq] at hrun
    obtain ⟨-, rfl⟩ := hrun
    exact ⟨h.take, rfl⟩
  · simp only [Exec.pure_run, Except.ok.injEq, Prod.mk.injEq] at hrun
    obtain ⟨-, rfl⟩ := hrun
    exact ⟨h, rfl⟩
  · rw [Exec.bind_eq_ok] at hrun
    obtain ⟨d₁, st₁, hind, hrun⟩ := hrun
    obtain ⟨h₁, hfi₁⟩ := indirectOf_counted h hind
    rw [Exec.bind_eq_ok] at hrun
    obtain ⟨buf, st₂, hread, hrun⟩ := hrun
    obtain ⟨-, rfl, rfl⟩ := rsect_eq_ok.mp hread
    split_ifs at hrun with hx
    · rw [Exec.bind_of_ok takeBlock_run, Exec.bind_of_ok (wsect_run _ _)] at hrun
      simp only [Exec.pure_run, Except.ok.injEq, Prod.mk.injEq] at hrun
      obtain ⟨-, rfl⟩ := hrun
      exact ⟨h₁.take.store _ _, hfi₁⟩
    · simp only [Exec.pure_run, Except.ok.injEq, Prod.mk.injEq] at hrun
      obtain ⟨-, rfl⟩ := hrun
      exact ⟨h₁, hfi₁⟩

theorem appendLoop_counted {fuel off : ℕ} {d : Dinode} {p : List UInt8} {r : Dinode × ℕ}
    (h : Counted st) (hrun : appendLoop fuel d off p st = .ok (r, st')) :
    Counted st' ∧ st'.freeinode = st.freeinode := by
  induction fuel generalizing st d off p with
  | zero =>
    simp only [appendLoop, Exec.pure_run, Except.ok.injEq, Prod.mk.injEq] at hrun
    obtain ⟨-, rfl⟩ := hrun
    exact ⟨h, rfl⟩
  | succ fuel ih =>
    rw [appendLoop] at hrun
    dsimp only at hrun
    split_ifs at hrun with hp hmax
    · simp only [Exec.pure_run, Except.ok.injEq, Prod.mk.injEq] at hrun
      obtain ⟨-, rfl⟩ := hrun
      exact ⟨h, rfl⟩
    · rw [Exec.bind_eq_ok] at hrun
      obtain ⟨⟨d₁, x⟩, st₁, hblock, hrun⟩ := hrun
      obtain ⟨h₁, hfi₁⟩ := blockFor_counted h hblock
      dsimp only at hrun
      rw [Exec.bind_eq_ok] at hrun
      obtain ⟨buf, st₂, hread, hrun⟩ := hrun
      obtain ⟨-, rfl, rfl⟩ := rsect_eq_ok.mp hread
      rw [Exec.bind_of_ok (wsect_run _ _)] at hrun
      obtain ⟨h₂, hfi₂⟩ := ih (h₁.store _ _) hrun
      exact ⟨h₂, hfi₂.trans hfi₁⟩
    · simp at hrun

theorem iappend_counted {p : List UInt8} (h : Counted st) (hi : Live st i)
    (hrun : iappend i p st = .ok ((), st')) : Counted st' ∧ st'.freeinode = st.freeinode := by
  rw [iappend, rinode, bind_assoc, Exec.bind_eq_ok] at hrun
  obtain ⟨buf, st₀, hread, hrun⟩ := hrun
  obtain ⟨-, rfl, rfl⟩ := rsect_eq_ok.mp hread
  rw [pure_bind, Exec.bind_eq_ok] at hrun
  obtain ⟨⟨d, off⟩, st₁, hloop, hwrite⟩ := hrun
  obtain ⟨h₁, hfi₁⟩ := appendLoop_counted h hloop
  obtain ⟨h₂, hfi₂⟩ := winode_counted h₁ ⟨hi.1, hfi₁ ▸ hi.2⟩ hwrite
  exact ⟨h₂, hfi₂.trans hfi₁⟩

theorem ialloc_counted {type : Int16} {n : ℕ} (h : Counted st) (hpos : 1 ≤ st.freeinode)
    (hrun : ialloc type st = .ok (n, st')) :
    n = st.freeinode ∧ Counted st' ∧ st'.freeinode = st.freeinode + 1 := by
  rw [ialloc, Exec.bind_of_ok Exec.get_run, Exec.bind_of_ok Exec.set_run, Exec.bind_eq_ok] at hrun
  obtain ⟨_, st₁, hwrite, hrun⟩ := hrun
  simp only [Exec.pure_run, Except.ok.injEq, Prod.mk.injEq] at hrun
  obtain ⟨rfl, rfl⟩ := hrun
  obtain ⟨-, rfl⟩ := winode_eq_ok.mp hwrite
  refine ⟨rfl, ⟨h.used, h.low, h.assigned, fun j => ?_⟩, rfl⟩
  change j ∈ st.written ++ [st.freeinode] ↔ 1 ≤ j ∧ j < st.freeinode + 1
  rw [List.mem_append, h.written, List.mem_singleton, Live]
  omega

theorem copyFile_counted {fuel : ℕ} {bytes : List UInt8} (h : Counted st) (hi : Live st i)
    (hrun : copyFile i fuel bytes st = .ok ((), st')) :
    Counted st' ∧ st'.freeinode = st.freeinode := by
  induction fuel generalizing st bytes with
  | zero =>
    simp only [copyFile, Exec.pure_run, Except.ok.injEq, Prod.mk.injEq, true_and] at hrun
    exact hrun ▸ ⟨h, rfl⟩
  | succ fuel ih =>
    rw [copyFile] at hrun
    split_ifs at hrun with hb
    · simp only [Exec.pure_run, Except.ok.injEq, Prod.mk.injEq, true_and] at hrun
      exact hrun ▸ ⟨h, rfl⟩
    · rw [Exec.bind_eq_ok] at hrun
      obtain ⟨_, st₁, hone, hrest⟩ := hrun
      obtain ⟨h₁, hfi₁⟩ := iappend_counted h hi hone
      obtain ⟨h₂, hfi₂⟩ := ih h₁ ⟨hi.1, hfi₁ ▸ hi.2⟩ hrest
      exact ⟨h₂, hfi₂.trans hfi₁⟩

theorem addDots_counted {cur parent : ℕ} (h : Counted st) (hcur : Live st cur)
    (hrun : addDots cur parent st = .ok ((), st')) :
    Counted st' ∧ st'.freeinode = st.freeinode := by
  rw [addDots, Exec.bind_eq_ok] at hrun
  obtain ⟨_, st₁, hone, htwo⟩ := hrun
  obtain ⟨h₁, hfi₁⟩ := iappend_counted h hcur hone
  obtain ⟨h₂, hfi₂⟩ := iappend_counted h₁ ⟨hcur.1, hfi₁ ▸ hcur.2⟩ htwo
  exact ⟨h₂, hfi₂.trans hfi₁⟩

theorem fixSize_counted (h : Counted st) (hi : Live st i) (hrun : fixSize i st = .ok ((), st')) :
    Counted st' ∧ st'.freeinode = st.freeinode := by
  rw [fixSize, rinode, bind_assoc, Exec.bind_eq_ok] at hrun
  obtain ⟨buf, st₀, hread, hwrite⟩ := hrun
  obtain ⟨-, rfl, rfl⟩ := rsect_eq_ok.mp hread
  exact winode_counted h hi hwrite

theorem addEntries_counted {t : HostDir} {cur : ℕ} (h : Counted st) (hcur : Live st cur)
    (hrun : addEntries cur t st = .ok ((), st')) :
    Counted st' ∧ st'.freeinode = st.freeinode + t.count := by
  induction t generalizing st st' cur with
  | nil =>
    simp only [addEntries, Exec.pure_run, Except.ok.injEq, Prod.mk.injEq, true_and] at hrun
    exact hrun ▸ ⟨h, rfl⟩
  | file name data rest ih =>
    rw [addEntries] at hrun
    rw [HostDir.count]
    split_ifs at hrun ⊢ with hh
    · simpa using ih h hcur hrun
    · rw [Exec.bind_eq_ok] at hrun
      obtain ⟨child, st₁, halloc, hrun⟩ := hrun
      rw [Exec.bind_eq_ok] at hrun
      obtain ⟨_, st₂, hcopy, hrun⟩ := hrun
      rw [Exec.bind_eq_ok] at hrun
      obtain ⟨_, st₃, hent, hrest⟩ := hrun
      have hlt := hcur.2
      obtain ⟨rfl, h₁, hfi₁⟩ := ialloc_counted h (hcur.1.trans hlt.le) halloc
      obtain ⟨h₂, hfi₂⟩ := copyFile_counted h₁ ⟨hcur.1.trans hlt.le, by omega⟩ hcopy
      obtain ⟨h₃, hfi₃⟩ := iappend_counted h₂ ⟨hcur.1, by omega⟩ hent
      obtain ⟨h₄, hfi₄⟩ := ih h₃ ⟨hcur.1, by omega⟩ hrest
      exact ⟨h₄, by omega⟩
  | dir name sub rest ihsub ih =>
    rw [addEntries] at hrun
    rw [HostDir.count]
    split_ifs at hrun ⊢ with hh
    · simpa using ih h hcur hrun
    · rw [Exec.bind_eq_ok] at hrun
      obtain ⟨child, st₁, halloc, hrun⟩ := hrun
      rw [Exec.bind_eq_ok] at hrun
      obtain ⟨_, sta, hdots, hrun⟩ := hrun
      rw [Exec.bind_eq_ok] at hrun
      obtain ⟨_, stb, hsub, hrun⟩ := hrun
      rw [Exec.bind_eq_ok] at hrun
      obtain ⟨_, st₂, hfix, hrun⟩ := hrun
      rw [Exec.bind_eq_ok] at hrun
      obtain ⟨_, st₃, hent, hrest⟩ := hrun
      have hlt := hcur.2
      have hpos := hcur.1.trans hlt.le
      obtain ⟨rfl, h₁, hfi₁⟩ := ialloc_counted h hpos halloc
      obtain ⟨ha, hfia⟩ := addDots_counted h₁ ⟨hpos, by omega⟩ hdots
      obtain ⟨hb, hfib⟩ := ihsub ha ⟨hpos, by omega⟩ hsub
      obtain ⟨h₂, hfi₂⟩ := fixSize_counted hb ⟨hpos, by omega⟩ hfix
      obtain ⟨h₃, hfi₃⟩ := iappend_counted h₂ ⟨hcur.1, by omega⟩ hent
      obtain ⟨h₄, hfi₄⟩ := ih h₃ ⟨hcur.1, by omega⟩ hrest
      exact ⟨h₄, by omega⟩

theorem main_counted {t : HostDir} (hrun : main t State.empty = .ok ((), st')) :
    Counted st' ∧ st'.freeinode = 2 + t.count ∧ st'.img 28 = bitmap st'.freeblock := by
  obtain ⟨st₀, hmkfs, hg₀, hfi₀, hfb₀, -, hw₀, ha₀⟩ := mkfs_spec
  have h₀ : Counted st₀ := by
    refine ⟨hg₀.used, hg₀.low, by rw [ha₀, hfb₀]; rfl, fun j => ?_⟩
    rw [hw₀, Live, hfi₀]
    simp
    omega
  rw [main, Exec.bind_of_ok hmkfs, Exec.bind_eq_ok] at hrun
  obtain ⟨root, st₁, halloc, hrun⟩ := hrun
  obtain ⟨rfl, h₁, hfi₁⟩ := ialloc_counted h₀ hfi₀.ge halloc
  rw [hfi₀] at hrun hfi₁
  rw [if_pos (show 1 = ROOTINO from rfl), Exec.bind_eq_ok] at hrun
  obtain ⟨_, st₂, hdir, hrun⟩ := hrun
  rw [addDir, Exec.bind_eq_ok] at hdir
  obtain ⟨_, sta, hdots, hdir⟩ := hdir
  rw [Exec.bind_eq_ok] at hdir
  obtain ⟨_, stb, hents, hfix⟩ := hdir
  obtain ⟨ha, hfia⟩ := addDots_counted h₁ ⟨le_rfl, by omega⟩ hdots
  obtain ⟨hb, hfib⟩ := addEntries_counted ha ⟨le_rfl, by omega⟩ hents
  obtain ⟨h₂, hfi₂⟩ := fixSize_counted hb ⟨le_rfl, by omega⟩ hfix
  rw [Exec.bind_of_ok Exec.get_run, balloc, h₂.used] at hrun
  split_ifs at hrun with hused
  · rw [wsect_run] at hrun
    simp only [Except.ok.injEq, Prod.mk.injEq, true_and] at hrun
    subst hrun
    refine ⟨h₂.store _ _, ?_, ?_⟩
    · rw [store_freeinode]
      omega
    · have hbit : ninodes / IPB + 3 = 28 := rfl
      rw [hbit, store_img, Function.update_self, store_freeblock]
  · simp at hrun

/-! ## The regions of the image -/

/-- First block of the log, where `initlog` looks for it. -/
def logStart : ℕ := 1024 - LOGSIZE

/-- Everything lies where the superblock says. -/
structure InRegions (st : State) : Prop where
  inodes : ∀ i ∈ st.written, i < ninodes ∧ 2 ≤ i2b i ∧ i2b i < ninodes / IPB + 3
  blocks : ∀ b ∈ st.assigned, firstData ≤ b ∧ b < logStart
  refs : ∀ i ∈ st.written, ∀ k < NREF, refAt st.img (dinodeAt st.img i) k ≠ 0 →
    firstData ≤ (refAt st.img (dinodeAt st.img i) k).toNat ∧
      (refAt st.img (dinodeAt st.img i) k).toNat < logStart
  log : ∀ b, logStart ≤ b → b < 1024 → st.img b = zeroBlock
  bitmap : ∀ b < BPB, testBit (st.img (ninodes / IPB + 3)) b = true ↔ b < st.freeblock

/-- mkfs never notices that it has run out of inodes or of data blocks. -/
theorem inRegions_iff {t : HostDir} (hrun : main t State.empty = .ok ((), st)) :
    InRegions st ↔ t.count + 1 < ninodes ∧ t.total ≤ 985 := by
  obtain ⟨hc, hfi, hbits⟩ := main_counted hrun
  have hN : ninodes = 200 := rfl
  constructor
  · intro h
    have hinodes : t.count + 1 < ninodes :=
      (h.inodes (t.count + 1) ((hc.written _).mpr ⟨by omega, by omega⟩)).1
    refine ⟨hinodes, ?_⟩
    have hb := main_spec (by rw [inodeRoom]; omega) hrun
    have hfree := hb.freeblock
    by_contra hbig
    have hlog := (h.blocks logStart (by
      rw [hc.assigned, List.mem_range'_1]
      simp only [logStart, firstData, LOGSIZE] at *
      omega)).2
    omega
  · rintro ⟨hinodes, hblocks⟩
    have hb := main_spec (by rw [inodeRoom]; omega) hrun
    have hfree := hb.freeblock
    have hlow : firstData = 29 := rfl
    have hlog : logStart = 1014 := rfl
    refine ⟨?_, ?_, ?_, ?_, ?_⟩
    · intro i hi
      have hi' := (hc.written i).mp hi
      have hlt : i < ninodes := by
        have := hi'.2
        omega
      refine ⟨hlt, i2b_lt ?_⟩
      rw [inodeRoom]
      omega
    · intro b hb'
      rw [hc.assigned, List.mem_range'_1] at hb'
      omega
    · intro i hi k hk hne
      have harea := hb.good.owned.area i ((hc.written i).mp hi) k hk hne
      exact ⟨harea.1, by omega⟩
    · exact fun b hlo hhi => hb.good.zero b (by omega) hhi
    · intro b _
      have hbit : ninodes / IPB + 3 = 28 := rfl
      rw [hbit, hbits, testBit_bitmap, decide_eq_true_eq]

/-- A tree with a file in a subdirectory keeps to its regions. -/
theorem inRegions_iff_small : ∃ st,
    main (.dir [97] (.file [98] [1, 2, 3] .nil) .nil) State.empty = .ok ((), st) ∧ InRegions st := by
  obtain ⟨st, hrun⟩ := main_ok (t := .dir [97] (.file [98] [1, 2, 3] .nil) .nil) (by decide)
    (by simp [HostDir.Small, hidden, HostDir.width, MAXFILE, NDIRECT, NINDIRECT, BSIZE]) (by decide)
    (by decide)
  exact ⟨st, hrun, (inRegions_iff hrun).mpr (by decide)⟩

/-- Seven files of the largest size, `a` to `g`. -/
def sevenFiles : HostDir :=
  [103, 102, 101, 100, 99, 98, 97].foldl
    (fun t c => .file [c] (List.replicate (MAXFILE * BSIZE) 0) t) .nil

/-- Their blocks reach into the log, and mkfs exits with success. -/
theorem sevenFiles_overrun : ∃ st, main sevenFiles State.empty = .ok ((), st) ∧
    logStart ∈ st.assigned ∧ ¬ InRegions st := by
  have hcount : sevenFiles.count = 7 := by simp [sevenFiles, HostDir.count, hidden]
  have hwidth : sevenFiles.width = 7 := by simp [sevenFiles, HostDir.width, hidden]
  have hfile : refCount (blockCount (MAXFILE * BSIZE)) = 141 := by decide
  have htotal : sevenFiles.total = 988 := by
    have hdir : HostDir.dirBlocks 7 = 1 := by decide
    rw [HostDir.total, hwidth, hdir]
    simp [sevenFiles, HostDir.blocks, hidden, hfile]
  have hsmall : sevenFiles.Small := by simp [sevenFiles, HostDir.Small]
  obtain ⟨st, hrun⟩ := main_ok (by rw [hcount]; decide) hsmall (by rw [hwidth]; decide)
    (by rw [htotal]; decide)
  obtain ⟨hc, -, -⟩ := main_counted hrun
  have hb := main_spec (by rw [hcount]; decide) hrun
  have hmem : logStart ∈ st.assigned := by
    rw [hc.assigned, hb.freeblock, htotal, List.mem_range'_1]
    decide
  exact ⟨st, hrun, hmem, fun h => absurd (h.blocks _ hmem).2 (lt_irrefl _)⟩

end Lainos.Mkfs
