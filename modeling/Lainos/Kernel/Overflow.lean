import Lainos.Kernel.Cache
import Lainos.Kernel.Filewrite

/-!
# A write that does not fit in the log

From four blocks of free map on there are files and free maps with which a single chunk of
`filewrite` comes to more blocks than `log_write` lets into a transaction: each block that
is allocated has its bit in another block of the map.
-/

namespace Lainos.Kernel

open Library

variable {s : Sys} {p : Pid}

section Sparse

variable (m : ℕ)

/-- The free data blocks, one for each of the last four blocks of the free map. -/
def spareBlock (j : ℕ) : ℕ := 4096 * (m - 4 + j) + 2000

def sparseSuperblock : Superblock :=
  ⟨UInt32.ofNat (4096 * (m - 1) + 3000), UInt32.ofNat (4096 * (m - 1) + 3000 - 10 - (m + 4)), 8, 10⟩

/-- A file of twelve blocks, the last of which lacks a byte. -/
def sparseDinode : Dinode :=
  ⟨T_FILE, 0, 0, 1, 6143, fun j => if j.val < 12 then UInt32.ofNat (m + 4 + j.val) else 0⟩

def sparseMap (j : ℕ) : Block := fun i => if m - 4 ≤ j ∧ i = 250 then 254 else 255

def sparseDisk : Disk := fun x =>
  if x = 1 then (sparseSuperblock m).encode
  else if x = 2 then putDinode zeroBlock 1 (sparseDinode m)
  else if 4 ≤ x ∧ x < m + 4 then sparseMap m (x - 4)
  else zeroBlock

/-- The file is open for writing, and its offset is at the end. -/
def sparse : Sys where
  disk := sparseDisk m
  log := ⟨4096 * (m - 1) + 2990, 10, false, [], none⟩
  icache := fun _ => ⟨1, 1, false, true, sparseDinode m⟩
  ftable := fun _ => ⟨.inode, 1, true, true, 0, 0, 6143⟩
  pipe := fun _ => none
  proc := fun _ => ⟨.running, none, fun fd => if fd = 0 then some 0 else none⟩
  trace := []

variable {m}

theorem sparse_size (hm : 4 ≤ m) (hlt : m < 2 ^ 19) :
    (sparseSuperblock m).size.toNat = 4096 * (m - 1) + 3000 := by
  rw [sparseSuperblock, UInt32.toNat_ofNat', Nat.mod_eq_of_lt (by omega)]

theorem sparse_bitBlocks (hm : 4 ≤ m) (hlt : m < 2 ^ 19) : bitBlocks (sparseSuperblock m) = m := by
  rw [bitBlocks, sparse_size hm hlt, BPB, BSIZE]
  omega

theorem sparse_bitStart (m : ℕ) : bitStart (sparseSuperblock m) = 4 := by
  simp [bitStart, sparseSuperblock, IPB]

theorem sparse_usedBlocks (hm : 4 ≤ m) (hlt : m < 2 ^ 19) :
    usedBlocks (sparseSuperblock m) = m + 4 := by
  rw [usedBlocks, sparse_bitBlocks hm hlt, sparse_bitStart]
  omega

theorem sparse_logStart (hm : 4 ≤ m) (hlt : m < 2 ^ 19) :
    logStart (sparseSuperblock m) = 4096 * (m - 1) + 2990 := by
  rw [logStart, sparse_size hm hlt]
  rfl

theorem sparse_formatted (hm : 4 ≤ m) (hlt : m < 2 ^ 19) :
    Formatted (sparseSuperblock m) (sparse m) := by
  refine ⟨Superblock.decode_encode _, rfl, ?_, (sparse_logStart hm hlt).symm, rfl⟩
  have hnblocks : (sparseSuperblock m).nblocks.toNat = 4096 * (m - 1) + 3000 - 10 - (m + 4) := by
    rw [sparseSuperblock, UInt32.toNat_ofNat', Nat.mod_eq_of_lt (by omega)]
  have hnlog : (sparseSuperblock m).nlog.toNat = 10 := rfl
  rw [hnblocks, hnlog, sparse_usedBlocks hm hlt, sparse_size hm hlt]
  omega

/-- Which data blocks are free. -/
theorem sparse_marked (hm : 4 ≤ m) {x : ℕ} (hx : x < 4096 * m) :
    Marked (sparseSuperblock m) (sparseDisk m) x ↔ ∀ j < 4, x ≠ spareBlock m j := by
  have hblock : BBLOCK x (sparseSuperblock m).ninodes.toNat = 4 + x / 4096 := by
    rw [BBLOCK_eq, sparse_bitStart]
    rfl
  have hdisk : sparseDisk m (4 + x / 4096) = sparseMap m (x / 4096) := by
    rw [sparseDisk, if_neg (by omega), if_neg (by omega), if_pos (by omega),
      Nat.add_sub_cancel_left]
  have h254 : ∀ r < 8, (254 : UInt8).toNat.testBit r = decide (r ≠ 0) := by decide
  have h255 : ∀ r < 8, (255 : UInt8).toNat.testBit r = true := by decide
  have hr : x % 4096 % 8 < 8 := Nat.mod_lt _ (by omega)
  have hbpb : BPB = 4096 := rfl
  rw [Marked, hblock, hdisk, hbpb, testBit, sparseMap]
  simp only [spareBlock]
  split_ifs with h
  · rw [h254 _ hr, decide_eq_true_eq]
    constructor
    · intro hne j hj
      omega
    · intro hne hzero
      exact hne (x / 4096 - (m - 4)) (by omega) (by omega)
  · rw [h255 _ hr]
    refine iff_of_true rfl fun j hj => ?_
    omega

theorem spareBlock_data (hm : 4 ≤ m) (hlt : m < 2 ^ 19) {j : ℕ} (hj : j < 4) :
    DataBlock (sparseSuperblock m) (spareBlock m j) := by
  rw [DataBlock, sparse_usedBlocks hm hlt, sparse_logStart hm hlt, spareBlock]
  omega

theorem sparse_addr {j : ℕ} (hj : j < 12) : (sparseDinode m).addr j = UInt32.ofNat (m + 4 + j) := by
  have hval : (Fin.ofNat 13 j).val = j := Nat.mod_eq_of_lt (by omega)
  rw [Dinode.addr, sparseDinode]
  simp only [hval, if_pos hj]

theorem sparse_refAt (disk : Disk) (j : ℕ) : refAt disk (sparseDinode m) j =
    if j < 12 then UInt32.ofNat (m + 4 + j) else 0 := by
  by_cases hj : j < 12
  · rw [if_pos hj, refAt_addr (by simp only [NDIRECT]; omega), sparse_addr hj]
  · rw [if_neg hj]
    by_cases hj' : j ≤ NDIRECT
    · obtain rfl : j = 12 := by
        simp only [NDIRECT] at hj'
        omega
      rfl
    · exact refAt_none (by omega) rfl

theorem sparse_toNat (hlt : m < 2 ^ 19) {j : ℕ} (hj : j < 12) :
    (UInt32.ofNat (m + 4 + j)).toNat = m + 4 + j := by
  rw [UInt32.toNat_ofNat', Nat.mod_eq_of_lt (by omega)]

theorem sparse_ref_ne_zero (hlt : m < 2 ^ 19) {j : ℕ} (hj : j < 12) :
    UInt32.ofNat (m + 4 + j) ≠ 0 := by
  intro h
  have := congrArg UInt32.toNat h
  rw [sparse_toNat hlt hj, UInt32.toNat_zero] at this
  omega

theorem sparse_backed (hm : 4 ≤ m) (hlt : m < 2 ^ 19) :
    Backed (sparseSuperblock m) (sparseDisk m) (sparseDinode m) := by
  have hlow : ∀ j, refAt (sparseDisk m) (sparseDinode m) j ≠ 0 → j < 12 := by
    intro j hne
    by_contra hj
    rw [sparse_refAt, if_neg hj] at hne
    exact hne rfl
  have hval : ∀ j < 12, (refAt (sparseDisk m) (sparseDinode m) j).toNat = m + 4 + j := by
    intro j hj
    rw [sparse_refAt, if_pos hj, sparse_toNat hlt hj]
  refine ⟨fun j _ hne => ?_, fun j _ hne => ?_, fun j _ l _ hne heq => ?_⟩
  · rw [hval j (hlow j hne), DataBlock, sparse_usedBlocks hm hlt, sparse_logStart hm hlt]
    have := hlow j hne
    omega
  · have hj := hlow j hne
    rw [hval j hj, sparse_marked hm (by omega)]
    intro i hi
    simp only [spareBlock]
    omega
  · have hj := hval j (hlow j hne)
    have hl := hval l (hlow l (heq ▸ hne))
    rw [heq] at hj
    omega

theorem sparse_room (hm : 4 ≤ m) (hlt : m < 2 ^ 19) :
    Room (sparseSuperblock m) (sparseDisk m) (sparseDinode m) 15 := by
  refine ⟨(Finset.range 4).image (spareBlock m), fun b hb => ?_, ?_⟩
  · obtain ⟨j, hj, rfl⟩ := Finset.mem_image.mp hb
    have hj := Finset.mem_range.mp hj
    refine ⟨spareBlock_data hm hlt hj, fun hmarked => ?_⟩
    rw [sparse_marked hm (by simp only [spareBlock]; omega)] at hmarked
    exact hmarked j hj rfl
  · have hsub : missing (sparseDisk m) (sparseDinode m) 15 ⊆ Finset.Ico 12 16 := by
      intro j hj
      obtain ⟨hlt', hzero⟩ := mem_missing.mp hj
      have hcount : refCount 15 = 16 := rfl
      refine Finset.mem_Ico.mpr ⟨?_, by omega⟩
      by_contra hj12
      rw [sparse_refAt, if_pos (by omega)] at hzero
      exact sparse_ref_ne_zero hlt (by omega) hzero
    have hinj : Function.Injective (spareBlock m) := by
      intro i j h
      simp only [spareBlock] at h
      omega
    rw [Finset.card_image_of_injective _ hinj, Finset.card_range]
    exact Finset.card_le_card hsub

theorem sparse_writable (hm : 4 ≤ m) (hlt : m < 2 ^ 19) :
    Writable (sparseSuperblock m) 0 1536 (sparse m) := by
  refine ⟨sparse_formatted hm hlt, fun x hx => ?_, rfl, ?_, ?_, sparse_backed hm hlt, ?_⟩
  · rw [sparse_usedBlocks hm hlt] at hx
    refine (sparse_marked hm (by omega)).mpr fun j hj => ?_
    simp only [spareBlock]
    omega
  · change 1 < 8
    omega
  · have hcount : blockCount (sparseDinode m).size.toNat = 12 := by
      simp [sparseDinode, blockCount, BSIZE]
    intro j hj
    change refAt (sparseDisk m) (sparseDinode m) j ≠ 0 ↔ if j ≤ 12 then
      j < blockCount (sparseDinode m).size.toNat else j ≤ blockCount (sparseDinode m).size.toNat
    rw [sparse_refAt, hcount]
    by_cases hj' : j < 12
    · rw [if_pos hj', if_pos (by omega)]
      exact iff_of_true (sparse_ref_ne_zero hlt hj') hj'
    · rw [if_neg hj']
      refine iff_of_false (by simp) ?_
      split_ifs <;> omega
  · have hcount : min (blockCount (((sparse m).ftable 0).off.toNat + 1536)) MAXFILE = 15 := by
      simp [sparse, blockCount, BSIZE, MAXFILE, NDIRECT, NINDIRECT]
    rw [hcount]
    exact sparse_room hm hlt

/-- What the chunk has logged after `i` allocations. -/
def sparseLog (m i : ℕ) : List ℕ :=
  (m + 15) :: (List.range i).flatMap fun j => [m + j, spareBlock m j]

theorem length_sparseLog (m i : ℕ) : (sparseLog m i).length = 2 * i + 1 := by
  simp [sparseLog, Nat.mul_comm]

theorem sparseLog_succ (m i : ℕ) :
    sparseLog m (i + 1) = sparseLog m i ++ [m + i] ++ [spareBlock m i] := by
  simp [sparseLog, List.range_succ]

theorem mem_sparseLog {x i : ℕ} :
    x ∈ sparseLog m i ↔ x = m + 15 ∨ ∃ j < i, x = m + j ∨ x = spareBlock m j := by
  simp [sparseLog]

/-- The state after `i` allocations: the first `i` spare blocks are in use and logged. -/
structure Stage (m i : ℕ) (s : Sys) : Prop where
  formatted : Formatted (sparseSuperblock m) s
  marks : ∀ x < 4096 * (m - 1) + 2990, Marked (sparseSuperblock m) s.disk x ↔
    ∀ j < 4, i ≤ j → x ≠ spareBlock m j
  busy : s.log.busy = true
  sectors : s.log.sectors = sparseLog m i

theorem logWrite_of_room {b : ℕ} {data : Block} (hsize : s.log.size = 10)
    (hlen : s.log.sectors.length ≤ 8) (hbusy : s.log.busy = true) (hb : b < s.log.start) :
    logWrite p b data s = .ok ((), s.logged p b data) := by
  have hslot := start_lt_slot s.log b
  rw [logWrite, Exec.bind_of_ok Exec.get_run, if_neg (by rw [hsize, LOGSIZE]; omega), hbusy,
    if_neg (by simp), if_neg (by omega), Exec.set_run]

theorem logWrite_of_full {b : ℕ} {data : Block} (hsize : s.log.size = 10)
    (hlen : s.log.sectors.length = 9) :
    logWrite p b data s = .error ⟨.panic "too big a transaction", s⟩ := by
  rw [logWrite, Exec.bind_of_ok Exec.get_run, if_pos (by rw [hsize]; omega)]
  rfl

theorem length_logged_le (s : Sys) (p : Pid) (b : ℕ) (data : Block) :
    (s.logged p b data).log.sectors.length ≤ s.log.sectors.length + 1 := by
  rw [Sys.logged_log_sectors]
  split_ifs <;> simp

theorem Stage.firstFree {i : ℕ} (h : Stage m i s) (hm : 4 ≤ m) (hlt : m < 2 ^ 19) (hi : i < 4) :
    firstFree s.disk (sparseSuperblock m).ninodes.toNat (sparseSuperblock m).size.toNat 0 =
      some (spareBlock m i) := by
  have hfree : ¬ Marked (sparseSuperblock m) s.disk (spareBlock m i) := by
    rw [h.marks _ (by simp only [spareBlock]; omega)]
    exact fun hall => hall i hi le_rfl rfl
  obtain ⟨x, hle, hfound⟩ := @firstFree_of_free 0 (spareBlock m i) s.disk
    (sparseSuperblock m).ninodes.toNat (sparseSuperblock m).size.toNat (Bool.eq_false_iff.mpr hfree)
    (Nat.zero_le _) (by rw [sparse_size hm hlt, spareBlock]; omega)
  obtain ⟨-, -, hbit, -⟩ := firstFree_eq_some hfound
  have hx : ¬ Marked (sparseSuperblock m) s.disk x := by
    rw [Marked, hbit]
    simp
  rw [h.marks x (by simp only [spareBlock] at hle; omega)] at hx
  push Not at hx
  obtain ⟨j, hj, hij, rfl⟩ := hx
  simp only [spareBlock] at hle
  rw [hfound, show j = i by omega]

theorem Stage.balloc {i : ℕ} (h : Stage m i s) (hm : 4 ≤ m) (hlt : m < 2 ^ 19) (hi : i < 4) :
    balloc p s = .ok (UInt32.ofNat (spareBlock m i),
      s.ballocated (sparseSuperblock m) p (spareBlock m i)) := by
  have hdata := spareBlock_data hm hlt hi
  have hmap := BBLOCK_mem (h.formatted.lt_size hdata)
  have hsize : s.log.size = 10 := h.formatted.size
  have hstart := h.formatted.start
  have hused := h.formatted.used_le
  have hlen := length_sparseLog m i
  rw [← h.sectors] at hlen
  rw [Kernel.balloc, readsb, Exec.bind_of_ok (Exec.bind_of_ok Exec.get_run),
    Exec.bind_of_ok Exec.get_run, h.formatted.superblock, h.firstFree hm hlt hi]
  dsimp only
  rw [Exec.bind_of_ok (logWrite_of_room hsize (by omega) h.busy (by omega)), bzero]
  set s₁ := s.logged p (BBLOCK (spareBlock m i) (sparseSuperblock m).ninodes.toNat)
    (setBit (s.disk (BBLOCK (spareBlock m i) (sparseSuperblock m).ninodes.toNat))
      (spareBlock m i % BPB)) with hs₁
  have hlen₁ : s₁.log.sectors.length ≤ 8 := (length_logged_le ..).trans (by omega)
  have hzero := @logWrite_of_room s₁ p (spareBlock m i) zeroBlock hsize hlen₁ h.busy
    (hstart ▸ hdata.2)
  rw [Exec.bind_of_ok hzero, Exec.bind_of_ok (Exec.modify_run _)]
  rfl

/-- Logging a block that is in the log already. -/
theorem sectors_logged_of_mem {b : ℕ} {data : Block} (hb : b ∈ s.log.sectors) :
    (s.logged p b data).log.sectors = s.log.sectors := if_pos hb

theorem sectors_logged_of_notMem {b : ℕ} {data : Block} (hb : b ∉ s.log.sectors) :
    (s.logged p b data).log.sectors = s.log.sectors ++ [b] := if_neg hb

theorem Stage.ballocated {i : ℕ} (h : Stage m i s) (hm : 4 ≤ m) (hlt : m < 2 ^ 19) (hi : i < 4)
    (p : Pid) : Stage m (i + 1) (s.ballocated (sparseSuperblock m) p (spareBlock m i)) := by
  have hdata := spareBlock_data hm hlt hi
  have hfree : ¬ Marked (sparseSuperblock m) s.disk (spareBlock m i) := by
    rw [h.marks _ (by simp only [spareBlock]; omega)]
    exact fun hall => hall i hi le_rfl rfl
  have ha := ballocs_ballocated h.formatted hdata hfree p
  have hsize := sparse_size hm hlt
  refine ⟨ha.formatted h.formatted, fun x hx => ?_, h.busy, ?_⟩
  · rw [ha.marks x (by omega), h.marks x hx]
    constructor
    · rintro (hall | rfl) j hj hij
      · exact hall j hj (by omega)
      · simp only [spareBlock]
        omega
    · intro hall
      by_cases hx' : x = spareBlock m i
      · exact Or.inr hx'
      · refine Or.inl fun j hj hij => ?_
        by_cases hji : j = i
        · rwa [hji]
        · exact hall j hj (by omega)
  · have hmap : BBLOCK (spareBlock m i) (sparseSuperblock m).ninodes.toNat = m + i := by
      have hbpb : BPB = 4096 := rfl
      rw [BBLOCK_eq, sparse_bitStart, hbpb, spareBlock]
      omega
    have h₁ : m + i ∉ s.log.sectors := by
      rw [h.sectors, mem_sparseLog]
      rintro (hx | ⟨j, hj, hx | hx⟩)
      · omega
      · omega
      · simp only [spareBlock] at hx
        omega
    have h₂ : spareBlock m i ∉ s.log.sectors ++ [m + i] := by
      rw [h.sectors, List.mem_append, mem_sparseLog, List.mem_singleton]
      simp only [spareBlock]
      rintro ((hx | ⟨j, hj, hx | hx⟩) | hx) <;> omega
    rw [sparseLog_succ, ← h.sectors, Sys.ballocated, Sys.note_log, hmap]
    rw [← sectors_logged_of_notMem h₁] at h₂ ⊢
    exact sectors_logged_of_notMem h₂

/-- A block that has been logged is logged again. -/
theorem Stage.logged {i b : ℕ} {data : Block} (h : Stage m i s) (hm : 4 ≤ m) (hlt : m < 2 ^ 19)
    (hb : b ∈ s.log.sectors) (hdata : DataBlock (sparseSuperblock m) b) :
    Stage m i (s.logged p b data) := by
  have hf := h.formatted
  have hbits := bitStart_ge (sparseSuperblock m)
  have hlt' := bitStart_lt (sparseSuperblock m)
  have hle := hdata.1
  have hused := hf.used_le
  have hsize := sparse_size hm hlt
  have hdisk : ∀ x < usedBlocks (sparseSuperblock m), (s.logged p b data).disk x = s.disk x := by
    intro x hx
    rw [logged_disk (by rw [hf.start]; omega), if_neg (by omega)]
  refine ⟨⟨?_, hf.nlog, hf.blocks, hf.start, hf.size⟩, fun x hx => ?_, h.busy, ?_⟩
  · rw [hdisk 1 (by omega)]
    exact hf.superblock
  · rw [← h.marks x hx]
    exact Marked.congr (hdisk _ (BBLOCK_mem (by omega)).2)
  · rw [sectors_logged_of_mem hb, h.sectors]

/-- The indirect block is the first spare block, and has entries for the others that are in
use. -/
structure Indirect (m i : ℕ) (s : Sys) : Prop where
  addr : (s.icache 0).d.addr NDIRECT = UInt32.ofNat (spareBlock m 0)
  entries : ∀ e, i ≤ e + 1 → get32 (s.disk (spareBlock m 0)) (4 * e) = 0

theorem spareBlock_toNat (hlt : m < 2 ^ 19) {j : ℕ} (hj : j < 4) :
    (UInt32.ofNat (spareBlock m j)).toNat = spareBlock m j := by
  rw [UInt32.toNat_ofNat', Nat.mod_eq_of_lt (by simp only [spareBlock]; omega)]

theorem spareBlock_ne_zero (hlt : m < 2 ^ 19) {j : ℕ} (hj : j < 4) :
    UInt32.ofNat (spareBlock m j) ≠ 0 := by
  intro h
  have := congrArg UInt32.toNat h
  rw [spareBlock_toNat hlt hj, spareBlock, UInt32.toNat_zero] at this
  omega

/-- `bmap` where there is an indirect block, but no entry. -/
theorem Indirect.bmap_eq {i : ℕ} (h : Indirect m i s) (hlt : m < 2 ^ 19) (hi : 0 < i) (hi' : i < 4) :
    bmap p 0 (11 + i) s = (do
      let b ← Kernel.balloc p
      let s ← get
      logWrite p (spareBlock m 0) (put32 (s.disk (spareBlock m 0)) (4 * (i - 1)) b)
      return b : Act UInt32) s := by
  have hsub : 11 + i - NDIRECT = i - 1 := by
    simp only [NDIRECT]
    omega
  have hrange : i - 1 < NINDIRECT := by
    simp only [NINDIRECT]
    omega
  rw [Kernel.bmap, Exec.bind_of_ok Exec.get_run, if_neg (by simp only [NDIRECT]; omega), hsub,
    if_pos hrange, h.addr, if_neg (spareBlock_ne_zero hlt (by omega)),
    Exec.bind_of_ok (Exec.pure_run _)]
  dsimp only
  rw [Exec.bind_of_ok Exec.get_run, spareBlock_toNat hlt (by omega), h.entries (i - 1) (by omega),
    if_pos rfl]

/-- One turn of the loop takes one spare block. -/
theorem Indirect.turn {i fuel n : ℕ} {src : Bytes} (h : Indirect m i s) (hs : Stage m i s)
    (hm : 4 ≤ m) (hlt : m < 2 ^ 19) (hi : 0 < i) (hi' : i < 3) (hn : 512 ≤ n) (p : Pid) :
    ∃ s', writeLoop p 0 (fuel + 1) (512 * (11 + i)) n src s =
      writeLoop p 0 fuel (512 * (12 + i)) (n - 512) (shift src 512) s' ∧ Stage m (i + 1) s' ∧
      Indirect m (i + 1) s' := by
  have hdata₀ := spareBlock_data hm hlt (show 0 < 4 by omega)
  have hdata := spareBlock_data hm hlt (show i < 4 by omega)
  have hfree : ¬ Marked (sparseSuperblock m) s.disk (spareBlock m i) := by
    rw [hs.marks _ (by simp only [spareBlock]; omega)]
    exact fun hall => hall i (by omega) le_rfl rfl
  have ha := ballocs_ballocated hs.formatted hdata hfree p
  have hs₁ := hs.ballocated hm hlt (by omega) p
  set s₁ := s.ballocated (sparseSuperblock m) p (spareBlock m i) with hs₁_def
  have hlen₁ : s₁.log.sectors.length ≤ 8 := by
    rw [hs₁.sectors, length_sparseLog]
    omega
  have hmem₀ : spareBlock m 0 ∈ s₁.log.sectors := by
    rw [hs₁.sectors, mem_sparseLog]
    exact Or.inr ⟨0, by omega, Or.inr rfl⟩
  have hmem : spareBlock m i ∈ s₁.log.sectors := by
    rw [hs₁.sectors, mem_sparseLog]
    exact Or.inr ⟨i, by omega, Or.inr rfl⟩
  set data₂ := put32 (s₁.disk (spareBlock m 0)) (4 * (i - 1)) (UInt32.ofNat (spareBlock m i)) with hd₂
  set s₂ := s₁.logged p (spareBlock m 0) data₂ with hs₂_def
  have hs₂ : Stage m (i + 1) s₂ := hs₁.logged hm hlt hmem₀ hdata₀
  have hsectors₂ : s₂.log.sectors = s₁.log.sectors := sectors_logged_of_mem hmem₀
  have hmap : bmap p 0 (11 + i) s = .ok (UInt32.ofNat (spareBlock m i), s₂) := by
    rw [h.bmap_eq hlt hi (by omega), Exec.bind_of_ok (hs.balloc hm hlt (by omega)),
      Exec.bind_of_ok Exec.get_run, Exec.bind_of_ok (logWrite_of_room hs₁.formatted.size hlen₁
        hs₁.busy (hs₁.formatted.start ▸ hdata₀.2))]
    rfl
  set data₃ := splice (s₂.disk (spareBlock m i)) 0 512 src with hd₃
  refine ⟨s₂.logged p (spareBlock m i) data₃, ?_, hs₂.logged hm hlt (hsectors₂ ▸ hmem) hdata, ?_, ?_⟩
  · have hbn : 512 * (11 + i) / BSIZE = 11 + i := by
      simp only [BSIZE]
      omega
    have hmod : 512 * (11 + i) % BSIZE = 0 := by
      simp only [BSIZE]
      omega
    have hmin : min n (BSIZE - 0) = 512 := by
      simp only [BSIZE]
      omega
    rw [writeLoop, if_neg (by omega), hbn, Exec.bind_of_ok hmap, Exec.bind_of_ok Exec.get_run, hmod,
      hmin, spareBlock_toNat hlt (by omega), ← hd₃, Exec.bind_of_ok (logWrite_of_room
        hs₂.formatted.size (hsectors₂ ▸ hlen₁) hs₂.busy (hs₂.formatted.start ▸ hdata.2)),
      show 512 * (11 + i) + 512 = 512 * (12 + i) by omega]
  · exact h.addr
  · intro e he
    have hne : spareBlock m 0 ≠ spareBlock m i := by
      simp only [spareBlock]
      omega
    rw [logged_disk (hs₂.formatted.start ▸ hdata₀.2), if_neg hne,
      logged_disk (hs₁.formatted.start ▸ hdata₀.2), if_pos rfl, hd₂,
      get32_put32_disjoint (by omega), ha.others _ hdata₀.2 hne fun hbits => ?_]
    · exact h.entries e (by omega)
    · have := hdata₀.1
      omega

/-- The last allocation fills the log. -/
theorem Indirect.panics {fuel n : ℕ} {src : Bytes} (h : Indirect m 3 s) (hs : Stage m 3 s)
    (hm : 4 ≤ m) (hlt : m < 2 ^ 19) (hn : n ≠ 0) (p : Pid) :
    ∃ last, writeLoop p 0 (fuel + 1) (512 * 14) n src s =
      .error ⟨.panic "too big a transaction", last⟩ := by
  have hs₁ := hs.ballocated hm hlt (by omega) p
  have hlen₁ : (s.ballocated (sparseSuperblock m) p (spareBlock m 3)).log.sectors.length = 9 := by
    rw [hs₁.sectors, length_sparseLog]
  have hmap : bmap p 0 (11 + 3) s = .error ⟨.panic "too big a transaction",
      s.ballocated (sparseSuperblock m) p (spareBlock m 3)⟩ := by
    rw [h.bmap_eq hlt (by omega) (by omega), Exec.bind_of_ok (hs.balloc hm hlt (by omega)),
      Exec.bind_of_ok Exec.get_run, Exec.bind_of_error (logWrite_of_full hs₁.formatted.size hlen₁)]
  refine ⟨s.ballocated (sparseSuperblock m) p (spareBlock m 3), ?_⟩
  have hbn : 512 * 14 / BSIZE = 11 + 3 := rfl
  rw [writeLoop, if_neg hn, hbn, Exec.bind_of_error hmap]

/-- The first allocation is that of the indirect block. -/
theorem Stage.bmap_indirect (h : Stage m 0 s) (hm : 4 ≤ m) (hlt : m < 2 ^ 19)
    (hind : (s.icache 0).d.addr NDIRECT = 0) (p : Pid) : ∃ s',
      bmap p 0 12 s = bmap p 0 12 s' ∧ Stage m 1 s' ∧ Indirect m 1 s' := by
  have hdata := spareBlock_data hm hlt (show 0 < 4 by omega)
  have hfree : ¬ Marked (sparseSuperblock m) s.disk (spareBlock m 0) := by
    rw [h.marks _ (by simp only [spareBlock]; omega)]
    exact fun hall => hall 0 (by omega) le_rfl rfl
  have ha := ballocs_ballocated h.formatted hdata hfree p
  have hs₁ := h.ballocated hm hlt (by omega) p
  set s₁ := s.ballocated (sparseSuperblock m) p (spareBlock m 0) with hs₁_def
  set s₂ := s₁.setD 0 ((s₁.icache 0).d.setAddr NDIRECT (UInt32.ofNat (spareBlock m 0))) with hs₂_def
  have haddr : (s₂.icache 0).d.addr NDIRECT = UInt32.ofNat (spareBlock m 0) := by
    rw [hs₂_def, setD_icache_d, Dinode.addr_setAddr]
  refine ⟨s₂, ?_, ⟨⟨hs₁.formatted.superblock, hs₁.formatted.nlog, hs₁.formatted.blocks,
    hs₁.formatted.start, hs₁.formatted.size⟩, hs₁.marks, hs₁.busy, hs₁.sectors⟩, haddr, fun e _ => ?_⟩
  · have hrange : 12 - NDIRECT < NINDIRECT := by decide
    rw [Kernel.bmap, Exec.bind_of_ok Exec.get_run, if_neg (by decide), if_pos hrange, hind, if_pos rfl,
      Exec.bind_of_ok (h.balloc hm hlt (by omega)), Exec.bind_of_ok (Exec.modify_run _),
      Exec.bind_of_ok (Exec.pure_run _), Exec.bind_of_ok Exec.get_run, if_neg (by decide),
      if_pos hrange, ← hs₁_def, ← hs₂_def, haddr, if_neg (spareBlock_ne_zero hlt (by omega)),
      Exec.bind_of_ok (Exec.pure_run _)]
  · change get32 (s₁.disk (spareBlock m 0)) (4 * e) = 0
    rw [ha.zero, get32_zeroBlock]

/-- The state in which the chunk begins. -/
structure Begun (m : ℕ) (s : Sys) : Prop where
  disk : s.disk = sparseDisk m
  d : (s.icache 0).d = sparseDinode m
  start : s.log.start = 4096 * (m - 1) + 2990
  size : s.log.size = 10
  busy : s.log.busy = true
  sectors : s.log.sectors = []

/-- The byte that the last block lacked is written. -/
theorem Begun.first {fuel : ℕ} {src : Bytes} (h : Begun m s) (hm : 4 ≤ m) (hlt : m < 2 ^ 19)
    (p : Pid) : ∃ s', writeLoop p 0 (fuel + 1) 6143 1536 src s =
      writeLoop p 0 fuel 6144 1535 (shift src 1) s' ∧ Stage m 0 s' ∧
      (s'.icache 0).d.addr NDIRECT = 0 := by
  have href : mapAt s.disk (s.icache 0).d 11 = UInt32.ofNat (m + 15) := by
    rw [h.d, mapAt_direct (by decide), sparse_addr (by omega)]
  have hne : UInt32.ofNat (m + 15) ≠ 0 := sparse_ref_ne_zero (j := 11) hlt (by omega)
  have hmap : bmap p 0 11 s = .ok (UInt32.ofNat (m + 15), s) := by
    rw [bmap_of_mapped (by decide) (by rwa [href]), href]
  have htoNat : (UInt32.ofNat (m + 15)).toNat = m + 15 := sparse_toNat (j := 11) hlt (by omega)
  have hbn : 6143 / BSIZE = 11 := rfl
  have hmod : 6143 % BSIZE = 511 := rfl
  have hmin : min 1536 (BSIZE - 511) = 1 := rfl
  have hf := sparse_formatted hm hlt
  have hbits := bitStart_ge (sparseSuperblock m)
  have hused := sparse_usedBlocks hm hlt
  have hlt' := bitStart_lt (sparseSuperblock m)
  have hsize := sparse_size hm hlt
  set data := splice (s.disk (m + 15)) 511 1 src with hdata
  have hdisk : ∀ x < m + 4, (s.logged p (m + 15) data).disk x = sparseDisk m x := by
    intro x hx
    rw [logged_disk (by rw [h.start]; omega), if_neg (by omega), h.disk]
  refine ⟨s.logged p (m + 15) data, ?_, ⟨⟨?_, hf.nlog, hf.blocks, ?_, h.size⟩, fun x hx => ?_, h.busy, ?_⟩, ?_⟩
  · rw [writeLoop, if_neg (by omega), hbn, Exec.bind_of_ok hmap, Exec.bind_of_ok Exec.get_run, hmod,
      hmin, htoNat, ← hdata, Exec.bind_of_ok (logWrite_of_room h.size (by simp [h.sectors]) h.busy
        (by rw [h.start]; omega))]
  · rw [hdisk 1 (by omega)]
    exact hf.superblock
  · rw [sparse_logStart hm hlt]
    exact h.start
  · have hmarks : Marked (sparseSuperblock m) (s.logged p (m + 15) data).disk x ↔
        Marked (sparseSuperblock m) (sparseDisk m) x :=
      Marked.congr (hdisk _ (hused ▸ (BBLOCK_mem (by omega)).2))
    rw [hmarks, sparse_marked hm (by omega)]
    simp
  · rw [sectors_logged_of_notMem (by simp [h.sectors]), h.sectors]
    rfl
  · rw [Sys.logged_icache, h.d]
    rfl

theorem Begun.panics {fuel : ℕ} {src : Bytes} (h : Begun m s) (hm : 4 ≤ m) (hlt : m < 2 ^ 19)
    (p : Pid) : ∃ last, writeLoop p 0 (fuel + 4) 6143 1536 src s =
      .error ⟨.panic "too big a transaction", last⟩ := by
  obtain ⟨s₁, hrun₁, hs₁, hnone⟩ := @Begun.first s m (fuel + 3) src h hm hlt p
  obtain ⟨s₂, hmap, hs₂, hi₂⟩ := hs₁.bmap_indirect hm hlt hnone p
  have hrun₂ : writeLoop p 0 (fuel + 3) 6144 1535 (shift src 1) s₁ =
      writeLoop p 0 (fuel + 3) 6144 1535 (shift src 1) s₂ := by
    rw [writeLoop, if_neg (by omega)]
    change (Except.bind (bmap p 0 12 s₁) fun r => _) = Except.bind (bmap p 0 12 s₂) fun r => _
    rw [hmap]
  obtain ⟨s₃, hrun₃, hs₃, hi₃⟩ := @Indirect.turn s₂ m 1 (fuel + 2) 1535 (shift src 1) hi₂ hs₂ hm hlt
    (by omega) (by omega) (by omega) p
  obtain ⟨s₄, hrun₄, hs₄, hi₄⟩ := @Indirect.turn s₃ m 2 (fuel + 1) 1023 (shift (shift src 1) 512) hi₃
    hs₃ hm hlt (by omega) (by omega) (by omega) p
  obtain ⟨last, hrun₅⟩ := @Indirect.panics s₄ m fuel 511 (shift (shift (shift src 1) 512) 512) hi₄ hs₄
    hm hlt (by omega) p
  exact ⟨last, hrun₁.trans (hrun₂.trans (hrun₃.trans (hrun₄.trans hrun₅)))⟩

theorem Begun.writeFile_panics {src : Bytes} (h : Begun m s) (hm : 4 ≤ m) (hlt : m < 2 ^ 19)
    (p : Pid) : ∃ last, writeFile p 0 src 6143 1536 s =
      .error ⟨.panic "too big a transaction", last⟩ := by
  obtain ⟨last, hrun⟩ := @Begun.panics s m 1532 src h hm hlt p
  have hsize : (s.icache 0).d.size = 6143 := by
    rw [h.d]
    rfl
  refine ⟨last, ?_⟩
  rw [writeFile, Exec.bind_of_ok Exec.get_run, hsize, if_neg (by decide), if_neg (by decide)]
  exact Exec.bind_of_error hrun

/-- A write of three blocks that begins one byte before the end of the direct blocks. -/
theorem filewrite_sparse (hm : 4 ≤ m) (hlt : m < 2 ^ 19) (p : Pid) (src : Bytes)
    (answer : Answer) : ∃ last, (filewrite p 0 1536 src answer).run (sparse m) =
      .error ⟨.panic "too big a transaction", last⟩ := by
  set s₁ := (sparse m).setLog ⟨4096 * (m - 1) + 2990, 10, true, [], some p⟩ with hs₁
  set s₂ := s₁.setFlags 0 true true with hs₂
  set s₃ := s₂.note (lockEvent s₂ none 0) with hs₃
  have hbegin : beginTrans p (sparse m) = .ok ((), s₁) := rfl
  have henter : ilockEnter 0 s₁ = .ok ((), s₂) := rfl
  have hload : ilockLoad none 0 s₂ = .ok (sparseDinode m, s₃) := ilockLoad_of_valid rfl
  have hbegun : Begun m s₃ := ⟨rfl, rfl, rfl, rfl, rfl, rfl⟩
  obtain ⟨last, hwrite⟩ := @Begun.writeFile_panics s₃ m src hbegun hm hlt p
  have hadvance : writeAdvance p 0 src (UInt32.ofNat 1536) s₃ =
      .error ⟨.panic "too big a transaction", last⟩ := by
    rw [writeAdvance, getFile, Exec.bind_of_ok (Exec.bind_of_ok Exec.get_run)]
    exact Exec.bind_of_error hwrite
  refine ⟨last, ?_⟩
  have hchunk : (writeChunks p 0 0 1536 1536 src).run (sparse m) =
      .error ⟨.panic "too big a transaction", last⟩ := by
    rw [writeChunks, if_neg (by omega)]
    simp only [Thread.run_bind, Thread.run_lift, ilock]
    rw [Exec.bind_of_ok hbegin, Exec.bind_of_ok (Exec.bind_of_ok henter |>.trans hload)]
    have htype : ¬ (sparseDinode m).type = T_DEV := show ¬ T_FILE = T_DEV by decide
    have hmin : min 1536 writeMax = 1536 := rfl
    rw [if_neg htype, Thread.run_bind, Thread.run_lift, hmin, Exec.bind_of_error hadvance]
  rw [filewrite, Thread.run_bind, Thread.run_lift, getFile,
    Exec.bind_of_ok (Exec.bind_of_ok Exec.get_run)]
  have hfile : (sparse m).ftable 0 = ⟨.inode, 1, true, true, 0, 0, 6143⟩ := rfl
  rw [hfile]
  dsimp only
  rw [if_neg (by decide), Thread.run_bind, Exec.bind_of_error hchunk]

end Sparse

/-- A free map of four blocks is too much: the write of three blocks begins one byte before
the end of the direct blocks, and each allocation finds its free bit in another block of
the map. -/
theorem filewrite_overflows : Writable (sparseSuperblock 4) 0 1536 (sparse 4) ∧
    bitBlocks (sparseSuperblock 4) = 4 ∧
    ∃ last, (filewrite 0 0 1536 zeroBlock ⟨none, 0⟩).run (sparse 4) =
      .error ⟨.panic "too big a transaction", last⟩ :=
  ⟨sparse_writable le_rfl (by omega), sparse_bitBlocks le_rfl (by omega),
    filewrite_sparse le_rfl (by omega) 0 zeroBlock ⟨none, 0⟩⟩

/-- No transaction of `filewrite` is too big for the log exactly if the free map has at most
three blocks. -/
theorem filewrite_fits_iff {m : ℕ} (hm : m < 2 ^ 19) :
    (∀ (sb : Superblock) (s : Sys) (p : Pid) (f n : ℕ) (src : Bytes) (answer : Answer),
      bitBlocks sb = m → Writable sb f n s →
      ∀ last, (filewrite p f n src answer).run s ≠ .error ⟨.panic "too big a transaction", last⟩) ↔
    m ≤ 3 := by
  constructor
  · intro h
    by_contra hc
    obtain ⟨last, hrun⟩ := filewrite_sparse (show 4 ≤ m by omega) hm 0 zeroBlock ⟨none, 0⟩
    exact h _ _ 0 0 1536 zeroBlock ⟨none, 0⟩ (sparse_bitBlocks (by omega) hm)
      (sparse_writable (by omega) hm) last hrun
  · rintro hle sb s p f n src answer rfl h last hrun
    exact (h.ends_filewrite hle).error hrun rfl

theorem filewrite_fits_one_block : 1 < 2 ^ 19 ∧
    ∀ (sb : Superblock) (s : Sys) (p : Pid) (f n : ℕ) (src : Bytes) (answer : Answer),
      bitBlocks sb = 1 → Writable sb f n s →
      ∀ last, (filewrite p f n src answer).run s ≠ .error ⟨.panic "too big a transaction", last⟩ :=
  ⟨by omega, (filewrite_fits_iff (by omega)).mpr (by omega)⟩

end Lainos.Kernel
