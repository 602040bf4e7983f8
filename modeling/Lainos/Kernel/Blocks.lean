import Lainos.Kernel.Reading

/-!
# The block layer

The regions of a formatted disk, what `log_write` does to the blocks outside the log,
and what `balloc` does when it finds a free data block.
-/

namespace Lainos.Kernel

open Library

/-! ## Regions -/

/-- How many blocks the free map takes. -/
def bitBlocks (sb : Superblock) : ℕ := sb.size.toNat / BPB + 1

/-- The first block of the free map. -/
def bitStart (sb : Superblock) : ℕ := sb.ninodes.toNat / IPB + 3

/-- The blocks in front of the data blocks. -/
def usedBlocks (sb : Superblock) : ℕ := bitStart sb + bitBlocks sb

def logStart (sb : Superblock) : ℕ := sb.size.toNat - sb.nlog.toNat

def DataBlock (sb : Superblock) (b : ℕ) : Prop := usedBlocks sb ≤ b ∧ b < logStart sb

/-- The bit of a block in the free map. -/
def Marked (sb : Superblock) (disk : Disk) (b : ℕ) : Prop :=
  testBit (disk (BBLOCK b sb.ninodes.toNat)) (b % BPB) = true

/-- The superblock is one that mkfs writes, and the log is where `initlog` finds it. -/
structure Formatted (sb : Superblock) (s : Sys) : Prop where
  superblock : Superblock.decode (s.disk 1) = sb
  nlog : sb.nlog.toNat = LOGSIZE
  blocks : sb.nblocks.toNat + usedBlocks sb + sb.nlog.toNat = sb.size.toNat
  start : s.log.start = logStart sb
  size : s.log.size = sb.nlog.toNat

variable {sb : Superblock} {s s' : Sys} {p : Pid} {b c x k : ℕ} {data : Block} {U V : Finset ℕ}

theorem BBLOCK_eq (sb : Superblock) (b : ℕ) : BBLOCK b sb.ninodes.toNat = bitStart sb + b / BPB := by
  simp only [BBLOCK, bitStart]
  omega

/-- The bit of a block is in the free map. -/
theorem BBLOCK_mem (hb : b < sb.size.toNat) :
    bitStart sb ≤ BBLOCK b sb.ninodes.toNat ∧ BBLOCK b sb.ninodes.toNat < usedBlocks sb := by
  have hle : b / BPB ≤ sb.size.toNat / BPB := Nat.div_le_div_right hb.le
  rw [BBLOCK_eq, usedBlocks, bitBlocks]
  exact ⟨Nat.le_add_right _ _, by omega⟩

theorem Formatted.used_le (h : Formatted sb s) : usedBlocks sb ≤ logStart sb := by
  have := h.blocks
  simp only [logStart]
  omega

theorem Formatted.logStart_lt (h : Formatted sb s) : logStart sb < sb.size.toNat := by
  have hblocks := h.blocks
  have hnlog := h.nlog
  simp only [logStart, LOGSIZE] at *
  omega

theorem Formatted.lt_size (h : Formatted sb s) (hb : DataBlock sb b) : b < sb.size.toNat :=
  hb.2.trans h.logStart_lt

theorem bitStart_ge (sb : Superblock) : 3 ≤ bitStart sb := Nat.le_add_left 3 _

theorem bitStart_lt (sb : Superblock) : bitStart sb < usedBlocks sb :=
  Nat.lt_add_of_pos_right (Nat.succ_pos _)

/-- Different blocks have different bits. -/
theorem bit_injective (hbits : BBLOCK b sb.ninodes.toNat = BBLOCK c sb.ninodes.toNat)
    (hmod : b % BPB = c % BPB) : b = c := by
  rw [BBLOCK_eq, BBLOCK_eq] at hbits
  have hdiv : b / BPB = c / BPB := by omega
  rw [← Nat.div_add_mod b BPB, ← Nat.div_add_mod c BPB, hdiv, hmod]

theorem Marked.congr {disk disk' : Disk}
    (h : disk' (BBLOCK b sb.ninodes.toNat) = disk (BBLOCK b sb.ninodes.toNat)) :
    Marked sb disk' b ↔ Marked sb disk b := by
  rw [Marked, Marked, h]

/-! ## The log -/

/-- The log holds copies of the sectors listed in it, and all of them are in `U`. -/
structure Journal (U : Finset ℕ) (s : Sys) : Prop where
  nodup : s.log.sectors.Nodup
  sub : ∀ b ∈ s.log.sectors, b ∈ U
  below : ∀ b ∈ U, b < s.log.start
  copied : ∀ b ∈ s.log.sectors, s.disk (s.log.slot b) = s.disk b

theorem Journal.mono (h : Journal U s) (hsub : U ⊆ V) (hbelow : ∀ b ∈ V, b < s.log.start) :
    Journal V s :=
  ⟨h.nodup, fun b hb => hsub (h.sub b hb), hbelow, h.copied⟩

theorem Journal.length_le (h : Journal U s) : s.log.sectors.length ≤ U.card := by
  rw [← List.toFinset_card_of_nodup h.nodup]
  exact Finset.card_le_card fun b hb => h.sub b (List.mem_toFinset.mp hb)

theorem start_lt_slot (log : Logger) (b : ℕ) : log.start < log.slot b := by
  simp only [Logger.slot]
  omega

/-- Below the log, `log_write` changes the block that is passed to it. -/
theorem logged_disk (hx : x < s.log.start) :
    (s.logged p b data).disk x = if x = b then data else s.disk x := by
  have hslot := start_lt_slot s.log b
  rw [Sys.logged_disk, Function.update_of_ne (by omega), Function.update_apply]

theorem logged_slot (hc : c ∈ s.log.sectors) :
    (s.logged p b data).log.slot c = s.log.slot c := by
  simp only [Logger.slot, Sys.logged_log_start, Sys.logged_log_sectors]
  split_ifs
  · rfl
  · rw [List.idxOf_append_of_mem hc]

theorem logged_slot_self : (s.logged p b data).log.slot b = s.log.slot b := by
  simp only [Logger.slot, Sys.logged_log_start, Sys.logged_log_sectors]
  split_ifs with hb
  · rfl
  · rw [List.idxOf_append_of_notMem hb, List.idxOf_of_notMem hb]
    simp

theorem mem_logged (h : c ∈ (s.logged p b data).log.sectors) : c = b ∨ c ∈ s.log.sectors := by
  simp only [Sys.logged_log_sectors] at h
  split_ifs at h with hb
  · exact Or.inr h
  · simpa [or_comm] using h

theorem slot_ne (hc : c ∈ s.log.sectors) (hcb : c ≠ b) : s.log.slot c ≠ s.log.slot b := by
  intro heq
  simp only [Logger.slot] at heq
  exact hcb ((List.idxOf_inj hc).mp (by omega))

theorem Journal.logged (h : Journal U s) (hb : b ∈ U) (p : Pid) (data : Block) :
    Journal U (s.logged p b data) := by
  refine ⟨?_, fun c hc => ?_, h.below, fun c hc => ?_⟩
  · simp only [Sys.logged_log_sectors]
    split_ifs with hmem
    · exact h.nodup
    · rw [← List.concat_eq_append]
      exact h.nodup.concat hmem
  · rcases mem_logged hc with rfl | hc
    · exact hb
    · exact h.sub c hc
  · by_cases hcb : c = b
    · rw [hcb, logged_slot_self, logged_disk (h.below b hb), if_pos rfl, Sys.logged_disk,
        Function.update_self]
    · have hmem := (mem_logged hc).resolve_left hcb
      have hlt : s.log.start < s.log.slot c := start_lt_slot s.log c
      have hbelow := h.below b hb
      rw [logged_slot hmem, logged_disk (h.below c (h.sub c hmem)), if_neg hcb, Sys.logged_disk,
        Function.update_of_ne (slot_ne hmem hcb), Function.update_of_ne (by omega),
        h.copied c hmem]

/-- The log has room for what is in `U`. -/
theorem Journal.ends_logWrite {Q : Unit → Sys → Prop} {E : Halt → Prop} (h : Journal U s)
    (hsize : s.log.size = LOGSIZE) (hroom : U.card + 1 < LOGSIZE)
    (hQ : Q () (s.logged p b data))
    (hE : ∀ e : Halt, e.why ≠ .panic "too big a transaction" → E e) :
    Exec.Ends (logWrite p b data) Q E s := by
  have hlen := h.length_le
  rw [logWrite, Exec.ends_bind, Exec.ends_get, Exec.ends_ite]
  refine ⟨fun hbig => ?_, fun _ => ?_⟩
  · omega
  · simp only [Exec.ends_ite, ends_panic, ends_sleep, Exec.ends_set]
    exact ⟨fun _ => hE _ (by simp), fun _ => ⟨fun _ => hE _ (by simp), fun _ => hQ⟩⟩

/-- The log's copies are those of the blocks as they are. -/
theorem install_of_copied {disk : Disk} {bs : List ℕ} {slot : ℕ}
    (h : ∀ i b, bs[i]? = some b → disk (slot + i) = disk b) : install slot bs disk = disk := by
  induction bs generalizing slot with
  | nil => rfl
  | cons b bs ih =>
    have hb : disk slot = disk b := h 0 b rfl
    rw [install, hb, Function.update_eq_self]
    refine ih fun i c hc => ?_
    rw [show slot + 1 + i = slot + (i + 1) by omega]
    exact h (i + 1) c hc

/-- Below the log, committing changes nothing that can be seen through the cache. -/
theorem Journal.commit_disk (h : Journal U s) (hx : x < s.log.start) :
    s.log.commit s.disk x = s.disk x := by
  rw [Logger.commit]
  split_ifs with hnil
  · rfl
  · have hinstall : install (s.log.start + 1) s.log.sectors (Function.update s.disk s.log.start
        (putHeader (s.disk s.log.start) s.log.sectors)) = Function.update s.disk s.log.start
        (putHeader (s.disk s.log.start) s.log.sectors) := by
      refine install_of_copied fun i b hb => ?_
      obtain ⟨hi, rfl⟩ := List.getElem?_eq_some_iff.mp hb
      have hmem : s.log.sectors[i] ∈ s.log.sectors := List.getElem_mem hi
      have hbelow := h.below _ (h.sub _ hmem)
      have hcopied := h.copied _ hmem
      rw [Logger.slot, List.Nodup.idxOf_getElem h.nodup] at hcopied
      rw [Function.update_of_ne (by omega), Function.update_of_ne (by omega), ← hcopied]
      congr 1
      omega
    simp only [hinstall]
    rw [Function.update_of_ne (by omega), Function.update_of_ne (by omega)]

/-! ## Allocation -/

theorem firstFree_eq_some {disk : Disk} {ninodes n : ℕ} (h : firstFree disk ninodes n b = some c) :
    b ≤ c ∧ c < b + n ∧ testBit (disk (BBLOCK c ninodes)) (c % BPB) = false ∧
      ∀ x, b ≤ x → x < c → testBit (disk (BBLOCK x ninodes)) (x % BPB) = true := by
  induction n generalizing b with
  | zero => cases h
  | succ n ih =>
    rw [firstFree] at h
    split_ifs at h with hbit
    · obtain ⟨hle, hlt, hfree, hbefore⟩ := ih h
      refine ⟨by omega, by omega, hfree, fun x hx hxc => ?_⟩
      rcases Nat.eq_or_lt_of_le hx with rfl | hx
      · exact hbit
      · exact hbefore x hx hxc
    · obtain rfl : b = c := by simpa using h
      exact ⟨le_rfl, by omega, Bool.eq_false_iff.mpr hbit, fun x hx hxb => absurd hxb (by omega)⟩

theorem firstFree_of_free {disk : Disk} {ninodes n : ℕ}
    (hb : testBit (disk (BBLOCK c ninodes)) (c % BPB) = false) (hle : b ≤ c) (hlt : c < b + n) :
    ∃ x ≤ c, firstFree disk ninodes n b = some x := by
  induction n generalizing b with
  | zero => omega
  | succ n ih =>
    rw [firstFree]
    split_ifs with hbit
    · have hne : b ≠ c := by
        rintro rfl
        rw [hb] at hbit
        cases hbit
      exact ih (by omega) (by omega)
    · exact ⟨b, hle, rfl⟩

/-- What `balloc` has done when it returns the data block `b`. -/
structure Ballocs (sb : Superblock) (b : ℕ) (s s' : Sys) : Prop where
  area : DataBlock sb b
  free : ¬ Marked sb s.disk b
  icache : s'.icache = s.icache
  ftable : s'.ftable = s.ftable
  start : s'.log.start = s.log.start
  size : s'.log.size = s.log.size
  zero : s'.disk b = zeroBlock
  marks : ∀ x < sb.size.toNat, Marked sb s'.disk x ↔ Marked sb s.disk x ∨ x = b
  others : ∀ x < logStart sb, x ≠ b → ¬ (bitStart sb ≤ x ∧ x < usedBlocks sb) →
    s'.disk x = s.disk x

/-- Setting a bit of the free map. -/
theorem marked_setBit (hf : Formatted sb s) (hb : b < sb.size.toNat) (hx : x < sb.size.toNat) :
    Marked sb (s.logged p (BBLOCK b sb.ninodes.toNat)
      (setBit (s.disk (BBLOCK b sb.ninodes.toNat)) (b % BPB))).disk x ↔
      Marked sb s.disk x ∨ x = b := by
  have hmem := (BBLOCK_mem hx).2
  have hused := hf.used_le
  rw [Marked, logged_disk (by rw [hf.start]; omega), Marked]
  split_ifs with hblock
  · rw [testBit_setBit, Bool.or_eq_true, decide_eq_true_eq, hblock]
    refine or_congr Iff.rfl ⟨fun hmod => bit_injective hblock hmod.symm, ?_⟩
    rintro rfl
    rfl
  · refine (or_iff_left ?_).symm
    rintro rfl
    exact hblock rfl

/-- The blocks of the free map. -/
def bitmaps (sb : Superblock) : Finset ℕ := Finset.Ico (bitStart sb) (usedBlocks sb)

theorem card_bitmaps (sb : Superblock) : (bitmaps sb).card = bitBlocks sb := by
  rw [bitmaps, Nat.card_Ico, usedBlocks, Nat.add_sub_cancel_left]

/-- The state after `balloc` has set the bit of the data block `b` and zeroed the block. -/
def Sys.ballocated (s : Sys) (sb : Superblock) (p : Pid) (b : ℕ) : Sys :=
  (((s.logged p (BBLOCK b sb.ninodes.toNat)
    (setBit (s.disk (BBLOCK b sb.ninodes.toNat)) (b % BPB))).logged p b zeroBlock).note
    (.balloc s.disk b))

theorem ballocs_ballocated (hf : Formatted sb s) (hdata : DataBlock sb b)
    (hfree : ¬ Marked sb s.disk b) (p : Pid) : Ballocs sb b s (s.ballocated sb p b) := by
  have hused := hf.used_le
  have hmap := BBLOCK_mem (hf.lt_size hdata)
  set s₁ := s.logged p (BBLOCK b sb.ninodes.toNat)
    (setBit (s.disk (BBLOCK b sb.ninodes.toNat)) (b % BPB)) with hs₁
  have hstart : s₁.log.start = logStart sb := hf.start
  have hdisk : ∀ x < logStart sb, (s.ballocated sb p b).disk x =
      if x = b then zeroBlock else s₁.disk x :=
    fun x hx => @logged_disk s₁ p b x zeroBlock (hstart ▸ hx)
  refine ⟨hdata, hfree, rfl, rfl, rfl, rfl, ?_, fun x hx => ?_, fun x hx hxb hxmap => ?_⟩
  · rw [hdisk b hdata.2, if_pos rfl]
  · have hxmap := (BBLOCK_mem hx).2
    have hb := hdata.1
    rw [← marked_setBit hf (p := p) (hf.lt_size hdata) hx]
    exact Marked.congr ((hdisk _ (by omega)).trans (if_neg (by omega)))
  · rw [hdisk x hx, if_neg hxb, logged_disk (hf.start ▸ hx), if_neg]
    rintro rfl
    exact hxmap hmap

theorem journal_ballocated (hf : Formatted sb s) (hj : Journal U s) (hsub : bitmaps sb ⊆ U)
    (hdata : DataBlock sb b) (p : Pid) : Journal (insert b U) (s.ballocated sb p b) := by
  have hmap := BBLOCK_mem (hf.lt_size hdata)
  have hbits := hj.logged (hsub (Finset.mem_Ico.mpr hmap)) p
    (setBit (s.disk (BBLOCK b sb.ninodes.toNat)) (b % BPB))
  have hmono := hbits.mono (Finset.subset_insert b U) fun x hx => by
    rcases Finset.mem_insert.mp hx with rfl | hx
    · exact hf.start ▸ hdata.2
    · exact hbits.below x hx
  have hzero := hmono.logged (Finset.mem_insert_self b U) p zeroBlock
  exact ⟨hzero.nodup, hzero.sub, hzero.below, hzero.copied⟩

/-- The first free block, given that the blocks in front of the data are marked and some
data block is free. -/
theorem firstFree_data {free : ℕ} (hf : Formatted sb s)
    (hmeta : ∀ x < usedBlocks sb, Marked sb s.disk x) (hdata : DataBlock sb free)
    (hfree : ¬ Marked sb s.disk free) :
    ∃ b, firstFree s.disk sb.ninodes.toNat sb.size.toNat 0 = some b ∧ DataBlock sb b ∧
      ¬ Marked sb s.disk b := by
  have hlast := hf.logStart_lt
  obtain ⟨b, hle, hfound⟩ := @firstFree_of_free 0 free s.disk sb.ninodes.toNat sb.size.toNat
    (Bool.eq_false_iff.mpr hfree) (Nat.zero_le _) (by have := hdata.2; omega)
  obtain ⟨-, -, hbit, -⟩ := firstFree_eq_some hfound
  have hbfree : ¬ Marked sb s.disk b := by
    rw [Marked, hbit]
    simp
  refine ⟨b, hfound, ⟨?_, by have := hdata.2; omega⟩, hbfree⟩
  by_contra hc
  exact hbfree (hmeta b (by omega))

theorem Formatted.toNat_ofNat (h : Formatted sb s) (hb : DataBlock sb b) :
    (UInt32.ofNat b).toNat = b := by
  rw [UInt32.toNat_ofNat', Nat.mod_eq_of_lt ((h.lt_size hb).trans sb.size.toNat_lt)]

theorem ends_balloc {Q : UInt32 → Sys → Prop} {E : Halt → Prop} {free : ℕ} (hf : Formatted sb s)
    (hmeta : ∀ x < usedBlocks sb, Marked sb s.disk x) (hdata : DataBlock sb free)
    (hfree : ¬ Marked sb s.disk free) (hj : Journal U s) (hsub : bitmaps sb ⊆ U)
    (hroom : U.card + 1 < LOGSIZE)
    (hQ : ∀ (b : UInt32) s', Ballocs sb b.toNat s s' → Journal (insert b.toNat U) s' → Q b s')
    (hE : ∀ e : Halt, e.why ≠ .panic "too big a transaction" → E e) :
    Exec.Ends (balloc p) Q E s := by
  have hsize : s.log.size = LOGSIZE := hf.size.trans hf.nlog
  obtain ⟨b, hfound, hbdata, hbfree⟩ := firstFree_data hf hmeta hdata hfree
  have hmap := BBLOCK_mem (hf.lt_size hbdata)
  rw [balloc, readsb, Exec.ends_bind, Exec.ends_bind, Exec.ends_get, Exec.ends_pure,
    Exec.ends_bind, Exec.ends_get, hf.superblock, hfound, Exec.ends_bind]
  refine hj.ends_logWrite hsize hroom ?_ hE
  rw [bzero, Exec.ends_bind]
  refine (hj.logged (hsub (Finset.mem_Ico.mpr hmap)) p _).ends_logWrite hsize hroom ?_ hE
  rw [Exec.ends_bind, Exec.ends_modify, Exec.ends_pure]
  refine hQ _ (s.ballocated sb p b) ?_ ?_
  · rw [hf.toNat_ofNat hbdata]
    exact ballocs_ballocated hf hbdata hbfree p
  · rw [hf.toNat_ofNat hbdata]
    exact journal_ballocated hf hj hsub hbdata p

end Lainos.Kernel
