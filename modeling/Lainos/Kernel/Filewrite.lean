import Lainos.Kernel.Chunks

/-!
# The loop of filewrite

Chunk after chunk, `filewrite` keeps within the log as long as the free map has no more
than three blocks.
-/

namespace Lainos.Kernel

open Library

variable {sb : Superblock} {s s' : Sys} {p : Pid} {f n : ℕ} {file : File} {d : Dinode}

/-! ## The loop -/

theorem Sys.dinode_of_valid {k : ℕ} (h : (s.icache k).valid = true) : s.dinode k = (s.icache k).d :=
  if_pos h

/-- Between chunks. -/
structure Resting (sb : Superblock) (f : ℕ) (file : File) (n : ℕ) (s : Sys) : Prop where
  steady : Steady sb f file n (s.dinode file.ip) s
  quiet : s.log.sectors = []

/-- Before a transaction is committed. -/
structure Closing (sb : Superblock) (f : ℕ) (file : File) (n : ℕ) (s : Sys) : Prop where
  steady : Steady sb f file n (s.dinode file.ip) s
  journal : ∃ U, Journal U s

theorem Settled.closing (h : Settled sb f file n s) : Closing sb f file n s :=
  ⟨by rw [Sys.dinode_of_valid h.valid]; exact h.steady, h.journal⟩

theorem Resting.closing (h : Resting sb f file n s) : Closing sb f file n s :=
  ⟨h.steady, ∅, by simp [h.quiet], by simp [h.quiet], by simp, by simp [h.quiet]⟩

/-- A change that leaves the disk and the inode alone. -/
theorem Steady.frame (h : Steady sb f file n d s) (hdisk : s'.disk = s.disk)
    (hstart : s'.log.start = s.log.start) (hsize : s'.log.size = s.log.size)
    (hfile : s'.ftable f = s.ftable f)
    (hinum : (s'.icache file.ip).inum = (s.icache file.ip).inum) : Steady sb f file n d s' :=
  h.congr hstart hsize hfile hinum rfl fun x _ _ => by rw [hdisk]

/-- Only flags of the inode have changed. -/
structure SameInode (k : ℕ) (s s' : Sys) : Prop where
  disk : s'.disk = s.disk
  start : s'.log.start = s.log.start
  size : s'.log.size = s.log.size
  sectors : s'.log.sectors = s.log.sectors
  inum : (s'.icache k).inum = (s.icache k).inum
  dinode : s'.dinode k = s.dinode k

theorem Resting.same (hr : Resting sb f file n s) (h : SameInode file.ip s s')
    (hfile : s'.ftable f = s.ftable f) : Resting sb f file n s' :=
  ⟨by rw [h.dinode]; exact hr.steady.frame h.disk h.start h.size hfile h.inum,
    by rw [h.sectors, hr.quiet]⟩

theorem Closing.same (hr : Closing sb f file n s) (h : SameInode file.ip s s')
    (hfile : s'.ftable f = s.ftable f) : Closing sb f file n s' := by
  obtain ⟨U, hU⟩ := hr.journal
  refine ⟨by rw [h.dinode]; exact hr.steady.frame h.disk h.start h.size hfile h.inum, U, ?_⟩
  refine ⟨by rw [h.sectors]; exact hU.nodup, by rw [h.sectors]; exact hU.sub,
    by rw [h.start]; exact hU.below, ?_⟩
  have hslot : ∀ b, s'.log.slot b = s.log.slot b := fun b => by
    rw [Logger.slot, Logger.slot, h.sectors, h.start]
  simp only [h.sectors, hslot, h.disk]
  exact hU.copied

theorem sameInode_setFlags (s : Sys) (k : ℕ) (busy : Bool) :
    SameInode k s (s.setFlags k busy (s.icache k).valid) := by
  refine ⟨rfl, rfl, rfl, rfl, ?_, ?_⟩
  · rw [Sys.setFlags_icache, Function.update_self]
  · simp only [Sys.dinode, Sys.setFlags_icache, Function.update_self, Sys.setFlags_disk]

theorem Resting.ends_beginTrans (h : Resting sb f file n s) :
    Exec.Ends (beginTrans p) (fun _ s' => Resting sb f file n s') NotTooBig s := by
  rw [beginTrans, Exec.ends_bind, Exec.ends_get, Exec.ends_ite, ends_sleep, Exec.ends_set]
  refine ⟨fun _ => by simp [NotTooBig], fun _ => ?_⟩
  exact h.same ⟨rfl, rfl, rfl, rfl, rfl, rfl⟩ rfl

theorem Resting.ends_ilock {t : Option Ticket} (h : Resting sb f file n s) :
    Exec.Ends (ilock t file.ip).run (fun _ s' => Resting sb f file n s' ∧
      (s'.icache file.ip).valid = true) NotTooBig s := by
  rw [ilock, Thread.run_bind, Thread.run_lift, Thread.run_lift, Exec.ends_bind, ilockEnter,
    Exec.ends_bind, Exec.ends_get]
  simp only [Exec.ends_ite, ends_panic, ends_sleep, Exec.ends_set]
  refine ⟨fun _ => by simp [NotTooBig], fun _ => ⟨fun _ => by simp [NotTooBig], fun _ => ?_⟩⟩
  have h₁ := h.same (sameInode_setFlags s file.ip true) rfl
  set s₁ := s.setFlags file.ip true (s.icache file.ip).valid
  rw [ilockLoad, Exec.ends_bind, Exec.ends_modify, Exec.ends_bind, Exec.ends_get, Exec.ends_ite]
  refine ⟨fun hvalid => ⟨h₁.same ⟨rfl, rfl, rfl, rfl, rfl, rfl⟩ rfl, hvalid⟩, fun hinvalid => ?_⟩
  rw [Sys.note_icache] at hinvalid
  simp only [Exec.ends_bind, Exec.ends_set, Exec.ends_ite, ends_panic, Exec.ends_pure]
  refine ⟨fun _ => by simp [NotTooBig], fun _ => ⟨h₁.same ⟨rfl, rfl, rfl, rfl, ?_, ?_⟩ rfl, ?_⟩⟩
  · rw [Sys.setInode_icache, Function.update_self]
    rfl
  · rw [Sys.dinode, Sys.dinode, Sys.setInode_icache, Function.update_self, if_pos rfl, if_neg hinvalid]
    rfl
  · rw [Sys.setInode_icache, Function.update_self]

theorem Closing.ends_iunlock (h : Closing sb f file n s) : Exec.Ends (iunlock file.ip)
    (fun _ s' => Closing sb f file n s') NotTooBig s := by
  rw [iunlock, Exec.ends_bind, Exec.ends_get, Exec.ends_ite, ends_panic, Exec.ends_set]
  exact ⟨fun _ => by simp [NotTooBig], fun _ => h.same (sameInode_setFlags s file.ip false) rfl⟩

theorem Closing.ends_commitTrans (h : Closing sb f file n s) :
    Exec.Ends commitTrans (fun _ s' => Resting sb f file n s') NotTooBig s := by
  obtain ⟨U, hU⟩ := h.journal
  have hf := h.steady.formatted
  have hdisk : ∀ x < logStart sb, s.log.commit s.disk x = s.disk x :=
    fun x hx => hU.commit_disk (hf.start ▸ hx)
  rw [commitTrans, Exec.ends_bind, Exec.ends_get, Exec.ends_set]
  refine ⟨?_, rfl⟩
  have hdinode : ((s.setDisk (s.log.commit s.disk)).setLog
      ⟨s.log.start, s.log.size, false, [], none⟩).dinode file.ip = s.dinode file.ip := by
    have hblock := IBLOCK_lt h.steady.inum
    have hused := hf.used_le
    have hbits := bitStart_lt sb
    rw [Sys.dinode, Sys.dinode]
    exact if_congr Iff.rfl rfl (dinodeAt_congr (hdisk (IBLOCK (s.icache file.ip).inum) (by omega)))
  rw [hdinode]
  exact h.steady.congr rfl rfl rfl rfl rfl fun x hx _ => hdisk x hx

/-- The file after a chunk of `r` bytes. -/
def File.moved (file : File) (r : ℕ) : File :=
  ⟨file.type, file.ref, file.readable, file.writable, file.pipe, file.ip,
    file.off + UInt32.ofNat r⟩

theorem Closing.ends_advance {r : ℕ} (h : Closing sb f file n s) : Exec.Ends (advance f r)
    (fun _ s' => Closing sb f (file.moved r) n s') NotTooBig s := by
  obtain ⟨U, hU⟩ := h.journal
  have hf := h.steady.formatted
  rw [advance, Exec.ends_bind, Exec.ends_get, Exec.ends_set]
  refine ⟨⟨⟨hf.superblock, hf.nlog, hf.blocks, hf.start, hf.size⟩, h.steady.used, h.steady.backed,
    h.steady.room, ?_, h.steady.inum⟩, U, hU.nodup, hU.sub, hU.below, hU.copied⟩
  rw [Sys.setFile_ftable, Function.update_self, h.steady.entry]
  rfl

/-- The device case of a chunk: nothing is logged. -/
theorem Resting.ends_device {r : Option ℕ} (h : Resting sb f file n s) (d : Dinode) :
    Exec.Ends (device d file.ip r).run (fun _ s' => Resting sb f file n s') NotTooBig s := by
  rw [device]
  split_ifs
  · rw [console, Thread.run_bind, Thread.run_lift, Exec.ends_bind, iunlock, Exec.ends_bind,
      Exec.ends_get, Exec.ends_ite, ends_panic, Exec.ends_set]
    refine ⟨fun _ => by simp [NotTooBig], fun _ => ?_⟩
    rw [Thread.run_bind, Exec.ends_bind]
    refine (h.same (sameInode_setFlags s file.ip false) rfl).ends_ilock.mono ?_ fun _ he => he
    exact fun _ s' h' => h'.1
  · exact h

/-- With the inode locked, a chunk begins. -/
theorem Resting.chunk (h : Resting sb f file n s) (hvalid : (s.icache file.ip).valid = true) :
    Chunk sb f file n ∅ s := by
  have hs := h.steady
  rw [Sys.dinode_of_valid hvalid] at hs
  have hf := hs.formatted
  refine ⟨hvalid, hs, by simp [h.quiet], by simp [h.quiet], fun b hb => ?_, by simp [h.quiet]⟩
  rw [touched, Finset.union_empty, Finset.mem_union] at hb
  rw [hf.start]
  rcases hb with hb | hb
  · have hused := hf.used_le
    rw [bitmaps, Finset.mem_Ico] at hb
    omega
  · split_ifs at hb with hzero
    · simp at hb
    · have href : refAt s.disk (s.icache file.ip).d NDIRECT = (s.icache file.ip).d.addr NDIRECT :=
        refAt_addr le_rfl
      have harea := hs.backed.area NDIRECT (by decide) (by rwa [href])
      rw [href] at harea
      rw [Finset.mem_singleton.mp hb]
      exact harea.2

theorem Resting.ends_writeAdvance {m : ℕ} {src : Bytes} (h : Resting sb f file n s)
    (hvalid : (s.icache file.ip).valid = true) (hm : bitBlocks sb ≤ 3) (hmax : m ≤ writeMax)
    (hn : min (file.off.toNat + m) (MAXFILE * BSIZE) ≤ n * BSIZE) :
    Exec.Ends (writeAdvance p f src (UInt32.ofNat m))
      (fun r s' => Closing sb f (file.moved (r.getD 0)) n s') NotTooBig s := by
  have hm32 : (UInt32.ofNat m).toNat = m := by
    have hwm : writeMax = 1536 := rfl
    rw [UInt32.toNat_ofNat', Nat.mod_eq_of_lt (by omega)]
  rw [writeAdvance, getFile, Exec.ends_bind, Exec.ends_bind, Exec.ends_get, Exec.ends_pure,
    h.steady.entry, Exec.ends_bind]
  refine ((h.chunk hvalid).ends_writeFile hm (by rwa [hm32]) (by rwa [hm32])).mono ?_ fun _ he => he
  intro r s₁ h₁
  cases r with
  | none =>
    have hmoved : file.moved 0 = file := by
      cases file
      simp [File.moved]
    change Closing sb f (file.moved 0) n s₁
    rw [hmoved]
    exact h₁.closing
  | some r =>
    exact Exec.ends_bind.mpr (h₁.closing.ends_advance.mono (fun _ _ h₂ => h₂) fun _ he => he)

/-- Moving on leaves less to be written. -/
theorem File.moved_off_le (file : File) {r m N : ℕ} (h : file.off.toNat + m ≤ N) (hr : r ≤ m) :
    (file.moved r).off.toNat + (m - r) ≤ N := by
  have hle : (file.moved r).off.toNat ≤ file.off.toNat + r := by
    rw [File.moved, UInt32.toNat_add, UInt32.toNat_ofNat']
    refine (Nat.mod_le _ _).trans (Nat.add_le_add_left (Nat.mod_le _ _) _)
  omega

/-- The end of one turn of `writeChunks`, after `writei` or the device returned `r`. -/
def closeChunk (p : Pid) (f ip fuel m : ℕ) (src : Bytes) (r : Option ℕ) : Call Bool := do
  iunlock ip
  commitTrans
  match r with
  | none => return false
  | some r =>
    if r ≠ min m writeMax then liftM (panic "short filewrite" : Act Bool)
    else writeChunks p f ip fuel (m - min m writeMax) (shift src (min m writeMax))

theorem Resting.ends_writeChunks {fuel m : ℕ} {src : Bytes} (h : Resting sb f file n s)
    (hm : bitBlocks sb ≤ 3) (hn : min (file.off.toNat + m) (MAXFILE * BSIZE) ≤ n * BSIZE) :
    Exec.Ends (writeChunks p f file.ip fuel m src).run (fun _ _ => True) NotTooBig s := by
  induction fuel generalizing m src s file with
  | zero => trivial
  | succ fuel ih =>
    rw [writeChunks]
    split_ifs
    · trivial
    · simp only [Thread.run_bind, Thread.run_lift]
      have hrest : ∀ (r : Option ℕ) s₃, Closing sb f (file.moved (r.getD 0)) n s₃ →
          Exec.Ends (closeChunk p f file.ip fuel m src r).run (fun _ _ => True) NotTooBig s₃ := by
        intro r s₃ h₃
        simp only [closeChunk, Thread.run_bind, Thread.run_lift]
        rw [Exec.ends_bind]
        refine h₃.ends_iunlock.mono (fun _ s₄ h₄ => ?_) fun _ he => he
        rw [Exec.ends_bind]
        refine h₄.ends_commitTrans.mono (fun _ s₅ h₅ => ?_) fun _ he => he
        cases r with
        | none => trivial
        | some r =>
          dsimp only
          split_ifs with hr
          · rw [Thread.run_lift, ends_panic]
            simp [NotTooBig]
          · obtain rfl : r = min m writeMax := not_not.mp hr
            have hoff := file.moved_off_le (r := min m writeMax) le_rfl (Nat.min_le_left m _)
            have hnext : min ((file.moved (min m writeMax)).off.toNat + (m - min m writeMax))
                (MAXFILE * BSIZE) ≤ n * BSIZE := by omega
            exact @ih s₅ (file.moved (min m writeMax)) (m - min m writeMax) _ h₅ hnext
      rw [Exec.ends_bind]
      refine h.ends_beginTrans.mono (fun _ s₁ h₁ => ?_) fun _ he => he
      rw [Exec.ends_bind]
      refine h₁.ends_ilock.mono (fun d s₂ h₂ => ?_) fun _ he => he
      split_ifs
      · rw [Thread.run_bind, Exec.ends_bind]
        refine (h₂.1.ends_device d).mono (fun r s₃ h₃ => ?_) fun _ he => he
        rw [Thread.run_bind, Thread.run_lift, Exec.ends_bind]
        exact h₃.closing.ends_advance.mono (fun _ s₄ h₄ => hrest r s₄ h₄) fun _ he => he
      · rw [Thread.run_bind, Thread.run_lift, Exec.ends_bind]
        refine (h₂.1.ends_writeAdvance h₂.2 hm (Nat.min_le_right _ _) (by omega)).mono ?_
          fun _ he => he
        exact fun r s₃ h₃ => hrest r s₃ h₃

/-- A file open on a sound file system: the superblock is one that mkfs writes, the blocks
in front of the data are marked in use, no transaction is open, the inode's block map
agrees with its size, and there are free blocks for `n` more bytes. -/
structure Writable (sb : Superblock) (f n : ℕ) (s : Sys) : Prop where
  formatted : Formatted sb s
  used : ∀ x < usedBlocks sb, Marked sb s.disk x
  quiet : s.log.sectors = []
  inum : (s.icache (s.ftable f).ip).inum < sb.ninodes.toNat
  agrees : Filled s.disk (s.dinode (s.ftable f).ip)
    (blockCount (s.dinode (s.ftable f).ip).size.toNat)
  backed : Backed sb s.disk (s.dinode (s.ftable f).ip)
  room : Room sb s.disk (s.dinode (s.ftable f).ip)
    (min (blockCount ((s.ftable f).off.toNat + n)) MAXFILE)

theorem ends_pipeWaits (n : ℕ) : Exec.Ends (pipeWaits n).run (fun _ _ => True) NotTooBig s := by
  induction n with
  | zero => trivial
  | succ n ih =>
    rw [pipeWaits, Thread.run_bind, Thread.run_lift, Exec.ends_bind]
    exact ih

theorem ends_pipeCall (p : Pid) (x : ℕ) (answer : Answer) :
    Exec.Ends (pipeCall p x answer).run (fun _ _ => True) NotTooBig s := by
  rw [pipeCall, Thread.run_bind, Thread.run_lift, Exec.ends_bind, note, Exec.ends_modify,
    Thread.run_bind, Exec.ends_bind]
  exact (ends_pipeWaits _).mono (fun _ _ _ => trivial) fun _ he => he

theorem Writable.ends_filewrite {m : ℕ} {src : Bytes} {answer : Answer} (h : Writable sb f m s)
    (hm : bitBlocks sb ≤ 3) :
    Exec.Ends (filewrite p f m src answer).run (fun _ _ => True) NotTooBig s := by
  rw [filewrite, Thread.run_bind, Thread.run_lift, getFile, Exec.ends_bind, Exec.ends_bind,
    Exec.ends_get, Exec.ends_pure]
  split_ifs
  · trivial
  · cases htype : (s.ftable f).type with
    | none => simp [NotTooBig]
    | pipe => exact ends_pipeCall _ _ _
    | inode =>
      have hrest : Resting sb f (s.ftable f) (min (blockCount ((s.ftable f).off.toNat + m)) MAXFILE) s :=
        ⟨⟨h.formatted, h.used, h.backed, h.room, rfl, h.inum⟩, h.quiet⟩
      have hle := le_blockCount ((s.ftable f).off.toNat + m)
      rw [Thread.run_bind, Exec.ends_bind]
      refine (hrest.ends_writeChunks hm ?_).mono (fun _ _ _ => trivial) fun _ he => he
      rcases Nat.le_total (blockCount ((s.ftable f).off.toNat + m)) MAXFILE with hmin | hmin
      · rw [min_eq_left hmin]
        exact (min_le_left _ _).trans hle
      · rw [min_eq_right hmin]
        exact min_le_right _ _

end Lainos.Kernel
