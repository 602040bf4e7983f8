import Lainos.Kernel.Contents
import Lainos.Kernel.Overflow
import Lainos.Library.ByteLists

/-!
# Files are arrays of bytes

A file without holes is a list of bytes. `writei` overwrites a part of the list, `readi`
returns a part of it, and the lists of the other inodes stay as they are.
-/

namespace Lainos.Kernel

open Library

variable {sb : Superblock} {s s' t : Sys} {p : Pid} {k n : ℕ} {bytes : List UInt8}

/-- The inode at `k` is a file that holds `bytes`. -/
structure IsFile (s : Sys) (k : ℕ) (bytes : List UInt8) : Prop where
  contents : Contents s.disk (s.icache k).d bytes
  size : (s.icache k).d.size.toNat = bytes.length
  small : bytes.length ≤ MAXFILE * BSIZE

/-- The first `m` bytes of a buffer. -/
def firstBytes (src : Bytes) (m : ℕ) : List UInt8 := (List.range m).map src

@[simp] theorem length_firstBytes (src : Bytes) (m : ℕ) : (firstBytes src m).length = m := by
  simp [firstBytes]

theorem div_lt_MAXFILE {i : ℕ} (h : i < MAXFILE * BSIZE) : i / BSIZE < MAXFILE :=
  (Nat.div_lt_iff_lt_mul (by decide)).mpr h

theorem div_lt_blockCount {i m : ℕ} (h : i < m) : i / BSIZE < blockCount m := by
  simp only [blockCount, BSIZE]
  omega

/-! ## Reading -/

/-- What `readi` returns for a file. -/
def readResult (bytes : List UInt8) (off n : UInt32) : Option (List UInt8) :=
  if bytes.length < off.toNat ∨ 2 ^ 32 ≤ off.toNat + n.toNat then none
  else some ((bytes.drop off.toNat).take n.toNat)

theorem IsFile.mappedRange {off m : ℕ} (h : IsFile s k bytes) (hm : off + m ≤ bytes.length) :
    MappedRange s.disk (s.icache k).d off m := by
  intro i hi
  have hmax := div_lt_MAXFILE (i := off + i) (by have := h.small; omega)
  exact ⟨hmax, (h.contents.filled.map hmax).mpr (div_lt_blockCount (by omega))⟩

theorem IsFile.fileBytes {off m : ℕ} (h : IsFile s k bytes) (hm : off + m ≤ bytes.length) :
    fileBytes s.disk (s.icache k).d off m = (bytes.drop off).take m := by
  apply List.ext_getElem
  · rw [length_fileBytes, List.length_take, List.length_drop]
    omega
  · intro i hi hi'
    rw [length_fileBytes] at hi
    simp only [Kernel.fileBytes, List.getElem_map, List.getElem_range, List.getElem_take,
      List.getElem_drop]
    rw [h.contents.data _ (by omega), List.getD_eq_getElem _ _ (by omega)]

theorem IsFile.readFile_eq (h : IsFile s k bytes) (p : Pid) (off n : UInt32) :
    readFile p k off n s = .ok (readResult bytes off n, s) := by
  have hsize := h.size
  have hlt := off.toNat_lt
  have hrefused : ((s.icache k).d.size < off ∨ off + n < off) ↔
      (bytes.length < off.toNat ∨ 2 ^ 32 ≤ off.toNat + n.toNat) := by
    rw [UInt32.lt_iff_toNat_lt, UInt32.lt_iff_toNat_lt, hsize, UInt32.toNat_add]
    have := n.toNat_lt
    omega
  rw [readResult]
  split_ifs with hr
  · rw [readFile, Exec.bind_of_ok Exec.get_run, if_pos (hrefused.mpr hr)]
    rfl
  · push Not at hr
    have hadd : (off + n).toNat = off.toNat + n.toNat := by
      rw [UInt32.toNat_add, Nat.mod_eq_of_lt hr.2]
    set m := if (s.icache k).d.size < off + n then (s.icache k).d.size - off else n with hm
    have hclip : m.toNat = min n.toNat (bytes.length - off.toNat) := by
      rw [hm]
      split_ifs with hc
      · rw [UInt32.lt_iff_toNat_lt, hadd, hsize] at hc
        rw [UInt32.toNat_sub_of_le _ _ (UInt32.le_iff_toNat_le.mpr (by omega)), hsize]
        omega
      · rw [UInt32.lt_iff_toNat_lt, hadd, hsize] at hc
        omega
    have hin : off.toNat + m.toNat ≤ bytes.length := by omega
    rw [readFile, Exec.bind_of_ok Exec.get_run, if_neg (by rw [hrefused]; omega)]
    change (readLoop p k m.toNat off.toNat m.toNat >>= fun bytes =>
      (pure (some bytes) : Act (Option (List UInt8)))) s = _
    rw [Exec.bind_of_ok (readLoop_of_mapped le_rfl (h.mappedRange hin)), Exec.pure_run,
      h.fileBytes hin, hclip, ← List.length_drop, ← List.take_eq_take_min]

/-! ## Writing -/

theorem blockCount_max (a b : ℕ) : blockCount (max a b) = max (blockCount a) (blockCount b) :=
  Monotone.map_max fun _ _ h => blockCount_mono h

/-- The loop of `writei` overwrites a part of the list. -/
theorem Wrote.contents {off m : ℕ} {src : Bytes} (h : Wrote sb n k off m src s t)
    (hs : IsFile s k bytes) (hoff : off ≤ bytes.length) :
    Contents t.disk (t.icache k).d (overwrite bytes off (firstBytes src m)) := by
  have hlen : (overwrite bytes off (firstBytes src m)).length = max bytes.length (off + m) := by
    rw [length_overwrite hoff, length_firstBytes]
  refine ⟨?_, fun i hi => ?_⟩
  · rw [hlen, blockCount_max]
    exact h.filled _ (hoff.trans (le_blockCount _)) hs.contents.filled
  · rw [hlen] at hi
    rw [List.getD_eq_getElem?_getD]
    change t.byte k i = _
    by_cases hin : off ≤ i ∧ i < off + m
    · obtain ⟨j, rfl⟩ := Nat.exists_eq_add_of_le hin.1
      have hj : j < m := by omega
      rw [getElem?_overwrite_inside hoff (by simpa using hj), h.inside j hj]
      simp [firstBytes, hj]
    · have hlt : i < bytes.length := by omega
      have hmax := div_lt_MAXFILE (hlt.trans_le hs.small)
      rw [getElem?_overwrite_outside hoff (by rw [length_firstBytes]; omega),
        h.outside i (by omega) hmax ((hs.contents.filled.map hmax).mpr (div_lt_blockCount hlt)),
        ← List.getD_eq_getElem?_getD]
      exact hs.contents.data i hlt

/-- The last step of `writei`: a new size, and the inode goes to its block. -/
def Sys.resized (s : Sys) (p : Pid) (k : ℕ) (size : UInt32) : Sys :=
  (s.setD k ((s.icache k).d.setSize size)).logged p (IBLOCK (s.icache k).inum)
    (putDinode (s.disk (IBLOCK (s.icache k).inum)) ((s.icache k).inum % IPB)
      ((s.icache k).d.setSize size))

section Resized

variable {size : UInt32}

theorem resized_entry (s : Sys) (p : Pid) (k : ℕ) (size : UInt32) :
    (s.resized p k size).icache k = ⟨(s.icache k).inum, (s.icache k).ref, (s.icache k).busy,
      (s.icache k).valid, (s.icache k).d.setSize size⟩ := by
  rw [Sys.resized, Sys.logged_icache, Sys.setD_icache, Function.update_self]

theorem resized_disk (hf : Formatted sb s) {x : ℕ} (hx : x < logStart sb) :
    (s.resized p k size).disk x =
      writeDinode s.disk (s.icache k).inum ((s.icache k).d.setSize size) x := by
  rw [Sys.resized, logged_disk (by exact hf.start ▸ hx), writeDinode, Function.update_apply]
  rfl

/-- Only the block of the inode changes. -/
theorem resized_disk_of_ne (hf : Formatted sb s) (hinum : (s.icache k).inum < sb.ninodes.toNat)
    {x : ℕ} (hx : x < logStart sb) (hne : x < 2 ∨ bitStart sb ≤ x) :
    (s.resized p k size).disk x = s.disk x := by
  have hblock := IBLOCK_lt hinum
  rw [resized_disk hf hx, writeDinode, Function.update_of_ne (by omega)]

theorem Grounded.resized (h : Grounded sb n (s.icache k).d s)
    (hinum : (s.icache k).inum < sb.ninodes.toNat) (p : Pid) (size : UInt32) :
    Grounded sb n ((s.resized p k size).icache k).d (s.resized p k size) := by
  have hlt := bitStart_lt sb
  rw [resized_entry]
  refine h.congr rfl rfl rfl fun x hx hcase => resized_disk_of_ne h.formatted hinum hx ?_
  obtain rfl | hbits | ⟨hne, rfl⟩ := hcase
  · exact .inl (by omega)
  · exact .inr hbits.1
  · rw [← Sys.ref_indirect] at hne ⊢
    exact .inr (hlt.le.trans (h.backed.area NDIRECT (by decide) hne).1)

theorem contents_resized (h : Contents s.disk (s.icache k).d bytes)
    (hs : Grounded sb n (s.icache k).d s) (hinum : (s.icache k).inum < sb.ninodes.toNat)
    (hsmall : bytes.length ≤ MAXFILE * BSIZE) (p : Pid) (size : UInt32) :
    Contents (s.resized p k size).disk ((s.resized p k size).icache k).d bytes := by
  have hlt := bitStart_lt sb
  have huntouched : Untouched s.disk (s.resized p k size).disk (s.icache k).d := fun j hj hne =>
    resized_disk_of_ne hs.formatted hinum (hs.backed.area j hj hne).2
      (.inr (hlt.le.trans (hs.backed.area j hj hne).1))
  have h' := h.untouched huntouched hsmall
  rw [resized_entry]
  exact ⟨h'.filled.congr fun _ _ => rfl, h'.data⟩

end Resized

/-- What `writei` has done when it returns `m`. -/
inductive Written (sb : Superblock) (n k off m : ℕ) (src : Bytes) (p : Pid) (s : Sys) : Sys → Prop
  | within {t : Sys} (h : Wrote sb n k off m src s t) (hle : off + m ≤ (s.icache k).d.size.toNat) :
    Written sb n k off m src p s t
  | beyond {t : Sys} {size : UInt32} (h : Wrote sb n k off m src s t) (hsize : size.toNat = off + m)
      (hlt : (s.icache k).d.size.toNat < off + m) :
    Written sb n k off m src p s (t.resized p k size)

namespace Written

variable {off m : ℕ} {src : Bytes}

theorem grounded (h : Written sb n k off m src p s t)
    (hinum : (s.icache k).inum < sb.ninodes.toNat) : Grounded sb n (t.icache k).d t := by
  cases h with
  | within h => exact h.grounded
  | beyond h => exact h.grounded.resized (by rwa [h.grows.still.inum]) p _

theorem isFile (h : Written sb n k off m src p s t) (hs : IsFile s k bytes)
    (hoff : off ≤ bytes.length) (hmax : off + m ≤ MAXFILE * BSIZE)
    (hinum : (s.icache k).inum < sb.ninodes.toNat) :
    IsFile t k (overwrite bytes off (firstBytes src m)) := by
  have hlen : (overwrite bytes off (firstBytes src m)).length = max bytes.length (off + m) := by
    rw [length_overwrite hoff, length_firstBytes]
  have hsmall : (overwrite bytes off (firstBytes src m)).length ≤ MAXFILE * BSIZE := by
    rw [hlen]
    exact max_le hs.small hmax
  have hsize := hs.size
  cases h with
  | within h hle =>
    refine ⟨h.contents hs hoff, ?_, hsmall⟩
    rw [h.grows.still.d_size, hsize, hlen]
    omega
  | beyond h heq hlt =>
    refine ⟨contents_resized (h.contents hs hoff) h.grounded (by rwa [h.grows.still.inum]) hsmall p _,
      ?_, hsmall⟩
    rw [resized_entry, hlen, max_eq_right (by omega), ← heq]
    rfl

end Written

/-- `writei` refuses a write. -/
def Refused (size : ℕ) (off n : UInt32) : Prop :=
  size < off.toNat ∨ 2 ^ 32 ≤ off.toNat + n.toNat ∨ MAXFILE * BSIZE < off.toNat + n.toNat

instance (size : ℕ) (off n : UInt32) : Decidable (Refused size off n) :=
  inferInstanceAs (Decidable (_ ∨ _ ∨ _))

theorem refused_iff (size off n : UInt32) : Refused size.toNat off n ↔
    (size < off ∨ off + n < off) ∨ UInt32.ofNat (MAXFILE * BSIZE) < off + n := by
  have hoff := off.toNat_lt
  have hn := n.toNat_lt
  simp only [Refused, UInt32.lt_iff_toNat_lt, UInt32.toNat_add, UInt32.toNat_ofNat', MAXFILE, NDIRECT,
    NINDIRECT, BSIZE]
  omega

theorem writeFile_refused {off m : UInt32} (h : Refused (s.icache k).d.size.toNat off m) (p : Pid)
    (src : Bytes) : writeFile p k src off m s = .ok (none, s) := by
  rw [writeFile, Exec.bind_of_ok Exec.get_run]
  obtain h | h := (refused_iff _ _ _).mp h
  · rw [if_pos h]
    rfl
  · by_cases h' : (s.icache k).d.size < off ∨ off + m < off
    · rw [if_pos h']
      rfl
    · rw [if_neg h', if_pos h]
      rfl

theorem Grounded.ends_writeFile {off m : UInt32} {src : Bytes} (h : Grounded sb n (s.icache k).d s)
    (hbusy : s.log.busy = true) (hinum : (s.icache k).inum < sb.ninodes.toNat)
    (hgo : ¬ Refused (s.icache k).d.size.toNat off m) (hn : off.toNat + m.toNat ≤ n * BSIZE) :
    Exec.Ends (writeFile p k src off m) (fun r t => r = some m.toNat ∧
      Written sb n k off.toNat m.toNat src p s t) TooBig s := by
  have hgo' := hgo
  rw [refused_iff, not_or] at hgo'
  have hadd : (off + m).toNat = off.toNat + m.toNat := by
    simp only [Refused, not_or, not_le] at hgo
    rw [UInt32.toNat_add, Nat.mod_eq_of_lt hgo.2.1]
  simp only [Refused, not_or, not_lt] at hgo
  rw [writeFile, Exec.ends_bind, Exec.ends_get, if_neg hgo'.1, if_neg hgo'.2, Exec.ends_bind]
  refine (h.ends_writeLoop hbusy le_rfl hgo.2.2 hn).mono ?_ fun _ he => he
  intro _ t ht
  dsimp only
  rw [Exec.ends_ite]
  refine ⟨fun hgrows => ?_, fun hstays => ⟨rfl, .within ht ?_⟩⟩
  · have hlt : (s.icache k).d.size.toNat < off.toNat + m.toNat := by
      rw [← hadd]
      exact UInt32.lt_iff_toNat_lt.mp hgrows.2
    have hblock := IBLOCK_lt hinum
    have hbits := bitStart_lt sb
    have hused := ht.grounded.formatted.used_le
    rw [← ht.grows.still.inum] at hblock
    have hlog : IBLOCK (t.icache k).inum < t.log.start := by
      rw [ht.grounded.formatted.start]
      omega
    rw [Exec.ends_bind, Exec.ends_modify, iupdate, Exec.ends_bind, Exec.ends_bind, Exec.ends_get,
      Sys.setD_icache, Function.update_self]
    dsimp only
    refine (ends_logWrite (s := t.setD k _) (ht.grows.still.isOpen.trans hbusy) hlog).mono ?_
      fun _ he => he
    rintro _ _ rfl
    exact ⟨rfl, .beyond ht hadd hlt⟩
  · rw [← hadd]
    by_cases hm : 0 < m
    · exact not_lt.mp fun hc => hstays ⟨hm, UInt32.lt_iff_toNat_lt.mpr hc⟩
    · rw [hadd, Nat.eq_zero_of_not_pos fun hc => hm (UInt32.lt_iff_toNat_lt.mpr hc)]
      exact hgo.1

/-! ## What a write leaves alone -/

/-- Everything in memory but the size and the addresses of the inode at `k`, and the sectors
of the transaction. -/
structure Framed (k : ℕ) (s t : Sys) : Prop where
  icache : ∀ j ≠ k, t.icache j = s.icache j
  inum : (t.icache k).inum = (s.icache k).inum
  count : (t.icache k).ref = (s.icache k).ref
  busy : (t.icache k).busy = (s.icache k).busy
  valid : (t.icache k).valid = (s.icache k).valid
  type : (t.icache k).d.type = (s.icache k).d.type
  ftable : t.ftable = s.ftable
  proc : t.proc = s.proc
  start : t.log.start = s.log.start
  size : t.log.size = s.log.size
  isOpen : t.log.busy = s.log.busy
  owner : t.log.owner = s.log.owner

theorem Still.framed (h : Still k s t) : Framed k s t :=
  ⟨h.icache, h.inum, h.count, h.busy, h.valid, by rw [h.d], h.ftable, h.proc, h.start, h.size,
    h.isOpen, h.owner⟩

theorem Framed.resized (h : Framed k s t) (p : Pid) (size : UInt32) :
    Framed k s (t.resized p k size) := by
  have hentry := resized_entry t p k size
  refine ⟨fun j hj => (Function.update_of_ne hj _ _).trans (h.icache j hj), ?_, ?_, ?_, ?_, ?_,
    h.ftable, h.proc, h.start, h.size, h.isOpen, h.owner⟩
  all_goals rw [hentry]
  · exact h.inum
  · exact h.count
  · exact h.busy
  · exact h.valid
  · exact h.type

theorem Written.framed {off m : ℕ} {src : Bytes} (h : Written sb n k off m src p s t) :
    Framed k s t := by
  cases h with
  | within h => exact h.grows.still.framed
  | beyond h => exact h.grows.still.framed.resized p _

/-- Outside the free map and the blocks of inodes, nothing changes but free blocks and those of
the file. -/
theorem Written.disk {off m x : ℕ} {src : Bytes} (h : Written sb n k off m src p s t)
    (hinum : (s.icache k).inum < sb.ninodes.toNat) (hx : x < logStart sb)
    (hcase : x < 2 ∨ DataBlock sb x ∧ Marked sb s.disk x ∧ ¬ Owns s k x) : t.disk x = s.disk x := by
  have hbits := bitStart_ge sb
  have hlt := bitStart_lt sb
  have hfree : ¬ (bitStart sb ≤ x ∧ x < usedBlocks sb) := by
    obtain hx | ⟨hdata, -⟩ := hcase
    · omega
    · have := hdata.1
      omega
  have hdata : DataBlock sb x → Marked sb s.disk x ∧ ¬ Owns s k x := by
    obtain hx | ⟨-, hx⟩ := hcase
    · intro hdata
      have := hdata.1
      omega
    · exact fun _ => hx
  cases h with
  | within h => exact h.grows.others x hx hfree hdata
  | beyond h =>
    rw [resized_disk_of_ne h.grounded.formatted (by rwa [h.grows.still.inum]) hx,
      h.grows.others x hx hfree hdata]
    exact hcase.imp_right fun hd => hlt.le.trans hd.1.1

/-- The other inodes on disk. -/
theorem Written.dinodes {off m i : ℕ} {src : Bytes} (h : Written sb n k off m src p s t) (hi : i < sb.ninodes.toNat)
    (hne : i ≠ (s.icache k).inum) : dinodeAt t.disk i = dinodeAt s.disk i := by
  have hblock := IBLOCK_lt hi
  have hlt := bitStart_lt sb
  have hgrows : ∀ s', Wrote sb n k off m src s s' → dinodeAt s'.disk i = dinodeAt s.disk i := by
    intro s' h
    have hused := h.grounded.formatted.used_le
    refine dinodeAt_congr (h.grows.others _ (by omega) (by omega) fun hdata => ?_)
    have := hdata.1
    omega
  cases h with
  | within h => exact hgrows _ h
  | @beyond s' size h =>
    have hused := h.grounded.formatted.used_le
    rw [← hgrows _ h, dinodeAt_congr (resized_disk h.grounded.formatted (by omega)),
      dinodeAt_writeDinode_ne (by rwa [h.grows.still.inum])]

/-! ## The other inodes -/

/-- Inode `i` as the kernel sees it: through the cache if it is there. -/
def Sys.inode (s : Sys) (i : ℕ) : Dinode :=
  match cached s.icache i NINODE with
  | some j => s.dinode j
  | none => dinodeAt s.disk i

theorem Sys.inode_of_cached {i j : ℕ} (h : cached s.icache i NINODE = some j) :
    s.inode i = s.dinode j := by
  unfold Sys.inode
  rw [h]

theorem Sys.inode_of_uncached {i : ℕ} (h : cached s.icache i NINODE = none) :
    s.inode i = dinodeAt s.disk i := by
  unfold Sys.inode
  rw [h]

theorem cached_congr {icache icache' : ℕ → Inode}
    (h : ∀ j, (icache' j).ref = (icache j).ref ∧ (icache' j).inum = (icache j).inum) (i m : ℕ) :
    cached icache' i m = cached icache i m := by
  induction m with
  | zero => rfl
  | succ m ih => rw [cached, cached, ih, (h m).1, (h m).2]

/-- A sound file system: the superblock is one that mkfs writes, the blocks in front of the
data are marked in use, and every block of an inode is a marked data block that is in one
place only. -/
structure Sound (sb : Superblock) (s : Sys) : Prop where
  formatted : Formatted sb s
  used : ∀ x < usedBlocks sb, Marked sb s.disk x
  owned : Owned (fun i j => refAt s.disk (s.inode i) j)
    (fun i => i < sb.ninodes.toNat ∧ (s.inode i).type ≠ 0)
    fun x => DataBlock sb x ∧ Marked sb s.disk x

/-- The inode `i` is locked, at `k` in the cache, in an open transaction. -/
structure Locked (sb : Superblock) (i k : ℕ) (s : Sys) : Prop where
  cached : cached s.icache i NINODE = some k
  valid : (s.icache k).valid = true
  lt : i < sb.ninodes.toNat
  type : (s.icache k).d.type ≠ 0
  isOpen : s.log.busy = true

namespace Locked

variable {i : ℕ}

theorem inum (h : Locked sb i k s) : (s.icache k).inum = i := (cached_eq_some h.cached).2.2

theorem inode (h : Locked sb i k s) : s.inode i = (s.icache k).d := by
  rw [Sys.inode_of_cached h.cached, Sys.dinode, if_pos h.valid]

theorem live (h : Locked sb i k s) : i < sb.ninodes.toNat ∧ (s.inode i).type ≠ 0 := by
  have htype := h.type
  rw [← h.inode] at htype
  exact ⟨h.lt, htype⟩

theorem grounded (h : Locked sb i k s) (hs : Sound sb s) (hroom : Room sb s.disk (s.icache k).d n) :
    Grounded sb n (s.icache k).d s := by
  have harea := hs.owned.area i h.live
  have honce := hs.owned.once i i h.live h.live
  rw [h.inode] at harea honce
  exact ⟨hs.formatted, hs.used, ⟨fun j hj hne => (harea j hj hne).1, fun j hj hne => (harea j hj hne).2,
    fun j hj l hl hne heq => (honce j hj l hl hne heq).2⟩, hroom⟩

end Locked

theorem Written.cached_eq {off m : ℕ} {src : Bytes} (h : Written sb n k off m src p s t) (i : ℕ) :
    cached t.icache i NINODE = cached s.icache i NINODE := by
  refine cached_congr (fun j => ?_) i NINODE
  by_cases hj : j = k
  · subst hj
    exact ⟨h.framed.count, h.framed.inum⟩
  · rw [h.framed.icache j hj]
    exact ⟨rfl, rfl⟩

theorem Written.inode {off m i j : ℕ} {src : Bytes} (h : Written sb n k off m src p s t)
    (hk : Locked sb i k s) (hj : j < sb.ninodes.toNat) (hne : j ≠ i) : t.inode j = s.inode j := by
  have hinum := hk.inum
  have hdisk := h.dinodes hj (by rwa [hinum])
  cases hc : cached s.icache j NINODE with
  | none =>
    rw [Sys.inode_of_uncached hc, Sys.inode_of_uncached (h.cached_eq j ▸ hc), hdisk]
  | some l =>
    have hl := (cached_eq_some hc).2.2
    have hlk : l ≠ k := by
      rintro rfl
      exact hne (hl.symm.trans hinum)
    rw [Sys.inode_of_cached hc, Sys.inode_of_cached (h.cached_eq j ▸ hc), Sys.dinode, Sys.dinode,
      h.framed.icache l hlk, hl, hdisk]

/-- The bytes of the other inodes stay as they are. -/
theorem Written.byteAt {off m i j o : ℕ} {src : Bytes} (h : Written sb n k off m src p s t)
    (hs : Sound sb s) (hk : Locked sb i k s) (hj : j < sb.ninodes.toNat) (hne : j ≠ i)
    (htype : (s.inode j).type ≠ 0) (ho : o < MAXFILE * BSIZE) :
    Lainos.byteAt t.disk (t.inode j) o = Lainos.byteAt s.disk (s.inode j) o := by
  have hinum : (s.icache k).inum < sb.ninodes.toNat := hk.inum ▸ hk.lt
  have huntouched : Untouched s.disk t.disk (s.inode j) := by
    intro l hl hne'
    obtain ⟨hdata, hmarked⟩ := hs.owned.area j ⟨hj, htype⟩ l hl hne'
    refine h.disk hinum hdata.2 (.inr ⟨hdata, hmarked, ?_⟩)
    rintro ⟨l', hl', hne'', heq⟩
    rw [Sys.ref, ← hk.inode] at hne'' heq
    exact hne (hs.owned.once j i ⟨hj, htype⟩ hk.live l hl l' hl' hne' (UInt32.toNat_inj.mp heq).symm).1
  have hbn := div_lt_MAXFILE ho
  rw [h.inode hk hj hne]
  refine byteAt_congr (huntouched.refAt _) ?_
  by_cases hzero : mapAt s.disk (s.inode j) (o / BSIZE) = 0
  · have hstart := hs.formatted.used_le
    have hbits := bitStart_ge sb
    have hlt := bitStart_lt sb
    rw [hzero, UInt32.toNat_zero]
    exact h.disk hinum (by omega) (.inl (by omega))
  · exact huntouched _ (place_lt hbn) hzero

/-! ## Reads after a write -/

/-- A file depends on the disk only through the blocks below the log. -/
theorem IsFile.congr (h : IsFile s k bytes) (hs : Grounded sb n (s.icache k).d s)
    (hdisk : ∀ x < logStart sb, t.disk x = s.disk x) (hd : (t.icache k).d = (s.icache k).d) :
    IsFile t k bytes := by
  have huntouched : Untouched s.disk t.disk (s.icache k).d :=
    fun j hj hne => hdisk _ (hs.backed.area j hj hne).2
  refine ⟨?_, by rw [hd]; exact h.size, h.small⟩
  rw [hd]
  exact h.contents.untouched huntouched h.small

/-- A write of no more than a chunk, in a transaction that has just begun. -/
theorem Grounded.writeFile_ok {off m : UInt32} {f : ℕ} (h : Grounded sb n (s.icache k).d s)
    (hvalid : (s.icache k).valid = true) (hinum : (s.icache k).inum < sb.ninodes.toNat)
    (hf : (s.ftable f).ip = k) (hquiet : s.log.sectors = []) (hm : bitBlocks sb ≤ 3)
    (hmax : m.toNat ≤ writeMax) (hn : min (off.toNat + m.toNat) (MAXFILE * BSIZE) ≤ n * BSIZE)
    (p : Pid) (src : Bytes) :
    Exec.Ends (writeFile p k src off m) (fun _ t => Settled sb f (s.ftable f) n t) NotTooBig s := by
  subst hf
  have hrest : Resting sb f (s.ftable f) n s := by
    refine ⟨⟨h.formatted, h.used, ?_, ?_, rfl, hinum⟩, hquiet⟩
    all_goals rw [Sys.dinode_of_valid hvalid]
    · exact h.backed
    · exact h.room
  exact (hrest.chunk hvalid).ends_writeFile hm hmax hn

/-- The file of `sparse 4` in a transaction. -/
def sparseOpen : Sys := (sparse 4).setLog ⟨15278, 10, true, [], some 0⟩

theorem sparseOpen_inode {i : ℕ} (hi : i < 8) (hne : i ≠ 1) : (sparseOpen.inode i).type = 0 := by
  have hnone : cached sparseOpen.icache i NINODE = none := by
    rw [cached_eq_none]
    rintro l - ⟨-, h⟩
    exact hne h.symm
  rw [Sys.inode_of_uncached hnone]
  have hdisk : dinodeAt sparseOpen.disk i = getDinode zeroBlock (i % IPB) := by
    have hblock : IBLOCK i = 2 := by
      simp only [IBLOCK, IPB]
      omega
    rw [dinodeAt, hblock]
    refine getDinode_putDinode_ne ?_ _ _
    simp only [IPB]
    omega
  rw [hdisk]
  interval_cases i <;> rfl

theorem sparseOpen_locked : Locked (sparseSuperblock 4) 1 0 sparseOpen :=
  ⟨rfl, rfl, by decide, by decide, rfl⟩

theorem sparseOpen_sound : Sound (sparseSuperblock 4) sparseOpen := by
  have hw := sparse_writable (m := 4) le_rfl (by omega)
  have hf := hw.formatted
  have hone : ∀ i, i < (sparseSuperblock 4).ninodes.toNat ∧ (sparseOpen.inode i).type ≠ 0 → i = 1 := by
    rintro i ⟨hi, htype⟩
    by_contra hne
    exact htype (sparseOpen_inode hi hne)
  have hinode : sparseOpen.inode 1 = sparseDinode 4 := sparseOpen_locked.inode
  have hb := sparse_backed (m := 4) le_rfl (by omega)
  refine ⟨⟨hf.superblock, hf.nlog, hf.blocks, hf.start, hf.size⟩, hw.used, ?_, ?_⟩
  · intro i hi j hj hne
    obtain rfl := hone i hi
    rw [hinode] at hne ⊢
    exact ⟨hb.area j hj hne, hb.marked j hj hne⟩
  · intro i i' hi hi' j hj l hl hne heq
    obtain rfl := hone i hi
    obtain rfl := hone i' hi'
    rw [hinode] at hne heq
    exact ⟨rfl, hb.once j hj l hl hne heq⟩

theorem sparseOpen_isFile : IsFile sparseOpen 0 (List.replicate 6143 0) := by
  have hw := sparse_writable (m := 4) le_rfl (by omega)
  refine ⟨⟨?_, fun i hi => ?_⟩, ?_, ?_⟩
  · rw [List.length_replicate]
    exact hw.agrees
  · rw [List.length_replicate] at hi
    have hbn : i / BSIZE < 12 := Nat.div_lt_of_lt_mul (by simp only [BSIZE]; omega)
    have hmap : mapAt sparseOpen.disk (sparseDinode 4) (i / BSIZE) = UInt32.ofNat (8 + i / BSIZE) := by
      rw [mapAt_direct hbn, sparse_addr hbn]
    have hzero : ∀ x, 8 ≤ x → sparseOpen.disk x = zeroBlock := fun x hx => by
      change sparseDisk 4 x = _
      rw [sparseDisk, if_neg (by omega), if_neg (by omega), if_neg (by omega)]
    change byteAt sparseOpen.disk (sparseDinode 4) i = _
    rw [byteAt, hmap, sparse_toNat (m := 4) (by omega) hbn, hzero _ (Nat.le_add_right 8 _), List.getD_replicate _ hi]
    rfl
  · rw [List.length_replicate]
    rfl
  · rw [List.length_replicate]
    decide

/-- The first `i` blocks of the file have been logged. -/
structure Filling (i : ℕ) (s : Sys) : Prop where
  d : (s.icache 0).d = sparseDinode 4
  start : s.log.start = 15278
  size : s.log.size = 10
  busy : s.log.busy = true
  sectors : s.log.sectors = (List.range i).map (8 + ·)

theorem Filling.bmap_eq {i : ℕ} (h : Filling i s) (hi : i < 12) (p : Pid) :
    bmap p 0 i s = .ok (UInt32.ofNat (8 + i), s) := by
  have hmap : mapAt s.disk (s.icache 0).d i = UInt32.ofNat (8 + i) := by
    rw [h.d, mapAt_direct hi, sparse_addr hi]
  rw [bmap_of_mapped (hi.trans (by decide)), hmap]
  rw [hmap]
  exact sparse_ref_ne_zero (m := 4) (by omega) hi

theorem Filling.succ {i : ℕ} (h : Filling i s) (p : Pid) (data : Block) :
    Filling (i + 1) (s.logged p (8 + i) data) := by
  refine ⟨h.d, h.start, h.size, h.busy, ?_⟩
  rw [sectors_logged_of_notMem, h.sectors, List.range_succ, List.map_append]
  · rfl
  · simp [h.sectors]

theorem Filling.turn {i fuel n : ℕ} {src : Bytes} (h : Filling i s) (hi : i < 12) (hn : 512 ≤ n)
    (p : Pid) : writeLoop p 0 (fuel + 1) (512 * i) n src s = (do
      logWrite p (8 + i) (splice (s.disk (8 + i)) 0 512 src)
      writeLoop p 0 fuel (512 * (i + 1)) (n - 512) (shift src 512) : Act Unit) s := by
  have hbn : 512 * i / BSIZE = i := Nat.mul_div_cancel_left i (by decide)
  have hmod : 512 * i % BSIZE = 0 := Nat.mul_mod_right 512 i
  have hmin : min n (BSIZE - 0) = 512 := by
    simp only [BSIZE]
    omega
  have htoNat : (UInt32.ofNat (8 + i)).toNat = 8 + i := sparse_toNat (m := 4) (by omega) hi
  rw [writeLoop, if_neg (by omega), hbn, Exec.bind_of_ok (h.bmap_eq hi p),
    Exec.bind_of_ok Exec.get_run, hmod, hmin, htoNat]
  rfl

/-- The tenth block is one too many. -/
theorem Filling.panics {c i fuel n : ℕ} {src : Bytes} (h : Filling i s) (hc : i + c = 9)
    (hn : 512 * (c + 1) ≤ n) (p : Pid) : ∃ last,
      writeLoop p 0 (fuel + c + 1) (512 * i) n src s = .error ⟨.panic "too big a transaction", last⟩ := by
  have hlen : s.log.sectors.length = i := by simp [h.sectors]
  induction c generalizing i n s src with
  | zero =>
    exact ⟨s, (h.turn (by omega) (by omega) p).trans
      (Exec.bind_of_error (logWrite_of_full h.size (by omega)))⟩
  | succ c ih =>
    have hnext := h.succ p (splice (s.disk (8 + i)) 0 512 src)
    obtain ⟨last, hrun⟩ := @ih _ (i + 1) (n - 512) (shift src 512) hnext (by omega) (by omega)
      (by rw [hnext.sectors, List.length_map, List.length_range])
    refine ⟨last, (h.turn (by omega) (by omega) p).trans ?_⟩
    rw [Exec.bind_of_ok (logWrite_of_room h.size (by omega) h.busy (by rw [h.start]; omega))]
    exact hrun

end Lainos.Kernel
