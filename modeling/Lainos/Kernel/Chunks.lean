import Lainos.Kernel.Blocks

/-!
# The transactions of filewrite

`filewrite` cuts a write into chunks and gives each a transaction. A chunk logs at most
four blocks of the file, its indirect block, blocks of the free map, and in the end the
block of the inode.
-/

namespace Lainos.Kernel

open Library

variable {sb : Superblock} {s s' : Sys} {p : Pid} {b f n bn : ℕ} {file : File} {d d' : Dinode} {disk disk' : Disk}
  {D U : Finset ℕ}

/-! ## Block maps -/

/-- The blocks of an inode are data blocks, marked in use, each in one place. -/
structure Backed (sb : Superblock) (disk : Disk) (d : Dinode) : Prop where
  area : ∀ j < NREF, refAt disk d j ≠ 0 → DataBlock sb (refAt disk d j).toNat
  marked : ∀ j < NREF, refAt disk d j ≠ 0 → Marked sb disk (refAt disk d j).toNat
  once : ∀ j < NREF, ∀ l < NREF, refAt disk d j ≠ 0 → refAt disk d j = refAt disk d l → j = l

theorem Backed.congr (h : Backed sb disk d) (href : ∀ j, refAt disk' d' j = refAt disk d j)
    (hmarks : ∀ x, DataBlock sb x → Marked sb disk x → Marked sb disk' x) : Backed sb disk' d' := by
  refine ⟨fun j hj => ?_, fun j hj => ?_, fun j hj l hl => ?_⟩
  · rw [href]
    exact h.area j hj
  · rw [href]
    exact fun hne => hmarks _ (h.area j hj hne) (h.marked j hj hne)
  · rw [href, href]
    exact h.once j hj l hl

/-- A block that is new to the file is put in one place. -/
theorem Backed.assign {pl : ℕ} {b : UInt32} (h : Backed sb disk d)
    (href : ∀ j, refAt disk' d' j = if j = pl then b else refAt disk d j)
    (hmarks : ∀ x, DataBlock sb x → Marked sb disk x → Marked sb disk' x)
    (hb : DataBlock sb b.toNat) (hmarked : Marked sb disk' b.toNat)
    (hnew : ∀ j < NREF, refAt disk d j ≠ b) : Backed sb disk' d' := by
  refine ⟨fun j hj => ?_, fun j hj => ?_, fun j hj l hl => ?_⟩
  · rw [href]
    split_ifs
    · exact fun _ => hb
    · exact h.area j hj
  · rw [href]
    split_ifs
    · exact fun _ => hmarked
    · exact fun hne => hmarks _ (h.area j hj hne) (h.marked j hj hne)
  · rw [href, href]
    split_ifs with hjp hlp hlp
    · exact fun _ _ => hjp.trans hlp.symm
    · exact fun _ heq => absurd heq.symm (hnew l hl)
    · exact fun _ heq => absurd heq (hnew j hj)
    · exact h.once j hj l hl

/-- The places for block numbers that a file of `n` blocks needs and that are empty. -/
def missing (disk : Disk) (d : Dinode) (n : ℕ) : Finset ℕ :=
  (Finset.range (refCount n)).filter fun j => refAt disk d j = 0

theorem mem_missing {j : ℕ} : j ∈ missing disk d n ↔ j < refCount n ∧ refAt disk d j = 0 := by
  simp [missing]

theorem missing_congr (href : ∀ j, refAt disk' d' j = refAt disk d j) :
    missing disk' d' n = missing disk d n := by
  simp only [missing, href]

theorem missing_assign {pl : ℕ} {b : UInt32} (hb : b ≠ 0)
    (href : ∀ j, refAt disk' d' j = if j = pl then b else refAt disk d j) :
    missing disk' d' n = (missing disk d n).erase pl := by
  ext j
  rw [Finset.mem_erase, mem_missing, mem_missing, href]
  split_ifs with hj <;> simp [hj, hb]

theorem place_lt_refCount (h : bn < n) : place bn < refCount n := by
  simp only [place, refCount]
  split_ifs <;> omega

theorem indirect_lt_refCount (hbn : NDIRECT ≤ bn) (h : bn < n) : NDIRECT < refCount n := by
  simp only [refCount]
  split_ifs <;> omega

/-- There is a free data block for every empty place. -/
def Room (sb : Superblock) (disk : Disk) (d : Dinode) (n : ℕ) : Prop :=
  ∃ F : Finset ℕ, (∀ b ∈ F, DataBlock sb b ∧ ¬ Marked sb disk b) ∧ (missing disk d n).card ≤ F.card

theorem Room.mono {m : ℕ} (h : Room sb disk d n) (hle : m ≤ n) : Room sb disk d m := by
  obtain ⟨F, hF, hcard⟩ := h
  refine ⟨F, hF, (Finset.card_le_card fun j hj => ?_).trans hcard⟩
  rw [mem_missing] at hj ⊢
  exact ⟨hj.1.trans_le (refCount_mono hle), hj.2⟩

theorem Room.exists_free {j : ℕ} (h : Room sb disk d n) (hj : j ∈ missing disk d n) :
    ∃ b, DataBlock sb b ∧ ¬ Marked sb disk b := by
  obtain ⟨F, hF, hcard⟩ := h
  have hpos : 0 < (missing disk d n).card := Finset.card_pos.mpr ⟨j, hj⟩
  obtain ⟨b, hb⟩ := Finset.card_pos.mp (hpos.trans_le hcard)
  exact ⟨b, hF b hb⟩

theorem Room.congr (h : Room sb disk d n) (href : ∀ j, refAt disk' d' j = refAt disk d j)
    (hmarks : ∀ x, DataBlock sb x → (Marked sb disk' x ↔ Marked sb disk x)) :
    Room sb disk' d' n := by
  obtain ⟨F, hF, hcard⟩ := h
  refine ⟨F, fun b hb => ⟨(hF b hb).1, fun hm => (hF b hb).2 ((hmarks b (hF b hb).1).mp hm)⟩, ?_⟩
  rwa [missing_congr href]

/-- One of the free blocks goes to one of the empty places. -/
theorem Room.assign {pl : ℕ} {b : UInt32} (h : Room sb disk d n) (hpl : pl ∈ missing disk d n)
    (hb : b ≠ 0) (href : ∀ j, refAt disk' d' j = if j = pl then b else refAt disk d j)
    (hmarks : ∀ x, DataBlock sb x → (Marked sb disk' x ↔ Marked sb disk x ∨ x = b.toNat)) :
    Room sb disk' d' n := by
  obtain ⟨F, hF, hcard⟩ := h
  refine ⟨F.erase b.toNat, fun x hx => ?_, ?_⟩
  · obtain ⟨hne, hxF⟩ := Finset.mem_erase.mp hx
    refine ⟨(hF x hxF).1, fun hm => ?_⟩
    exact ((hmarks x (hF x hxF).1).mp hm).elim (hF x hxF).2 hne
  · rw [missing_assign hb href, Finset.card_erase_of_mem hpl]
    have := Finset.pred_card_le_card_erase (s := F) (a := b.toNat)
    omega

/-! ## The file system during a write -/

/-- An inode as a process that locks it sees it. -/
def Sys.dinode (s : Sys) (k : ℕ) : Dinode :=
  if (s.icache k).valid then (s.icache k).d else dinodeAt s.disk (s.icache k).inum

/-- A formatted file system with an open file whose inode is `d`, and with room for the
file to grow to `n` blocks. -/
structure Steady (sb : Superblock) (f : ℕ) (file : File) (n : ℕ) (d : Dinode) (s : Sys) : Prop where
  formatted : Formatted sb s
  used : ∀ x < usedBlocks sb, Marked sb s.disk x
  backed : Backed sb s.disk d
  room : Room sb s.disk d n
  entry : s.ftable f = file
  inum : (s.icache file.ip).inum < sb.ninodes.toNat

/-- The part of it that is about the disk. -/
structure Grounded (sb : Superblock) (n : ℕ) (d : Dinode) (s : Sys) : Prop where
  formatted : Formatted sb s
  used : ∀ x < usedBlocks sb, Marked sb s.disk x
  backed : Backed sb s.disk d
  room : Room sb s.disk d n

theorem Steady.grounded (h : Steady sb f file n d s) : Grounded sb n d s :=
  ⟨h.formatted, h.used, h.backed, h.room⟩

theorem Grounded.indirect_lt (h : Grounded sb n d s) (hne : d.addr NDIRECT ≠ 0) :
    (d.addr NDIRECT).toNat < logStart sb := by
  have hrefAt : refAt s.disk d NDIRECT = d.addr NDIRECT := refAt_addr le_rfl
  rw [← hrefAt]
  exact (h.backed.area NDIRECT (by decide) (by rwa [hrefAt])).2

/-- Changes of the disk that matter to no inode's block map. -/
theorem Grounded.congr (h : Grounded sb n d s) (hlog : s'.log.start = s.log.start)
    (hsize : s'.log.size = s.log.size) (haddrs : d'.addrs = d.addrs)
    (hdisk : ∀ x < logStart sb, x = 1 ∨ (bitStart sb ≤ x ∧ x < usedBlocks sb) ∨
      (d.addr NDIRECT ≠ 0 ∧ x = (d.addr NDIRECT).toNat) → s'.disk x = s.disk x) :
    Grounded sb n d' s' := by
  have hused := h.formatted.used_le
  have hbits := bitStart_ge sb
  have hlt := bitStart_lt sb
  have hmarks : ∀ x < sb.size.toNat, (Marked sb s'.disk x ↔ Marked sb s.disk x) := by
    intro x hx
    have hmem := BBLOCK_mem hx
    exact Marked.congr (hdisk _ (by omega) (Or.inr (Or.inl hmem)))
  have hdata : ∀ x, DataBlock sb x → x < sb.size.toNat :=
    fun x hx => hx.2.trans h.formatted.logStart_lt
  have href : ∀ j, refAt s'.disk d' j = refAt s.disk d j :=
    refAt_congr haddrs fun hne => hdisk _ (h.indirect_lt hne) (Or.inr (Or.inr ⟨hne, rfl⟩))
  refine ⟨⟨?_, h.formatted.nlog, h.formatted.blocks, ?_, ?_⟩, fun x hx => ?_, ?_, ?_⟩
  · rw [hdisk 1 (by omega) (Or.inl rfl)]
    exact h.formatted.superblock
  · rw [hlog, h.formatted.start]
  · rw [hsize, h.formatted.size]
  · exact (hmarks x (by have := h.formatted.logStart_lt; omega)).mpr (h.used x hx)
  · exact h.backed.congr href fun x hx => (hmarks x (hdata x hx)).mpr
  · exact h.room.congr href fun x hx => hmarks x (hdata x hx)

theorem Steady.congr (h : Steady sb f file n d s) (hlog : s'.log.start = s.log.start)
    (hsize : s'.log.size = s.log.size)
    (hfile : s'.ftable f = s.ftable f) (hinum : (s'.icache file.ip).inum = (s.icache file.ip).inum)
    (haddrs : d'.addrs = d.addrs)
    (hdisk : ∀ x < logStart sb, x = 1 ∨ (bitStart sb ≤ x ∧ x < usedBlocks sb) ∨
      (d.addr NDIRECT ≠ 0 ∧ x = (d.addr NDIRECT).toNat) → s'.disk x = s.disk x) :
    Steady sb f file n d' s' := by
  have hg := h.grounded.congr hlog hsize haddrs hdisk
  exact ⟨hg.formatted, hg.used, hg.backed, hg.room, by rw [hfile, h.entry], by rw [hinum]; exact h.inum⟩

/-- What a chunk may log before it comes to the inode: the free map, the indirect block
and the blocks `D`. -/
def touched (sb : Superblock) (d : Dinode) (D : Finset ℕ) : Finset ℕ :=
  bitmaps sb ∪ (if d.addr NDIRECT = 0 then ∅ else {(d.addr NDIRECT).toNat}) ∪ D

theorem card_touched_le (sb : Superblock) (d : Dinode) (D : Finset ℕ) :
    (touched sb d D).card ≤ bitBlocks sb + 1 + D.card := by
  refine (Finset.card_union_le _ _).trans (Nat.add_le_add_right ?_ _)
  refine (Finset.card_union_le _ _).trans ?_
  rw [card_bitmaps]
  split_ifs <;> simp

theorem bitmaps_subset_touched (sb : Superblock) (d : Dinode) (D : Finset ℕ) :
    bitmaps sb ⊆ touched sb d D := fun _ hx =>
  Finset.mem_union_left _ (Finset.mem_union_left _ hx)

theorem insert_touched (sb : Superblock) (d : Dinode) (D : Finset ℕ) (b : ℕ) :
    insert b (touched sb d D) = touched sb d (insert b D) := by
  rw [touched, touched, Finset.union_insert]

theorem indirect_mem_touched (h : d.addr NDIRECT ≠ 0) :
    (d.addr NDIRECT).toNat ∈ touched sb d D := by
  rw [touched, if_neg h]
  simp

/-- In the middle of a chunk, with the inode locked. -/
structure Chunk (sb : Superblock) (f : ℕ) (file : File) (n : ℕ) (D : Finset ℕ) (s : Sys) : Prop where
  valid : (s.icache file.ip).valid = true
  steady : Steady sb f file n (s.icache file.ip).d s
  journal : Journal (touched sb (s.icache file.ip).d D) s

/-- The log has room for the first three blocks of a chunk and one more. -/
theorem room_of_card (hm : bitBlocks sb ≤ 3) (hD : D.card ≤ 4) (d : Dinode) :
    (touched sb d D).card + 1 < LOGSIZE := by
  have := card_touched_le sb d D
  rw [LOGSIZE]
  omega

/-- No block of the file has just been allocated. -/
theorem Backed.ne_of_free {j : ℕ} {b : UInt32} (h : Backed sb disk d)
    (hfree : ¬ Marked sb disk b.toNat) (hb : b ≠ 0) (hj : j < NREF) : refAt disk d j ≠ b := by
  rintro rfl
  exact hfree (h.marked j hj hb)

theorem DataBlock.ne_zero {b : UInt32} (h : DataBlock sb b.toNat) : b ≠ 0 := by
  rintro rfl
  have hle := h.1
  have hbits := bitStart_ge sb
  have hlt := bitStart_lt sb
  rw [UInt32.toNat_zero] at hle
  omega

/-- `balloc` leaves the block maps alone. -/
theorem Ballocs.refAt (h : Ballocs sb b s s') (hd : Backed sb s.disk d) (j : ℕ) :
    refAt s'.disk d j = Lainos.refAt s.disk d j := by
  refine refAt_congr rfl (fun hne => ?_) j
  have hrefAt : Lainos.refAt s.disk d NDIRECT = d.addr NDIRECT := refAt_addr le_rfl
  have harea := hd.area NDIRECT (by decide) (by rwa [hrefAt])
  have hmarked := hd.marked NDIRECT (by decide) (by rwa [hrefAt])
  rw [hrefAt] at harea hmarked
  refine h.others _ harea.2 (fun heq => h.free (heq ▸ hmarked)) fun hbits => ?_
  have := harea.1
  omega

theorem Ballocs.formatted (h : Ballocs sb b s s') (hf : Formatted sb s) : Formatted sb s' := by
  have hused := hf.used_le
  have hbits := bitStart_ge sb
  have hlt := bitStart_lt sb
  have hb := h.area.1
  refine ⟨?_, hf.nlog, hf.blocks, h.start.trans hf.start, h.size.trans hf.size⟩
  rw [h.others 1 (by omega) (by omega) (by omega), hf.superblock]

theorem Ballocs.marks_data (h : Ballocs sb b s s') (hf : Formatted sb s) {x : ℕ}
    (hx : DataBlock sb x) : Marked sb s'.disk x ↔ Marked sb s.disk x ∨ x = b :=
  h.marks x (hx.2.trans hf.logStart_lt)

/-- A block from `balloc` is put in an empty place. -/
theorem Grounded.attach {s₁ : Sys} {pl : ℕ} {b : UInt32} (h : Grounded sb n d s)
    (ha : Ballocs sb b.toNat s s₁) (hpl : pl ∈ missing s.disk d n)
    (href : ∀ j, refAt s'.disk d' j = if j = pl then b else refAt s₁.disk d j)
    (hdisk : ∀ x < logStart sb, x = 1 ∨ (bitStart sb ≤ x ∧ x < usedBlocks sb) →
      s'.disk x = s₁.disk x) (hstart : s'.log.start = s₁.log.start)
    (hsize : s'.log.size = s₁.log.size) : Grounded sb n d' s' := by
  have hf := h.formatted
  have hf₁ := ha.formatted hf
  have hused := hf.used_le
  have hbits := bitStart_ge sb
  have hlt := bitStart_lt sb
  have hlast := hf.logStart_lt
  have hmarks : ∀ x < sb.size.toNat, (Marked sb s'.disk x ↔ Marked sb s.disk x ∨ x = b.toNat) := by
    intro x hx
    have hmem := BBLOCK_mem hx
    rw [← ha.marks x hx]
    exact Marked.congr (hdisk _ (by omega) (Or.inr hmem))
  have hdata : ∀ x, DataBlock sb x → (Marked sb s'.disk x ↔ Marked sb s.disk x ∨ x = b.toNat) :=
    fun x hx => hmarks x (hx.2.trans hlast)
  have hb : b ≠ 0 := ha.area.ne_zero
  have href' : ∀ j, refAt s'.disk d' j = if j = pl then b else refAt s.disk d j := by
    intro j
    rw [href j, ha.refAt h.backed]
  refine ⟨⟨?_, hf.nlog, hf.blocks, ?_, ?_⟩, fun x hx => ?_, ?_, ?_⟩
  · rw [hdisk 1 (by omega) (Or.inl rfl)]
    exact hf₁.superblock
  · rw [hstart, hf₁.start]
  · rw [hsize, hf₁.size]
  · exact (hmarks x (by omega)).mpr (Or.inl (h.used x hx))
  · exact h.backed.assign href' (fun x hx hm => (hdata x hx).mpr (Or.inl hm)) ha.area
      ((hdata _ ha.area).mpr (Or.inr rfl)) fun j hj => h.backed.ne_of_free ha.free hb hj
  · exact h.room.assign hpl hb href' hdata

theorem Steady.attach {s₁ : Sys} {pl : ℕ} {b : UInt32} (h : Steady sb f file n d s)
    (ha : Ballocs sb b.toNat s s₁) (hpl : pl ∈ missing s.disk d n)
    (href : ∀ j, refAt s'.disk d' j = if j = pl then b else refAt s₁.disk d j)
    (hdisk : ∀ x < logStart sb, x = 1 ∨ (bitStart sb ≤ x ∧ x < usedBlocks sb) →
      s'.disk x = s₁.disk x) (hstart : s'.log.start = s₁.log.start)
    (hsize : s'.log.size = s₁.log.size)
    (hfile : s'.ftable f = s.ftable f) (hinum : (s'.icache file.ip).inum = (s.icache file.ip).inum) :
    Steady sb f file n d' s' := by
  have hg := h.grounded.attach ha hpl href hdisk hstart hsize
  exact ⟨hg.formatted, hg.used, hg.backed, hg.room, by rw [hfile, h.entry], by rw [hinum]; exact h.inum⟩

/-! ## The blocks of a chunk -/

/-- What the lemmas here say of a run that does not finish. -/
def NotTooBig (e : Halt) : Prop := e.why ≠ .panic "too big a transaction"

/-- After `bmap`: the block is one of the file's, and may be logged. -/
structure Maps (sb : Superblock) (f : ℕ) (file : File) (n bn : ℕ) (D : Finset ℕ) (b : UInt32) (s : Sys) : Prop where
  chunk : Chunk sb f file n (insert b.toNat D) s
  map : mapAt s.disk (s.icache file.ip).d bn = b
  ne_zero : b ≠ 0

/-- The block was there before. -/
theorem Chunk.maps {b : UInt32} (h : Chunk sb f file n D s) (hbn : bn < MAXFILE)
    (hmap : mapAt s.disk (s.icache file.ip).d bn = b) (hb : b ≠ 0) :
    Maps sb f file n bn D b s := by
  refine ⟨⟨h.valid, h.steady, ?_⟩, hmap, hb⟩
  rw [← insert_touched]
  refine h.journal.mono (Finset.subset_insert _ _) fun x hx => ?_
  rcases Finset.mem_insert.mp hx with rfl | hx
  · rw [h.steady.formatted.start, ← hmap]
    exact (h.steady.backed.area _ (place_lt hbn) (by rw [← mapAt, hmap]; exact hb)).2
  · exact h.journal.below x hx

/-- The inode at `k` gets another address. -/
theorem journal_setD (h : Journal U s) (k : ℕ) (d : Dinode) : Journal U (s.setD k d) :=
  ⟨h.nodup, h.sub, h.below, h.copied⟩

theorem setD_icache_d (s : Sys) (k : ℕ) (d : Dinode) : ((s.setD k d).icache k).d = d := by
  rw [Sys.setD_icache, Function.update_self]

theorem Chunk.ends_balloc {Q : UInt32 → Sys → Prop} {j : ℕ} (h : Chunk sb f file n D s)
    (hm : bitBlocks sb ≤ 3) (hD : D.card ≤ 3)
    (hj : j ∈ missing s.disk (s.icache file.ip).d n)
    (hQ : ∀ (b : UInt32) s', Ballocs sb b.toNat s s' →
      Journal (insert b.toNat (touched sb (s.icache file.ip).d D)) s' →
      Q b s') : Exec.Ends (balloc p) Q NotTooBig s := by
  obtain ⟨free, hdata, hfree⟩ := h.steady.room.exists_free hj
  exact Kernel.ends_balloc h.steady.formatted h.steady.used hdata hfree h.journal
    (bitmaps_subset_touched _ _ _) (room_of_card hm (by omega) _) hQ fun _ he => he

/-- A free block becomes a direct block of the file. -/
theorem Chunk.attach_direct {s₁ : Sys} {b : UInt32} (h : Chunk sb f file n D s) (hbn : bn < NDIRECT)
    (hmiss : bn ∈ missing s.disk (s.icache file.ip).d n) (ha : Ballocs sb b.toNat s s₁)
    (hj : Journal (insert b.toNat (touched sb (s.icache file.ip).d D)) s₁) :
    Maps sb f file n bn D b (s₁.setD file.ip ((s₁.icache file.ip).d.setAddr bn b)) := by
  have hd : ((s₁.setD file.ip ((s₁.icache file.ip).d.setAddr bn b)).icache file.ip).d = (s.icache file.ip).d.setAddr bn b := by
    rw [setD_icache_d, ha.icache]
  have hind : ((s.icache file.ip).d.setAddr bn b).addr NDIRECT = (s.icache file.ip).d.addr NDIRECT := by
    simp only [NDIRECT] at *
    exact Dinode.addr_setAddr_ne (by omega) (by omega) (by omega) b
  refine ⟨⟨?_, ?_, ?_⟩, ?_, ha.area.ne_zero⟩
  · rw [Sys.setD_icache, Function.update_self, ha.icache]
    exact h.valid
  · rw [hd]
    refine h.steady.attach ha hmiss (fun j => refAt_setAddr_direct hbn b j) (fun _ _ _ => rfl) rfl rfl
      ?_ ?_
    · rw [Sys.setD_ftable, ha.ftable]
    · rw [Sys.setD_icache, Function.update_self, ha.icache]
  · have htouched : touched sb ((s.icache file.ip).d.setAddr bn b) (insert b.toNat D) =
        touched sb (s.icache file.ip).d (insert b.toNat D) := by
      rw [touched, touched, hind]
    rw [hd, htouched, ← insert_touched]
    exact journal_setD hj file.ip _
  · rw [hd, mapAt_direct hbn, Dinode.addr_setAddr]

/-- A free block becomes the indirect block of the file. -/
theorem Chunk.attach_indirect {s₁ : Sys} {b : UInt32} (h : Chunk sb f file n D s)
    (hmiss : NDIRECT ∈ missing s.disk (s.icache file.ip).d n) (ha : Ballocs sb b.toNat s s₁)
    (hj : Journal (insert b.toNat (touched sb (s.icache file.ip).d D)) s₁) :
    Chunk sb f file n D (s₁.setD file.ip ((s₁.icache file.ip).d.setAddr NDIRECT b)) := by
  have hd : ((s₁.setD file.ip ((s₁.icache file.ip).d.setAddr NDIRECT b)).icache file.ip).d =
      (s.icache file.ip).d.setAddr NDIRECT b := by
    rw [setD_icache_d, ha.icache]
  have hnone : (s.icache file.ip).d.addr NDIRECT = 0 := by
    have hempty := (mem_missing.mp hmiss).2
    rwa [refAt_addr le_rfl] at hempty
  refine ⟨?_, ?_, ?_⟩
  · rw [Sys.setD_icache, Function.update_self, ha.icache]
    exact h.valid
  · rw [hd]
    refine h.steady.attach ha hmiss (fun j => refAt_setAddr_indirect hnone ha.zero j)
      (fun _ _ _ => rfl) rfl rfl ?_ ?_
    · rw [Sys.setD_ftable, ha.ftable]
    · rw [Sys.setD_icache, Function.update_self, ha.icache]
  · have htouched : touched sb ((s.icache file.ip).d.setAddr NDIRECT b) D =
        insert b.toNat (touched sb (s.icache file.ip).d D) := by
      rw [touched, touched, Dinode.addr_setAddr, if_neg ha.area.ne_zero, if_pos hnone,
        Finset.union_empty, Finset.union_comm (bitmaps sb), Finset.singleton_union, Finset.insert_union]
    rw [hd, htouched]
    exact journal_setD hj file.ip _

/-- A free block is entered in the indirect block of the file. -/
theorem Chunk.attach_entry {s₁ : Sys} {b : UInt32} (h : Chunk sb f file n D s) (hbn : ¬ bn < NDIRECT)
    (hind : (s.icache file.ip).d.addr NDIRECT ≠ 0)
    (hmiss : place bn ∈ missing s.disk (s.icache file.ip).d n) (ha : Ballocs sb b.toNat s s₁)
    (hj : Journal (insert b.toNat (touched sb (s.icache file.ip).d D)) s₁) (p : Pid) :
    Maps sb f file n bn D b (s₁.logged p ((s.icache file.ip).d.addr NDIRECT).toNat
      (put32 (s₁.disk ((s.icache file.ip).d.addr NDIRECT).toNat) (4 * (bn - NDIRECT)) b)) := by
  have hf := h.steady.formatted
  have hrefAt : refAt s.disk (s.icache file.ip).d NDIRECT = (s.icache file.ip).d.addr NDIRECT := refAt_addr le_rfl
  have harea := h.steady.backed.area NDIRECT (by decide) (by rwa [hrefAt])
  rw [hrefAt] at harea
  have hstart : s₁.log.start = logStart sb := ha.start.trans hf.start
  have hdisk : ∀ x < logStart sb, (s₁.logged p ((s.icache file.ip).d.addr NDIRECT).toNat
      (put32 (s₁.disk ((s.icache file.ip).d.addr NDIRECT).toNat) (4 * (bn - NDIRECT)) b)).disk x =
      if x = ((s.icache file.ip).d.addr NDIRECT).toNat then
        put32 (s₁.disk ((s.icache file.ip).d.addr NDIRECT).toNat) (4 * (bn - NDIRECT)) b else s₁.disk x :=
    fun x hx => logged_disk (hstart ▸ hx)
  have hicache : (s₁.logged p ((s.icache file.ip).d.addr NDIRECT).toNat (put32 (s₁.disk
      ((s.icache file.ip).d.addr NDIRECT).toNat) (4 * (bn - NDIRECT)) b)).icache = s.icache := ha.icache
  have hplace : place bn = 13 + (bn - NDIRECT) := by
    rw [place, if_neg hbn]
    simp only [NDIRECT] at *
    omega
  have href := fun j => refAt_putEntry hind ((hdisk _ harea.2).trans (if_pos rfl)) j
  rw [← hplace] at href
  refine ⟨⟨?_, ?_, ?_⟩, ?_, ha.area.ne_zero⟩
  · rw [hicache]
    exact h.valid
  · rw [hicache]
    refine h.steady.attach ha hmiss href (fun x hx hcase => (hdisk x hx).trans (if_neg ?_)) rfl rfl
      ?_ ?_
    · have hbits := bitStart_ge sb
      have hlt := bitStart_lt sb
      have hle := harea.1
      omega
    · exact congrArg (fun t => t f) ha.ftable
    · rw [hicache]
  · rw [hicache, ← insert_touched]
    exact hj.logged (Finset.mem_insert_of_mem (indirect_mem_touched hind)) p _
  · rw [hicache, mapAt, href, if_pos rfl]

/-- The second half of `bmap`, where there is an indirect block. -/
theorem Chunk.ends_entry {Q : UInt32 → Sys → Prop} {ind : UInt32} (h : Chunk sb f file n D s)
    (hm : bitBlocks sb ≤ 3) (hD : D.card ≤ 3) (hbn : ¬ bn < NDIRECT) (hmax : bn < MAXFILE)
    (hn : bn < n) (hind : (s.icache file.ip).d.addr NDIRECT = ind) (hne : ind ≠ 0)
    (hQ : ∀ b s', Maps sb f file n bn D b s' → Q b s') :
    Exec.Ends (do
      let s ← get
      if get32 (s.disk ind.toNat) (4 * (bn - NDIRECT)) = 0 then do
        let b ← balloc p
        let s ← get
        logWrite p ind.toNat (put32 (s.disk ind.toNat) (4 * (bn - NDIRECT)) b)
        return b
      else return get32 (s.disk ind.toNat) (4 * (bn - NDIRECT)) : Act UInt32) Q NotTooBig s := by
  subst hind
  have hmap := @mapAt_indirect bn s.disk (s.icache file.ip).d hbn hne
  rw [Exec.ends_bind, Exec.ends_get, Exec.ends_ite]
  refine ⟨fun hzero => ?_, fun ha => hQ _ _ (h.maps hmax hmap ha)⟩
  have hmiss : place bn ∈ missing s.disk (s.icache file.ip).d n := by
    refine mem_missing.mpr ⟨place_lt_refCount hn, ?_⟩
    rw [← mapAt, hmap, hzero]
  rw [Exec.ends_bind]
  refine h.ends_balloc hm hD hmiss fun b s₁ ha hj => ?_
  rw [Exec.ends_bind, Exec.ends_get, Exec.ends_bind]
  have hroom : (insert b.toNat (touched sb (s.icache file.ip).d D)).card + 1 < LOGSIZE := by
    rw [insert_touched]
    exact room_of_card hm ((Finset.card_insert_le _ _).trans (by omega)) _
  refine hj.ends_logWrite ?_ hroom ?_ fun _ he => he
  · rw [ha.size, h.steady.formatted.size, h.steady.formatted.nlog]
  · exact hQ _ _ (h.attach_entry hbn hne hmiss ha hj p)

theorem Chunk.ends_bmap {Q : UInt32 → Sys → Prop} (h : Chunk sb f file n D s)
    (hm : bitBlocks sb ≤ 3) (hD : D.card ≤ 3) (hmax : bn < MAXFILE) (hn : bn < n)
    (hQ : ∀ b s', Maps sb f file n bn D b s' → Q b s') : Exec.Ends (bmap p file.ip bn) Q NotTooBig s := by
  rw [bmap, Exec.ends_bind, Exec.ends_get, Exec.ends_ite]
  refine ⟨fun hbn => ?_, fun hbn => ?_⟩
  · have hmap := @mapAt_direct bn s.disk (s.icache file.ip).d hbn
    rw [Exec.ends_ite]
    refine ⟨fun hzero => ?_, fun hne => hQ _ _ (h.maps hmax hmap hne)⟩
    have hmiss : bn ∈ missing s.disk (s.icache file.ip).d n := by
      have hlt := place_lt_refCount hn
      rw [place, if_pos hbn] at hlt
      exact mem_missing.mpr ⟨hlt, by rw [refAt_addr hbn.le, hzero]⟩
    rw [Exec.ends_bind]
    refine h.ends_balloc hm hD hmiss fun b s₁ ha hj => ?_
    rw [Exec.ends_bind, Exec.ends_modify, Exec.ends_pure]
    exact hQ _ _ (h.attach_direct hbn hmiss ha hj)
  · have hrange : bn - NDIRECT < NINDIRECT := by
      simp only [MAXFILE] at hmax
      omega
    rw [if_pos hrange]
    dsimp only
    rw [Exec.ends_ite]
    refine ⟨fun hzero => ?_, fun hne => ?_⟩
    · have hmiss : NDIRECT ∈ missing s.disk (s.icache file.ip).d n :=
        mem_missing.mpr ⟨indirect_lt_refCount (by omega) hn, by rw [refAt_addr le_rfl, hzero]⟩
      rw [Exec.ends_bind]
      refine h.ends_balloc hm hD hmiss fun b s₁ ha hj => ?_
      rw [Exec.ends_bind, Exec.ends_modify, Exec.ends_bind, Exec.ends_pure]
      refine (h.attach_indirect hmiss ha hj).ends_entry hm hD hbn hmax hn ?_ ha.area.ne_zero hQ
      rw [setD_icache_d, Dinode.addr_setAddr]
    · rw [Exec.ends_bind, Exec.ends_pure]
      exact h.ends_entry hm hD hbn hmax hn rfl hne hQ

/-- Writing into a block of the file. -/
theorem Maps.logged {b : UInt32} (h : Maps sb f file n bn D b s) (hmax : bn < MAXFILE) (p : Pid)
    (data : Block) : Chunk sb f file n (insert b.toNat D) (s.logged p b.toNat data) := by
  have hs := h.chunk.steady
  have hmap : refAt s.disk (s.icache file.ip).d (place bn) = b := h.map
  have hb : refAt s.disk (s.icache file.ip).d (place bn) ≠ 0 := by
    rw [hmap]
    exact h.ne_zero
  have harea := hs.backed.area _ (place_lt hmax) hb
  rw [hmap] at harea
  refine ⟨h.chunk.valid, hs.congr rfl rfl rfl rfl rfl fun x hx hcase => ?_, h.chunk.journal.logged ?_ p _⟩
  · rw [logged_disk (by rw [hs.formatted.start]; exact hx), if_neg]
    rintro rfl
    have hbits := bitStart_ge sb
    have hlt := bitStart_lt sb
    have hle := harea.1
    rcases hcase with h₁ | h₂ | ⟨hne, hx'⟩
    · omega
    · omega
    · have href : refAt s.disk (s.icache file.ip).d NDIRECT = b := by
        rw [refAt_addr le_rfl, ← UInt32.toNat_inj, hx']
      refine place_ne_indirect bn (hs.backed.once _ (place_lt hmax) NDIRECT (by decide) hb ?_)
      rw [hmap, href]
  · rw [← insert_touched]
    exact Finset.mem_insert_self _ _

/-- How many blocks a write of `n` bytes at `off` goes to. -/
def turns (off n : ℕ) : ℕ := if n = 0 then 0 else (off + n - 1) / BSIZE - off / BSIZE + 1

theorem turns_succ {off m : ℕ} (hm : m ≠ 0) :
    turns (off + min m (BSIZE - off % BSIZE)) (m - min m (BSIZE - off % BSIZE)) + 1 ≤ turns off m := by
  rcases Nat.le_total m (BSIZE - off % BSIZE) with h | h
  · rw [min_eq_left h, Nat.sub_self, turns, if_pos rfl, turns, if_neg hm]
    omega
  · rw [min_eq_right h, turns, turns, if_neg hm]
    split_ifs with hz
    · omega
    · simp only [BSIZE] at *
      omega

/-- A chunk goes to at most four blocks. -/
theorem turns_le {off m : ℕ} (hm : m ≤ writeMax) : turns off m ≤ 4 := by
  have hmax : writeMax = 1536 := rfl
  rw [turns, BSIZE]
  split_ifs <;> omega

theorem ends_writeLoop {fuel off m : ℕ} {src : Bytes} (h : Chunk sb f file n D s)
    (hm : bitBlocks sb ≤ 3) (hD : D.card + turns off m ≤ 4) (hmax : off + m ≤ MAXFILE * BSIZE)
    (hn : off + m ≤ n * BSIZE) : Exec.Ends (writeLoop p file.ip fuel off m src)
      (fun _ s' => ∃ D', D'.card ≤ 4 ∧ Chunk sb f file n D' s') NotTooBig s := by
  induction fuel generalizing off m src s D with
  | zero => exact ⟨D, by omega, h⟩
  | succ fuel ih =>
    rw [writeLoop, Exec.ends_ite]
    refine ⟨fun _ => ⟨D, by omega, h⟩, fun hm0 => ?_⟩
    have hturns := @turns_succ off m hm0
    simp only [BSIZE, MAXFILE, NDIRECT, NINDIRECT] at hmax hn hturns
    have hbn : off / BSIZE < MAXFILE := by
      simp only [BSIZE, MAXFILE, NDIRECT, NINDIRECT]
      omega
    rw [Exec.ends_bind]
    refine h.ends_bmap hm (by omega) hbn (by simp only [BSIZE]; omega) fun b s₁ hmaps => ?_
    have hcard := Finset.card_insert_le b.toNat D
    rw [Exec.ends_bind, Exec.ends_get, Exec.ends_bind]
    refine hmaps.chunk.journal.ends_logWrite ?_ (room_of_card hm (by omega) _) ?_ fun _ he => he
    · rw [hmaps.chunk.steady.formatted.size, hmaps.chunk.steady.formatted.nlog]
    · refine ih (hmaps.logged hbn p _) ?_ ?_ ?_
      all_goals simp only [BSIZE, MAXFILE, NDIRECT, NINDIRECT]
      all_goals omega

/-! ## A chunk -/

/-- At the end of a chunk the log holds copies of what was changed. -/
structure Settled (sb : Superblock) (f : ℕ) (file : File) (n : ℕ) (s : Sys) : Prop where
  valid : (s.icache file.ip).valid = true
  steady : Steady sb f file n (s.icache file.ip).d s
  journal : ∃ U, Journal U s

theorem Chunk.settled (h : Chunk sb f file n D s) : Settled sb f file n s :=
  ⟨h.valid, h.steady, _, h.journal⟩

theorem IBLOCK_lt {i : ℕ} (h : i < sb.ninodes.toNat) : 2 ≤ IBLOCK i ∧ IBLOCK i < bitStart sb := by
  simp only [IBLOCK, bitStart, IPB]
  omega

/-- The block of an inode belongs to no file. -/
theorem Steady.indirect_ne_iblock {i : ℕ} (h : Steady sb f file n d s) (hi : i < sb.ninodes.toNat)
    (hne : d.addr NDIRECT ≠ 0) : (d.addr NDIRECT).toNat ≠ IBLOCK i := by
  have href : refAt s.disk d NDIRECT = d.addr NDIRECT := refAt_addr le_rfl
  have harea := h.backed.area NDIRECT (by decide) (by rwa [href])
  rw [href] at harea
  have hle := harea.1
  have hlt := bitStart_lt sb
  have hblock := IBLOCK_lt hi
  omega

/-- The inode gets a new size, and is copied to disk. -/
theorem Chunk.ends_grow (h : Chunk sb f file n D s) (hm : bitBlocks sb ≤ 3) (hD : D.card ≤ 4)
    (p : Pid) (size : UInt32) : Exec.Ends (do
      modify fun s => s.setD file.ip ((s.icache file.ip).d.setSize size)
      iupdate p file.ip : Act Unit) (fun _ s' => Settled sb f file n s') NotTooBig s := by
  have hf := h.steady.formatted
  have hblock := IBLOCK_lt h.steady.inum
  have hused := hf.used_le
  have hbits := bitStart_lt sb
  rw [Exec.ends_bind, Exec.ends_modify, iupdate, Exec.ends_bind, Exec.ends_get]
  set s₁ := s.setD file.ip ((s.icache file.ip).d.setSize size) with hs₁
  have hentry : s₁.icache file.ip = ⟨(s.icache file.ip).inum, (s.icache file.ip).ref,
      (s.icache file.ip).busy, (s.icache file.ip).valid, (s.icache file.ip).d.setSize size⟩ := by
    rw [hs₁, Sys.setD_icache, Function.update_self]
  have hj : Journal (touched sb (s.icache file.ip).d D) s₁ := journal_setD h.journal file.ip _
  rw [hentry]
  dsimp only
  refine hj.ends_logWrite (hf.size.trans hf.nlog) (room_of_card hm hD _) ?_ fun _ he => he
  refine ⟨?_, ?_, _, (hj.mono (Finset.subset_insert (IBLOCK (s.icache file.ip).inum) _) ?_).logged
    (Finset.mem_insert_self _ _) p _⟩
  · rw [Sys.logged_icache, hentry]
    exact h.valid
  · rw [Sys.logged_icache, hentry]
    refine h.steady.congr rfl rfl rfl ?_ rfl fun x hx hcase => ?_
    · rw [Sys.logged_icache, hentry]
    · rw [logged_disk (by exact hf.start ▸ hx), if_neg]
      · rfl
      · rintro rfl
        rcases hcase with h₁ | h₂ | ⟨hne, hx'⟩
        · omega
        · omega
        · exact h.steady.indirect_ne_iblock h.steady.inum hne hx'.symm
  · intro x hx
    rcases Finset.mem_insert.mp hx with rfl | hx
    · have hstart : s₁.log.start = logStart sb := hf.start
      omega
    · exact hj.below x hx

theorem Chunk.ends_writeFile {off m : UInt32} {src : Bytes} (h : Chunk sb f file n ∅ s)
    (hm : bitBlocks sb ≤ 3) (hmax : m.toNat ≤ writeMax)
    (hn : min (off.toNat + m.toNat) (MAXFILE * BSIZE) ≤ n * BSIZE) :
    Exec.Ends (writeFile p file.ip src off m) (fun _ s' => Settled sb f file n s') NotTooBig s := by
  rw [writeFile, Exec.ends_bind, Exec.ends_get, Exec.ends_ite]
  refine ⟨fun _ => h.settled, fun hoff => ?_⟩
  rw [Exec.ends_ite]
  refine ⟨fun _ => h.settled, fun hlim => ?_⟩
  have hsum : off.toNat + m.toNat ≤ MAXFILE * BSIZE := by
    have hm32 := m.toNat_lt
    simp only [UInt32.lt_iff_toNat_lt, UInt32.toNat_add, UInt32.toNat_ofNat', MAXFILE, NDIRECT,
      NINDIRECT, BSIZE, not_or, not_lt] at hoff hlim ⊢
    omega
  have hcard : (∅ : Finset ℕ).card + turns off.toNat m.toNat ≤ 4 := by
    rw [Finset.card_empty, Nat.zero_add]
    exact turns_le hmax
  rw [Exec.ends_bind]
  refine (ends_writeLoop h hm hcard hsum (by omega)).mono ?_ fun _ he => he
  rintro _ s₁ ⟨D', hD', h₁⟩
  dsimp only
  rw [Exec.ends_ite]
  refine ⟨fun _ => ?_, fun _ => h₁.settled⟩
  have hgrow := h₁.ends_grow hm hD' p (off + m)
  rw [Exec.ends_bind] at hgrow ⊢
  refine hgrow.mono (fun _ s₂ h₂ => ?_) fun _ he => he
  exact Exec.ends_bind.mpr (h₂.mono (fun _ _ h₃ => h₃) fun _ he => he)

end Lainos.Kernel
