import Lainos.Kernel.Chunks

/-!
# Files as arrays of bytes

What `bmap` and `writei` do to the contents of files, as long as there are free data blocks
and the log does not run full.
-/

namespace Lainos.Kernel

open Library

variable {sb : Superblock} {s s' s'' : Sys} {p : Pid} {k n bn pl : ℕ} {b : UInt32}

/-- A write may fail when the transaction is full. -/
def TooBig (e : Halt) : Prop := e.why = .panic "too big a transaction"

/-- The block number at a place of the inode at `k`. -/
def Sys.ref (s : Sys) (k j : ℕ) : UInt32 := refAt s.disk (s.icache k).d j

/-- The block that maps a block index of the inode at `k`. -/
def Sys.map (s : Sys) (k bn : ℕ) : UInt32 := s.ref k (place bn)

/-- The byte at an offset of the inode at `k`. -/
def Sys.byte (s : Sys) (k off : ℕ) : UInt8 := byteAt s.disk (s.icache k).d off

theorem Sys.byte_eq (s : Sys) (k off : ℕ) :
    s.byte k off = s.disk (s.map k (off / BSIZE)).toNat (off % BSIZE) := rfl

/-! ## What stays the same -/

/-- Nothing but the disk, the sectors of the transaction, the trace and the addresses of the
inode at `k` has changed. -/
structure Still (k : ℕ) (s s' : Sys) : Prop where
  icache : ∀ j ≠ k, s'.icache j = s.icache j
  inum : (s'.icache k).inum = (s.icache k).inum
  count : (s'.icache k).ref = (s.icache k).ref
  busy : (s'.icache k).busy = (s.icache k).busy
  valid : (s'.icache k).valid = (s.icache k).valid
  d : (s'.icache k).d = ⟨(s.icache k).d.type, (s.icache k).d.major, (s.icache k).d.minor,
    (s.icache k).d.nlink, (s.icache k).d.size, (s'.icache k).d.addrs⟩
  ftable : s'.ftable = s.ftable
  proc : s'.proc = s.proc
  start : s'.log.start = s.log.start
  size : s'.log.size = s.log.size
  isOpen : s'.log.busy = s.log.busy
  owner : s'.log.owner = s.log.owner

namespace Still

theorem refl (k : ℕ) (s : Sys) : Still k s s :=
  ⟨fun _ _ => rfl, rfl, rfl, rfl, rfl, rfl, rfl, rfl, rfl, rfl, rfl, rfl⟩

theorem trans (h : Still k s s') (h' : Still k s' s'') : Still k s s'' := by
  refine ⟨fun j hj => (h'.icache j hj).trans (h.icache j hj), h'.inum.trans h.inum,
    h'.count.trans h.count, h'.busy.trans h.busy, h'.valid.trans h.valid, ?_,
    h'.ftable.trans h.ftable, h'.proc.trans h.proc, h'.start.trans h.start, h'.size.trans h.size,
    h'.isOpen.trans h.isOpen, h'.owner.trans h.owner⟩
  rw [h'.d, h.d]

theorem d_size (h : Still k s s') : (s'.icache k).d.size = (s.icache k).d.size := by
  rw [h.d]

theorem logged (s : Sys) (k : ℕ) (p : Pid) (b : ℕ) (data : Block) : Still k s (s.logged p b data) :=
  ⟨fun _ _ => rfl, rfl, rfl, rfl, rfl, rfl, rfl, rfl, rfl, rfl, rfl, rfl⟩

theorem ballocated (s : Sys) (k : ℕ) (sb : Superblock) (p : Pid) (b : ℕ) :
    Still k s (s.ballocated sb p b) :=
  ⟨fun _ _ => rfl, rfl, rfl, rfl, rfl, rfl, rfl, rfl, rfl, rfl, rfl, rfl⟩

theorem setAddr (s : Sys) (k pl : ℕ) (b : UInt32) :
    Still k s (s.setD k ((s.icache k).d.setAddr pl b)) := by
  refine ⟨fun j hj => Function.update_of_ne hj _ _, ?_, ?_, ?_, ?_, ?_, rfl, rfl, rfl, rfl, rfl, rfl⟩
  all_goals rw [Sys.setD_icache, Function.update_self]
  rfl

end Still

/-! ## Logging and allocating -/

theorem ends_logWrite {x : ℕ} {data : Block} (hbusy : s.log.busy = true) (hx : x < s.log.start) :
    Exec.Ends (logWrite p x data) (fun _ t => t = s.logged p x data) TooBig s := by
  have hslot := start_lt_slot s.log x
  rw [logWrite, Exec.ends_bind, Exec.ends_get]
  simp only [Exec.ends_ite, ends_panic, ends_sleep, Exec.ends_set]
  refine ⟨fun _ => rfl, fun _ => ⟨fun hidle => ?_, fun _ => ⟨fun heq => ?_, fun _ => trivial⟩⟩⟩
  · rw [hbusy] at hidle
    cases hidle
  · omega

theorem Grounded.ends_balloc {d : Dinode} {j : ℕ} (h : Grounded sb n d s) (hbusy : s.log.busy = true)
    (hj : j ∈ missing s.disk d n) : Exec.Ends (balloc p) (fun b t => DataBlock sb b.toNat ∧
      ¬ Marked sb s.disk b.toNat ∧ t = s.ballocated sb p b.toNat) TooBig s := by
  obtain ⟨free, hdata, hfree⟩ := h.room.exists_free hj
  obtain ⟨x, hfound, hxdata, hxfree⟩ := firstFree_data h.formatted h.used hdata hfree
  have hmap := BBLOCK_mem (h.formatted.lt_size hxdata)
  have hused := h.formatted.used_le
  have hlt : x < s.log.start := h.formatted.start ▸ hxdata.2
  rw [balloc, readsb, Exec.ends_bind, Exec.ends_bind, Exec.ends_get, Exec.ends_pure,
    Exec.ends_bind, Exec.ends_get, h.formatted.superblock, hfound, Exec.ends_bind]
  refine (ends_logWrite hbusy (by rw [h.formatted.start]; omega)).mono ?_ fun _ he => he
  rintro _ _ rfl
  rw [bzero, Exec.ends_bind]
  refine (ends_logWrite (s := s.logged p _ _) hbusy hlt).mono ?_ fun _ he => he
  rintro _ _ rfl
  rw [Exec.ends_bind, Exec.ends_modify, Exec.ends_pure, h.formatted.toNat_ofNat hxdata]
  exact ⟨hxdata, hxfree, rfl⟩

/-! ## A new block -/

/-- A free block has been put in an empty place of the inode at `k`. -/
structure Attached (sb : Superblock) (n k pl : ℕ) (b : UInt32) (s s' : Sys) : Prop where
  still : Still k s s'
  grounded : Grounded sb n (s'.icache k).d s'
  area : DataBlock sb b.toNat
  free : ¬ Marked sb s.disk b.toNat
  empty : s.ref k pl = 0
  refs : ∀ j, s'.ref k j = if j = pl then b else s.ref k j
  marks : ∀ x, DataBlock sb x → (Marked sb s'.disk x ↔ Marked sb s.disk x ∨ x = b.toNat)
  disk : ∀ x < logStart sb, ¬ (bitStart sb ≤ x ∧ x < usedBlocks sb) → x ≠ b.toNat →
    (s.ref k NDIRECT ≠ 0 → x ≠ (s.ref k NDIRECT).toNat) → s'.disk x = s.disk x

theorem Sys.ref_indirect (s : Sys) (k : ℕ) : s.ref k NDIRECT = (s.icache k).d.addr NDIRECT :=
  refAt_addr le_rfl

/-- It becomes one of the addresses in the inode. -/
theorem attached_addr (h : Grounded sb n (s.icache k).d s) (harea : DataBlock sb b.toNat)
    (hfree : ¬ Marked sb s.disk b.toNat) (hmiss : pl ∈ missing s.disk (s.icache k).d n)
    (hrefs : ∀ j, refAt (s.ballocated sb p b.toNat).disk ((s.icache k).d.setAddr pl b) j =
      if j = pl then b else refAt (s.ballocated sb p b.toNat).disk (s.icache k).d j) :
    Attached sb n k pl b s ((s.ballocated sb p b.toNat).setD k
      (((s.ballocated sb p b.toNat).icache k).d.setAddr pl b)) := by
  have ha := ballocs_ballocated h.formatted harea hfree p
  have hd : (((s.ballocated sb p b.toNat).setD k (((s.ballocated sb p b.toNat).icache k).d.setAddr
      pl b)).icache k).d = (s.icache k).d.setAddr pl b := by
    rw [setD_icache_d]
    rfl
  refine ⟨(Still.ballocated s k sb p b.toNat).trans (Still.setAddr _ k pl b), ?_, harea, hfree,
    (mem_missing.mp hmiss).2, fun j => ?_, fun x hx => ha.marks_data h.formatted hx,
    fun x hx hbits hb _ => ha.others x hx hb hbits⟩
  · rw [hd]
    exact h.attach ha hmiss hrefs (fun _ _ _ => rfl) rfl rfl
  · rw [Sys.ref, hd, Sys.ref, ← ha.refAt h.backed j]
    exact hrefs j

/-- It becomes an entry of the indirect block. -/
theorem attached_entry (h : Grounded sb n (s.icache k).d s) (harea : DataBlock sb b.toNat)
    (hfree : ¬ Marked sb s.disk b.toNat) (hbn : ¬ bn < NDIRECT)
    (hind : (s.icache k).d.addr NDIRECT ≠ 0) (hmiss : place bn ∈ missing s.disk (s.icache k).d n) :
    Attached sb n k (place bn) b s ((s.ballocated sb p b.toNat).logged p
      ((s.icache k).d.addr NDIRECT).toNat (put32 ((s.ballocated sb p b.toNat).disk
        ((s.icache k).d.addr NDIRECT).toNat) (4 * (bn - NDIRECT)) b)) := by
  have ha := ballocs_ballocated h.formatted harea hfree p
  have hstart : (s.ballocated sb p b.toNat).log.start = logStart sb := h.formatted.start
  obtain ⟨s₁, hs₁⟩ : ∃ s₁, s₁ = s.ballocated sb p b.toNat := ⟨_, rfl⟩
  rw [← hs₁] at ha hstart ⊢
  have hicache : s₁.icache = s.icache := by rw [hs₁]; rfl
  have hindlt := h.indirect_lt hind
  have hindarea : usedBlocks sb ≤ ((s.icache k).d.addr NDIRECT).toNat := by
    rw [← Sys.ref_indirect] at hind ⊢
    exact (h.backed.area NDIRECT (by decide) hind).1
  have hdisk : ∀ x < logStart sb, (s₁.logged p ((s.icache k).d.addr NDIRECT).toNat
      (put32 (s₁.disk ((s.icache k).d.addr NDIRECT).toNat) (4 * (bn - NDIRECT)) b)).disk x =
      if x = ((s.icache k).d.addr NDIRECT).toNat then
        put32 (s₁.disk ((s.icache k).d.addr NDIRECT).toNat) (4 * (bn - NDIRECT)) b
      else s₁.disk x := fun x hx => logged_disk (hstart ▸ hx)
  have hplace : place bn = 13 + (bn - NDIRECT) := by
    rw [place, if_neg hbn]
    simp only [NDIRECT] at *
    omega
  have hrefs := fun j => refAt_putEntry hind ((hdisk _ hindlt).trans (if_pos rfl)) j
  rw [← hplace] at hrefs
  have hbits := bitStart_ge sb
  have hlt := bitStart_lt sb
  have hused := h.formatted.used_le
  have hlast := h.formatted.logStart_lt
  have hmeta : ∀ x < logStart sb, x = 1 ∨ (bitStart sb ≤ x ∧ x < usedBlocks sb) →
      (s₁.logged p ((s.icache k).d.addr NDIRECT).toNat (put32 (s₁.disk ((s.icache k).d.addr
        NDIRECT).toNat) (4 * (bn - NDIRECT)) b)).disk x = s₁.disk x :=
    fun x hx hcase => (hdisk x hx).trans (if_neg (by omega))
  refine ⟨?_, ?_, harea, hfree, (mem_missing.mp hmiss).2, fun j => ?_, fun x hx => ?_,
    fun x hx hxbits hxb hxind => ?_⟩
  · rw [hs₁]
    exact (Still.ballocated s k sb p b.toNat).trans (Still.logged _ k p _ _)
  · rw [Sys.logged_icache, hicache]
    exact h.attach ha hmiss hrefs hmeta rfl rfl
  · rw [Sys.ref, Sys.logged_icache, hicache, Sys.ref, ← ha.refAt h.backed j]
    exact hrefs j
  · rw [← ha.marks_data h.formatted hx]
    have hmem := BBLOCK_mem (h.formatted.lt_size hx)
    exact Marked.congr (hmeta _ (by omega) (.inr hmem))
  · rw [Sys.ref_indirect] at hxind
    rw [hdisk x hx, if_neg (hxind hind), ha.others x hx hxb hxbits]

/-! ## Growth -/

/-- The block is one of those of the inode at `k`. -/
def Owns (s : Sys) (k x : ℕ) : Prop := ∃ j < NREF, s.ref k j ≠ 0 ∧ (s.ref k j).toNat = x

/-- The inode at `k` has been given free blocks, and its blocks have been written to. All
other blocks that are in use, and those of the inodes, are as they were. -/
structure Grows (sb : Superblock) (k : ℕ) (s s' : Sys) : Prop where
  still : Still k s s'
  others : ∀ x < logStart sb, ¬ (bitStart sb ≤ x ∧ x < usedBlocks sb) →
    (DataBlock sb x → Marked sb s.disk x ∧ ¬ Owns s k x) → s'.disk x = s.disk x
  owns : ∀ x, Owns s' k x → Owns s k x ∨ DataBlock sb x ∧ ¬ Marked sb s.disk x
  marks : ∀ x, DataBlock sb x → Marked sb s.disk x → Marked sb s'.disk x

theorem Grows.refl (sb : Superblock) (k : ℕ) (s : Sys) : Grows sb k s s :=
  ⟨.refl k s, fun _ _ _ _ => rfl, fun _ h => .inl h, fun _ _ h => h⟩

theorem Grows.trans (h : Grows sb k s s') (h' : Grows sb k s' s'') : Grows sb k s s'' := by
  refine ⟨h.still.trans h'.still, fun x hx hbits hdata => ?_, fun x hx => ?_,
    fun x hx hm => h'.marks x hx (h.marks x hx hm)⟩
  · rw [h'.others x hx hbits fun hd => ⟨h.marks x hd (hdata hd).1, fun howns => ?_⟩,
      h.others x hx hbits hdata]
    obtain howns | ⟨-, hfree⟩ := h.owns x howns
    · exact (hdata hd).2 howns
    · exact hfree (hdata hd).1
  · obtain howns | ⟨hd, hfree⟩ := h'.owns x hx
    · exact h.owns x howns
    · exact .inr ⟨hd, fun hm => hfree (h.marks x hd hm)⟩

/-- The blocks that the inode at `k` had before are still where they were, with the same
contents. -/
def KeepsData (k : ℕ) (s s' : Sys) : Prop :=
  ∀ bn < MAXFILE, s.map k bn ≠ 0 →
    s'.map k bn = s.map k bn ∧ s'.disk (s.map k bn).toNat = s.disk (s.map k bn).toNat

theorem KeepsData.trans (h : KeepsData k s s') (h' : KeepsData k s' s'') : KeepsData k s s'' := by
  intro bn hbn hne
  obtain ⟨hmap, hdisk⟩ := h bn hbn hne
  obtain ⟨hmap', hdisk'⟩ := h' bn hbn (by rw [hmap]; exact hne)
  rw [hmap] at hmap' hdisk'
  exact ⟨hmap', hdisk'.trans hdisk⟩

namespace Attached

theorem ne_of_owns {x : ℕ} (h : Attached sb n k pl b s s') (hs : Grounded sb n (s.icache k).d s)
    (hx : Owns s k x) : x ≠ b.toNat := by
  obtain ⟨j, hj, hne, rfl⟩ := hx
  intro heq
  exact h.free (heq ▸ hs.backed.marked j hj hne)

theorem grows (h : Attached sb n k pl b s s') (hs : Grounded sb n (s.icache k).d s) :
    Grows sb k s s' := by
  refine ⟨h.still, fun x hx hbits hdata => h.disk x hx hbits ?_ fun hne => ?_, fun x hx => ?_,
    fun x hx hm => (h.marks x hx).mpr (.inl hm)⟩
  · rintro rfl
    exact h.free (hdata h.area).1
  · rintro rfl
    exact (hdata (hs.backed.area NDIRECT (by decide) hne)).2 ⟨NDIRECT, by decide, hne, rfl⟩
  · obtain ⟨j, hj, hne, rfl⟩ := hx
    rw [h.refs] at hne ⊢
    split_ifs at hne ⊢
    · exact .inr ⟨h.area, h.free⟩
    · exact .inl ⟨j, hj, hne, rfl⟩

theorem keepsData (h : Attached sb n k pl b s s') (hs : Grounded sb n (s.icache k).d s) :
    KeepsData k s s' := by
  intro bn hbn hne
  have hplace := place_lt hbn
  have harea := hs.backed.area _ hplace hne
  refine ⟨?_, h.disk _ harea.2 (fun hbits => ?_) ?_ fun hind heq => ?_⟩
  · rw [Sys.map, h.refs, if_neg]
    · rfl
    · rintro rfl
      exact hne h.empty
  · have := harea.1
    simp only [Sys.map, Sys.ref] at hbits
    omega
  · exact h.ne_of_owns hs ⟨_, hplace, hne, rfl⟩
  · exact place_ne_indirect bn (hs.backed.once _ hplace NDIRECT (by decide) hne
      (UInt32.toNat_inj.mp heq))

end Attached

/-- What `bmap` has done when it returns the block `b`. -/
structure Mapped (sb : Superblock) (n k bn : ℕ) (b : UInt32) (s s' : Sys) : Prop where
  grounded : Grounded sb n (s'.icache k).d s'
  grows : Grows sb k s s'
  keeps : KeepsData k s s'
  map : s'.map k bn = b
  ne_zero : b ≠ 0
  filled : ∀ cnt, bn ≤ cnt → Filled s.disk (s.icache k).d cnt →
    Filled s'.disk (s'.icache k).d (max cnt (bn + 1))

theorem Grounded.mapped (h : Grounded sb n (s.icache k).d s) (hbn : bn < MAXFILE)
    (hmap : s.map k bn = b) (hb : b ≠ 0) : Mapped sb n k bn b s s := by
  refine ⟨h, .refl sb k s, fun _ _ _ => ⟨rfl, rfl⟩, hmap, hb, fun cnt _ hfilled => ?_⟩
  have hlt : bn < cnt := (hfilled.map hbn).mp (by rw [← hmap] at hb; exact hb)
  rwa [max_eq_left (by omega)]

/-- A block is put where there was none, and the indirect block was there or is not
needed. -/
theorem Attached.mapped (h : Attached sb n k (place bn) b s s')
    (hs : Grounded sb n (s.icache k).d s) (hbn : bn < MAXFILE)
    (hind : bn < NDIRECT ∨ s.ref k NDIRECT ≠ 0) : Mapped sb n k bn b s s' := by
  refine ⟨h.grounded, h.grows hs, h.keepsData hs, ?_, h.area.ne_zero, fun cnt hle hfilled => ?_⟩
  · rw [Sys.map, h.refs, if_pos rfl]
  · obtain rfl : bn = cnt := hfilled.eq_of_unmapped hle hbn h.empty
    rw [max_eq_right (by omega)]
    refine hfilled.succ ?_ h.area.ne_zero fun j _ => h.refs j
    rintro rfl
    obtain hlt | hne := hind
    · exact lt_irrefl _ hlt
    · have := (hfilled NDIRECT (by decide)).mp hne
      simp at this

/-- An indirect block comes first. -/
theorem Attached.mapped_indirect {c : UInt32} (h : Attached sb n k NDIRECT c s s')
    (h' : Attached sb n k (place bn) b s' s'') (hs : Grounded sb n (s.icache k).d s)
    (hbn : ¬ bn < NDIRECT) (hmax : bn < MAXFILE) : Mapped sb n k bn b s s'' := by
  refine ⟨h'.grounded, (h.grows hs).trans (h'.grows h.grounded),
    (h.keepsData hs).trans (h'.keepsData h.grounded), ?_, h'.area.ne_zero, fun cnt hle hfilled => ?_⟩
  · rw [Sys.map, h'.refs, if_pos rfl]
  · have hempty : s.map k bn = 0 := by
      have hzero := h'.empty
      rwa [h.refs, if_neg (place_ne_indirect bn)] at hzero
    obtain rfl : bn = cnt := hfilled.eq_of_unmapped hle hmax hempty
    have hcnt : bn = NDIRECT := by
      by_contra hne
      refine (hfilled NDIRECT (by decide)).mpr ?_ h.empty
      rw [if_pos le_rfl]
      omega
    subst hcnt
    rw [max_eq_right (by omega)]
    refine hfilled.indirect h.area.ne_zero h'.area.ne_zero fun j _ => ?_
    have := h'.refs j
    rw [h.refs] at this
    exact this

/-- The second half of `bmap`, where there is an indirect block. -/
theorem Grounded.ends_entry {ind : UInt32} (h : Grounded sb n (s.icache k).d s)
    (hbusy : s.log.busy = true) (hbn : ¬ bn < NDIRECT) (hn : bn < n)
    (hind : (s.icache k).d.addr NDIRECT = ind) (hne : ind ≠ 0) :
    Exec.Ends (do
      let s ← get
      if get32 (s.disk ind.toNat) (4 * (bn - NDIRECT)) = 0 then do
        let b ← balloc p
        let s ← get
        logWrite p ind.toNat (put32 (s.disk ind.toNat) (4 * (bn - NDIRECT)) b)
        return b
      else return get32 (s.disk ind.toNat) (4 * (bn - NDIRECT)) : Act UInt32)
      (fun b t => s.map k bn = b ∧ b ≠ 0 ∧ t = s ∨ Attached sb n k (place bn) b s t) TooBig s := by
  subst hind
  have hmap : s.map k bn = get32 (s.disk ((s.icache k).d.addr NDIRECT).toNat) (4 * (bn - NDIRECT)) :=
    mapAt_indirect hbn hne
  rw [Exec.ends_bind, Exec.ends_get, Exec.ends_ite]
  refine ⟨fun hzero => ?_, fun ha => .inl ⟨hmap, ha, rfl⟩⟩
  have hmiss : place bn ∈ missing s.disk (s.icache k).d n :=
    mem_missing.mpr ⟨place_lt_refCount hn, hmap.trans hzero⟩
  rw [Exec.ends_bind]
  refine (h.ends_balloc hbusy hmiss).mono ?_ fun _ he => he
  rintro b _ ⟨harea, hfree, rfl⟩
  have hlt : ((s.icache k).d.addr NDIRECT).toNat < s.log.start :=
    h.formatted.start ▸ h.indirect_lt hne
  rw [Exec.ends_bind, Exec.ends_get, Exec.ends_bind]
  refine (ends_logWrite (s := s.ballocated sb p b.toNat) hbusy hlt).mono ?_ fun _ he => he
  rintro _ _ rfl
  exact .inr (attached_entry h harea hfree hbn hne hmiss)

theorem Grounded.ends_bmap (h : Grounded sb n (s.icache k).d s) (hbusy : s.log.busy = true)
    (hmax : bn < MAXFILE) (hn : bn < n) :
    Exec.Ends (bmap p k bn) (fun b t => Mapped sb n k bn b s t) TooBig s := by
  rw [bmap, Exec.ends_bind, Exec.ends_get, Exec.ends_ite]
  refine ⟨fun hbn => ?_, fun hbn => ?_⟩
  · have hmap : s.map k bn = (s.icache k).d.addr bn := mapAt_direct hbn
    have hplace : place bn = bn := if_pos hbn
    rw [Exec.ends_ite]
    refine ⟨fun hzero => ?_, fun hne => h.mapped hmax hmap hne⟩
    have hmiss : bn ∈ missing s.disk (s.icache k).d n := by
      have hlt := place_lt_refCount hn
      rw [hplace] at hlt
      exact mem_missing.mpr ⟨hlt, by rw [refAt_addr hbn.le, hzero]⟩
    rw [Exec.ends_bind]
    refine (h.ends_balloc hbusy hmiss).mono ?_ fun _ he => he
    rintro b _ ⟨harea, hfree, rfl⟩
    have hattached := attached_addr (p := p) h harea hfree hmiss
      fun j => refAt_setAddr_direct hbn b j
    rw [Exec.ends_bind, Exec.ends_modify, Exec.ends_pure]
    exact Attached.mapped (by rw [hplace]; exact hattached) h hmax (.inl hbn)
  · have hrange : bn - NDIRECT < NINDIRECT := by
      simp only [MAXFILE] at hmax
      omega
    rw [if_pos hrange]
    dsimp only
    rw [Exec.ends_ite]
    refine ⟨fun hzero => ?_, fun hne => ?_⟩
    · have hmiss : NDIRECT ∈ missing s.disk (s.icache k).d n :=
        mem_missing.mpr ⟨indirect_lt_refCount (by omega) hn, by rw [refAt_addr le_rfl, hzero]⟩
      rw [Exec.ends_bind]
      refine (h.ends_balloc hbusy hmiss).mono ?_ fun _ he => he
      rintro c _ ⟨harea, hfree, rfl⟩
      have ha := ballocs_ballocated h.formatted harea hfree p
      have hattached := attached_addr (p := p) h harea hfree hmiss
        fun j => refAt_setAddr_indirect hzero ha.zero j
      rw [Exec.ends_bind, Exec.ends_modify, Exec.ends_bind, Exec.ends_pure]
      refine (hattached.grounded.ends_entry (hattached.still.isOpen.trans hbusy) hbn hn
        (show _ = c from ?_) harea.ne_zero).mono ?_ fun _ he => he
      · rw [setD_icache_d, Dinode.addr_setAddr]
      · rintro b t (⟨hmap, hb, rfl⟩ | hentry)
        · -- a zeroed indirect block has no entries
          have hzero' : s.map k bn = 0 := mapAt_none hbn hzero
          rw [Sys.map, hattached.refs, if_neg (place_ne_indirect bn)] at hmap
          exact absurd (hmap.symm.trans hzero') hb
        · exact hattached.mapped_indirect hentry h hbn hmax
    · rw [Exec.ends_bind, Exec.ends_pure]
      refine (h.ends_entry hbusy hbn hn rfl hne).mono ?_ fun _ he => he
      rintro b t (⟨hmap, hb, rfl⟩ | hentry)
      · exact h.mapped hmax hmap hb
      · exact hentry.mapped h hmax (.inr (by rw [Sys.ref_indirect]; exact hne))

/-! ## Writing -/

/-- One of the inode's blocks gets new data. -/
theorem Grounded.logged_map (h : Grounded sb n (s.icache k).d s) (hbn : bn < MAXFILE)
    (hmap : s.map k bn ≠ 0) (p : Pid) (data : Block) :
    Grounded sb n (s.icache k).d (s.logged p (s.map k bn).toNat data) ∧
      Grows sb k s (s.logged p (s.map k bn).toNat data) ∧
      (∀ j, (s.logged p (s.map k bn).toNat data).ref k j = s.ref k j) ∧
      ∀ x < logStart sb, (s.logged p (s.map k bn).toNat data).disk x =
        if x = (s.map k bn).toNat then data else s.disk x := by
  have hplace := place_lt hbn
  have harea : DataBlock sb (s.map k bn).toNat := h.backed.area _ hplace hmap
  have hbits := bitStart_ge sb
  have hlt := bitStart_lt sb
  have hle := harea.1
  have hdisk : ∀ x < logStart sb, (s.logged p (s.map k bn).toNat data).disk x =
      if x = (s.map k bn).toNat then data else s.disk x :=
    fun x hx => logged_disk (h.formatted.start ▸ hx)
  have hind : (s.icache k).d.addr NDIRECT ≠ 0 →
      ((s.icache k).d.addr NDIRECT).toNat ≠ (s.map k bn).toNat := by
    intro hne heq
    rw [← Sys.ref_indirect, UInt32.toNat_inj] at heq
    exact place_ne_indirect bn (h.backed.once _ hplace NDIRECT (by decide) hmap heq.symm)
  have hrefs : ∀ j, (s.logged p (s.map k bn).toNat data).ref k j = s.ref k j :=
    refAt_congr rfl fun hne => (hdisk _ (h.indirect_lt hne)).trans (if_neg (hind hne))
  refine ⟨h.congr rfl rfl rfl fun x hx hcase => (hdisk x hx).trans (if_neg ?_),
    ⟨.logged s k p _ _, fun x hx hxbits hdata => (hdisk x hx).trans (if_neg ?_), fun x hx => .inl ?_,
      fun x hx hm => (Marked.congr ?_).mpr hm⟩, hrefs, hdisk⟩
  · rintro rfl
    obtain h₁ | h₂ | ⟨hne, heq⟩ := hcase
    · omega
    · omega
    · exact hind hne heq.symm
  · rintro rfl
    exact (hdata harea).2 ⟨_, hplace, hmap, rfl⟩
  · obtain ⟨j, hj, hne, rfl⟩ := hx
    rw [hrefs] at hne ⊢
    exact ⟨j, hj, hne, rfl⟩
  · have hmem := BBLOCK_mem (h.formatted.lt_size hx)
    have hused := h.formatted.used_le
    exact (hdisk _ (by omega)).trans (if_neg (by omega))

/-- The inode at `k` has had the `m` bytes of `src` written at `off`: these bytes are there,
and all others that were in blocks of the inode are as they were. -/
structure Wrote (sb : Superblock) (n k off m : ℕ) (src : Bytes) (s s' : Sys) : Prop where
  grounded : Grounded sb n (s'.icache k).d s'
  grows : Grows sb k s s'
  maps : ∀ bn < MAXFILE, s.map k bn ≠ 0 → s'.map k bn = s.map k bn
  mapped : MappedRange s'.disk (s'.icache k).d off m
  inside : ∀ i < m, s'.byte k (off + i) = src i
  outside : ∀ i, i < off ∨ off + m ≤ i → i / BSIZE < MAXFILE → s.map k (i / BSIZE) ≠ 0 →
    s'.byte k i = s.byte k i
  filled : ∀ cnt, off ≤ cnt * BSIZE → Filled s.disk (s.icache k).d cnt →
    Filled s'.disk (s'.icache k).d (max cnt (blockCount (off + m)))

theorem Grounded.wrote_nothing (h : Grounded sb n (s.icache k).d s) (off : ℕ) (src : Bytes) :
    Wrote sb n k off 0 src s s := by
  refine ⟨h, .refl sb k s, fun _ _ _ => rfl, fun i hi => absurd hi (Nat.not_lt_zero i),
    fun i hi => absurd hi (Nat.not_lt_zero i), fun _ _ _ _ => rfl, fun cnt hoff hfilled => ?_⟩
  rwa [Nat.add_zero, max_eq_left (blockCount_le hoff)]

theorem Wrote.trans {off m m' : ℕ} {src : Bytes} (h : Wrote sb n k off m src s s')
    (h' : Wrote sb n k (off + m) m' (shift src m) s' s'') : Wrote sb n k off (m + m') src s s'' := by
  have hmap : ∀ bn < MAXFILE, s.map k bn ≠ 0 → s'.map k bn ≠ 0 := fun bn hbn hne => by
    rwa [h.maps bn hbn hne]
  have hrest : ∀ i, ¬ i < m → off + m + (i - m) = off + i := fun i hi => by omega
  refine ⟨h'.grounded, h.grows.trans h'.grows, fun bn hbn hne => ?_, fun i hi => ?_, fun i hi => ?_,
    fun i hi hmax hne => ?_, fun cnt hoff hfilled => ?_⟩
  · rw [h'.maps bn hbn (hmap bn hbn hne), h.maps bn hbn hne]
  · by_cases him : i < m
    · obtain ⟨hmax, hne⟩ := h.mapped i him
      refine ⟨hmax, ?_⟩
      have heq := h'.maps _ hmax hne
      exact fun hzero => hne (heq.symm.trans hzero)
    · rw [← hrest i him]
      exact h'.mapped (i - m) (by omega)
  · by_cases him : i < m
    · obtain ⟨hmax, hne⟩ := h.mapped i him
      rw [h'.outside _ (.inl (by omega)) hmax hne, h.inside i him]
    · rw [← hrest i him, h'.inside (i - m) (by omega), shift, show m + (i - m) = i by omega]
  · rw [h'.outside i (by omega) hmax (hmap _ hmax hne), h.outside i (by omega) hmax hne]
  · have hfilled' := h'.filled _ ?_ (h.filled cnt hoff hfilled)
    · rwa [max_assoc, max_eq_right (blockCount_mono (by omega)), Nat.add_assoc] at hfilled'
    · exact (le_blockCount (off + m)).trans (Nat.mul_le_mul_right _ (le_max_right _ _))

/-- `bmap` and a write within one block. -/
theorem Mapped.wrote {off m : ℕ} {src : Bytes} (h : Mapped sb n k (off / BSIZE) b s s')
    (hmax : off / BSIZE < MAXFILE) (hm : 0 < m) (hle : m ≤ BSIZE - off % BSIZE) (p : Pid) :
    Wrote sb n k off m src s
      (s'.logged p b.toNat (splice (s'.disk b.toNat) (off % BSIZE) m src)) := by
  obtain rfl := h.map
  have hdiv : ∀ i < m, (off + i) / BSIZE = off / BSIZE := fun i hi => by
    simp only [BSIZE] at *
    omega
  have hmod : ∀ i < m, (off + i) % BSIZE = off % BSIZE + i := fun i hi => by
    simp only [BSIZE] at *
    omega
  obtain ⟨hgrounded, hgrows, hrefs, hdisk⟩ := h.grounded.logged_map hmax h.ne_zero p
    (splice (s'.disk (s'.map k (off / BSIZE)).toNat) (off % BSIZE) m src)
  have hicache : (s'.logged p (s'.map k (off / BSIZE)).toNat (splice (s'.disk (s'.map k (off /
      BSIZE)).toNat) (off % BSIZE) m src)).icache = s'.icache := rfl
  generalize s'.logged p (s'.map k (off / BSIZE)).toNat _ = t at *
  have hmaps : ∀ bn, t.map k bn = s'.map k bn := fun bn => hrefs (place bn)
  have hlt : ∀ bn < MAXFILE, s'.map k bn ≠ 0 → (s'.map k bn).toNat < logStart sb :=
    fun bn hbn hne => (h.grounded.backed.area _ (place_lt hbn) hne).2
  refine ⟨by rwa [hicache], h.grows.trans hgrows,
    fun bn hbn hne => (hmaps bn).trans (h.keeps bn hbn hne).1,
    fun i hi => ?_, fun i hi => ?_, fun i hi hmax' hne => ?_, fun cnt hoff hfilled => ?_⟩
  · rw [hdiv i hi]
    exact ⟨hmax, fun hzero => h.ne_zero ((hmaps _).symm.trans hzero)⟩
  · rw [Sys.byte_eq, hmaps, hdiv i hi, hmod i hi, hdisk _ (hlt _ hmax h.ne_zero), if_pos rfl,
      splice_inside (by omega) (by omega), Nat.add_sub_cancel_left]
  · obtain ⟨hmap, hkept⟩ := h.keeps _ hmax' hne
    have hne' : s'.map k (i / BSIZE) ≠ 0 := by rwa [hmap]
    rw [Sys.byte_eq, hmaps, hdisk _ (hlt _ hmax' hne'), Sys.byte_eq, ← hkept, ← hmap]
    split_ifs with hsame
    · have hbn : i / BSIZE = off / BSIZE := place_injective (h.grounded.backed.once _
        (place_lt hmax') _ (place_lt hmax) hne' (UInt32.toNat_inj.mp hsame))
      rw [splice_outside, hbn]
      simp only [BSIZE] at *
      omega
    · rfl
  · refine Filled.congr ?_ fun j _ => hrefs j
    have hcount : blockCount (off + m) = off / BSIZE + 1 := by
      simp only [blockCount, BSIZE] at *
      omega
    rw [hcount]
    exact h.filled cnt (Nat.div_le_of_le_mul (by rwa [Nat.mul_comm])) hfilled

/-- The loop of `writei`. -/
theorem Grounded.ends_writeLoop {fuel off m : ℕ} {src : Bytes} (h : Grounded sb n (s.icache k).d s)
    (hbusy : s.log.busy = true) (hfuel : m ≤ fuel) (hmax : off + m ≤ MAXFILE * BSIZE)
    (hn : off + m ≤ n * BSIZE) :
    Exec.Ends (writeLoop p k fuel off m src) (fun _ t => Wrote sb n k off m src s t) TooBig s := by
  induction fuel generalizing s off m src with
  | zero =>
    obtain rfl : m = 0 := by omega
    exact h.wrote_nothing off src
  | succ fuel ih =>
    rw [writeLoop, Exec.ends_ite]
    refine ⟨?_, fun hm => ?_⟩
    · rintro rfl
      exact h.wrote_nothing off src
    · have hB : 0 < BSIZE := by decide
      have hmod := Nat.mod_lt off hB
      have hmax' : off / BSIZE < MAXFILE := (Nat.div_lt_iff_lt_mul hB).mpr (by omega)
      have hn' : off / BSIZE < n := (Nat.div_lt_iff_lt_mul hB).mpr (by omega)
      rw [Exec.ends_bind]
      refine (h.ends_bmap hbusy hmax' hn').mono ?_ fun _ he => he
      intro b s₁ h₁
      have hlt : b.toNat < s₁.log.start := by
        obtain rfl := h₁.map
        exact h₁.grounded.formatted.start ▸
          (h₁.grounded.backed.area _ (place_lt hmax') h₁.ne_zero).2
      rw [Exec.ends_bind, Exec.ends_get, Exec.ends_bind]
      refine (ends_logWrite (h₁.grows.still.isOpen.trans hbusy) hlt).mono ?_ fun _ he => he
      rintro _ _ rfl
      have hwrote := @Mapped.wrote _ _ _ _ _ _ _ (min m (BSIZE - off % BSIZE)) src h₁ hmax' (by omega)
        (min_le_right _ _) p
      refine (ih hwrote.grounded (hwrote.grows.still.isOpen.trans hbusy) (by omega) (by omega)
        (by omega)).mono (fun _ t ht => ?_) fun _ he => he
      have := hwrote.trans ht
      rwa [show min m (BSIZE - off % BSIZE) + (m - min m (BSIZE - off % BSIZE)) = m by omega] at this

end Lainos.Kernel
