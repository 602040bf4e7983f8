import Lainos.Kernel.Calls

/-!
# Reading

A read that stays within mapped blocks changes nothing and returns the bytes that
the block map leads to.
-/

namespace Lainos.Kernel

open Library

variable {p : Pid} {s : Sys} {k bn off n : ℕ}

theorem mapAt_direct {disk : Disk} {d : Dinode} (h : bn < NDIRECT) : mapAt disk d bn = d.addr bn := by
  rw [mapAt, place, if_pos h, refAt_addr (by omega)]

theorem mapAt_indirect {disk : Disk} {d : Dinode} (h : ¬ bn < NDIRECT) (hd : d.addr NDIRECT ≠ 0) :
    mapAt disk d bn = get32 (disk (d.addr NDIRECT).toNat) (4 * (bn - NDIRECT)) := by
  rw [mapAt, place, if_neg h, refAt_entry (by omega) hd, NDIRECT]
  congr 2

theorem mapAt_none {disk : Disk} {d : Dinode} (h : ¬ bn < NDIRECT) (hd : d.addr NDIRECT = 0) :
    mapAt disk d bn = 0 := by
  rw [mapAt, place, if_neg h, refAt_none (by omega) hd]

theorem bmap_of_mapped (hbn : bn < MAXFILE) (h : mapAt s.disk (s.icache k).d bn ≠ 0) :
    bmap p k bn s = .ok (mapAt s.disk (s.icache k).d bn, s) := by
  rw [bmap, Exec.bind_of_ok Exec.get_run]
  by_cases hlt : bn < NDIRECT
  · rw [mapAt_direct hlt] at h ⊢
    rw [if_pos hlt, if_neg h]
    rfl
  · by_cases hd : (s.icache k).d.addr NDIRECT = 0
    · exact absurd (mapAt_none hlt hd) h
    · rw [mapAt_indirect hlt hd] at h ⊢
      rw [if_neg hlt, if_pos (by rw [MAXFILE] at hbn; omega), if_neg hd,
        Exec.bind_of_ok (Exec.pure_run _)]
      change (if get32 (s.disk ((s.icache k).d.addr NDIRECT).toNat) (4 * (bn - NDIRECT)) = 0 then _
        else _ : Act UInt32) s = _
      rw [if_neg h]
      rfl

/-- The bytes of a file from an offset on. -/
def fileBytes (disk : Disk) (d : Dinode) (off n : ℕ) : List UInt8 :=
  (List.range n).map fun i => byteAt disk d (off + i)

@[simp] theorem length_fileBytes (disk : Disk) (d : Dinode) (off n : ℕ) :
    (fileBytes disk d off n).length = n := by
  simp [fileBytes]

theorem fileBytes_append (disk : Disk) (d : Dinode) (off m n : ℕ) :
    fileBytes disk d off (m + n) = fileBytes disk d off m ++ fileBytes disk d (off + m) n := by
  rw [fileBytes, fileBytes, fileBytes, List.range_add, List.map_append, List.map_map]
  congr 2
  funext i
  simp [Nat.add_assoc]

/-- One block's worth of a file. -/
theorem bytesFrom_eq_fileBytes {disk : Disk} {d : Dinode} {m : ℕ} (hm : m ≤ BSIZE - off % BSIZE) :
    bytesFrom (disk (mapAt disk d (off / BSIZE)).toNat) (off % BSIZE) m =
      fileBytes disk d off m := by
  simp only [bytesFrom, fileBytes, List.map_inj_left, List.mem_range, byteAt]
  intro i hi
  simp only [BSIZE] at hm ⊢
  rw [show (off + i) / 512 = off / 512 by omega, show (off + i) % 512 = off % 512 + i by omega]

/-- Every block index that the bytes from `off` to `off + n` meet is mapped. -/
def MappedRange (disk : Disk) (d : Dinode) (off n : ℕ) : Prop :=
  ∀ i < n, (off + i) / BSIZE < MAXFILE ∧ mapAt disk d ((off + i) / BSIZE) ≠ 0

theorem readLoop_of_mapped {fuel : ℕ} (hn : n ≤ fuel)
    (h : MappedRange s.disk (s.icache k).d off n) :
    readLoop p k fuel off n s = .ok (fileBytes s.disk (s.icache k).d off n, s) := by
  induction fuel generalizing off n with
  | zero =>
    obtain rfl : n = 0 := by omega
    rfl
  | succ fuel ih =>
    rw [readLoop]
    by_cases hz : n = 0
    · subst hz
      rfl
    · obtain ⟨hmax, hne⟩ := h 0 (by omega)
      rw [Nat.add_zero] at hmax hne
      set m := min n (BSIZE - off % BSIZE) with hm
      have hB : BSIZE = 512 := rfl
      have hpos : 0 < m := by
        rw [hm, hB]
        omega
      have hnote : (modify fun s : Sys =>
          if off / BSIZE < MAXFILE ∧ mapAt s.disk (s.icache k).d (off / BSIZE) = 0 then
            s.note (.fills p s.log.owner) else s : Act Unit) s = .ok ((), s) := by
        rw [Exec.modify_run, if_neg (fun hc => hne hc.2)]
      have hrest : MappedRange s.disk (s.icache k).d (off + m) (n - m) := by
        intro i hi
        rw [Nat.add_assoc]
        exact h (m + i) (by omega)
      rw [if_neg hz, Exec.bind_of_ok hnote, Exec.bind_of_ok (bmap_of_mapped hmax hne),
        Exec.bind_of_ok Exec.get_run]
      change (readLoop p k fuel (off + m) (n - m) >>= fun rest =>
        (pure (bytesFrom (s.disk (mapAt s.disk (s.icache k).d (off / BSIZE)).toNat) (off % BSIZE) m
          ++ rest) : Act (List UInt8))) s = _
      rw [Exec.bind_of_ok (ih (by omega) hrest), Exec.pure_run,
        bytesFrom_eq_fileBytes (by omega), ← fileBytes_append]
      congr 3
      omega

/-- `readi` within a file. -/
theorem readFile_of_mapped {o m : UInt32}
    (hm : o.toNat + m.toNat ≤ (s.icache k).d.size.toNat)
    (h : MappedRange s.disk (s.icache k).d o.toNat m.toNat) :
    readFile p k o m s = .ok (some (fileBytes s.disk (s.icache k).d o.toNat m.toNat), s) := by
  have hlt := (s.icache k).d.size.toNat_lt
  have hadd : (o + m).toNat = o.toNat + m.toNat := by
    rw [UInt32.toNat_add]
    omega
  have h₁ : ¬ ((s.icache k).d.size < o ∨ o + m < o) := by
    rintro (h | h)
    · rw [UInt32.lt_iff_toNat_lt] at h
      omega
    · rw [UInt32.lt_iff_toNat_lt, hadd] at h
      omega
  have h₂ : ¬ (s.icache k).d.size < o + m := by
    rw [UInt32.lt_iff_toNat_lt, hadd]
    omega
  rw [readFile, Exec.bind_of_ok Exec.get_run, if_neg h₁]
  change (readLoop p k (if (s.icache k).d.size < o + m then (s.icache k).d.size - o else m).toNat
    o.toNat (if (s.icache k).d.size < o + m then (s.icache k).d.size - o else m).toNat >>= fun bytes =>
      (pure (some bytes) : Act (Option (List UInt8)))) s = _
  rw [if_neg h₂, Exec.bind_of_ok (readLoop_of_mapped le_rfl h)]
  rfl

/-! ## Entries -/

/-- The entry at an offset of a directory. -/
def direntAt (disk : Disk) (d : Dinode) (off : ℕ) : Dirent :=
  Dirent.decode fun i => byteAt disk d (off + i)

/-- The entry at an offset lies within the directory and in a mapped block. -/
def Readable (disk : Disk) (d : Dinode) (off : ℕ) : Prop :=
  off + 16 ≤ d.size.toNat ∧ MappedRange disk d off 16

theorem readDirent_of_readable {dp : ℕ} (msg : String)
    (h : Readable s.disk (s.icache dp).d off) :
    readDirent p dp off msg s = .ok (direntAt s.disk (s.icache dp).d off, s) := by
  have hlt := (s.icache dp).d.size.toNat_lt
  have hoff : (UInt32.ofNat off).toNat = off := by
    rw [UInt32.toNat_ofNat', Nat.mod_eq_of_lt]
    have := h.1
    omega
  have h16 : (16 : UInt32).toNat = 16 := rfl
  have hread : readFile p dp (UInt32.ofNat off) 16 s =
      .ok (some (fileBytes s.disk (s.icache dp).d off 16), s) := by
    rw [readFile_of_mapped (by rw [hoff, h16]; exact h.1) (by rw [hoff, h16]; exact h.2), hoff, h16]
  rw [readDirent, Exec.bind_of_ok hread]
  change (if (fileBytes s.disk (s.icache dp).d off 16).length = 16 then _ else _ : Act Dirent) s = _
  rw [if_pos (length_fileBytes ..), Exec.pure_run, direntAt]
  congr 2
  apply Dirent.decode_congr
  intro i hi
  simp [fileBytes, hi]

/-- The entry is in use and has the name. -/
def Matches (name : List UInt8) (e : Dirent) : Prop :=
  e.inum ≠ 0 ∧ namecmp name (List.ofFn e.name) = 0

/-- The search stops at the first entry that matches, whatever comes behind it. -/
theorem dirScan_found {dp j : ℕ} {name : List UInt8}
    (hread : ∀ i ≤ j, Readable s.disk (s.icache dp).d (off + 16 * i))
    (hskip : ∀ i < j, ¬ Matches name (direntAt s.disk (s.icache dp).d (off + 16 * i)))
    (hmatch : Matches name (direntAt s.disk (s.icache dp).d (off + 16 * j))) (hj : j < n) :
    dirScan p dp name n off s = .ok (some
      ((direntAt s.disk (s.icache dp).d (off + 16 * j)).inum.toNat, off + 16 * j), s) := by
  induction n generalizing off j with
  | zero => omega
  | succ n ih =>
    have hfirst := hread 0 (by omega)
    rw [Nat.mul_zero, Nat.add_zero] at hfirst
    rw [dirScan, Exec.bind_of_ok (readDirent_of_readable _ hfirst)]
    rcases Nat.eq_zero_or_pos j with rfl | hpos
    · rw [Nat.mul_zero, Nat.add_zero] at hmatch ⊢
      rw [if_neg hmatch.1, if_pos hmatch.2]
      rfl
    · have hrest := @ih (off + 16) (j - 1)
        (fun i hi => by
          rw [show off + 16 + 16 * i = off + 16 * (i + 1) by omega]
          exact hread _ (by omega))
        (fun i hi => by
          rw [show off + 16 + 16 * i = off + 16 * (i + 1) by omega]
          exact hskip _ (by omega))
        (by rwa [show off + 16 + 16 * (j - 1) = off + 16 * j by omega]) (by omega)
      rw [show off + 16 + 16 * (j - 1) = off + 16 * j by omega] at hrest
      by_cases hz : (direntAt s.disk (s.icache dp).d off).inum = 0
      · rw [if_pos hz, hrest]
      · have hother : ¬ namecmp name (List.ofFn (direntAt s.disk (s.icache dp).d off).name) = 0 :=
          fun hc => hskip 0 hpos ⟨hz, hc⟩
        rw [if_neg hz, if_neg hother, hrest]

/-! ## Names -/

theorem strncmp_padded {n : ℕ} {a b : List UInt8} (ha : (0 : UInt8) ∉ a) (hb : (0 : UInt8) ∉ b)
    (hla : a.length ≤ n) (hlb : b.length ≤ n) (z : ℕ) :
    strncmp n a (b ++ List.replicate z 0) = 0 ↔ a = b := by
  induction n generalizing a b with
  | zero =>
    rw [List.length_eq_zero_iff.mp (Nat.le_zero.mp hla),
      List.length_eq_zero_iff.mp (Nat.le_zero.mp hlb)]
    simp [strncmp]
  | succ n ih =>
    have hdiff : ∀ x y : UInt8, x ≠ y → ((x.toNat : ℤ) - y.toNat) ≠ 0 := by
      intro x y hxy h
      exact hxy (UInt8.toNat_inj.mp (by omega))
    cases a with
    | nil =>
      cases b with
      | nil => cases z <;> simp [strncmp, List.replicate_succ]
      | cons y b =>
        simp only [List.mem_cons, not_or] at hb
        simpa [strncmp] using hdiff 0 y hb.1
    | cons x a =>
      simp only [List.mem_cons, not_or] at ha
      cases b with
      | nil =>
        have hhead : (([] : List UInt8) ++ List.replicate z 0).headD 0 = 0 := by
          cases z <;> simp [List.replicate_succ]
        rw [strncmp, hhead]
        simpa [Ne.symm ha.1] using hdiff x 0 (Ne.symm ha.1)
      | cons y b =>
        simp only [List.mem_cons, not_or] at hb
        simp only [List.length_cons, Nat.add_le_add_iff_right] at hla hlb
        simp only [strncmp, List.cons_append, List.headD_cons, List.tail_cons, List.cons.injEq]
        by_cases hxy : x = y
        · subst hxy
          simpa [Ne.symm ha.1] using ih ha.2 hb.2 hla hlb
        · simpa [hxy] using hdiff x y hxy

/-- A name as path elements and directory entries can hold it. -/
structure GoodName (name : List UInt8) : Prop where
  nonzero : (0 : UInt8) ∉ name
  length : name.length ≤ DIRSIZ

theorem ofFn_direntName {name : List UInt8} (h : name.length ≤ DIRSIZ) :
    List.ofFn (direntName name) = name ++ List.replicate (14 - name.length) 0 := by
  simp only [DIRSIZ] at h
  apply List.ext_getElem
  · simp
    omega
  · intro i h₁ h₂
    simp only [List.length_ofFn] at h₁
    rw [List.getElem_ofFn, direntName, List.getElem_append]
    split_ifs with hi
    · rw [List.getD_eq_getElem _ _ hi]
    · rw [List.getElem_replicate, List.getD_eq_default _ _ (not_lt.mp hi)]

/-- `namecmp` tells names apart. -/
theorem namecmp_direntName {a b : List UInt8} (ha : GoodName a) (hb : GoodName b) :
    namecmp a (List.ofFn (direntName b)) = 0 ↔ a = b := by
  rw [namecmp, ofFn_direntName hb.length]
  exact strncmp_padded ha.nonzero hb.nonzero ha.length hb.length _

end Lainos.Kernel
