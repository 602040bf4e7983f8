import Lainos.Mkfs.Regions

/-!
# Inodes of an image against the host tree

`add_dir` rounds the size of a directory up to the next multiple of `BSIZE`, also
when it is a multiple already, and it gives every directory one link. So a
directory whose entries fill its last block has a block index without a block,
and a directory with subdirectories has fewer links than the kernel counts.
-/

namespace Lainos.Mkfs

open Library

variable {st : State} {img : Disk} {i : ℕ}

/-! ## The inodes a tree should give -/

structure Node where
  inum : ℕ
  type : Int16
  links : ℕ

namespace HostDir

/-- How many of the visible entries are directories. -/
def subdirs : HostDir → ℕ
  | .nil => 0
  | .file _ _ rest => rest.subdirs
  | .dir name _ rest => (if hidden name then 0 else 1) + rest.subdirs

/-- The inodes below a directory as `create` would have made them: a directory
has a link for its entry and one for the `..` of each subdirectory. -/
def nodes : HostDir → ℕ → List Node
  | .nil, _ => []
  | .file name _ rest, n =>
    if hidden name then rest.nodes n else ⟨n, T_FILE, 1⟩ :: rest.nodes (n + 1)
  | .dir name sub rest, n =>
    if hidden name then rest.nodes n
    else ⟨n, T_DIR, 1 + sub.subdirs⟩ :: (sub.nodes (n + 1) ++ rest.nodes (n + 1 + sub.count))

/-- No directory below has entries that fill its last block. -/
def ragged : HostDir → Bool
  | .nil => true
  | .file _ _ rest => rest.ragged
  | .dir name sub rest =>
    (hidden name || ((sub.width + 2) % 32 != 0 && sub.ragged)) && rest.ragged

theorem exists_node_iff (t : HostDir) (n i : ℕ) :
    (∃ nd ∈ t.nodes n, nd.inum = i) ↔ n ≤ i ∧ i < n + t.count := by
  induction t generalizing n with
  | nil => simp [nodes, count]
  | file name bytes rest ih =>
    rw [nodes, count]
    split_ifs with hh
    · simpa using ih n
    · simp only [List.mem_cons, exists_eq_or_imp, ih]
      omega
  | dir name sub rest ihsub ih =>
    rw [nodes, count]
    split_ifs with hh
    · simpa using ih n
    · simp only [List.mem_cons, List.mem_append, or_and_right, exists_or, exists_eq_left, ihsub, ih]
      omega

theorem node_type (t : HostDir) (n : ℕ) :
    ∀ nd ∈ t.nodes n, nd.type = T_DIR ∨ nd.type = T_FILE := by
  induction t generalizing n with
  | nil => simp [nodes]
  | file name bytes rest ih =>
    rw [nodes]
    split_ifs with hh
    · exact ih n
    · intro nd hnd
      rcases List.mem_cons.mp hnd with rfl | hnd
      · exact Or.inr rfl
      · exact ih _ nd hnd
  | dir name sub rest ihsub ih =>
    rw [nodes]
    split_ifs with hh
    · exact ih n
    · intro nd hnd
      rcases List.mem_cons.mp hnd with rfl | hnd
      · exact Or.inl rfl
      · exact (List.mem_append.mp hnd).elim (ihsub _ nd) (ih _ nd)

end HostDir

theorem Stored.nodes {t : HostDir} {cur n : ℕ} (h : Stored img t cur n) :
    ∀ nd ∈ t.nodes n, (dinodeAt img nd.inum).type = nd.type ∧ (dinodeAt img nd.inum).nlink = 1 := by
  induction t generalizing cur n with
  | nil => simp [HostDir.nodes]
  | file name bytes rest ih =>
    rw [Stored] at h
    rw [HostDir.nodes]
    split_ifs at h ⊢ with hh
    · exact ih h
    · intro nd hnd
      rcases List.mem_cons.mp hnd with rfl | hnd
      · exact ⟨h.1.type_eq, h.1.nlink_eq⟩
      · exact ih h.2 nd hnd
  | dir name sub rest ihsub ih =>
    rw [Stored] at h
    rw [HostDir.nodes]
    split_ifs at h ⊢ with hh
    · exact ih h
    · intro nd hnd
      rcases List.mem_cons.mp hnd with rfl | hnd
      · exact ⟨h.1.type_eq, h.1.nlink_eq⟩
      · exact (List.mem_append.mp hnd).elim (ihsub h.2.1 nd) (ih h.2.2 nd)

/-! ## Inodes behind the inode blocks -/

theorem bitmap_byte {n j : ℕ} (hn : 16 ≤ n) (hj : j < 2) : bitmap n j = 255 := by
  induction n, hn using Nat.le_induction with
  | base =>
    interval_cases j <;> decide
  | succ n hn ih =>
    rw [bitmap, setBit, Function.update_of_ne (by omega), ih]

/-- Inode 208 is overwritten by the bitmap. -/
theorem type_of_inodeRoom {n : ℕ} (h : img 28 = bitmap n) (hn : 16 ≤ n) :
    (dinodeAt img inodeRoom).type = -1 := by
  have hget : get16 (shift (img 28) 0) 0 = 65535 := by
    rw [get16, h, shift, shift, bitmap_byte hn (by omega), bitmap_byte hn (by omega)]
    decide
  change (get16 (shift (img 28) 0) 0).toInt16 = -1
  rw [hget]
  decide

/-- An image in which every inode has one of the two types mkfs gives holds all
its inodes in the inode blocks. -/
theorem count_le_of_types {t : HostDir} (hrun : main t State.empty = .ok ((), st))
    (h : ∀ i, Live st i → (dinodeAt st.img i).type = T_DIR ∨ (dinodeAt st.img i).type = T_FILE) :
    2 + t.count ≤ inodeRoom := by
  obtain ⟨hc, hfi, hbits⟩ := main_counted hrun
  have hlow := hc.low
  simp only [firstData] at hlow
  by_contra hbig
  have htype := h inodeRoom ⟨by decide, by omega⟩
  rw [type_of_inodeRoom hbits (by omega)] at htype
  rcases htype with htype | htype <;> exact absurd htype (by decide)

/-! ## Block maps -/

/-- Every block index of the file is mapped, so that reading it allocates nothing. -/
def FullMap (img : Disk) (i : ℕ) : Prop :=
  ∀ bn < blockCount (dinodeAt img i).size.toNat, bn < MAXFILE ∧ mapAt img (dinodeAt img i) bn ≠ 0

/-- Every inode of the image is a file or a directory with a complete block map. -/
def CompleteMaps (st : State) : Prop :=
  ∀ i, Live st i → ((dinodeAt st.img i).type = T_DIR ∨ (dinodeAt st.img i).type = T_FILE) ∧
    FullMap st.img i

theorem FileAt.fullMap_iff {type nlink : Int16} {size : ℕ} {bytes : List UInt8}
    (h : FileAt img i type nlink size bytes) :
    FullMap img i ↔ blockCount size ≤ blockCount bytes.length := by
  rw [FullMap, h.size_eq]
  constructor
  · intro hfull
    by_contra hlt
    obtain ⟨hmax, hne⟩ := hfull (blockCount bytes.length) (by omega)
    exact absurd ((h.contents.filled.map hmax).mp hne) (lt_irrefl _)
  · intro hle bn hbn
    have hbound : blockCount bytes.length ≤ MAXFILE :=
      (blockCount_mono h.bound).trans (by decide)
    exact ⟨by omega, (h.contents.filled.map (by omega)).mpr (by omega)⟩

theorem DirAt.fullMap_iff {parent : ℕ} {t : HostDir} (h : DirAt img i parent t) :
    FullMap img i ↔ (t.width + 2) % 32 ≠ 0 := by
  rw [FileAt.fullMap_iff h, length_dirBytes, HostDir.length_entries]
  simp only [dirSize, blockCount, BSIZE]
  omega

theorem Stored.fullMap_iff {t : HostDir} {cur n : ℕ} (h : Stored img t cur n) :
    (∀ i, n ≤ i → i < n + t.count → FullMap img i) ↔ t.ragged = true := by
  induction t generalizing cur n with
  | nil =>
    simp only [HostDir.count, HostDir.ragged, iff_true]
    omega
  | file name bytes rest ih =>
    rw [Stored] at h
    rw [HostDir.count, HostDir.ragged]
    split_ifs at h ⊢ with hh
    · simpa using ih h
    · rw [← ih h.2]
      constructor
      · exact fun hall i hlo hhi => hall i (by omega) (by omega)
      · intro hall i hlo hhi
        rcases Nat.eq_or_lt_of_le hlo with rfl | hlt
        · exact (FileAt.fullMap_iff h.1).mpr le_rfl
        · exact hall i hlt (by omega)
  | dir name sub rest ihsub ih =>
    rw [Stored] at h
    rw [HostDir.count, HostDir.ragged]
    split_ifs at h ⊢ with hh
    · simpa [hh] using ih h
    · rw [Bool.not_eq_true] at hh
      rw [hh, Bool.false_or, Bool.and_eq_true, Bool.and_eq_true, bne_iff_ne, ← ih h.2.2,
        ← ihsub h.2.1, ← h.1.fullMap_iff]
      constructor
      · intro hall
        exact ⟨⟨hall n le_rfl (by omega), fun i hlo hhi => hall i (by omega) (by omega)⟩,
          fun i hlo hhi => hall i (by omega) (by omega)⟩
      · rintro ⟨⟨hself, hsub⟩, hrest⟩ i hlo hhi
        rcases Nat.eq_or_lt_of_le hlo with rfl | hlt
        · exact hself
        · by_cases hi : i < n + 1 + sub.count
          · exact hsub i hlt (by omega)
          · exact hrest i (by omega) (by omega)

/-- Thirty empty files, named by the bytes from `A` on. -/
def thirtyFiles : HostDir :=
  (List.range 30).foldr (fun k t => .file [UInt8.ofNat (65 + k)] [] t) .nil

end Lainos.Mkfs
