import Lainos.Library.Bytes

/-!
# On-disk format

Constants of `param.h` and `fs.h`, and the structures that the kernel and mkfs
keep in 512-byte blocks: the superblock, the inode and the directory entry. A
block is a byte buffer of which only the first `BSIZE` bytes are ever used. All
fields are little-endian and fixed-width, so every field value survives a trip
through a block.
-/

namespace Lainos

open Library

def BSIZE : ℕ := 512
def ROOTDEV : ℕ := 1
def ROOTINO : ℕ := 1
def NBUF : ℕ := 10
def NINODE : ℕ := 50
def NDEV : ℕ := 10
def NOFILE : ℕ := 16
def NFILE : ℕ := 100
def LOGSIZE : ℕ := 10
def NDIRECT : ℕ := 12
def NINDIRECT : ℕ := 128
def MAXFILE : ℕ := NDIRECT + NINDIRECT
def IPB : ℕ := 8
def BPB : ℕ := BSIZE * 8
def DIRSIZ : ℕ := 14

def T_DIR : Int16 := 1
def T_FILE : Int16 := 2
def T_DEV : Int16 := 3

abbrev Block := Bytes

abbrev Disk := ℕ → Block

def zeroBlock : Block := fun _ => 0

@[simp] theorem get32_zeroBlock (o : ℕ) : get32 zeroBlock o = 0 := get32_zero o

/-- Why a piece of kernel code does not go on: it panics, or the process has to
sleep until another one wakes it. -/
inductive Stuck where
  | panic (msg : String)
  | sleep
  deriving DecidableEq, Repr

/-! ## Superblock -/

structure Superblock where
  size : UInt32
  nblocks : UInt32
  ninodes : UInt32
  nlog : UInt32
  deriving DecidableEq, Repr

def Superblock.decode (b : Block) : Superblock :=
  { size := get32 b 0, nblocks := get32 b 4, ninodes := get32 b 8, nlog := get32 b 12 }

def Superblock.encode (sb : Superblock) : Block := fun i =>
  if i < 4 then word32 sb.size i
  else if i < 8 then word32 sb.nblocks (i - 4)
  else if i < 12 then word32 sb.ninodes (i - 8)
  else if i < 16 then word32 sb.nlog (i - 12)
  else 0

theorem Superblock.decode_encode (sb : Superblock) : decode sb.encode = sb := by
  have h₀ : get32 sb.encode 0 = sb.size := by
    rw [← get32_word32 sb.size]
    apply get32_congr
    intro i hi
    simp only [encode, Nat.zero_add, if_pos hi]
  have h₁ : get32 sb.encode 4 = sb.nblocks := by
    rw [← get32_word32 sb.nblocks]
    apply get32_congr
    intro i hi
    simp only [encode, if_neg (show ¬ 4 + i < 4 by omega), if_pos (show 4 + i < 8 by omega),
      Nat.add_sub_cancel_left, Nat.zero_add]
  have h₂ : get32 sb.encode 8 = sb.ninodes := by
    rw [← get32_word32 sb.ninodes]
    apply get32_congr
    intro i hi
    simp only [encode, if_neg (show ¬ 8 + i < 4 by omega), if_neg (show ¬ 8 + i < 8 by omega),
      if_pos (show 8 + i < 12 by omega), Nat.add_sub_cancel_left, Nat.zero_add]
  have h₃ : get32 sb.encode 12 = sb.nlog := by
    rw [← get32_word32 sb.nlog]
    apply get32_congr
    intro i hi
    simp only [encode, if_neg (show ¬ 12 + i < 4 by omega), if_neg (show ¬ 12 + i < 8 by omega),
      if_neg (show ¬ 12 + i < 12 by omega), if_pos (show 12 + i < 16 by omega),
      Nat.add_sub_cancel_left, Nat.zero_add]
  rw [decode, h₀, h₁, h₂, h₃]

/-! ## Inodes -/

instance neZero_addrs : NeZero 13 := ⟨by decide⟩

instance neZero_dirsiz : NeZero 14 := ⟨by decide⟩

/-- `struct dinode`; the last of the thirteen addresses is the indirect block. -/
structure Dinode where
  type : Int16
  major : Int16
  minor : Int16
  nlink : Int16
  size : UInt32
  addrs : Fin 13 → UInt32
  deriving DecidableEq

def Dinode.zero : Dinode := ⟨0, 0, 0, 0, 0, fun _ => 0⟩

def Dinode.decode (b : Bytes) : Dinode where
  type := (get16 b 0).toInt16
  major := (get16 b 2).toInt16
  minor := (get16 b 4).toInt16
  nlink := (get16 b 6).toInt16
  size := get32 b 8
  addrs := fun j => get32 b (12 + 4 * j.val)

def Dinode.encode (d : Dinode) : Bytes := fun i =>
  if i < 2 then word16 d.type.toUInt16 i
  else if i < 4 then word16 d.major.toUInt16 (i - 2)
  else if i < 6 then word16 d.minor.toUInt16 (i - 4)
  else if i < 8 then word16 d.nlink.toUInt16 (i - 6)
  else if i < 12 then word32 d.size (i - 8)
  else word32 (d.addrs (Fin.ofNat 13 ((i - 12) / 4))) ((i - 12) % 4)

theorem Dinode.decode_congr {a b : Bytes} (h : ∀ i < 64, a i = b i) : decode a = decode b := by
  have h16 : ∀ o, o ≤ 62 → get16 a o = get16 b o :=
    fun o ho => get16_congr fun i hi => h _ (by omega)
  have h32 : ∀ o, o ≤ 60 → get32 a o = get32 b o :=
    fun o ho => get32_congr fun i hi => h _ (by omega)
  simp only [decode, h16 0 (by omega), h16 2 (by omega), h16 4 (by omega), h16 6 (by omega),
    h32 8 (by omega), Dinode.mk.injEq, true_and]
  funext j
  exact h32 _ (by omega)

@[simp] theorem Dinode.decode_encode (d : Dinode) : decode d.encode = d := by
  have h₀ : get16 d.encode 0 = d.type.toUInt16 := by
    rw [← get16_word16 d.type.toUInt16]
    apply get16_congr
    intro i hi
    simp only [encode, Nat.zero_add, if_pos hi]
  have h₁ : get16 d.encode 2 = d.major.toUInt16 := by
    rw [← get16_word16 d.major.toUInt16]
    apply get16_congr
    intro i hi
    simp only [encode, if_neg (show ¬ 2 + i < 2 by omega), if_pos (show 2 + i < 4 by omega),
      Nat.add_sub_cancel_left, Nat.zero_add]
  have h₂ : get16 d.encode 4 = d.minor.toUInt16 := by
    rw [← get16_word16 d.minor.toUInt16]
    apply get16_congr
    intro i hi
    simp only [encode, if_neg (show ¬ 4 + i < 2 by omega), if_neg (show ¬ 4 + i < 4 by omega),
      if_pos (show 4 + i < 6 by omega), Nat.add_sub_cancel_left, Nat.zero_add]
  have h₃ : get16 d.encode 6 = d.nlink.toUInt16 := by
    rw [← get16_word16 d.nlink.toUInt16]
    apply get16_congr
    intro i hi
    simp only [encode, if_neg (show ¬ 6 + i < 2 by omega), if_neg (show ¬ 6 + i < 4 by omega),
      if_neg (show ¬ 6 + i < 6 by omega), if_pos (show 6 + i < 8 by omega),
      Nat.add_sub_cancel_left, Nat.zero_add]
  have h₄ : get32 d.encode 8 = d.size := by
    rw [← get32_word32 d.size]
    apply get32_congr
    intro i hi
    simp only [encode, if_neg (show ¬ 8 + i < 2 by omega), if_neg (show ¬ 8 + i < 4 by omega),
      if_neg (show ¬ 8 + i < 6 by omega), if_neg (show ¬ 8 + i < 8 by omega),
      if_pos (show 8 + i < 12 by omega), Nat.add_sub_cancel_left, Nat.zero_add]
  have h₅ : ∀ j : Fin 13, get32 d.encode (12 + 4 * j.val) = d.addrs j := by
    intro j
    rw [← get32_word32 (d.addrs j)]
    apply get32_congr
    intro i hi
    have hj : Fin.ofNat 13 ((12 + 4 * j.val + i - 12) / 4) = j := by
      apply Fin.ext
      simp only [Fin.ofNat]
      omega
    have hi' : (12 + 4 * j.val + i - 12) % 4 = 0 + i := by omega
    simp only [encode, if_neg (show ¬ 12 + 4 * j.val + i < 2 by omega),
      if_neg (show ¬ 12 + 4 * j.val + i < 4 by omega),
      if_neg (show ¬ 12 + 4 * j.val + i < 6 by omega),
      if_neg (show ¬ 12 + 4 * j.val + i < 8 by omega),
      if_neg (show ¬ 12 + 4 * j.val + i < 12 by omega), hj, hi']
  cases d
  simp only [decode, h₀, h₁, h₂, h₃, h₄, h₅]
  rfl

/-- Inode `k` of an inode block. -/
def getDinode (b : Block) (k : ℕ) : Dinode := Dinode.decode (shift b (64 * k))

def putDinode (b : Block) (k : ℕ) (d : Dinode) : Block := splice b (64 * k) 64 d.encode

@[simp] theorem getDinode_putDinode (b : Block) (k : ℕ) (d : Dinode) :
    getDinode (putDinode b k d) k = d := by
  rw [← Dinode.decode_encode d]
  apply Dinode.decode_congr
  intro i hi
  rw [putDinode, shift, splice_inside (by omega) (by omega), Nat.add_sub_cancel_left,
    Dinode.decode_encode]

theorem getDinode_putDinode_ne {k l : ℕ} (h : l ≠ k) (b : Block) (d : Dinode) :
    getDinode (putDinode b k d) l = getDinode b l := by
  apply Dinode.decode_congr
  intro i hi
  exact splice_outside (by omega)

/-- Block holding inode `i`. -/
def IBLOCK (i : ℕ) : ℕ := i / IPB + 2

/-- Block of the free map holding the bit of block `b`. -/
def BBLOCK (b ninodes : ℕ) : ℕ := b / BPB + ninodes / IPB + 3

/-! ## Directory entries -/

structure Dirent where
  inum : UInt16
  name : Fin 14 → UInt8
  deriving DecidableEq

def Dirent.zero : Dirent := ⟨0, fun _ => 0⟩

def Dirent.decode (b : Bytes) : Dirent where
  inum := get16 b 0
  name := fun j => b (2 + j.val)

def Dirent.encode (e : Dirent) : Bytes := fun i =>
  if i < 2 then word16 e.inum i else e.name (Fin.ofNat 14 (i - 2))

theorem Dirent.decode_congr {a b : Bytes} (h : ∀ i < 16, a i = b i) : decode a = decode b := by
  have h₀ : get16 a 0 = get16 b 0 := get16_congr fun i hi => h _ (by omega)
  simp only [decode, h₀, Dirent.mk.injEq, true_and]
  funext j
  exact h _ (by omega)

@[simp] theorem Dirent.decode_encode (e : Dirent) : decode e.encode = e := by
  have h₀ : get16 e.encode 0 = e.inum := by
    rw [← get16_word16 e.inum]
    apply get16_congr
    intro i hi
    simp only [encode, Nat.zero_add, if_pos hi]
  cases e
  simp only [decode, h₀, Dirent.mk.injEq, true_and]
  funext j
  have hj : Fin.ofNat 14 (2 + j.val - 2) = j := by
    apply Fin.ext
    simp only [Fin.ofNat]
    omega
  rw [encode, if_neg (by omega), hj]

end Lainos
