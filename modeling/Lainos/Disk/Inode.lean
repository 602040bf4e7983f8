import Lainos.Disk.Layout

/-!
# Inodes and the blocks they reference

Views of a disk that the kernel and mkfs share. An inode has `NREF` places for a
block number: its direct slots, the slot of the indirect block, and the entries
of the indirect block. `Owned` says that no block number stands in two places.
-/

namespace Lainos

open Library

/-! ## Inode blocks -/

/-- Inode `i` as the inode blocks of a disk hold it. -/
def dinodeAt (disk : Disk) (i : ℕ) : Dinode := getDinode (disk (IBLOCK i)) (i % IPB)

def writeDinode (disk : Disk) (i : ℕ) (d : Dinode) : Disk :=
  Function.update disk (IBLOCK i) (putDinode (disk (IBLOCK i)) (i % IPB) d)

variable {disk disk' : Disk} {d : Dinode} {i j : ℕ}

theorem dinodeAt_congr (h : disk' (IBLOCK i) = disk (IBLOCK i)) :
    dinodeAt disk' i = dinodeAt disk i := by
  rw [dinodeAt, dinodeAt, h]

@[simp] theorem dinodeAt_writeDinode (disk : Disk) (i : ℕ) (d : Dinode) :
    dinodeAt (writeDinode disk i d) i = d := by
  rw [dinodeAt, writeDinode, Function.update_self, getDinode_putDinode]

theorem dinodeAt_writeDinode_ne (h : j ≠ i) : dinodeAt (writeDinode disk i d) j = dinodeAt disk j := by
  rw [dinodeAt, dinodeAt, writeDinode]
  by_cases hb : IBLOCK j = IBLOCK i
  · rw [hb, Function.update_self]
    apply getDinode_putDinode_ne
    intro hmod
    simp only [IBLOCK, IPB] at hb hmod
    omega
  · rw [Function.update_of_ne hb]

theorem dinodeAt_writeDinode_eq (disk : Disk) (i : ℕ) (d : Dinode) :
    dinodeAt (writeDinode disk i d) = Function.update (dinodeAt disk) i d := by
  funext j
  by_cases h : j = i
  · subst h
    rw [dinodeAt_writeDinode, Function.update_self]
  · rw [dinodeAt_writeDinode_ne h, Function.update_of_ne h]

/-! ## Block references -/

/-- `d.addrs[k]`. -/
def Dinode.addr (d : Dinode) (k : ℕ) : UInt32 := d.addrs (Fin.ofNat 13 k)

def Dinode.setAddr (d : Dinode) (k : ℕ) (b : UInt32) : Dinode :=
  ⟨d.type, d.major, d.minor, d.nlink, d.size, Function.update d.addrs (Fin.ofNat 13 k) b⟩

def Dinode.setSize (d : Dinode) (n : UInt32) : Dinode :=
  ⟨d.type, d.major, d.minor, d.nlink, n, d.addrs⟩

@[simp] theorem Dinode.addr_setAddr (d : Dinode) (k : ℕ) (b : UInt32) : (d.setAddr k b).addr k = b :=
  Function.update_self ..

theorem Dinode.addr_setAddr_ne {k l : ℕ} (hk : k < 13) (hl : l < 13) (h : l ≠ k) (b : UInt32) :
    (d.setAddr k b).addr l = d.addr l := by
  refine Function.update_of_ne (fun heq => h ?_) ..
  have := congrArg Fin.val heq
  simpa [Fin.ofNat, Nat.mod_eq_of_lt hk, Nat.mod_eq_of_lt hl] using this

@[simp] theorem Dinode.addr_setSize (d : Dinode) (n : UInt32) (k : ℕ) :
    (d.setSize n).addr k = d.addr k := rfl

def NREF : ℕ := NDIRECT + 1 + NINDIRECT

/-- The block number at place `k` of an inode, zero if there is none: a direct
slot, the indirect block, or an entry of the indirect block. -/
def refAt (disk : Disk) (d : Dinode) (k : ℕ) : UInt32 :=
  if k ≤ NDIRECT then d.addr k
  else if d.addr NDIRECT = 0 then 0
  else get32 (disk (d.addr NDIRECT).toNat) (4 * (k - 13))

/-- The place that maps block index `bn` of a file. -/
def place (bn : ℕ) : ℕ := if bn < NDIRECT then bn else bn + 1

def mapAt (disk : Disk) (d : Dinode) (bn : ℕ) : UInt32 := refAt disk d (place bn)

/-- The byte at offset `off` of a file. -/
def byteAt (disk : Disk) (d : Dinode) (off : ℕ) : UInt8 :=
  disk (mapAt disk d (off / BSIZE)).toNat (off % BSIZE)

theorem refAt_addr {k : ℕ} (h : k ≤ NDIRECT) : refAt disk d k = d.addr k := if_pos h

theorem refAt_entry {k : ℕ} (h : NDIRECT < k) (hd : d.addr NDIRECT ≠ 0) :
    refAt disk d k = get32 (disk (d.addr NDIRECT).toNat) (4 * (k - 13)) := by
  rw [refAt, if_neg (by omega), if_neg hd]

theorem refAt_none {k : ℕ} (h : NDIRECT < k) (hd : d.addr NDIRECT = 0) : refAt disk d k = 0 := by
  rw [refAt, if_neg (by omega), if_pos hd]

/-- References depend on the disk only through the indirect block. -/
theorem refAt_congr {d' : Dinode} (haddr : d'.addrs = d.addrs)
    (h : d.addr NDIRECT ≠ 0 → disk' (d.addr NDIRECT).toNat = disk (d.addr NDIRECT).toNat) (k : ℕ) :
    refAt disk' d' k = refAt disk d k := by
  have ha : ∀ l, d'.addr l = d.addr l := fun l => by rw [Dinode.addr, Dinode.addr, haddr]
  by_cases hk : k ≤ NDIRECT
  · rw [refAt_addr hk, refAt_addr hk, ha]
  by_cases hd : d.addr NDIRECT = 0
  · rw [refAt_none (by omega) hd, refAt_none (by omega) (by rw [ha, hd])]
  · rw [refAt_entry (by omega) hd, refAt_entry (by omega) (by rwa [ha]), ha, h hd]

theorem refAt_setAddr_direct {k : ℕ} (hk : k < NDIRECT) (b : UInt32) (l : ℕ) :
    refAt disk (d.setAddr k b) l = if l = k then b else refAt disk d l := by
  simp only [NDIRECT] at hk
  by_cases hl : l ≤ NDIRECT
  · rw [refAt_addr hl, refAt_addr hl]
    split_ifs with h
    · rw [h, Dinode.addr_setAddr]
    · simp only [NDIRECT] at hl
      exact Dinode.addr_setAddr_ne (by omega) (by omega) h b
  · have hlk : ¬ l = k := by
      simp only [NDIRECT] at hl
      omega
    have hind : (d.setAddr k b).addr NDIRECT = d.addr NDIRECT :=
      Dinode.addr_setAddr_ne (by omega) (by decide) (by simp only [NDIRECT]; omega) b
    rw [if_neg hlk, refAt, refAt, hind, if_neg hl, if_neg hl]

/-- A zeroed block becomes the indirect block: no entry comes with it. -/
theorem refAt_setAddr_indirect {b : UInt32} (hd : d.addr NDIRECT = 0)
    (hb : disk b.toNat = zeroBlock) (l : ℕ) :
    refAt disk (d.setAddr NDIRECT b) l = if l = NDIRECT then b else refAt disk d l := by
  by_cases hl : l ≤ NDIRECT
  · rw [refAt_addr hl, refAt_addr hl]
    split_ifs with h
    · rw [h, Dinode.addr_setAddr]
    · simp only [NDIRECT] at hl h
      exact Dinode.addr_setAddr_ne (by decide) (by omega) h b
  · rw [if_neg (by omega), refAt_none (by omega) hd, refAt, if_neg hl, Dinode.addr_setAddr, hb]
    split_ifs with h
    · rfl
    · exact get32_zeroBlock _

/-- A block number is entered in the indirect block. -/
theorem refAt_putEntry {e : ℕ} {b : UInt32} (hd : d.addr NDIRECT ≠ 0)
    (hdisk : disk' (d.addr NDIRECT).toNat = put32 (disk (d.addr NDIRECT).toNat) (4 * e) b) (l : ℕ) :
    refAt disk' d l = if l = 13 + e then b else refAt disk d l := by
  by_cases hl : l ≤ NDIRECT
  · rw [refAt_addr hl, refAt_addr hl, if_neg (by simp only [NDIRECT] at hl; omega)]
  · rw [refAt_entry (by omega) hd, refAt_entry (by omega) hd, hdisk]
    split_ifs with h
    · rw [h, Nat.add_sub_cancel_left, get32_put32]
    · simp only [NDIRECT] at hl
      exact get32_put32_disjoint (by omega)

theorem place_lt {bn : ℕ} (h : bn < MAXFILE) : place bn < NREF := by
  unfold place
  split_ifs <;> simp only [MAXFILE, NREF, NDIRECT, NINDIRECT] at * <;> omega

theorem place_ne_indirect (bn : ℕ) : place bn ≠ NDIRECT := by
  unfold place
  split_ifs <;> omega

theorem place_injective : Function.Injective place := by
  intro a b h
  unfold place at h
  split_ifs at h <;> omega

/-- A file's bytes depend on the disk only through its own blocks. -/
theorem byteAt_congr {d' : Dinode} {off : ℕ}
    (hmap : mapAt disk' d' (off / BSIZE) = mapAt disk d (off / BSIZE))
    (hdata : disk' (mapAt disk d (off / BSIZE)).toNat = disk (mapAt disk d (off / BSIZE)).toNat) :
    byteAt disk' d' off = byteAt disk d off := by
  rw [byteAt, byteAt, hmap, hdata]

/-! ## Files without holes -/

/-- How many blocks `n` bytes take. -/
def blockCount (n : ℕ) : ℕ := (n + (BSIZE - 1)) / BSIZE

theorem blockCount_mono {a b : ℕ} (h : a ≤ b) : blockCount a ≤ blockCount b :=
  Nat.div_le_div_right (by omega)

theorem le_blockCount (n : ℕ) : n ≤ blockCount n * BSIZE := by
  simp only [blockCount, BSIZE]
  omega

theorem blockCount_le {n c : ℕ} (h : n ≤ c * BSIZE) : blockCount n ≤ c := by
  simp only [blockCount, BSIZE] at *
  omega

/-- Exactly the first `n` block indices are mapped, and there is an indirect block
exactly if one is needed for that. -/
def Filled (disk : Disk) (d : Dinode) (n : ℕ) : Prop :=
  ∀ k < NREF, refAt disk d k ≠ 0 ↔ if k ≤ NDIRECT then k < n else k ≤ n

/-- How many blocks a file of `n` data blocks references. -/
def refCount (n : ℕ) : ℕ := if n ≤ NDIRECT then n else n + 1

theorem refCount_mono {a b : ℕ} (h : a ≤ b) : refCount a ≤ refCount b := by
  unfold refCount
  split_ifs <;> omega

theorem Filled.map {n bn : ℕ} (h : Filled disk d n) (hbn : bn < MAXFILE) :
    mapAt disk d bn ≠ 0 ↔ bn < n := by
  rw [mapAt, h _ (place_lt hbn)]
  unfold place
  split_ifs <;> omega

/-- What remains to be mapped is the next index, if anything. -/
theorem Filled.eq_of_unmapped {n bn : ℕ} (h : Filled disk d n) (hle : bn ≤ n) (hbn : bn < MAXFILE)
    (h₀ : mapAt disk d bn = 0) : bn = n := by
  by_contra hne
  exact (h.map hbn).mpr (by omega) h₀

theorem Filled.congr {d' : Dinode} {n : ℕ} (h : Filled disk d n)
    (href : ∀ k < NREF, refAt disk' d' k = refAt disk d k) : Filled disk' d' n := by
  intro k hk
  rw [href k hk]
  exact h k hk

/-- Mapping the next block index of a file that has, or does not need, an
indirect block. -/
theorem Filled.succ {d' : Dinode} {n : ℕ} {b : UInt32} (h : Filled disk d n) (hn : n ≠ NDIRECT)
    (hb : b ≠ 0) (href : ∀ k < NREF, refAt disk' d' k = if k = place n then b else refAt disk d k) :
    Filled disk' d' (n + 1) := by
  intro k hk
  rw [href k hk]
  by_cases hkn : k = place n
  · rw [if_pos hkn]
    refine iff_of_true hb ?_
    rw [hkn]
    unfold place
    split_ifs <;> omega
  · rw [if_neg hkn, h k hk]
    unfold place at hkn
    split_ifs at hkn <;> split_ifs <;> omega

/-- The first block index beyond the direct slots needs two blocks. -/
theorem Filled.indirect {d' : Dinode} {b c : UInt32} (h : Filled disk d NDIRECT) (hb : b ≠ 0)
    (hc : c ≠ 0) (href : ∀ k < NREF, refAt disk' d' k =
      if k = place NDIRECT then c else if k = NDIRECT then b else refAt disk d k) :
    Filled disk' d' (NDIRECT + 1) := by
  intro k hk
  have hplace : place NDIRECT = NDIRECT + 1 := rfl
  rw [href k hk, hplace]
  by_cases hk₁ : k = NDIRECT + 1
  · rw [if_pos hk₁]
    refine iff_of_true hc ?_
    rw [if_neg (by omega)]
    omega
  by_cases hk₂ : k = NDIRECT
  · rw [if_neg hk₁, if_pos hk₂]
    refine iff_of_true hb ?_
    rw [if_pos (by omega)]
    omega
  · rw [if_neg hk₁, if_neg hk₂, h k hk]
    split_ifs <;> omega

/-- A file whose contents are `bytes`, as far as its blocks go. -/
structure Contents (disk : Disk) (d : Dinode) (bytes : List UInt8) : Prop where
  filled : Filled disk d (blockCount bytes.length)
  data : ∀ k < bytes.length, byteAt disk d k = bytes.getD k 0

/-- None of the blocks of an inode has changed. -/
def Untouched (disk disk' : Disk) (d : Dinode) : Prop :=
  ∀ k < NREF, refAt disk d k ≠ 0 → disk' (refAt disk d k).toNat = disk (refAt disk d k).toNat

theorem Untouched.refAt (h : Untouched disk disk' d) (k : ℕ) :
    refAt disk' d k = Lainos.refAt disk d k := by
  refine refAt_congr rfl (fun hd => ?_) k
  have href : Lainos.refAt disk d NDIRECT = d.addr NDIRECT := refAt_addr le_rfl
  rw [← href]
  exact h NDIRECT (by decide) (by rwa [href])

theorem Untouched.trans {disk'' : Disk} (h : Untouched disk disk' d) (h' : Untouched disk' disk'' d) :
    Untouched disk disk'' d := by
  intro k hk hne
  have hk' := h' k hk
  rw [h.refAt] at hk'
  exact (hk' hne).trans (h k hk hne)

theorem Contents.untouched {bytes : List UInt8} (hc : Contents disk d bytes)
    (h : Untouched disk disk' d) (hlen : bytes.length ≤ MAXFILE * BSIZE) :
    Contents disk' d bytes := by
  refine ⟨hc.filled.congr fun k _ => h.refAt k, fun k hk => ?_⟩
  rw [← hc.data k hk]
  have hbn : k / BSIZE < MAXFILE := by
    simp only [MAXFILE, NDIRECT, NINDIRECT, BSIZE] at *
    omega
  refine byteAt_congr (h.refAt _) (h _ (place_lt hbn) ((hc.filled.map hbn).mpr ?_))
  simp only [blockCount, BSIZE]
  omega

/-! ## Exclusive ownership -/

/-- Every block that a live inode references lies in `area`, and is referenced
from one place only. -/
structure Owned (ref : ℕ → ℕ → UInt32) (live area : ℕ → Prop) : Prop where
  area : ∀ i, live i → ∀ k < NREF, ref i k ≠ 0 → area (ref i k).toNat
  once : ∀ i j, live i → live j → ∀ k < NREF, ∀ l < NREF, ref i k ≠ 0 → ref i k = ref j l →
    i = j ∧ k = l

variable {ref ref' : ℕ → ℕ → UInt32} {live live' area area' : ℕ → Prop}

theorem Owned.congr (h : Owned ref live area)
    (href : ∀ i, live i → ∀ k < NREF, ref' i k = ref i k) : Owned ref' live area := by
  refine ⟨?_, ?_⟩
  · intro i hi k hk
    rw [href i hi k hk]
    exact h.area i hi k hk
  · intro i j hi hj k hk l hl
    rw [href i hi k hk, href j hj l hl]
    exact h.once i j hi hj k hk l hl

theorem Owned.mono (h : Owned ref live area) (hlive : ∀ i, live' i → live i)
    (harea : ∀ b, area b → area' b) : Owned ref live' area' :=
  ⟨fun i hi k hk hne => harea _ (h.area i (hlive i hi) k hk hne),
    fun i j hi hj => h.once i j (hlive i hi) (hlive j hj)⟩

/-- A block that nobody references is put in one place. -/
theorem Owned.assign (h : Owned ref live area) {i k : ℕ} {b : UInt32} (hb : area b.toNat)
    (hfresh : ∀ j, live j → ∀ l < NREF, ref j l ≠ b) (hself : ref' i k = b)
    (hother : ∀ j, live j → ∀ l < NREF, (j, l) ≠ (i, k) → ref' j l = ref j l) :
    Owned ref' live area := by
  refine ⟨?_, ?_⟩
  · intro j hj l hl hne
    by_cases hp : (j, l) = (i, k)
    · simp only [Prod.mk.injEq] at hp
      rw [hp.1, hp.2, hself]
      exact hb
    · rw [hother j hj l hl hp] at hne ⊢
      exact h.area j hj l hl hne
  · intro x y hx hy l hl m hm hne heq
    by_cases hp : (x, l) = (i, k) <;> by_cases hq : (y, m) = (i, k)
    · simp only [Prod.mk.injEq] at hp hq
      exact ⟨hp.1.trans hq.1.symm, hp.2.trans hq.2.symm⟩
    · simp only [Prod.mk.injEq] at hp
      rw [hp.1, hp.2, hself, hother y hy m hm hq] at heq
      exact absurd heq.symm (hfresh y hy m hm)
    · simp only [Prod.mk.injEq] at hq
      rw [hother x hx l hl hp, hq.1, hq.2, hself] at heq
      exact absurd heq (hfresh x hx l hl)
    · rw [hother x hx l hl hp] at hne heq
      rw [hother y hy m hm hq] at heq
      exact h.once x y hx hy l hl m hm hne heq

/-- An inode that references nothing becomes live. -/
theorem Owned.insert (h : Owned ref live area) (hempty : ∀ k < NREF, ref i k = 0) :
    Owned ref (fun j => j = i ∨ live j) area := by
  refine ⟨?_, ?_⟩
  · rintro j (rfl | hj) k hk hne
    · exact absurd (hempty k hk) hne
    · exact h.area j hj k hk hne
  · rintro x y (rfl | hx) (rfl | hy) k hk l hl hne heq
    · exact absurd (hempty k hk) hne
    · exact absurd (hempty k hk) hne
    · exact absurd (heq.trans (hempty l hl)) hne
    · exact h.once x y hx hy k hk l hl hne heq

end Lainos
