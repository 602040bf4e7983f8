import Lainos.Mkfs.Image

/-!
# What `iappend` does

As long as the inodes stay inside the inode blocks, the blocks of the files are
taken one after the other from the zeroed rest of the image, so appending to one
file leaves the others alone. `Layout st ino` states this, with `ino` for the
inodes: `iappend` works on a copy of the inode and writes it back at the end.
-/

namespace Lainos.Mkfs

open Library

/-- First block behind the inode blocks and the bitmap. -/
def firstData : ℕ := 29

/-- How many inodes the inode blocks in front of the bitmap hold. -/
def inodeRoom : ℕ := 208

def Live (st : State) (i : ℕ) : Prop := 1 ≤ i ∧ i < st.freeinode

structure Layout (st : State) (ino : ℕ → Dinode) : Prop where
  sectors : st.nsect = 1024
  used : st.usedblocks = st.freeblock
  low : firstData ≤ st.freeblock
  high : st.freeblock ≤ 1024
  inodes : st.freeinode ≤ inodeRoom
  owned : Owned (fun i k => refAt st.img (ino i) k) (Live st)
    fun b => firstData ≤ b ∧ b < st.freeblock
  zero : ∀ b, st.freeblock ≤ b → b < 1024 → st.img b = zeroBlock

variable {st st' : State} {ino ino' : ℕ → Dinode} {i k : ℕ}

@[simp] theorem store_img (sec : ℕ) (buf : Block) :
    (st.store sec buf).img = Function.update st.img sec buf := rfl

@[simp] theorem store_nsect (sec : ℕ) (buf : Block) :
    (st.store sec buf).nsect = max st.nsect (sec + 1) := rfl

@[simp] theorem store_freeblock (sec : ℕ) (buf : Block) :
    (st.store sec buf).freeblock = st.freeblock := rfl

@[simp] theorem store_usedblocks (sec : ℕ) (buf : Block) :
    (st.store sec buf).usedblocks = st.usedblocks := rfl

@[simp] theorem store_freeinode (sec : ℕ) (buf : Block) :
    (st.store sec buf).freeinode = st.freeinode := rfl

theorem rsect_eq_ok {sec : ℕ} {b : Block} :
    rsect sec st = .ok (b, st') ↔ sec < st.nsect ∧ st.img sec = b ∧ st = st' := by
  rw [rsect, Exec.bind_of_ok Exec.get_run]
  by_cases h : sec < st.nsect
  · simp [h]
  · simp [h]

theorem wsect_run (sec : ℕ) (b : Block) : wsect sec b st = .ok ((), st.store sec b) := rfl

theorem takeBlock_run : takeBlock st = .ok (UInt32.ofNat st.freeblock, st.take) := rfl

/-- A block in the data area is not zero as a block number. -/
theorem ofNat_block {b : ℕ} (h₁ : firstData ≤ b) (h₂ : b ≤ 1024) :
    (UInt32.ofNat b).toNat = b ∧ UInt32.ofNat b ≠ 0 := by
  have hmod : (UInt32.ofNat b).toNat = b := by
    rw [UInt32.toNat_ofNat']
    exact Nat.mod_eq_of_lt (by omega)
  refine ⟨hmod, fun h => ?_⟩
  rw [h] at hmod
  simp only [firstData] at h₁
  simp at hmod
  omega

/-- The next free block goes to place `k` of inode `i`. -/
theorem Layout.assign (h : Layout st ino) (hfree : st'.freeblock = st.freeblock + 1)
    (hused : st'.usedblocks = st'.freeblock) (hsect : st'.nsect = 1024)
    (hinode : st'.freeinode = st.freeinode) (hhigh : st.freeblock < 1024)
    (hself : refAt st'.img (ino' i) k = UInt32.ofNat st.freeblock)
    (hother : ∀ j, Live st j → ∀ l < NREF, (j, l) ≠ (i, k) →
      refAt st'.img (ino' j) l = refAt st.img (ino j) l)
    (hzero : ∀ b, st'.freeblock ≤ b → b < 1024 → st'.img b = zeroBlock) : Layout st' ino' := by
  have hb := ofNat_block h.low (by omega)
  have hlive : Live st' = Live st := by
    funext j
    rw [Live, Live, hinode]
  have hlow := h.low
  refine ⟨hsect, hused, by omega, by omega, hinode ▸ h.inodes, ?_, hzero⟩
  rw [hlive]
  refine (h.owned.mono (fun _ hj => hj) ?_).assign ?_ ?_ hself hother
  · intro b hb'
    exact ⟨hb'.1, by omega⟩
  · rw [hb.1]
    exact ⟨h.low, by omega⟩
  · intro j hj l hl heq
    have harea := h.owned.area j hj l hl (heq ▸ hb.2)
    simp only [heq, hb.1] at harea
    omega

/-- `blockFor` on inode `i` has run: at most the indirect block was written, the
index is mapped and what was mapped before still is. -/
structure Mapped (st : State) (ino : ℕ → Dinode) (i n fbn : ℕ) (din : Dinode) (x : UInt32)
    (st' : State) : Prop where
  layout : Layout st' (Function.update ino i din)
  freeinode : st'.freeinode = st.freeinode
  filled : Filled st'.img din (max n (fbn + 1))
  target : mapAt st'.img din fbn = x
  fields : (din.type, din.major, din.minor, din.nlink, din.size) =
    ((ino i).type, (ino i).major, (ino i).minor, (ino i).nlink, (ino i).size)
  kept : ∀ l < NREF, refAt st.img (ino i) l ≠ 0 → refAt st'.img din l = refAt st.img (ino i) l
  img : ∀ b, (din.addr NDIRECT ≠ 0 → b ≠ (din.addr NDIRECT).toNat) → st'.img b = st.img b
  count : st'.freeblock + refCount n = st.freeblock + refCount (max n (fbn + 1))

/-- Nothing to allocate. -/
theorem Layout.mapped_of_lt (h : Layout st ino) {n fbn : ℕ} (hfill : Filled st.img (ino i) n)
    (hlt : fbn < n) : Mapped st ino i n fbn (ino i) (mapAt st.img (ino i) fbn) st := by
  have hmax : max n (fbn + 1) = n := by omega
  refine ⟨by rwa [Function.update_eq_self], rfl, by rwa [hmax], rfl, rfl, fun _ _ _ => rfl,
    fun _ _ => rfl, by rw [hmax]⟩

theorem refAt_update_ne {img img' : Disk} {j : ℕ} {din : Dinode} (hji : j ≠ i)
    (h : (ino j).addr NDIRECT ≠ 0 →
      img' ((ino j).addr NDIRECT).toNat = img ((ino j).addr NDIRECT).toNat) (l : ℕ) :
    refAt img' (Function.update ino i din j) l = refAt img (ino j) l := by
  rw [Function.update_of_ne hji]
  exact refAt_congr rfl h l

/-- The next index is a direct slot. -/
theorem Layout.mapped_direct (h : Layout st ino) {n : ℕ} (hfill : Filled st.img (ino i) n)
    (hn : n < NDIRECT) (hhigh : st.freeblock < 1024) :
    Mapped st ino i n n ((ino i).setAddr n (UInt32.ofNat st.freeblock))
      (UInt32.ofNat st.freeblock) st.take := by
  have hb := ofNat_block h.low (by omega)
  have href : ∀ l < NREF, refAt st.img ((ino i).setAddr n (UInt32.ofNat st.freeblock)) l =
      if l = n then UInt32.ofNat st.freeblock else refAt st.img (ino i) l :=
    fun l _ => refAt_setAddr_direct hn _ l
  have hplace : place n = n := if_pos hn
  have hnref : n < NREF := by simp only [NREF, NDIRECT, NINDIRECT] at *; omega
  have hempty : refAt st.img (ino i) n = 0 := by
    by_contra hne
    have := (hfill n hnref).mp hne
    rw [if_pos hn.le] at this
    omega
  have hmax : max n (n + 1) = n + 1 := by omega
  refine ⟨?_, rfl, ?_, ?_, rfl, ?_, fun _ _ => rfl, ?_⟩
  · refine h.assign (i := i) (k := n) rfl (congrArg (· + 1) h.used) h.sectors rfl hhigh ?_ ?_ ?_
    · rw [Function.update_self]
      exact (href n hnref).trans (if_pos rfl)
    · intro j _ l hl hne
      by_cases hji : j = i
      · subst hji
        rw [Function.update_self]
        refine (href l hl).trans (if_neg ?_)
        rintro rfl
        exact hne rfl
      · exact refAt_update_ne hji (fun _ => rfl) l
    · exact fun b hlo => h.zero b (Nat.le_of_succ_le hlo)
  · rw [hmax]
    exact hfill.succ (by omega) hb.2 (by rwa [hplace])
  · rw [mapAt, hplace]
    exact (href n hnref).trans (if_pos rfl)
  · intro l hl hne
    refine (href l hl).trans (if_neg ?_)
    rintro rfl
    exact hne hempty
  · rw [hmax, refCount, refCount, if_pos hn.le, if_pos (show n + 1 ≤ NDIRECT from hn)]
    change st.freeblock + 1 + n = _
    omega

theorem Layout.indirect_lt (h : Layout st ino) (hi : Live st i) (hd : (ino i).addr NDIRECT ≠ 0) :
    firstData ≤ ((ino i).addr NDIRECT).toNat ∧ ((ino i).addr NDIRECT).toNat < st.freeblock := by
  have href : refAt st.img (ino i) NDIRECT = (ino i).addr NDIRECT := refAt_addr le_rfl
  have harea := h.owned.area i hi NDIRECT (by decide) (by rwa [href])
  rwa [href] at harea

/-- The indirect block of one inode is no block of another. -/
theorem Layout.indirect_ne (h : Layout st ino) (hi : Live st i) (hd : (ino i).addr NDIRECT ≠ 0)
    {j l : ℕ} (hj : Live st j) (hl : l < NREF) (hne : (j, l) ≠ (i, NDIRECT)) :
    refAt st.img (ino j) l ≠ (ino i).addr NDIRECT := by
  intro heq
  have href : refAt st.img (ino i) NDIRECT = (ino i).addr NDIRECT := refAt_addr le_rfl
  obtain ⟨rfl, rfl⟩ := h.owned.once i j hi hj NDIRECT (by decide) l hl (by rwa [href])
    (href.trans heq.symm)
  exact hne rfl

/-- The image after the next free block was entered in the indirect block. -/
def State.enter (st : State) (a : UInt32) (e : ℕ) : State :=
  st.take.store a.toNat (put32 (st.img a.toNat) (4 * e) (UInt32.ofNat st.freeblock))

theorem refAt_enter {d : Dinode} (hd : d.addr NDIRECT ≠ 0) (e l : ℕ) :
    refAt (st.enter (d.addr NDIRECT) e).img d l =
      if l = 13 + e then UInt32.ofNat st.freeblock else refAt st.img d l :=
  refAt_putEntry hd (Function.update_self ..) l

theorem Layout.enter (h : Layout st ino) (hi : Live st i) (hd : (ino i).addr NDIRECT ≠ 0)
    (hhigh : st.freeblock < 1024) (e : ℕ) : Layout (st.enter ((ino i).addr NDIRECT) e) ino := by
  have harea := h.indirect_lt hi hd
  have href := (refAt_enter hd e : ∀ l, refAt (st.enter _ e).img _ l = _)
  refine h.assign (i := i) (k := 13 + e) rfl (congrArg (· + 1) h.used) ?_ rfl hhigh ?_ ?_ ?_
  · change max st.nsect _ = _
    rw [h.sectors]
    omega
  · rw [href, if_pos rfl]
  · intro j hj l hl hne
    by_cases hji : j = i
    · subst hji
      rw [href, if_neg]
      rintro rfl
      exact hne rfl
    · refine refAt_congr rfl (fun hdj => Function.update_of_ne (fun heq => ?_) ..) l
      have hind : refAt st.img (ino j) NDIRECT = (ino j).addr NDIRECT := refAt_addr le_rfl
      exact h.indirect_ne hi hd hj (show NDIRECT < NREF by decide) (by simp [hji])
        (hind.trans (UInt32.toNat_inj.mp heq))
  · intro b hlo hhi
    have hlo' : st.freeblock + 1 ≤ b := hlo
    exact (Function.update_of_ne (by omega) ..).trans (h.zero b (by omega) hhi)

/-- The next index is an entry of the indirect block. -/
theorem Layout.mapped_entry (h : Layout st ino) (hi : Live st i) {n : ℕ}
    (hfill : Filled st.img (ino i) n) (hn : NDIRECT < n) (hmax : n < MAXFILE)
    (hhigh : st.freeblock < 1024) :
    Mapped st ino i n n (ino i) (UInt32.ofNat st.freeblock)
      (st.enter ((ino i).addr NDIRECT) (n - NDIRECT)) := by
  have hb := ofNat_block h.low (by omega)
  have hd : (ino i).addr NDIRECT ≠ 0 := by
    have := (hfill NDIRECT (by decide)).mpr (by rwa [if_pos le_rfl])
    rwa [refAt_addr le_rfl] at this
  have href := (refAt_enter hd (n - NDIRECT) : ∀ l, refAt (st.enter _ _).img _ l = _)
  have hplace : place n = 13 + (n - NDIRECT) := by
    rw [place, if_neg (by omega)]
    simp only [NDIRECT] at *
    omega
  have hempty : refAt st.img (ino i) (13 + (n - NDIRECT)) = 0 := by
    by_contra hne
    have := (hfill.map hmax).mp (by rwa [mapAt, hplace])
    omega
  have hsucc : max n (n + 1) = n + 1 := by omega
  refine ⟨?_, rfl, ?_, ?_, rfl, ?_, fun b hb => Function.update_of_ne (hb hd) .., ?_⟩
  · rw [Function.update_eq_self]
    exact h.enter hi hd hhigh _
  · rw [hsucc]
    exact hfill.succ (by omega) hb.2 (by rw [hplace]; exact fun k _ => href k)
  · rw [mapAt, hplace, href, if_pos rfl]
  · intro l _ hne
    rw [href, if_neg]
    rintro rfl
    exact hne hempty
  · rw [hsucc, refCount, refCount, if_neg (by omega), if_neg (by omega)]
    change st.freeblock + 1 + (n + 1) = _
    omega

/-- The first index behind the direct slots: an indirect block, then its entry. -/
theorem Layout.mapped_indirect (h : Layout st ino) (hi : Live st i)
    (hfill : Filled st.img (ino i) NDIRECT) (hhigh : st.freeblock + 1 < 1024) :
    Mapped st ino i NDIRECT NDIRECT ((ino i).setAddr NDIRECT (UInt32.ofNat st.freeblock))
      (UInt32.ofNat (st.freeblock + 1)) (st.take.enter (UInt32.ofNat st.freeblock) 0) := by
  have hb := ofNat_block h.low (by omega)
  have hc := ofNat_block (Nat.le_succ_of_le h.low) (show st.freeblock + 1 ≤ 1024 by omega)
  have hd : (ino i).addr NDIRECT = 0 := by
    by_contra hne
    have := (hfill NDIRECT (by decide)).mp (by rwa [refAt_addr le_rfl])
    simp at this
  have hzero : st.img (UInt32.ofNat st.freeblock).toNat = zeroBlock := by
    rw [hb.1]
    exact h.zero _ le_rfl (by omega)
  generalize hdin : (ino i).setAddr NDIRECT (UInt32.ofNat st.freeblock) = din
  have href : ∀ l, refAt st.img din l =
      if l = NDIRECT then UInt32.ofNat st.freeblock else refAt st.img (ino i) l :=
    hdin ▸ refAt_setAddr_indirect hd hzero
  have hind : din.addr NDIRECT = UInt32.ofNat st.freeblock := by rw [← hdin, Dinode.addr_setAddr]
  -- first the indirect block itself
  have h₁ : Layout st.take (Function.update ino i din) := by
    refine h.assign (i := i) (k := NDIRECT) rfl (congrArg (· + 1) h.used) h.sectors rfl (by omega)
      ?_ ?_ ?_
    · rw [Function.update_self]
      exact (href _).trans (if_pos rfl)
    · intro j _ l hl hne
      by_cases hji : j = i
      · subst hji
        rw [Function.update_self]
        refine (href l).trans (if_neg ?_)
        rintro rfl
        exact hne rfl
      · exact refAt_update_ne hji (fun _ => rfl) l
    · exact fun b hlo => h.zero b (Nat.le_of_succ_le hlo)
  -- then its first entry
  have hself : Function.update ino i din i = din := Function.update_self ..
  have hne : (Function.update ino i din i).addr NDIRECT ≠ 0 := by rw [hself, hind]; exact hb.2
  have h₂ := h₁.enter hi hne (by change st.freeblock + 1 < 1024; exact hhigh) 0
  have href₂ := (refAt_enter hne 0 : ∀ l, refAt (st.take.enter _ 0).img _ l = _)
  rw [hself, hind] at h₂ href₂
  have hboth : ∀ l, refAt (st.take.enter (UInt32.ofNat st.freeblock) 0).img din l =
      if l = place NDIRECT then UInt32.ofNat (st.freeblock + 1)
      else if l = NDIRECT then UInt32.ofNat st.freeblock else refAt st.img (ino i) l := by
    intro l
    have hplace : place NDIRECT = 13 + 0 := rfl
    rw [href₂ l, hplace]
    by_cases hl : l = 13 + 0
    · rw [if_pos hl, if_pos hl]
      rfl
    · rw [if_neg hl, if_neg hl]
      exact href l
  refine ⟨h₂, rfl, ?_, ?_, by rw [← hdin]; rfl, ?_, ?_, ?_⟩
  · exact hfill.indirect hb.2 hc.2 fun k _ => hboth k
  · rw [mapAt, hboth, if_pos rfl]
  · intro l hl hne
    have hle := (hfill l hl).mp hne
    have hl₁ : l ≠ place NDIRECT := by
      rintro rfl
      rw [if_neg (by decide)] at hle
      exact absurd hle (by decide)
    have hl₂ : l ≠ NDIRECT := by
      rintro rfl
      simp at hle
    rw [hboth, if_neg hl₁, if_neg hl₂]
  · intro b hb'
    rw [hind] at hb'
    exact Function.update_of_ne (hb' hb.2) ..
  · change st.freeblock + 1 + 1 + refCount NDIRECT = st.freeblock + refCount (NDIRECT + 1)
    simp [refCount]
    omega

theorem blockFor_spec {n fbn : ℕ} {din : Dinode} {x : UInt32} (h : Layout st ino) (hi : Live st i)
    (hfill : Filled st.img (ino i) n) (hle : fbn ≤ n) (hmax : fbn < MAXFILE)
    (hrun : blockFor (ino i) fbn st = .ok ((din, x), st')) :
    st'.nsect = 1024 ∧ (x.toNat < 1024 → Mapped st ino i n fbn din x st') := by
  have hhigh := h.high
  by_cases hdir : fbn < NDIRECT
  · have hmap : mapAt st.img (ino i) fbn = (ino i).addr fbn := by
      rw [mapAt, place, if_pos hdir, refAt_addr hdir.le]
    by_cases h₀ : (ino i).addr fbn = 0
    · obtain rfl := hfill.eq_of_unmapped hle hmax (hmap.trans h₀)
      rw [blockFor, if_pos hdir, if_pos h₀, Exec.bind_of_ok takeBlock_run] at hrun
      simp only [Exec.pure_run, Except.ok.injEq, Prod.mk.injEq] at hrun
      obtain ⟨⟨rfl, rfl⟩, rfl⟩ := hrun
      rw [(ofNat_block h.low hhigh).1]
      exact ⟨h.sectors, h.mapped_direct hfill hdir⟩
    · have hlt := (hfill.map hmax).mp (by rwa [hmap])
      rw [blockFor, if_pos hdir, if_neg h₀] at hrun
      simp only [Exec.pure_run, Except.ok.injEq, Prod.mk.injEq] at hrun
      obtain ⟨⟨rfl, rfl⟩, rfl⟩ := hrun
      exact ⟨h.sectors, fun _ => hmap ▸ h.mapped_of_lt hfill hlt⟩
  · rw [blockFor, if_neg hdir] at hrun
    by_cases hd : (ino i).addr NDIRECT = 0
    · -- no indirect block yet, so this is the first index behind the direct slots
      have hmap : mapAt st.img (ino i) fbn = 0 := by
        rw [mapAt, place, if_neg hdir]
        exact refAt_none (by omega) hd
      obtain rfl := hfill.eq_of_unmapped hle hmax hmap
      have hn : fbn = NDIRECT := by
        by_contra hne
        have := (hfill NDIRECT (by decide)).mpr (by rw [if_pos le_rfl]; omega)
        rw [refAt_addr le_rfl] at this
        exact this hd
      subst hn
      rw [indirectOf, if_pos hd, bind_assoc, Exec.bind_of_ok takeBlock_run, pure_bind,
        Dinode.addr_setAddr, Exec.bind_eq_ok] at hrun
      obtain ⟨ind, st₁, hread, hrun⟩ := hrun
      obtain ⟨hlt, rfl, rfl⟩ := rsect_eq_ok.mp hread
      have hb := ofNat_block h.low hhigh
      have hsect : st.take.nsect = 1024 := h.sectors
      rw [hsect, hb.1] at hlt
      have hzero : st.take.img (UInt32.ofNat st.freeblock).toNat = zeroBlock := by
        rw [hb.1]
        exact h.zero _ le_rfl hlt
      rw [hzero, if_pos (get32_zeroBlock _), Exec.bind_of_ok takeBlock_run,
        Exec.bind_of_ok (wsect_run _ _), Nat.sub_self] at hrun
      simp only [Exec.pure_run, Except.ok.injEq, Prod.mk.injEq] at hrun
      obtain ⟨⟨rfl, rfl⟩, rfl⟩ := hrun
      have hc : (UInt32.ofNat st.take.freeblock).toNat = st.freeblock + 1 :=
        (ofNat_block (Nat.le_succ_of_le h.low) (show st.freeblock + 1 ≤ 1024 by omega)).1
      rw [hc, ← hzero]
      refine ⟨?_, h.mapped_indirect hi hfill⟩
      rw [store_nsect, hb.1]
      change max st.nsect _ = _
      rw [h.sectors]
      omega
    · rw [indirectOf, if_neg hd, pure_bind, Exec.bind_eq_ok] at hrun
      obtain ⟨ind, st₁, hread, hrun⟩ := hrun
      obtain ⟨hlt, rfl, rfl⟩ := rsect_eq_ok.mp hread
      have hn : NDIRECT < n := by
        have := (hfill NDIRECT (by decide)).mp (by rwa [refAt_addr le_rfl])
        rwa [if_pos le_rfl] at this
      have hmap : mapAt st.img (ino i) fbn =
          get32 (st.img ((ino i).addr NDIRECT).toNat) (4 * (fbn - NDIRECT)) := by
        rw [mapAt, place, if_neg hdir, refAt_entry (by omega) hd]
        rfl
      by_cases h₀ : get32 (st.img ((ino i).addr NDIRECT).toNat) (4 * (fbn - NDIRECT)) = 0
      · obtain rfl := hfill.eq_of_unmapped hle hmax (hmap.trans h₀)
        rw [if_pos h₀, Exec.bind_of_ok takeBlock_run, Exec.bind_of_ok (wsect_run _ _)] at hrun
        simp only [Exec.pure_run, Except.ok.injEq, Prod.mk.injEq] at hrun
        obtain ⟨⟨rfl, rfl⟩, rfl⟩ := hrun
        rw [(ofNat_block h.low hhigh).1]
        refine ⟨?_, h.mapped_entry hi hfill hn hmax⟩
        rw [store_nsect]
        change max st.nsect _ = _
        rw [h.sectors] at hlt ⊢
        omega
      · have hlt' := (hfill.map hmax).mp (by rwa [hmap])
        rw [if_neg h₀] at hrun
        simp only [Exec.pure_run, Except.ok.injEq, Prod.mk.injEq] at hrun
        obtain ⟨⟨rfl, rfl⟩, rfl⟩ := hrun
        exact ⟨h.sectors, fun _ => hmap ▸ h.mapped_of_lt hfill hlt'⟩

/-! ## One turn of the loop -/

/-- Bytes `p` have been appended to inode `i`, whose inode is now `din`. -/
structure Appended (st : State) (ino : ℕ → Dinode) (i : ℕ) (bytes p : List UInt8) (din : Dinode)
    (st' : State) : Prop where
  layout : Layout st' (Function.update ino i din)
  freeinode : st'.freeinode = st.freeinode
  contents : Contents st'.img din (bytes ++ p)
  fields : (din.type, din.major, din.minor, din.nlink, din.size) =
    ((ino i).type, (ino i).major, (ino i).minor, (ino i).nlink, (ino i).size)
  others : ∀ j, Live st j → j ≠ i → Untouched st.img st'.img (ino j)
  low : ∀ b < firstData, st'.img b = st.img b
  count : st'.freeblock + refCount (blockCount bytes.length) =
    st.freeblock + refCount (blockCount (bytes ++ p).length)
  bound : bytes.length ≤ MAXFILE * BSIZE → (bytes ++ p).length ≤ MAXFILE * BSIZE

theorem Appended.trans {bytes p q : List UInt8} {din din' : Dinode} {st₁ : State}
    (h₁ : Appended st ino i bytes p din st₁)
    (h₂ : Appended st₁ (Function.update ino i din) i (bytes ++ p) q din' st') :
    Appended st ino i bytes (p ++ q) din' st' := by
  have hlive : ∀ j, Live st j → Live st₁ j := fun j hj => ⟨hj.1, h₁.freeinode.symm ▸ hj.2⟩
  refine ⟨?_, h₂.freeinode.trans h₁.freeinode, ?_, ?_, ?_, ?_, ?_,
    fun hle => by simpa using h₂.bound (h₁.bound hle)⟩
  · simpa using h₂.layout
  · simpa using h₂.contents
  · have := h₂.fields
    rw [Function.update_self] at this
    exact this.trans h₁.fields
  · intro j hj hji
    have hrest := h₂.others j (hlive j hj) hji
    rw [Function.update_of_ne hji] at hrest
    exact (h₁.others j hj hji).trans hrest
  · exact fun b hb => (h₂.low b hb).trans (h₁.low b hb)
  · have h₁' := h₁.count
    have h₂' := h₂.count
    rw [List.append_assoc] at h₂'
    omega

theorem Layout.appended_nil {bytes : List UInt8} (h : Layout st ino)
    (hc : Contents st.img (ino i) bytes) : Appended st ino i bytes [] (ino i) st := by
  refine ⟨by rwa [Function.update_eq_self], rfl, by rwa [List.append_nil], rfl, ?_, fun _ _ => rfl,
    by rw [List.append_nil], by simp⟩
  exact fun j _ _ k _ _ => rfl

/-- The part of `p` that fits in the current block is copied there. -/
theorem Mapped.write {bytes p : List UInt8} {din : Dinode} {x : UInt32} {st₁ : State}
    (hi : Live st i) (hc : Contents st.img (ino i) bytes) (hmax : bytes.length / BSIZE < MAXFILE)
    (h : Mapped st ino i (blockCount bytes.length) (bytes.length / BSIZE) din x st₁)
    (hp : p ≠ []) (hfit : bytes.length + p.length ≤ (bytes.length / BSIZE + 1) * BSIZE) :
    Appended st ino i bytes p din
      (st₁.store x.toNat (splice (st₁.img x.toNat) (bytes.length - bytes.length / BSIZE * BSIZE)
        p.length (buffer p))) := by
  have hi₁ : Live st₁ i := ⟨hi.1, h.freeinode.symm ▸ hi.2⟩
  have hlive : ∀ j, Live st j → Live st₁ j := fun j hj => ⟨hj.1, h.freeinode.symm ▸ hj.2⟩
  have hself : Function.update ino i din i = din := Function.update_self ..
  have hpos : 0 < p.length := List.length_pos_iff.mpr hp
  generalize hfbn : bytes.length / BSIZE = fbn at *
  have hB : BSIZE = 512 := rfl
  have hbounds : fbn * 512 ≤ bytes.length ∧ bytes.length < fbn * 512 + 512 := by
    rw [hB] at hfbn
    omega
  have hfit' : bytes.length + p.length ≤ fbn * 512 + 512 := by
    rw [hB] at hfit
    omega
  have hcount : max (blockCount bytes.length) (fbn + 1) = blockCount (bytes ++ p).length := by
    rw [List.length_append]
    simp only [blockCount, BSIZE] at *
    omega
  -- the target is the block at one place of inode `i`, hence at no other place
  have htarget : refAt st₁.img din (place fbn) = x := h.target
  have hx₀ : x ≠ 0 := by
    rw [← h.target]
    exact (h.filled.map hmax).mpr (by omega)
  have hplace := place_lt hmax
  have harea := h.layout.owned.area i hi₁ (place fbn) hplace (by rw [hself, htarget]; exact hx₀)
  simp only [hself, htarget] at harea
  have hunique : ∀ j, Live st j → ∀ l < NREF, (j, l) ≠ (i, place fbn) →
      refAt st₁.img (Function.update ino i din j) l ≠ x := by
    intro j hj l hl hne heq
    obtain ⟨rfl, rfl⟩ := h.layout.owned.once i j hi₁ (hlive j hj) (place fbn) hplace l hl
      (by rw [hself, htarget]; exact hx₀) (by rw [hself, htarget]; exact heq.symm)
    exact hne rfl
  have hind : ∀ j, Live st j → (Function.update ino i din j).addr NDIRECT ≠ x := by
    intro j hj
    have := hunique j hj NDIRECT (by decide) (by simp [(place_ne_indirect fbn).symm])
    rwa [refAt_addr le_rfl] at this
  generalize hbuf : splice (st₁.img x.toNat) (bytes.length - fbn * BSIZE) p.length (buffer p) = buf
  have hsect : (st₁.store x.toNat buf).nsect = 1024 := by
    have := h.layout.high
    rw [store_nsect, h.layout.sectors]
    omega
  have href : ∀ j, Live st j → ∀ l, refAt (st₁.store x.toNat buf).img
      (Function.update ino i din j) l = refAt st₁.img (Function.update ino i din j) l := by
    intro j hj l
    refine refAt_congr rfl (fun _ => Function.update_of_ne (fun heq => ?_) ..) l
    exact hind j hj (UInt32.toNat_inj.mp heq)
  have hrefi : ∀ l, refAt (st₁.store x.toNat buf).img din l = refAt st₁.img din l :=
    fun l => hself ▸ href i hi l
  refine ⟨⟨hsect, h.layout.used, h.layout.low, h.layout.high, h.layout.inodes, ?_, ?_⟩,
    h.freeinode, ⟨?_, ?_⟩, h.fields, ?_, ?_, ?_, ?_⟩
  · refine h.layout.owned.congr fun j hj l _ => href j ⟨hj.1, h.freeinode ▸ hj.2⟩ l
  · intro b hlo hhi
    have hlo' : st₁.freeblock ≤ b := hlo
    exact (Function.update_of_ne (by omega) ..).trans (h.layout.zero b hlo' hhi)
  · rw [← hcount]
    exact h.filled.congr fun l _ => hrefi l
  · intro k hk
    rw [List.length_append] at hk
    by_cases hold : k < bytes.length
    · -- a byte that was there before
      have hkb : k / BSIZE ≤ fbn := by rw [hB]; omega
      have hkm : k / BSIZE < MAXFILE := by omega
      have hne : mapAt st.img (ino i) (k / BSIZE) ≠ 0 := by
        refine (hc.filled.map hkm).mpr ?_
        simp only [blockCount, BSIZE]
        omega
      have hkept : mapAt st₁.img din (k / BSIZE) = mapAt st.img (ino i) (k / BSIZE) :=
        h.kept _ (place_lt hkm) hne
      have hsame : st₁.img (mapAt st₁.img din (k / BSIZE)).toNat =
          st.img (mapAt st.img (ino i) (k / BSIZE)).toNat := by
        rw [hkept]
        refine h.img _ fun _ heq => ?_
        have heq' := UInt32.toNat_inj.mp heq
        rw [← hkept] at heq' hne
        have hdi : refAt st₁.img (Function.update ino i din i) NDIRECT = din.addr NDIRECT := by
          rw [hself, refAt_addr le_rfl]
        obtain ⟨-, hpl⟩ := h.layout.owned.once i i hi₁ hi₁ (place (k / BSIZE)) (place_lt hkm)
          NDIRECT (by decide) (by rw [hself]; exact hne) (by rw [hdi, hself]; exact heq')
        exact place_ne_indirect _ hpl
      rw [List.getD_append _ _ _ _ hold, ← hc.data k hold, byteAt, byteAt, mapAt, hrefi, ← mapAt,
        store_img]
      by_cases hblk : k / BSIZE = fbn
      · have hxk : mapAt st₁.img din (k / BSIZE) = x := by rw [hblk]; exact h.target
        rw [hxk, Function.update_self, ← hbuf, splice_outside, ← hxk, hsame]
        left
        rw [hB] at *
        omega
      · have hnx : mapAt st₁.img din (k / BSIZE) ≠ x := by
          have := hunique i hi (place (k / BSIZE)) (place_lt hkm)
            (by simpa using fun heq => hblk (place_injective heq))
          rwa [hself] at this
        rw [Function.update_of_ne (fun heq => hnx (UInt32.toNat_inj.mp heq)), hsame]
    · -- a byte of `p`
      have hkb : k / BSIZE = fbn := by rw [hB]; omega
      rw [List.getD_append_right _ _ _ _ (by omega), byteAt, hkb, mapAt, hrefi, htarget, store_img,
        Function.update_self, ← hbuf, splice_inside (by rw [hB] at *; omega) (by rw [hB] at *; omega),
        buffer]
      congr 1
      rw [hB] at *
      omega
  · intro j hj hji l hl hne
    have hindj : ∀ m < NREF, refAt st₁.img (ino j) m ≠ 0 → din.addr NDIRECT ≠ 0 →
        (refAt st₁.img (ino j) m).toNat ≠ (din.addr NDIRECT).toNat := by
      intro m hm _ hd heq
      rw [← hself] at hd heq
      refine h.layout.indirect_ne hi₁ hd (hlive j hj) hm (by simp [hji]) ?_
      rw [Function.update_of_ne hji]
      exact UInt32.toNat_inj.mp heq
    have hrefj : refAt st₁.img (ino j) l = refAt st.img (ino j) l := by
      refine refAt_congr rfl (fun hd => h.img _ fun hdi => ?_) l
      have := hindj NDIRECT (by decide)
      rw [refAt_addr le_rfl] at this
      exact this hd hdi
    have hxj := hunique j hj l hl (by simp [hji])
    rw [Function.update_of_ne hji, hrefj] at hxj
    rw [store_img, Function.update_of_ne (fun heq => hxj (UInt32.toNat_inj.mp heq))]
    refine h.img _ fun hdi => ?_
    rw [← hrefj] at hne ⊢
    exact hindj l hl hne hdi
  · intro b hb
    rw [store_img, Function.update_of_ne (by omega)]
    refine h.img b fun hd => ?_
    have hdi := h.layout.indirect_lt hi₁ (by rwa [hself])
    rw [hself] at hdi
    omega
  · rw [← hcount]
    exact h.count
  · intro _
    have hmax' : fbn < 140 := hmax
    rw [List.length_append]
    change bytes.length + p.length ≤ 140 * 512
    omega

/-- One turn copies the part of `p` that the current block has room for. -/
def room (bytes p : List UInt8) : ℕ := min p.length ((bytes.length / BSIZE + 1) * BSIZE - bytes.length)

theorem room_pos (bytes : List UInt8) {p : List UInt8} (hp : p ≠ []) : 0 < room bytes p := by
  have hpos : 0 < p.length := List.length_pos_iff.mpr hp
  simp only [room, BSIZE]
  omega

theorem div_le_blockCount (n : ℕ) : n / BSIZE ≤ blockCount n := Nat.div_le_div_right (by omega)

theorem appendLoop_turn (fuel : ℕ) {bytes p : List UInt8} {din : Dinode} {x : UInt32} {st₁ : State}
    (h : Layout st ino) (hi : Live st i) (hc : Contents st.img (ino i) bytes) (hp : p ≠ [])
    (hmax : bytes.length / BSIZE < MAXFILE)
    (hblock : blockFor (ino i) (bytes.length / BSIZE) st = .ok ((din, x), st₁))
    (hx : x.toNat < 1024) :
    ∃ st₂, Appended st ino i bytes (p.take (room bytes p)) din st₂ ∧
      appendLoop (fuel + 1) (ino i) bytes.length p st =
        appendLoop fuel din (bytes ++ p.take (room bytes p)).length (p.drop (room bytes p)) st₂ := by
  obtain ⟨hsect, hmapped⟩ := blockFor_spec h hi hc.filled (div_le_blockCount _) hmax hblock
  have hread : rsect x.toNat st₁ = .ok (st₁.img x.toNat, st₁) :=
    rsect_eq_ok.mpr ⟨by rwa [hsect], rfl, rfl⟩
  have hpos := room_pos bytes hp
  have hlen : (p.take (room bytes p)).length = room bytes p := by
    rw [List.length_take]
    simp only [room]
    omega
  have hwrite := (hmapped hx).write hi hc hmax (p := p.take (room bytes p))
    (by rw [← List.length_pos_iff]; omega) (by rw [hlen]; simp only [room, BSIZE]; omega)
  rw [hlen, splice_congr (g := buffer p)] at hwrite
  · refine ⟨_, hwrite, ?_⟩
    rw [appendLoop, if_neg hp]
    dsimp only
    rw [if_pos hmax, Exec.bind_of_ok hblock]
    dsimp only
    rw [Exec.bind_of_ok hread, Exec.bind_of_ok (wsect_run _ _), List.length_append, hlen]
    rfl
  · intro k hk
    simp only [buffer, List.getD_eq_getElem?_getD, List.getElem?_take, hk, if_true]

/-- What a turn that did not fail has found out. -/
theorem appendLoop_inv {fuel off : ℕ} {p : List UInt8} {d : Dinode} {r : (Dinode × ℕ) × State}
    (hp : p ≠ []) (hrun : appendLoop (fuel + 1) d off p st = .ok r) :
    off / BSIZE < MAXFILE ∧ ∃ din x st₁, blockFor d (off / BSIZE) st = .ok ((din, x), st₁) ∧
      x.toNat < st₁.nsect := by
  rw [appendLoop, if_neg hp] at hrun
  dsimp only at hrun
  by_cases hmax : off / BSIZE < MAXFILE
  · rw [if_pos hmax, Exec.bind_eq_ok] at hrun
    obtain ⟨⟨din, x⟩, st₁, hblock, hrun⟩ := hrun
    dsimp only at hrun
    rw [Exec.bind_eq_ok] at hrun
    obtain ⟨buf, st₂, hread, -⟩ := hrun
    exact ⟨hmax, din, x, st₁, hblock, (rsect_eq_ok.mp hread).1⟩
  · simp [if_neg hmax] at hrun

/-- A loop that has run to its end has appended all of `p`. -/
theorem appendLoop_spec {fuel off : ℕ} {bytes p : List UInt8} {din : Dinode} (h : Layout st ino)
    (hi : Live st i) (hc : Contents st.img (ino i) bytes) (hfuel : p.length ≤ fuel)
    (hrun : appendLoop fuel (ino i) bytes.length p st = .ok ((din, off), st')) :
    off = (bytes ++ p).length ∧ Appended st ino i bytes p din st' := by
  induction fuel generalizing st ino bytes p with
  | zero =>
    obtain rfl := List.length_eq_zero_iff.mp (Nat.le_zero.mp hfuel)
    simp only [appendLoop, Exec.pure_run, Except.ok.injEq, Prod.mk.injEq] at hrun
    obtain ⟨⟨rfl, rfl⟩, rfl⟩ := hrun
    exact ⟨by simp, h.appended_nil hc⟩
  | succ fuel ih =>
    by_cases hp : p = []
    · subst hp
      simp only [appendLoop, if_true, Exec.pure_run, Except.ok.injEq, Prod.mk.injEq] at hrun
      obtain ⟨⟨rfl, rfl⟩, rfl⟩ := hrun
      exact ⟨by simp, h.appended_nil hc⟩
    · obtain ⟨hmax, din₁, x, st₀, hblock, hx⟩ := appendLoop_inv hp hrun
      obtain ⟨hsect, -⟩ := blockFor_spec h hi hc.filled (div_le_blockCount _) hmax hblock
      obtain ⟨st₁, hone, hturn⟩ := appendLoop_turn fuel h hi hc hp hmax hblock (hsect ▸ hx)
      rw [hturn] at hrun
      have hpos := room_pos bytes hp
      have hi₁ : Live st₁ i := ⟨hi.1, hone.freeinode.symm ▸ hi.2⟩
      have hself : Function.update ino i din₁ i = din₁ := Function.update_self ..
      have hfuel₁ : (p.drop (room bytes p)).length ≤ fuel := by
        rw [List.length_drop]
        omega
      obtain ⟨hoff, htail⟩ := ih hone.layout hi₁ (by rw [hself]; exact hone.contents) hfuel₁
        (by rw [hself]; exact hrun)
      refine ⟨by simpa using hoff, ?_⟩
      simpa using hone.trans htail

/-! ## Appending to a file of the image -/

/-- Between two calls the inodes are those of the image. -/
def Good (st : State) : Prop := Layout st (dinodeAt st.img)

/-- The file at inode `i`. A directory's size may be larger than its contents. -/
structure FileAt (img : Disk) (i : ℕ) (type nlink : Int16) (size : ℕ) (bytes : List UInt8) :
    Prop where
  type_eq : (dinodeAt img i).type = type
  nlink_eq : (dinodeAt img i).nlink = nlink
  size_eq : (dinodeAt img i).size.toNat = size
  contents : Contents img (dinodeAt img i) bytes
  bound : bytes.length ≤ MAXFILE * BSIZE

/-- Neither inode `i` nor its blocks have changed. -/
structure SameFile (img img' : Disk) (i : ℕ) : Prop where
  inode : dinodeAt img' i = dinodeAt img i
  blocks : Untouched img img' (dinodeAt img i)

theorem SameFile.trans {a b c : Disk} (h₁ : SameFile a b i) (h₂ : SameFile b c i) :
    SameFile a c i :=
  ⟨h₂.inode.trans h₁.inode, h₁.blocks.trans (h₁.inode ▸ h₂.blocks)⟩

theorem FileAt.same {img img' : Disk} {type nlink : Int16} {size : ℕ} {bytes : List UInt8}
    (h : FileAt img i type nlink size bytes) (hs : SameFile img img' i) :
    FileAt img' i type nlink size bytes := by
  refine ⟨hs.inode ▸ h.type_eq, hs.inode ▸ h.nlink_eq, hs.inode ▸ h.size_eq, ?_, h.bound⟩
  rw [hs.inode]
  exact h.contents.untouched hs.blocks h.bound

theorem i2b_lt {inum : ℕ} (h : inum < inodeRoom) : 2 ≤ i2b inum ∧ i2b inum < 28 := by
  simp only [i2b, IPB, inodeRoom] at *
  omega

/-- Writing an inode into the inode blocks. -/
theorem winode_eq_ok {d : Dinode} : winode i d st = .ok ((), st') ↔
    i2b i < st.nsect ∧ st' = (st.store (i2b i) (putDinode (st.img (i2b i)) (i % IPB) d)).wrote i := by
  rw [winode, Exec.bind_eq_ok]
  constructor
  · rintro ⟨buf, st₁, hread, hrun⟩
    obtain ⟨hlt, rfl, rfl⟩ := rsect_eq_ok.mp hread
    rw [Exec.bind_of_ok (wsect_run _ _), Exec.modify_run] at hrun
    simp only [Except.ok.injEq, Prod.mk.injEq, true_and] at hrun
    exact ⟨hlt, hrun.symm⟩
  · rintro ⟨hlt, rfl⟩
    exact ⟨_, _, rsect_eq_ok.mpr ⟨hlt, rfl, rfl⟩, rfl⟩

theorem winode_ok (h : i2b i < st.nsect) (d : Dinode) : ∃ st', winode i d st = .ok ((), st') :=
  ⟨_, winode_eq_ok.mpr ⟨h, rfl⟩⟩

/-- Writing back an inode that references what `ino i` does. -/
theorem Layout.winode {d : Dinode} (h : Layout st ino) (hi : Live st i)
    (haddr : d.addrs = (ino i).addrs) (hino : ∀ j, Live st j → j ≠ i → dinodeAt st.img j = ino j)
    (hrun : Mkfs.winode i d st = .ok ((), st')) :
    Good st' ∧ dinodeAt st'.img i = d ∧ (∀ j, j ≠ i → dinodeAt st'.img j = dinodeAt st.img j) ∧
      (∀ b, b ≠ i2b i → st'.img b = st.img b) ∧ st'.freeinode = st.freeinode ∧
      st'.freeblock = st.freeblock := by
  obtain ⟨-, rfl⟩ := winode_eq_ok.mp hrun
  have hblk := i2b_lt (hi.2.trans_le h.inodes)
  have himg : ((st.store (i2b i) (putDinode (st.img (i2b i)) (i % IPB) d)).wrote i).img =
      writeDinode st.img i d := rfl
  have hnew : dinodeAt (writeDinode st.img i d) = Function.update (dinodeAt st.img) i d :=
    dinodeAt_writeDinode_eq ..
  have hlow : ∀ b, b ≠ i2b i → writeDinode st.img i d b = st.img b :=
    fun b hb => Function.update_of_ne hb ..
  -- no block of a file is an inode block
  have href : ∀ j, Live st j → ∀ k, refAt (writeDinode st.img i d)
      (dinodeAt (writeDinode st.img i d) j) k = refAt st.img (ino j) k := by
    intro j hj k
    refine refAt_congr ?_ (fun hd => hlow _ ?_) k
    · rw [hnew]
      by_cases hji : j = i
      · rw [hji, Function.update_self, haddr]
      · rw [Function.update_of_ne hji, hino j hj hji]
    · have := (h.indirect_lt hj hd).1
      simp only [firstData] at this
      omega
  rw [Good, himg]
  refine ⟨⟨?_, h.used, h.low, h.high, h.inodes, h.owned.congr fun j hj k _ => href j hj k, ?_⟩,
    by rw [hnew, Function.update_self], fun j hj => by rw [hnew, Function.update_of_ne hj], hlow,
    rfl, rfl⟩
  · change max st.nsect _ = _
    rw [h.sectors]
    omega
  · intro b hlo hhi
    have hlo' : st.freeblock ≤ b := hlo
    have := h.low
    simp only [firstData] at this
    exact (hlow b (by omega)).trans (h.zero b hlo' hhi)

/-- What a piece of mkfs that works on inode `cur` leaves as it was: the other
inodes with their blocks, and what lies outside the inode blocks and the data. -/
structure Step (st st' : State) (cur : ℕ) : Prop where
  good : Good st'
  grow : st.freeinode ≤ st'.freeinode
  others : ∀ j, Live st j → j ≠ cur → SameFile st.img st'.img j
  low : ∀ b < firstData, b < 2 ∨ 28 ≤ b → st'.img b = st.img b

theorem Step.live {cur : ℕ} (h : Step st st' cur) (hi : Live st i) : Live st' i :=
  ⟨hi.1, hi.2.trans_le h.grow⟩

theorem Step.trans {cur : ℕ} {st₁ : State} (h₁ : Step st st₁ cur) (h₂ : Step st₁ st' cur) :
    Step st st' cur :=
  ⟨h₂.good, h₁.grow.trans h₂.grow,
    fun j hj hne => (h₁.others j hj hne).trans (h₂.others j (h₁.live hj) hne),
    fun b hb hb' => (h₂.low b hb hb').trans (h₁.low b hb hb')⟩

theorem iappend_spec {type nlink : Int16} {bytes p : List UInt8} (h : Good st) (hi : Live st i)
    (hf : FileAt st.img i type nlink bytes.length bytes) (hrun : iappend i p st = .ok ((), st')) :
    Step st st' i ∧ FileAt st'.img i type nlink (bytes ++ p).length (bytes ++ p) ∧
      st'.freeinode = st.freeinode ∧
      st'.freeblock + refCount (blockCount bytes.length) =
        st.freeblock + refCount (blockCount (bytes ++ p).length) := by
  rw [iappend, rinode, bind_assoc, Exec.bind_eq_ok] at hrun
  obtain ⟨buf, st₀, hread, hrun⟩ := hrun
  obtain ⟨-, rfl, rfl⟩ := rsect_eq_ok.mp hread
  rw [pure_bind, Exec.bind_eq_ok] at hrun
  obtain ⟨⟨din, off⟩, st₁, hloop, hwrite⟩ := hrun
  change appendLoop p.length (dinodeAt st.img i) (dinodeAt st.img i).size.toNat p st = _ at hloop
  rw [hf.size_eq] at hloop
  obtain ⟨rfl, happ⟩ := appendLoop_spec h hi hf.contents le_rfl hloop
  have hbound := happ.bound hf.bound
  have hi₁ : Live st₁ i := ⟨hi.1, happ.freeinode.symm ▸ hi.2⟩
  have hblk := i2b_lt (hi.2.trans_le h.inodes)
  have hdin : ∀ j, j < inodeRoom → dinodeAt st₁.img j = dinodeAt st.img j := by
    intro j hj
    refine dinodeAt_congr (happ.low _ ?_)
    have : IBLOCK j < 28 := (i2b_lt hj).2
    simp only [firstData]
    omega
  obtain ⟨hgood, hself, hothers, himg, hfi, hfb⟩ := happ.layout.winode
    (d := din.setSize (UInt32.ofNat (bytes ++ p).length)) hi₁
    (by rw [Function.update_self]; rfl)
    (by
      intro j hj hji
      rw [Function.update_of_ne hji]
      exact hdin j (hj.2.trans_le happ.layout.inodes)) hwrite
  -- the inode blocks are not among the blocks of the file
  have hrefs : Untouched st₁.img st'.img din := by
    intro k hk hne
    refine himg _ ?_
    have := happ.layout.owned.area i hi₁ k hk (by rwa [Function.update_self])
    simp only [Function.update_self, firstData] at this
    omega
  have hcont := happ.contents.untouched hrefs hbound
  have hfi' := hfi.trans happ.freeinode
  refine ⟨⟨hgood, hfi'.symm.le, ?_, ?_⟩, ⟨?_, ?_, ?_, ?_, hbound⟩, hfi', ?_⟩
  rotate_left 2
  · rw [hself]
    have := happ.fields
    simp only [Prod.mk.injEq] at this
    exact this.1.trans hf.type_eq
  · rw [hself]
    have := happ.fields
    simp only [Prod.mk.injEq] at this
    exact this.2.2.2.1.trans hf.nlink_eq
  · rw [hself]
    change (UInt32.ofNat (bytes ++ p).length).toNat = _
    rw [UInt32.toNat_ofNat']
    refine Nat.mod_eq_of_lt ?_
    have : MAXFILE * BSIZE = 71680 := rfl
    omega
  · rw [hself]
    exact ⟨hcont.filled, hcont.data⟩
  · rw [hfb]
    exact happ.count
  · intro j hj hji
    have hroom := hj.2.trans_le h.inodes
    refine ⟨(hothers j hji).trans (hdin j hroom), ?_⟩
    refine (happ.others j hj hji).trans fun k hk hne => himg _ ?_
    have hj₁ : Live st₁ j := ⟨hj.1, happ.freeinode.symm ▸ hj.2⟩
    have := happ.layout.owned.area j hj₁ k hk (by rwa [Function.update_of_ne hji])
    simp only [Function.update_of_ne hji, firstData] at this
    omega
  · intro b hb hb'
    rw [himg b (by omega), happ.low b hb]

/-! ## Appending does not fail while there is room -/

theorem Layout.mapAt_lt (h : Layout st ino) (hi : Live st i) {bn : ℕ} (hbn : bn < MAXFILE) :
    (mapAt st.img (ino i) bn).toNat < 1024 := by
  by_cases hne : mapAt st.img (ino i) bn = 0
  · simp [hne]
  · have harea := h.owned.area i hi (place bn) (place_lt hbn) hne
    have := h.high
    exact harea.2.trans_le this

theorem blockFor_ok {n fbn : ℕ} (h : Layout st ino) (hi : Live st i)
    (hfill : Filled st.img (ino i) n) (hle : fbn ≤ n) (hmax : fbn < MAXFILE)
    (hroom : st.freeblock + refCount (max n (fbn + 1)) ≤ 1024 + refCount n) :
    ∃ din x st', blockFor (ino i) fbn st = .ok ((din, x), st') ∧ x.toNat < 1024 := by
  have hhigh := h.high
  have hold := h.mapAt_lt hi hmax
  by_cases hdir : fbn < NDIRECT
  · have hmap : mapAt st.img (ino i) fbn = (ino i).addr fbn := by
      rw [mapAt, place, if_pos hdir, refAt_addr hdir.le]
    rw [blockFor, if_pos hdir]
    by_cases h₀ : (ino i).addr fbn = 0
    · obtain rfl := hfill.eq_of_unmapped hle hmax (hmap.trans h₀)
      rw [if_pos h₀, Exec.bind_of_ok takeBlock_run]
      refine ⟨_, _, _, rfl, ?_⟩
      rw [show max fbn (fbn + 1) = fbn + 1 by omega, refCount, refCount, if_pos hdir.le,
        if_pos (show fbn + 1 ≤ NDIRECT from hdir)] at hroom
      rw [(ofNat_block h.low hhigh).1]
      omega
    · rw [if_neg h₀]
      exact ⟨_, _, _, rfl, hmap ▸ hold⟩
  · rw [blockFor, if_neg hdir]
    by_cases hd : (ino i).addr NDIRECT = 0
    · have hmap : mapAt st.img (ino i) fbn = 0 := by
        rw [mapAt, place, if_neg hdir]
        exact refAt_none (by omega) hd
      obtain rfl := hfill.eq_of_unmapped hle hmax hmap
      have hn : fbn = NDIRECT := by
        by_contra hne
        have := (hfill NDIRECT (by decide)).mpr (by rw [if_pos le_rfl]; omega)
        rw [refAt_addr le_rfl] at this
        exact this hd
      subst hn
      have hroom' : st.freeblock + 14 ≤ 1024 + 12 := hroom
      have hb := ofNat_block h.low hhigh
      have hsect : st.take.nsect = 1024 := h.sectors
      have hread : rsect (UInt32.ofNat st.freeblock).toNat st.take =
          .ok (zeroBlock, st.take) := by
        refine rsect_eq_ok.mpr ⟨by rw [hsect, hb.1]; omega, ?_, rfl⟩
        rw [hb.1]
        exact h.zero _ le_rfl (by omega)
      rw [indirectOf, if_pos hd, bind_assoc, Exec.bind_of_ok takeBlock_run, pure_bind,
        Dinode.addr_setAddr, Exec.bind_of_ok hread, if_pos (get32_zeroBlock _),
        Exec.bind_of_ok takeBlock_run, Exec.bind_of_ok (wsect_run _ _)]
      refine ⟨_, _, _, rfl, ?_⟩
      have hc : (UInt32.ofNat st.take.freeblock).toNat = st.freeblock + 1 :=
        (ofNat_block (Nat.le_succ_of_le h.low) (show st.freeblock + 1 ≤ 1024 by omega)).1
      rw [hc]
      omega
    · have hlt := h.indirect_lt hi hd
      have hread : rsect ((ino i).addr NDIRECT).toNat st =
          .ok (st.img ((ino i).addr NDIRECT).toNat, st) :=
        rsect_eq_ok.mpr ⟨by rw [h.sectors]; omega, rfl, rfl⟩
      have hmap : mapAt st.img (ino i) fbn =
          get32 (st.img ((ino i).addr NDIRECT).toNat) (4 * (fbn - NDIRECT)) := by
        rw [mapAt, place, if_neg hdir, refAt_entry (by omega) hd]
        rfl
      rw [indirectOf, if_neg hd, pure_bind, Exec.bind_of_ok hread]
      by_cases h₀ : get32 (st.img ((ino i).addr NDIRECT).toNat) (4 * (fbn - NDIRECT)) = 0
      · obtain rfl := hfill.eq_of_unmapped hle hmax (hmap.trans h₀)
        have hn : NDIRECT < fbn := by
          have := (hfill NDIRECT (by decide)).mp (by rwa [refAt_addr le_rfl])
          rwa [if_pos le_rfl] at this
        rw [if_pos h₀, Exec.bind_of_ok takeBlock_run, Exec.bind_of_ok (wsect_run _ _)]
        refine ⟨_, _, _, rfl, ?_⟩
        rw [show max fbn (fbn + 1) = fbn + 1 by omega, refCount, refCount, if_neg (by omega),
          if_neg (by omega)] at hroom
        rw [(ofNat_block h.low hhigh).1]
        omega
      · rw [if_neg h₀]
        exact ⟨_, _, _, rfl, hmap ▸ hold⟩

theorem appendLoop_ok (fuel : ℕ) {bytes p : List UInt8} (h : Layout st ino) (hi : Live st i)
    (hc : Contents st.img (ino i) bytes) (hlen : (bytes ++ p).length ≤ MAXFILE * BSIZE)
    (hroom : st.freeblock + refCount (blockCount (bytes ++ p).length) ≤
      1024 + refCount (blockCount bytes.length)) :
    ∃ r, appendLoop fuel (ino i) bytes.length p st = .ok r := by
  induction fuel generalizing st ino bytes p with
  | zero => exact ⟨_, rfl⟩
  | succ fuel ih =>
    by_cases hp : p = []
    · rw [appendLoop, if_pos hp]
      exact ⟨_, rfl⟩
    have hpos : 0 < p.length := List.length_pos_iff.mpr hp
    have hmaxB : MAXFILE * BSIZE = 71680 := rfl
    have hmax : bytes.length / BSIZE < MAXFILE := by
      rw [List.length_append] at hlen
      change bytes.length / 512 < 140
      omega
    have hstep : max (blockCount bytes.length) (bytes.length / BSIZE + 1) ≤
        blockCount (bytes ++ p).length := by
      rw [List.length_append]
      simp only [blockCount, BSIZE]
      omega
    obtain ⟨din, x, st₁, hblock, hx⟩ := blockFor_ok h hi hc.filled (div_le_blockCount _) hmax
      ((Nat.add_le_add_left (refCount_mono hstep) _).trans hroom)
    obtain ⟨st₂, hone, hturn⟩ := appendLoop_turn fuel h hi hc hp hmax hblock hx
    have hi₂ : Live st₂ i := ⟨hi.1, hone.freeinode.symm ▸ hi.2⟩
    have hself : Function.update ino i din i = din := Function.update_self ..
    have hcount := hone.count
    have hjoin : bytes ++ p.take (room bytes p) ++ p.drop (room bytes p) = bytes ++ p := by simp
    rw [hturn]
    have hrest := ih hone.layout hi₂ (by rw [hself]; exact hone.contents) (by rwa [hjoin])
      (by rw [hjoin]; omega)
    rwa [hself] at hrest

theorem iappend_ok {type nlink : Int16} {bytes p : List UInt8} (h : Good st) (hi : Live st i)
    (hf : FileAt st.img i type nlink bytes.length bytes)
    (hlen : (bytes ++ p).length ≤ MAXFILE * BSIZE)
    (hroom : st.freeblock + refCount (blockCount (bytes ++ p).length) ≤
      1024 + refCount (blockCount bytes.length)) : ∃ st', iappend i p st = .ok ((), st') := by
  have hblk := i2b_lt (hi.2.trans_le h.inodes)
  have hread : rsect (i2b i) st = .ok (st.img (i2b i), st) :=
    rsect_eq_ok.mpr ⟨by rw [h.sectors]; omega, rfl, rfl⟩
  obtain ⟨⟨⟨din, off⟩, st₁⟩, hloop⟩ := appendLoop_ok p.length h hi hf.contents hlen hroom
  obtain ⟨-, happ⟩ := appendLoop_spec h hi hf.contents le_rfl hloop
  obtain ⟨st', hwrite⟩ := winode_ok (show i2b i < st₁.nsect by rw [happ.layout.sectors]; omega)
    (din.setSize (UInt32.ofNat off))
  refine ⟨st', Eq.trans ?_ hwrite⟩
  rw [iappend, rinode, bind_assoc, Exec.bind_of_ok hread, pure_bind]
  change (appendLoop p.length (dinodeAt st.img i) (dinodeAt st.img i).size.toNat p >>= _) st = _
  rw [hf.size_eq, Exec.bind_of_ok hloop]

end Lainos.Mkfs
