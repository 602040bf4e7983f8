import Lainos.Vm.Zeroed

/-!
# The segments of a program

What the loop over the program headers puts into the new address space. The headers are
those of a proper file: segments that are page-aligned, inside the file, below the stack
and one after the other. As long as every page got a page table, memory holds the bytes of
the file where a segment has them and zeros elsewhere.
-/

namespace Lainos.Vm

open Library Exec

/-! ## Addresses and frames -/

/-- Different user pages have different frames. -/
theorem Good.addr_inj {L : Layout} {s : Machine} {d u v : ℕ}
    (h : Good L (s.heap.total (frames s.mem d))) (hu : u < kernbase) (hv : v < kernbase)
    (hpu : (view s.mem d u).p = true) (hpv : (view s.mem d v).p = true)
    (heq : (view s.mem d u).addr = (view s.mem d v).addr) : u = v := by
  by_contra hne
  have hnodup : (userFrames s.mem d).Nodup :=
    (Multiset.nodup_add.mp (Multiset.nodup_add.mp h.nodup).2.1).2.1
  rw [userFrames] at hnodup
  have hdisj := disjoint_of_nodup_sum hnodup (Finset.mem_range.mpr hu) (Finset.mem_range.mpr hv) hne
  rw [Pte.frames_of_present hpu, Pte.frames_of_present hpv, heq] at hdisj
  exact Multiset.disjoint_left.mp hdisj (Multiset.mem_singleton_self _) (Multiset.mem_singleton_self _)

theorem Good.frame_lt {L : Layout} {s : Machine} {d u : ℕ}
    (h : Good L (s.heap.total (frames s.mem d))) (hu : u < kernbase) (hp : (view s.mem d u).p = true) :
    (view s.mem d u).addr < phystop := by
  refine (h.managed _ (Multiset.mem_add.mpr (Or.inr ?_))).2
  rw [frames, Multiset.mem_add]
  exact Or.inr (mem_userFrames hu hp)

namespace Ram

variable {L : Layout} {r t : Ram} {d va k x y : ℕ} {src : Bytes}

/-- Address `x` is on a page that user code has. -/
def Mapped (r : Ram) (d x : ℕ) : Prop :=
  x / PGSIZE < kernbase ∧ (view r.1.mem d (x / PGSIZE)).p = true

theorem place_inj (h : Good L (r.1.heap.total (frames r.1.mem d))) (hx : r.Mapped d x)
    (hy : r.Mapped d y) (heq : place r.1.mem d x = place r.1.mem d y) : x = y := by
  obtain ⟨haddr, hmod⟩ := Prod.mk.injEq .. ▸ heq
  have hdiv := h.addr_inj hx.1 hy.1 hx.2 hy.2 haddr
  rw [← Nat.div_add_mod x PGSIZE, ← Nat.div_add_mod y PGSIZE, hdiv, hmod]

theorem CopiedOut.byte_inside (h : CopiedOut r t d va k src)
    (hgood : Good L (r.1.heap.total (frames r.1.mem d)))
    (hmapped : ∀ x, va ≤ x → x < va + k → r.Mapped d x) (hlo : va ≤ x) (hhi : x < va + k) :
    t.byte d x = src (x - va) := by
  refine h.inside x hlo hhi fun y hxy hy heq => ?_
  have := place_inj hgood (hmapped y (by omega) hy) (hmapped x hlo hhi) heq
  omega

theorem CopiedOut.byte_outside (h : CopiedOut r t d va k src)
    (hgood : Good L (r.1.heap.total (frames r.1.mem d)))
    (hmapped : ∀ x, va ≤ x → x < va + k → r.Mapped d x) (hx : r.Mapped d x)
    (hout : x < va ∨ va + k ≤ x) : t.byte d x = r.byte d x := by
  rw [byte_eq, byte_eq, h.mem_eq]
  refine h.outside _ _ fun y hlo hhi heq => ?_
  have := place_inj hgood (hmapped y hlo hhi) hx heq
  omega

/-! ## Loading a segment -/

theorem loadFrom_copies {addr off filesz size n k : ℕ} {img : Image}
    (hgood : Good L (r.1.heap.total (frames r.1.mem d))) (halign : addr % PGSIZE = 0)
    (hfile : off + filesz ≤ img.size) (hk : k * PGSIZE + n * PGSIZE < filesz + PGSIZE)
    (hn : filesz ≤ k * PGSIZE + n * PGSIZE)
    (hmapped : ∀ x, addr ≤ x → x < addr + filesz → r.Mapped d x) :
    Ends (loadFrom d addr img off filesz size n k)
      (fun ok t => ok = true ∧ CopiedOut r t d (addr + k * PGSIZE) (filesz - k * PGSIZE)
        (shift img.bytes (off + k * PGSIZE))) (fun _ => False) r := by
  induction n generalizing r k with
  | zero =>
    refine ⟨rfl, ?_⟩
    rw [show filesz - k * PGSIZE = 0 by omega]
    exact CopiedOut.refl ..
  | succ n ih =>
    have hless : k * PGSIZE < filesz := by
      rw [Nat.succ_mul] at hk
      omega
    have hpos : 0 < PGSIZE := by
      rw [PGSIZE]
      omega
    have hdiv : (addr + k * PGSIZE) / PGSIZE = addr / PGSIZE + k := Nat.add_mul_div_right _ _ hpos
    have hmod : (addr + k * PGSIZE) % PGSIZE = 0 := by rw [Nat.add_mul_mod_self_right, halign]
    obtain ⟨hlt, hp⟩ := hmapped (addr + k * PGSIZE) (by omega) (by omega)
    rw [hdiv] at hlt hp
    have hpage : (addr / PGSIZE + k) % top = addr / PGSIZE + k :=
      Nat.mod_eq_of_lt (lt_top_of_lt_kernbase hlt)
    have htable := table_of_present hp
    have hsize := img.size_le
    have hoff : (off + k * PGSIZE) % word = off + k * PGSIZE := Nat.mod_eq_of_lt (by rw [word]; omega)
    have hread : img.readi (off + k * PGSIZE) (min (filesz - k * PGSIZE) PGSIZE) =
        some (min (filesz - k * PGSIZE) PGSIZE) := by
      rw [Image.readi, if_neg (by rw [word]; omega)]
      congr 1
      omega
    rw [loadFrom, ends_bind, ends_first, hpage, ends_of_ok (walkpgdir_eq r.1 d _), if_pos htable]
    simp only [ends_bind, ends_get]
    rw [hoff, hread, ← view_of_table htable]
    have hstore : Ends (storeTo .loaduvm d size (addr / PGSIZE + k) (view r.1.mem d (addr / PGSIZE + k)).addr
        0 (min (filesz - k * PGSIZE) PGSIZE) (shift img.bytes (off + k * PGSIZE)))
        (fun _ t => CopiedOut r t d (addr + k * PGSIZE) (min (filesz - k * PGSIZE) PGSIZE)
          (shift img.bytes (off + k * PGSIZE))) (fun _ => False) r := by
      rw [← hdiv, ← hmod]
      refine ends_storeTo_page (by rw [hdiv]; exact hgood.frame_lt hlt hp) ?_
      rw [hmod]
      omega
    simp only [ends_ite, ends_bind]
    refine ⟨fun _ => hstore.mono (fun _ t ht => ?_) fun _ he => he, fun hzero => by omega⟩
    have hmem := ht.mem_eq
    obtain ⟨l, hl⟩ := ht.machine
    refine ⟨fun _ => (ih (r := t) (k := k + 1) (by rwa [hl]) ?_ ?_ ?_).mono ?_ fun _ he => he,
      fun hfalse => (hfalse trivial).elim⟩
    · rw [Nat.succ_mul] at hk ⊢
      omega
    · rw [Nat.succ_mul] at hn ⊢
      omega
    · intro x hlo hhi
      rw [Mapped, hmem]
      exact hmapped x hlo hhi
    · rintro ok u ⟨rfl, hu⟩
      refine ⟨rfl, ?_⟩
      rw [Nat.succ_mul] at hu
      by_cases hfull : PGSIZE ≤ filesz - k * PGSIZE
      · rw [min_eq_right hfull] at ht
        rw [← Nat.add_assoc, ← Nat.add_assoc, ← shift_shift] at hu
        have h := ht.trans hu
        rwa [show PGSIZE + (filesz - (k * PGSIZE + PGSIZE)) = filesz - k * PGSIZE by omega] at h
      · -- This was the last turn, and nothing is left to copy.
        rw [min_eq_left (by omega)] at ht
        rw [show filesz - (k * PGSIZE + PGSIZE) = 0 by omega] at hu
        exact ht.trans (hu.empty _ _)

theorem pages_mul (n : ℕ) : n ≤ pages n * PGSIZE ∧ pages n * PGSIZE < n + PGSIZE := by
  unfold pages PGSIZE
  omega

theorem loaduvm_copies {addr off filesz size : ℕ} {img : Image}
    (hgood : Good L (r.1.heap.total (frames r.1.mem d))) (halign : addr % PGSIZE = 0)
    (hfile : off + filesz ≤ img.size) (hmapped : ∀ x, addr ≤ x → x < addr + filesz → r.Mapped d x) :
    Ends (loaduvm d addr img off filesz size) (fun ok t => ok = true ∧
      CopiedOut r t d addr filesz (shift img.bytes off)) (fun _ => False) r := by
  have hpages := pages_mul filesz
  have h := @loadFrom_copies L r d addr off filesz size (pages filesz) 0 img hgood halign hfile
    (by omega) (by omega) hmapped
  rw [Nat.zero_mul, Nat.add_zero, Nat.sub_zero, Nat.add_zero] at h
  rw [loaduvm, if_neg (fun hne => hne halign)]
  exact h

/-! ## What is loaded -/

end Ram

/-- The headers of segments to load among the `n` program headers from `off` on. -/
def Image.loads (img : Image) : ℕ → ℕ → List Proghdr
  | 0, _ => []
  | n + 1, off =>
    if (img.proghdr off).type = 1 then img.proghdr off :: img.loads n ((off + 32) % word)
    else img.loads n ((off + 32) % word)

/-- The segments are page-aligned, inside the file, below the stack and one after the other,
from address `e` on. -/
def Proper (img : Image) : ℕ → List Proghdr → Prop
  | _, [] => True
  | e, ph :: l => ph.vaddr % PGSIZE = 0 ∧ ph.vaddr + ph.memsz < kernbase * PGSIZE - 3 * PGSIZE ∧
    ph.filesz ≤ ph.memsz ∧ ph.off + ph.filesz ≤ img.size ∧ e ≤ ph.vaddr ∧
      Proper img (ph.vaddr + ph.memsz) l

/-- The end of the last segment. -/
def imageEnd : ℕ → List Proghdr → ℕ
  | e, [] => e
  | _, ph :: l => imageEnd (ph.vaddr + ph.memsz) l

theorem Proper.le_imageEnd {img : Image} {e : ℕ} {l : List Proghdr} (h : Proper img e l) :
    e ≤ imageEnd e l := by
  induction l generalizing e with
  | nil => exact le_rfl
  | cons ph l ih =>
    have hrest := ih h.2.2.2.2.2
    have hle := h.2.2.2.2.1
    rw [imageEnd]
    omega

theorem Proper.bound {img : Image} {e : ℕ} {l : List Proghdr} (h : Proper img e l) :
    ∀ ph ∈ l, ph.vaddr + ph.filesz ≤ imageEnd e l := by
  induction l generalizing e with
  | nil => exact fun ph hph => by cases hph
  | cons ph l ih =>
    intro ph' hph'
    obtain rfl | hmem := List.mem_cons.mp hph'
    · have hrest := h.2.2.2.2.2.le_imageEnd
      have hfile := h.2.2.1
      rw [imageEnd]
      omega
    · exact ih h.2.2.2.2.2 ph' hmem

namespace Ram

/-- Memory below `e` holds the segments `l` and zeros elsewhere. -/
structure Holds (r : Ram) (d e : ℕ) (img : Image) (l : List Proghdr) : Prop where
  user : ∀ u < pages e, User r.1.mem d u
  file : ∀ ph ∈ l, ∀ i < ph.filesz, r.byte d (ph.vaddr + i) = img.bytes (ph.off + i)
  zero : ∀ x < pages e * PGSIZE, (∀ ph ∈ l, x < ph.vaddr ∨ ph.vaddr + ph.filesz ≤ x) →
    r.byte d x = 0

/-- Some page below `e` is missing. -/
def Hole (r : Ram) (d e : ℕ) : Prop := ∃ u < pages e, (view r.1.mem d u).p = false

/-- An address space that is being built, with nothing above `e` but the kernel. -/
structure Arranged (L : Layout) (r : Ram) (d e : ℕ) : Prop where
  good : Good L (r.1.heap.total (frames r.1.mem d))
  above : ∀ u < kernbase, pages e ≤ u → (view r.1.mem d u).p = false
  kernel : ∀ u < top, kernbase ≤ u → view r.1.mem d u = kview L u
  size : pages e ≤ kernbase

theorem div_lt_pages {e x : ℕ} (h : x < pages e * PGSIZE) : x / PGSIZE < pages e :=
  Nat.div_lt_of_lt_mul (by rwa [Nat.mul_comm])

theorem Holds.mapped {e : ℕ} {img : Image} {l : List Proghdr} (h : Holds r d e img l)
    (hsize : pages e ≤ kernbase) (hx : x < pages e * PGSIZE) : r.Mapped d x := by
  have hlt := div_lt_pages hx
  exact ⟨by omega, (h.user _ hlt).1⟩

/-- Bytes of pages that `allocuvm` found mapped stay. -/
theorem Grown.byte_eq {a : ℕ} (h : Grown r t d a k)
    (hgood : Good L (r.1.heap.total (frames r.1.mem d))) (hx : r.Mapped d x) (hlt : x / PGSIZE < a) :
    t.byte d x = r.byte d x := by
  rw [byte, byte, h.grown.outside _ (lt_top_of_lt_kernbase hx.1) (Or.inl hlt)]
  refine congrFun (h.kept _ (hgood.not_free ?_)) _
  rw [frames, Multiset.mem_add]
  exact Or.inr (mem_userFrames hx.1 hx.2)

theorem Grown.holds {e e' : ℕ} {img : Image} {l : List Proghdr} (harr : Arranged L r d e)
    (h : Grown r t d (pages e) (pages e' - pages e)) (hsize : pages e' ≤ kernbase)
    (hbound : ∀ ph ∈ l, ph.vaddr + ph.filesz ≤ e)
    (hholds : Holds r d e img l) : Hole t d e' ∨ Holds t d e' img l := by
  by_cases hhole : Hole t d e'
  · exact Or.inl hhole
  have hpresent : ∀ u < pages e', (view t.1.mem d u).p = true := fun u hu => by
    by_contra hp
    exact hhole ⟨u, hu, by simpa using hp⟩
  refine Or.inr ⟨fun u hu => ?_, fun ph hph i hi => ?_, fun x hx hout => ?_⟩
  · have htop := lt_top_of_lt_kernbase (show u < kernbase by omega)
    by_cases hlt : u < pages e
    · rw [User, h.grown.outside u htop (Or.inl hlt)]
      exact hholds.user u hlt
    · obtain hsame | ⟨f, hf⟩ := h.grown.inside u htop
      · have hp := hpresent u hu
        rw [hsame, harr.above u (by omega) (by omega)] at hp
        cases hp
      · rw [User, hf]
        exact ⟨rfl, rfl⟩
  · have hbelow := hbound ph hph
    have hpages := pages_mul e
    have hlt : ph.vaddr + i < pages e * PGSIZE := by omega
    rw [h.byte_eq harr.good (hholds.mapped harr.size hlt) (div_lt_pages hlt)]
    exact hholds.file ph hph i hi
  · by_cases hlt : x < pages e * PGSIZE
    · rw [h.byte_eq harr.good (hholds.mapped harr.size hlt) (div_lt_pages hlt)]
      exact hholds.zero x hlt hout
    · have hpage : pages e ≤ x / PGSIZE := by
        rw [Nat.le_div_iff_mul_le (by rw [PGSIZE]; omega)]
        omega
      have hpage' := div_lt_pages hx
      exact congrFun (h.zeros _ (by omega) (harr.above _ (by omega) hpage) (hpresent _ hpage')) _

theorem Hole.grown {e e' : ℕ} (hhole : Hole r d e) (h : Grown r t d (pages e) (pages e' - pages e))
    (hle : pages e ≤ pages e') (hsize : pages e' ≤ kernbase) : Hole t d e' := by
  obtain ⟨u, hu, hp⟩ := hhole
  refine ⟨u, by omega, ?_⟩
  rw [h.grown.outside u (lt_top_of_lt_kernbase (by omega)) (Or.inl hu)]
  exact hp

theorem Grown.arranged {e e' : ℕ} (harr : Arranged L r d e)
    (h : Grown r t d (pages e) (pages e' - pages e)) (hle : pages e ≤ pages e')
    (hsize : pages e' ≤ kernbase) : Arranged L t d e' where
  good := h.grown.effect.good harr.good
  above u hu hge := by
    rw [h.grown.outside u (lt_top_of_lt_kernbase hu) (Or.inr (by omega))]
    exact harr.above u hu (by omega)
  kernel u hu hk := by
    rw [h.grown.outside u hu (Or.inr (by omega))]
    exact harr.kernel u hu hk
  size := hsize

/-- `allocuvm` for the next segment. -/
theorem Arranged.allocuvm {e e' : ℕ} {img : Image} {l : List Proghdr} (harr : Arranged L r d e)
    (hle : e ≤ e') (hnew : e' < kernbase * PGSIZE) (hbound : ∀ ph ∈ l, ph.vaddr + ph.filesz ≤ e)
    (hholds : Hole r d e ∨ Holds r d e img l) :
    Ends (allocuvm L d e e') (fun x t => x = 0 ∨
      (x = e' ∧ Arranged L t d e' ∧ (Hole t d e' ∨ Holds t d e' img l))) (fun _ => False) r := by
  have hmono := pages_le_of_le hle
  have hsize := pages_le_kernbase hnew.le
  refine (allocuvm_zeros harr.good).mono (fun x t ht => ?_) ?_
  · cases ht with
    | tooBig => exact Or.inl rfl
    | smaller _ hlt => omega
    | grown _ _ hgrown =>
      refine Or.inr ⟨rfl, hgrown.arranged harr hmono hsize, ?_⟩
      obtain hhole | hholds := hholds
      · exact Or.inl (hhole.grown hgrown hmono hsize)
      · exact hgrown.holds harr hsize hbound hholds
    | undone => exact Or.inl rfl
  · rintro e ⟨-, -, u, hlo, hhi, hp⟩
    rw [harr.above u (by omega) hlo] at hp
    cases hp

/-! ## Only the bytes change -/

/-- Nothing but bytes and the record of stores has changed. -/
def SameTables (r t : Ram) : Prop := ∃ l, t.1 = r.1.setStores l

theorem SameTables.refl (r : Ram) : SameTables r r := ⟨r.1.stores, rfl⟩

theorem SameTables.trans {u : Ram} (h₁ : SameTables r t) (h₂ : SameTables t u) : SameTables r u := by
  obtain ⟨l₁, hl₁⟩ := h₁
  obtain ⟨l₂, hl₂⟩ := h₂
  exact ⟨l₂, by rw [hl₂, hl₁]; rfl⟩

theorem SameTables.mem_eq (h : SameTables r t) : t.1.mem = r.1.mem := by
  obtain ⟨l, hl⟩ := h
  rw [hl, Machine.setStores_mem]

theorem SameTables.arranged {e : ℕ} (h : SameTables r t) (harr : Arranged L r d e) :
    Arranged L t d e := by
  obtain ⟨l, hl⟩ := h
  constructor
  · rw [hl]
    exact harr.good
  · rw [hl]
    exact harr.above
  · rw [hl]
    exact harr.kernel
  · exact harr.size

theorem SameTables.hole {e : ℕ} (h : SameTables r t) (hhole : Hole r d e) : Hole t d e := by
  rwa [Hole, h.mem_eq]

theorem sameTables_first {α : Type} {x : VAct α} (hx : ∀ s, Ends x (fun _ s' => s' = s) (fun _ => True) s) :
    Within SameTables (fun _ => True) (first x) := by
  intro r
  rw [ends_first]
  refine (hx r.1).mono (fun _ s' hs' => ?_) fun _ _ => trivial
  rw [hs']
  exact SameTables.refl r

theorem sameTables_walkpgdir (d v : ℕ) : Within SameTables (fun _ => True) (first (walkpgdir d v false)) :=
  sameTables_first fun s => (ends_of_ok (walkpgdir_eq s d v)).mpr rfl

theorem sameTables_storeTo {through : Through} {size page frame off n : ℕ} :
    Within SameTables (fun _ => True) (storeTo through d size page frame off n src) := by
  intro r
  rw [storeTo, ends_bind, ends_first, Vm.storeTo, ends_ite]
  exact ⟨fun _ => trivial, fun _ => ⟨_, rfl⟩⟩

theorem sameTables_panic {α : Type} (why : String) :
    Within SameTables (fun _ => True) (first (panic why) : RAct α) := fun r => by
  rw [ends_first, ends_panic]
  trivial

theorem sameTables_loadFrom {addr off filesz size : ℕ} {img : Image} (n k : ℕ) :
    Within SameTables (fun _ => True) (loadFrom d addr img off filesz size n k) := by
  have htrans : ∀ r t u : Ram, SameTables r t → SameTables t u → SameTables r u := fun _ _ _ =>
    SameTables.trans
  induction n generalizing k with
  | zero => exact Within.pure SameTables.refl _
  | succ n ih =>
    refine Within.bind htrans (sameTables_walkpgdir _ _) fun x => ?_
    cases x with
    | none => exact sameTables_panic _
    | some x =>
      refine Within.bind htrans (Within.get SameTables.refl) fun r => ?_
      dsimp only
      cases img.readi ((off + k * PGSIZE) % word) (min (filesz - k * PGSIZE) PGSIZE) with
      | none => exact Within.pure SameTables.refl _
      | some count =>
        have hrest : Within SameTables (fun _ => True)
            (if count = min (filesz - k * PGSIZE) PGSIZE then
              loadFrom d addr img off filesz size n (k + 1) else pure false) :=
          Within.ite (fun _ => ih _) fun _ => Within.pure SameTables.refl _
        exact Within.ite (fun _ => Within.bind htrans sameTables_storeTo fun _ => hrest) fun _ => hrest

theorem sameTables_loaduvm {addr off filesz size : ℕ} {img : Image} :
    Within SameTables (fun _ => True) (loaduvm d addr img off filesz size) := by
  have htrans : ∀ r t u : Ram, SameTables r t → SameTables t u → SameTables r u := fun _ _ _ =>
    SameTables.trans
  exact Within.ite (fun _ => Within.bind htrans (sameTables_panic _) fun _ => sameTables_loadFrom _ _)
    fun _ => sameTables_loadFrom _ _

/-! ## The stack -/

/-- An address space with an image of `pages e` pages, a page above it that user code cannot
use, and room for the stack. -/
structure Fenced (L : Layout) (r : Ram) (d e : ℕ) : Prop where
  good : Good L (r.1.heap.total (frames r.1.mem d))
  kernel : ∀ u < top, kernbase ≤ u → view r.1.mem d u = kview L u
  size : pages e + 2 ≤ kernbase
  guard : (view r.1.mem d (pages e)).u = false
  table : (r.1.mem d (pages e / 1024)).p = true

/-- The page of the stack, if it is there, holds zeros. If it is not, it has no page table. -/
structure Ready (L : Layout) (r : Ram) (d e : ℕ) : Prop extends Fenced L r d e where
  tied : Tied r.1.mem d (pages e + 1)
  stack : (view r.1.mem d (pages e + 1)).p = true → User r.1.mem d (pages e + 1) ∧
    r.2 (view r.1.mem d (pages e + 1)).addr = fun _ => 0

/-- The image below `e` is the same. -/
structure SameImage (r t : Ram) (d e : ℕ) : Prop where
  view : ∀ u < pages e, view t.1.mem d u = view r.1.mem d u
  byte : ∀ x < pages e * PGSIZE, r.Mapped d x → t.byte d x = r.byte d x

theorem SameImage.hole {e : ℕ} (h : SameImage r t d e) (hhole : Hole r d e) : Hole t d e := by
  obtain ⟨u, hu, hp⟩ := hhole
  exact ⟨u, hu, by rw [h.view u hu]; exact hp⟩

theorem SameImage.holds {e : ℕ} {img : Image} {l : List Proghdr} (h : SameImage r t d e)
    (hsize : pages e ≤ kernbase) (hbound : ∀ ph ∈ l, ph.vaddr + ph.filesz ≤ e)
    (hholds : Holds r d e img l) : Holds t d e img l := by
  have hpages := pages_mul e
  refine ⟨fun u hu => ?_, fun ph hph i hi => ?_, fun x hx hout => ?_⟩
  · rw [User, h.view u hu]
    exact hholds.user u hu
  · have hbelow := hbound ph hph
    have hlt : ph.vaddr + i < pages e * PGSIZE := by omega
    rw [h.byte _ hlt (hholds.mapped hsize hlt)]
    exact hholds.file ph hph i hi
  · rw [h.byte _ hx (hholds.mapped hsize hx)]
    exact hholds.zero x hx hout

theorem Arranged.allocStack {e : ℕ} (harr : Arranged L r d e) :
    Ends (allocStack L d e) (fun x t => ∀ sz, x = some sz →
      sz = (pages e + 2) * PGSIZE ∧ Ready L t d e ∧ SameImage r t d e) (fun _ => True) r := by
  have hpages : pages (pages e * PGSIZE) = pages e := pages_mul_PGSIZE _
  have hpages' : pages (pages e * PGSIZE + 2 * PGSIZE) = pages e + 2 := by
    rw [← Nat.add_mul, pages_mul_PGSIZE]
  have htied := allocuvm_tied harr.good
    (show pages (pages e * PGSIZE) < pages (pages e * PGSIZE + 2 * PGSIZE) by omega)
  rw [hpages', show pages e + 2 - 1 = pages e + 1 by omega] at htied
  rw [Ram.allocStack, ends_bind]
  refine ((allocuvm_zeros harr.good).and htied).mono (fun x t ht => ?_) fun _ _ => trivial
  obtain ⟨ht, htied⟩ := ht
  cases ht with
  | tooBig => exact fun sz hsz => by cases hsz
  | smaller _ hlt => omega
  | undone => exact fun sz hsz => by cases hsz
  | grown hnew _ hgrown =>
    have hsize := pages_le_kernbase hnew.le
    rw [hpages, hpages', Nat.add_sub_cancel_left] at hgrown
    rw [hpages'] at hsize
    rw [ends_ite]
    refine ⟨fun _ sz hsz => (by cases hsz), fun hne => ?_⟩
    have hdiv : (pages e * PGSIZE + 2 * PGSIZE) / PGSIZE - 2 = pages e := by
      rw [← Nat.add_mul, Nat.mul_div_cancel _ (by rw [PGSIZE]; omega), Nat.add_sub_cancel]
    have hgood := hgrown.grown.effect.good harr.good
    rw [ends_bind, ends_first, hdiv]
    refine (clearpteu_spec hgood (by omega)).mono (fun _ s' hclosed => ?_) fun _ _ => trivial
    rintro sz ⟨⟩
    have htop : pages e + 1 < top := lt_top_of_lt_kernbase (by omega)
    have hview : ∀ u < pages e, view s'.mem d u = view r.1.mem d u := fun u hu => by
      rw [hclosed.view_of_ne (by omega) (by omega), hgrown.grown.outside u (by omega) (Or.inl hu)]
    refine ⟨(Nat.add_mul ..).symm, ⟨⟨hgood.of_moves hclosed.moves, fun u hu hk => ?_, hsize, ?_, ?_⟩,
      ?_, ?_⟩, ⟨hview, fun x hx hmapped => ?_⟩⟩
    · rw [hclosed.view_of_ne hu (by omega), hgrown.grown.outside u hu (Or.inr (by omega))]
      exact harr.kernel u hu hk
    · rw [hclosed.view _ (by omega), if_pos rfl]
    · rw [hclosed.dir]
      exact hclosed.table
    · rw [Tied, hclosed.dir, hclosed.view_of_ne htop (by omega)]
      exact htied hne
    · rw [User, hclosed.view_of_ne htop (by omega)]
      intro hp
      have habsent := harr.above (pages e + 1) (by omega) (by omega)
      obtain hsame | ⟨f, hf⟩ := hgrown.grown.inside _ htop
      · rw [hsame, habsent] at hp
        cases hp
      · exact ⟨by rw [hf]; exact ⟨rfl, rfl⟩, hgrown.zeros _ (by omega) habsent hp⟩
    · have hlt := div_lt_pages hx
      rw [← hgrown.byte_eq harr.good hmapped hlt, byte, byte,
        hclosed.view_of_ne (by omega) (by omega)]

/-! ## All segments -/

theorem Holds.loaded {e e' : ℕ} {img : Image} {l : List Proghdr} {ph : Proghdr}
    (harr : Arranged L r d e') (hholds : Holds r d e' img l) (hbound : ∀ ph ∈ l, ph.vaddr + ph.filesz ≤ e)
    (hle : e ≤ ph.vaddr) (hend : ph.vaddr + ph.filesz ≤ e')
    (h : CopiedOut r t d ph.vaddr ph.filesz (shift img.bytes ph.off)) :
    Holds t d e' img (l ++ [ph]) := by
  have hpages := pages_mul e'
  have hmapped : ∀ x, ph.vaddr ≤ x → x < ph.vaddr + ph.filesz → r.Mapped d x := fun x _ hx =>
    hholds.mapped harr.size (by omega)
  refine ⟨fun u hu => ?_, fun ph' hph' i hi => ?_, fun x hx hout => ?_⟩
  · rw [User, h.mem_eq]
    exact hholds.user u hu
  · rw [List.mem_append, List.mem_singleton] at hph'
    obtain hold | rfl := hph'
    · have hbelow := hbound ph' hold
      rw [h.byte_outside harr.good hmapped (hholds.mapped harr.size (by omega)) (Or.inl (by omega))]
      exact hholds.file ph' hold i hi
    · rw [h.byte_inside harr.good hmapped (by omega) (by omega), Nat.add_sub_cancel_left]
      rfl
  · rw [h.byte_outside harr.good hmapped (hholds.mapped harr.size hx)
      (hout ph (by rw [List.mem_append, List.mem_singleton]; exact Or.inr rfl))]
    exact hholds.zero x hx fun ph' hph' => hout ph' (List.mem_append_left _ hph')

/-- What the loop over the program headers has made. -/
theorem Arranged.loadSegments {n off e : ℕ} {img : Image} {l : List Proghdr}
    (harr : Arranged L r d e) (hproper : Proper img e (img.loads n off))
    (hbound : ∀ ph ∈ l, ph.vaddr + ph.filesz ≤ e) (hholds : Hole r d e ∨ Holds r d e img l) :
    Ends (loadSegments L d img n off e) (fun x t => ∀ sz, x = some sz →
      sz = imageEnd e (img.loads n off) ∧ Arranged L t d sz ∧
        (Hole t d sz ∨ Holds t d sz img (l ++ img.loads n off))) (fun _ => True) r := by
  induction n generalizing r off e l with
  | zero =>
    rintro sz ⟨⟩
    rw [Image.loads, List.append_nil]
    exact ⟨rfl, harr, hholds⟩
  | succ n ih =>
    rw [Ram.loadSegments, ends_ite]
    refine ⟨fun _ sz hsz => (by cases hsz), fun _ => ?_⟩
    rw [Image.loads] at hproper ⊢
    by_cases htype : (img.proghdr off).type = 1
    swap
    · rw [if_neg htype] at hproper ⊢
      rw [if_pos htype]
      exact ih harr hproper hbound hholds
    rw [if_pos htype] at hproper ⊢
    rw [if_neg (fun hne => hne htype), ends_ite]
    refine ⟨fun _ sz hsz => (by cases hsz), fun hmem => ?_⟩
    obtain ⟨halign, hend, hfilesz, hfile, hle, hrest⟩ := hproper
    have hlast : (img.proghdr off).vaddr + (img.proghdr off).memsz < kernbase * PGSIZE := by omega
    have hword : ((img.proghdr off).vaddr + (img.proghdr off).memsz) % word =
        (img.proghdr off).vaddr + (img.proghdr off).memsz := by
      refine Nat.mod_eq_of_lt (hlast.trans ?_)
      rw [kernbase, PGSIZE, word]
      omega
    rw [ends_bind, hword]
    refine (harr.allocuvm (by omega) hlast hbound hholds).mono ?_ fun _ _ => trivial
    rintro x t (rfl | ⟨rfl, harr', hholds'⟩)
    · exact fun sz hsz => by cases hsz
    rw [ends_ite]
    refine ⟨fun _ sz hsz => (by cases hsz), fun _ => ?_⟩
    rw [ends_bind]
    have happend : l ++ img.proghdr off :: img.loads n ((off + 32) % word) =
        (l ++ [img.proghdr off]) ++ img.loads n ((off + 32) % word) := by
      rw [List.append_assoc, List.singleton_append]
    have hbound' : ∀ ph ∈ l ++ [img.proghdr off], ph.vaddr + ph.filesz ≤
        (img.proghdr off).vaddr + (img.proghdr off).memsz := by
      intro ph hph
      rw [List.mem_append, List.mem_singleton] at hph
      obtain hold | rfl := hph
      · have := hbound ph hold
        omega
      · omega
    rw [happend]
    obtain hhole | hholds' := hholds'
    · refine (sameTables_loaduvm t).mono (fun ok u hsame => ?_) fun _ _ => trivial
      cases ok with
      | false => exact fun sz hsz => by cases hsz
      | true => exact ih (hsame.arranged harr') hrest hbound' (Or.inl (hsame.hole hhole))
    · have hpages := pages_mul ((img.proghdr off).vaddr + (img.proghdr off).memsz)
      refine (loaduvm_copies harr'.good halign hfile fun x _ hx =>
        hholds'.mapped harr'.size (by omega)).mono ?_ fun _ _ => trivial
      rintro ok u ⟨rfl, hcopied⟩
      have hsame : SameTables t u := hcopied.machine
      exact ih (hsame.arranged harr') hrest hbound'
        (Or.inr (hholds'.loaded harr' hbound hle (by omega) hcopied))

/-! ## Images of any kind -/

/-- Without any condition on the file, nothing but the image is mapped. -/
theorem Arranged.loadSegments_any {n off e : ℕ} {img : Image} (harr : Arranged L r d e) :
    Ends (Ram.loadSegments L d img n off e) (fun x t => ∀ sz, x = some sz → Arranged L t d sz)
      (fun _ => True) r := by
  induction n generalizing r off e with
  | zero =>
    rintro sz ⟨⟩
    exact harr
  | succ n ih =>
    rw [Ram.loadSegments, ends_ite]
    refine ⟨fun _ sz hsz => (by cases hsz), fun _ => ?_⟩
    rw [ends_ite]
    refine ⟨fun _ => ih harr, fun _ => ?_⟩
    rw [ends_ite]
    refine ⟨fun _ sz hsz => (by cases hsz), fun _ => ?_⟩
    rw [ends_bind]
    have halloc : Ends (Ram.allocuvm L d e (((img.proghdr off).vaddr + (img.proghdr off).memsz) % word))
        (fun x t => x ≠ 0 → Arranged L t d x) (fun _ => True) r := by
      refine (allocuvm_zeros harr.good).mono (fun x t ht hne => ?_) fun _ _ => trivial
      cases ht with
      | tooBig => exact (hne rfl).elim
      | smaller => exact harr
      | grown hlt hle hgrown =>
        exact hgrown.arranged harr (pages_le_of_le hle) (pages_le_kernbase hlt.le)
      | undone => exact (hne rfl).elim
    refine halloc.mono (fun x t ht => ?_) fun _ _ => trivial
    rw [ends_ite]
    refine ⟨fun _ sz hsz => (by cases hsz), fun hne => ?_⟩
    rw [ends_bind]
    refine (sameTables_loaduvm t).mono (fun ok u hsame => ?_) fun _ _ => trivial
    cases ok with
    | false => exact fun sz hsz => by cases hsz
    | true => exact ih (hsame.arranged (ht hne))

theorem loadImage_ready {img : Image} (harr : Arranged L r d 0) :
    Ends (loadImage L d img) (fun x t => ∀ sz, x = some sz → ∃ e, sz = (pages e + 2) * PGSIZE ∧
      Ready L t d e) (fun _ => True) r := by
  rw [loadImage, ends_bind]
  refine harr.loadSegments_any.mono (fun x t ht => ?_) fun _ _ => trivial
  cases x with
  | none => exact fun sz hsz => by cases hsz
  | some e =>
    refine (ht e rfl).allocStack.mono (fun y u hu sz hsz => ?_) fun _ _ => trivial
    obtain ⟨hsize, hready, -⟩ := hu sz hsz
    exact ⟨e, hsize, hready⟩

/-- The image of a proper file. -/
theorem loadImage_holds {img : Image} (harr : Arranged L r d 0)
    (hproper : Proper img 0 (img.loads img.phnum img.phoff)) :
    Ends (loadImage L d img) (fun x t => ∀ sz, x = some sz →
      sz = (pages (imageEnd 0 (img.loads img.phnum img.phoff)) + 2) * PGSIZE ∧
      Ready L t d (imageEnd 0 (img.loads img.phnum img.phoff)) ∧
      (Hole t d (imageEnd 0 (img.loads img.phnum img.phoff)) ∨
        Holds t d (imageEnd 0 (img.loads img.phnum img.phoff)) img (img.loads img.phnum img.phoff)))
      (fun _ => True) r := by
  have hstart : Holds r d 0 img [] :=
    ⟨fun u hu => by simp [pages] at hu, fun ph hph => (by cases hph), fun x hx => by simp [pages] at hx⟩
  rw [loadImage, ends_bind]
  refine (harr.loadSegments (l := []) hproper (fun ph hph => (by cases hph)) (Or.inr hstart)).mono
    (fun x t ht => ?_) fun _ _ => trivial
  cases x with
  | none => exact fun sz hsz => by cases hsz
  | some e =>
    obtain ⟨rfl, harr', himage⟩ := ht e rfl
    refine harr'.allocStack.mono (fun y u hu sz hsz => ?_) fun _ _ => trivial
    obtain ⟨hsize, hready, hsame⟩ := hu sz hsz
    exact ⟨hsize, hready, himage.imp hsame.hole (hsame.holds harr'.size hproper.bound)⟩

end Ram

end Lainos.Vm
