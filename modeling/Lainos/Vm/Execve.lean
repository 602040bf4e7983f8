import Lainos.Vm.ArgumentBlock

/-!
# The new address space of `execve`

What `execve` has made when it succeeds. The image and the argument block are as they should
be if no page of the new address space is missing. One can be: `allocuvm` takes no notice of
a page for which there was no page table.
-/

namespace Lainos.Vm

open Library Exec

namespace Ram

variable {L : Layout} {r t : Ram} {d e sz sp old : ℕ} {c : ExecCall}

/-! ## Tables stay -/

theorem sameTables_copyoutFrom {null : Pte} {size : ℕ} (fuel va len : ℕ) (src : Bytes) :
    Within SameTables (fun _ => True) (copyoutFrom null d size fuel va len src) := by
  have htrans : ∀ r t u : Ram, SameTables r t → SameTables t u → SameTables r u := fun _ _ _ =>
    SameTables.trans
  induction fuel generalizing va len src with
  | zero => exact Within.pure SameTables.refl _
  | succ fuel ih =>
    refine Within.ite (fun _ => Within.pure SameTables.refl _) fun _ => ?_
    have hlook : Within SameTables (fun _ => True) (first (uva2ka null d (va / PGSIZE)) : RAct (Option ℕ)) :=
      sameTables_first fun s => by
        obtain ⟨f, hf⟩ := uva2ka_keeps null d (va / PGSIZE) s
        exact (ends_of_ok hf).mpr rfl
    refine Within.bind htrans hlook fun f => ?_
    cases f with
    | none => exact Within.pure SameTables.refl _
    | some frame => exact Within.bind htrans sameTables_storeTo fun _ => ih _ _ _

theorem sameTables_pushStrings {null : Pte} {size base : ℕ} {stop : ℕ → Bool} (c : ℕ)
    (l : List (List UInt8)) (sp : ℕ) (w : ℕ → UInt32) :
    Within SameTables (fun _ => True) (pushStrings null d size base stop c l sp w) := by
  induction l generalizing c sp w with
  | nil => exact Within.pure SameTables.refl _
  | cons x l ih =>
    refine Within.ite (fun _ => Within.pure SameTables.refl _) fun _ => ?_
    refine Within.bind (fun _ _ _ => SameTables.trans) (sameTables_copyoutFrom _ _ _ _) fun ok => ?_
    exact Within.ite (fun _ => ih _ _ _) fun _ => Within.pure SameTables.refl _

theorem sameTables_pushArguments : Within SameTables (fun _ => True) (pushArguments d sz c) := by
  have htrans : ∀ r t u : Ram, SameTables r t → SameTables t u → SameTables r u := fun _ _ _ =>
    SameTables.trans
  have hcopy : ∀ {β : Type} (null : Pte) (va len : ℕ) (src : Bytes) (x y : β),
      Within SameTables (fun _ => True)
        (do if ← copyout null d sz va len src then return x else return y) :=
    fun null va len src x y => Within.bind htrans (sameTables_copyoutFrom _ _ _ _) fun ok =>
      Within.ite (fun _ => Within.pure SameTables.refl _) fun _ => Within.pure SameTables.refl _
  have hpushEnv : Within SameTables (fun _ => True) (pushEnv d sz c) := by
    refine Within.bind htrans (sameTables_pushStrings _ _ _ _) fun x => ?_
    cases x with
    | none => exact Within.pure SameTables.refl _
    | some x => exact hcopy _ _ _ _ _ _
  refine Within.bind htrans hpushEnv fun x => ?_
  cases x with
  | none => exact Within.pure SameTables.refl _
  | some x =>
    refine Within.bind htrans (sameTables_pushStrings _ _ _ _) fun y => ?_
    cases y with
    | none => exact Within.pure SameTables.refl _
    | some y => exact hcopy _ _ _ _ _ _

/-! ## From the image to `execve` -/

theorem arranged_of_fresh {s s' : Machine} (h : Good L (s.heap.total 0)) (hfresh : Fresh L s s' d)
    (b : ℕ → Bytes) : Arranged L (s', b) d 0 where
  good := h.of_moves hfresh.moves
  above u hu _ := by
    rw [hfresh.view u (lt_top_of_lt_kernbase hu), kview_of_lt hu]
    rfl
  kernel u hu _ := hfresh.view u hu
  size := Nat.zero_le _

theorem fresh_of_setupkvm {s s' : Machine} (h : Good L (s.heap.total 0))
    (hd : setupkvm L s = .ok (some d, s')) : Fresh L s s' d := by
  obtain ⟨d', heq, hfresh⟩ | ⟨heq, -⟩ := (setupkvm_spec h).ok hd
  · rwa [Option.some.inj heq]
  · cases heq

/-- The old address space is freed, and the new one stays as it is. -/
theorem freevm_old {s₀ s : Machine} (h : Good L (s₀.heap.total (frames s₀.mem old)))
    (heffect : Effect s₀ s 0 (frames s.mem d)) :
    Ends (freevm L old) (fun _ s' => ∀ u < top, view s'.mem d u = view s.mem d u) (fun _ => False) s := by
  refine (freevm_spec (heffect.good_other h)).mono ?_ fun _ he => he
  rintro _ s' ⟨hmoves, -, -⟩ u hu
  have hold : frames s.mem old = frames s₀.mem old := heffect.frames_eq (by rwa [zero_add])
  have hboth := ((heffect.add (frames s₀.mem old)).cast (zero_add _) rfl).good h
  refine view_congr (fun f hf => hmoves.mem_eq (R := frames s.mem d) ?_ ?_) hu
  · rw [hold, add_comm]
    exact hboth.nodup
  · exact Multiset.mem_add.mpr (Or.inl hf)

/-- What holds of every image that was built in a fresh address space holds of the one that
`execve` starts. -/
theorem execve_ends {Q : ℕ → ℕ → ℕ → Ram → Prop} (h : Good L (r.1.heap.total (frames r.1.mem old)))
    (hbuild : ∀ d t, Arranged L t d 0 → Ends (buildImage L d c)
      (fun x t => ∀ sz sp, x = some (sz, sp) → Q d sz sp t) (fun _ => True) t)
    (hkeep : ∀ d sz sp t t', (∀ u < top, view t'.1.mem d u = view t.1.mem d u) → t'.2 = t.2 →
      Q d sz sp t → Q d sz sp t') :
    Ends (execve L old c) (fun x t => ∀ y, x = some y → y.eip = c.image.entry ∧ Q y.pgdir y.sz y.esp t)
      (fun _ => True) r := by
  have hgood : Good L (r.1.forget.heap.total 0) := by
    refine h.mono ?_
    rw [Heap.total, add_zero]
    exact Multiset.le_add_right ..
  rw [execve, ends_bind, ends_first, ends_modify, ends_ite]
  refine ⟨fun _ y hy => (by cases hy), fun _ => ?_⟩
  rw [ends_bind, ends_first]
  refine (setupkvm_spec hgood).mono ?_ fun _ hfalse => hfalse.elim
  rintro x s₁ (⟨d, rfl, hfresh⟩ | ⟨rfl, -⟩)
  swap
  · exact fun y hy => by cases hy
  have hbuilt := hbuild d (s₁, r.2) (arranged_of_fresh hgood hfresh r.2)
  have hjudged := (Projects.ends (s := (s₁, r.2)) (projects_buildImage L (d := d) (c := c))).mpr
    (buildImage_judged (a := c.args) (hfresh.building rfl) hgood)
  simp only [ends_bind]
  refine (hbuilt.and hjudged).mono ?_ fun _ _ => trivial
  rintro x t ⟨hQ, hbegun, -⟩
  cases x with
  | none =>
    rw [ends_bind, ends_first]
    exact (freevm_spec (hbegun.effect.good hgood)).mono (fun _ _ _ y hy => (by cases hy)) fun _ _ => trivial
  | some x =>
    rw [ends_bind, ends_first]
    refine (freevm_old h hbegun.effect).mono (fun _ s₃ hview => ?_) fun _ _ => trivial
    rintro y ⟨⟩
    exact ⟨rfl, hkeep _ _ _ t _ hview rfl (hQ _ _ rfl)⟩

/-! ## The argument block -/

/-- A stack that was filled, if it was there. -/
structure Filled (r t : Ram) (d e sp : ℕ) (c : ExecCall) : Prop where
  same : SameTables r t
  stack : (view r.1.mem d (pages e + 1)).p = true → StackOnly r t d e ∧ User r.1.mem d (pages e + 1) ∧
    ArgumentBlock (t.byte d) ((pages e + 1) * PGSIZE) ((pages e + 2) * PGSIZE) sp c.argv c.env

theorem Ready.pushArguments_filled (h : Ready L r d e) (henvc : c.env.length < MAXARG)
    (hargc : c.argv.length < MAXARG) (hsz : sz = (pages e + 2) * PGSIZE) :
    Ends (pushArguments d sz c) (fun x t => ∀ sp, x = some sp → Filled r t d e sp c) (fun _ => True) r := by
  by_cases hstack : (view r.1.mem d (pages e + 1)).p = true
  swap
  · exact (sameTables_pushArguments r).mono (fun _ t hsame _ _ => ⟨hsame, fun hp => (hstack hp).elim⟩)
      fun _ he => he
  by_cases hstop : c.env ≠ [] ∧ MAXARG ≤ c.image.phnum
  · rw [pushArguments, pushEnv_stopped hstop.1 hstop.2, pure_bind]
    exact fun sp hsp => by cases hsp
  have henv : c.env = [] ∨ c.image.phnum < MAXARG := by
    by_cases hnil : c.env = []
    · exact Or.inl hnil
    · exact Or.inr (Nat.lt_of_not_ge fun hle => hstop ⟨hnil, hle⟩)
  by_cases hfit : needed c.argv c.env ≤ PGSIZE
  · refine (h.pushArguments_fits hstack henv hargc hsz hfit).mono ?_ fun _ he => he.elim
    rintro x t ⟨rfl, honly, hblock⟩ sp ⟨⟩
    exact ⟨honly.same, fun _ => ⟨honly, (h.stack hstack).1, by rwa [← hsz]⟩⟩
  · refine (h.pushArguments_none hstack henv henvc hargc hsz (Nat.lt_of_not_le hfit)).mono ?_
      fun _ _ => trivial
    rintro x t ⟨rfl, -⟩ sp hsp
    exact (by cases hsp)

theorem stack_bounds (hsz : sz = (pages e + 2) * PGSIZE) :
    sz / PGSIZE = pages e + 2 ∧ sz - PGSIZE = (pages e + 1) * PGSIZE := by
  have hpos : 0 < PGSIZE := by
    rw [PGSIZE]
    omega
  have hmul : (pages e + 2) * PGSIZE = (pages e + 1) * PGSIZE + PGSIZE := Nat.succ_mul ..
  exact ⟨by rw [hsz, Nat.mul_div_cancel _ hpos], by omega⟩

/-- The block that `_start` expects is in the last page of the new address space. -/
def HasArguments (t : Ram) (d sz esp : ℕ) (argv env : List (List UInt8)) : Prop :=
  User t.1.mem d (sz / PGSIZE - 1) ∧ ArgumentBlock (t.byte d) (sz - PGSIZE) sz esp argv env

theorem buildImage_arguments (harr : Arranged L r d 0) (henvc : c.env.length < MAXARG)
    (hargc : c.argv.length < MAXARG) :
    Ends (buildImage L d c) (fun x t => ∀ sz sp, x = some (sz, sp) → sz / PGSIZE ≤ kernbase ∧
        (HasArguments t d sz sp c.argv c.env ↔ (view t.1.mem d (sz / PGSIZE - 1)).p = true))
      (fun _ => True) r := by
  rw [buildImage, ends_bind]
  refine (loadImage_ready harr).mono (fun x t ht => ?_) fun _ he => he
  cases x with
  | none => exact fun sz sp hsz => by cases hsz
  | some sz =>
    obtain ⟨e, hsz, hready⟩ := ht sz rfl
    simp only [ends_bind]
    refine (hready.pushArguments_filled henvc hargc hsz).mono (fun y u hu => ?_) fun _ he => he
    cases y with
    | none => exact fun sz sp hsz => by cases hsz
    | some sp =>
      rintro sz' sp' ⟨⟩
      have hfilled := hu sp rfl
      obtain ⟨hdiv, hsub⟩ := stack_bounds hsz
      rw [HasArguments, hdiv, hsub, show pages e + 2 - 1 = pages e + 1 by omega, User, hfilled.same.mem_eq]
      refine ⟨hready.size, fun hargs => hargs.1.1, fun hp => ?_⟩
      obtain ⟨-, huser, hblock⟩ := hfilled.stack hp
      exact ⟨huser, by rwa [← hsz] at hblock⟩

/-- Filling the stack leaves the image alone. -/
theorem StackOnly.sameImage (h : StackOnly r t d e) (hgood : Good L (r.1.heap.total (frames r.1.mem d)))
    (hsize : pages e + 2 ≤ kernbase) (hstack : (view r.1.mem d (pages e + 1)).p = true) :
    SameImage r t d e where
  view u _ := by rw [h.same.mem_eq]
  byte x hx hmapped := by
    have hlt := div_lt_pages hx
    have hne : (view r.1.mem d (x / PGSIZE)).addr ≠ (view r.1.mem d (pages e + 1)).addr := fun heq => by
      have := hgood.addr_inj hmapped.1 (by omega) hmapped.2 hstack heq
      omega
    rw [byte, byte, h.same.mem_eq, h.other _ hne]

/-- The new address space holds the segments `l` of the file up to the address `e`, then a page
that user code cannot use, and the page of the stack. -/
structure HasImage (t : Ram) (d sz e : ℕ) (img : Image) (l : List Proghdr) : Prop where
  size : sz = (pages e + 2) * PGSIZE
  holds : Holds t d e img l
  guard : ¬ User t.1.mem d (pages e)
  stack : User t.1.mem d (pages e + 1)

theorem HasImage.congr {img : Image} {l : List Proghdr} (h : HasImage r d sz e img l)
    (hsize : pages e + 2 ≤ kernbase) (hbound : ∀ ph ∈ l, ph.vaddr + ph.filesz ≤ e)
    (hview : ∀ u < top, view t.1.mem d u = view r.1.mem d u) (hbytes : t.2 = r.2) :
    HasImage t d sz e img l := by
  have htop : ∀ u < pages e + 2, u < top := fun u hu => lt_top_of_lt_kernbase (by omega)
  have himage : SameImage r t d e := ⟨fun u hu => hview u (htop u (by omega)), fun x hx _ => by
    rw [byte, byte, hview _ (htop _ (by have := div_lt_pages hx; omega)), hbytes]⟩
  refine ⟨h.size, himage.holds (by omega) hbound h.holds, ?_, ?_⟩
  · rw [User, hview _ (htop _ (by omega))]
    exact h.guard
  · rw [User, hview _ (htop _ (by omega))]
    exact h.stack

/-- No page below `sz` is missing but the one below the stack. -/
def Complete (t : Ram) (d sz : ℕ) : Prop :=
  ∀ u < sz / PGSIZE, u ≠ sz / PGSIZE - 2 → (view t.1.mem d u).p = true

theorem HasImage.complete {img : Image} {l : List Proghdr} (h : HasImage t d sz e img l) :
    Complete t d sz := by
  intro u hu hne
  rw [(stack_bounds h.size).1] at hu hne
  by_cases hlt : u < pages e
  · exact (h.holds.user u hlt).1
  · rw [show u = pages e + 1 by omega]
    exact h.stack.1

theorem buildImage_image (harr : Arranged L r d 0)
    (hproper : Proper c.image 0 (c.image.loads c.image.phnum c.image.phoff))
    (henvc : c.env.length < MAXARG) (hargc : c.argv.length < MAXARG)
    (he : e = imageEnd 0 (c.image.loads c.image.phnum c.image.phoff)) :
    Ends (buildImage L d c) (fun x t => ∀ sz sp, x = some (sz, sp) →
        (sz = (pages e + 2) * PGSIZE ∧ pages e + 2 ≤ kernbase) ∧
        (HasImage t d sz e c.image (c.image.loads c.image.phnum c.image.phoff) ↔ Complete t d sz))
      (fun _ => True) r := by
  rw [buildImage, ends_bind]
  refine (loadImage_holds harr hproper).mono (fun x t ht => ?_) fun _ he => he
  rw [← he] at ht
  cases x with
  | none => exact fun sz sp hsz => by cases hsz
  | some sz =>
    obtain ⟨hsz, hready, himage⟩ := ht sz rfl
    simp only [ends_bind]
    refine (hready.pushArguments_filled henvc hargc hsz).mono (fun y u hu => ?_) fun _ he => he
    cases y with
    | none => exact fun sz sp hsz => by cases hsz
    | some sp =>
      rintro sz' sp' ⟨⟩
      have hfilled := hu sp rfl
      refine ⟨⟨hsz, hready.size⟩, fun h => h.complete, fun hcomplete => ?_⟩
      have hdiv := (stack_bounds hsz).1
      rw [Complete, hdiv, hfilled.same.mem_eq] at hcomplete
      have hp := hcomplete (pages e + 1) (by omega) (by omega)
      obtain ⟨honly, huser, -⟩ := hfilled.stack hp
      have hholds := himage.resolve_left (by
        rintro ⟨v, hv, habsent⟩
        rw [hcomplete v (by omega) (by omega)] at habsent
        cases habsent)
      refine ⟨hsz, (honly.sameImage hready.good hready.size hp).holds (by have := hready.size; omega) ?_ hholds,
        ?_, ?_⟩
      · rw [he]
        exact hproper.bound
      · rw [User, hfilled.same.mem_eq]
        exact hready.blocked.2
      · rwa [User, hfilled.same.mem_eq]

end Ram

end Lainos.Vm
