import Lainos.Vm.Execve

/-!
# When a page table is refused

Files for which `execve` succeeds with a page missing, because there was no frame for its page
table, and a file for which it refuses arguments that fit.
-/

namespace Lainos.Vm

open Library Exec Finset

variable {L : Layout} {s s' : Machine} {d v n m k : ℕ} {l : List ℕ}

/-! ## Pages without a page table -/

/-- The state after a page got the frame `m` and no page table. -/
def Machine.leak (s : Machine) (m : ℕ) (l : List ℕ) : Machine :=
  ((s.draw.setFree l).setPage m fun _ => .zero).draw.starve

/-- `allocuvm` goes on to the next page. -/
theorem allocFrom_refused {Q : Bool → Machine → Prop} {E : Halt → Prop} (hfree : s.free = m :: l)
    (hluck : s.luck 0 = true) (hrefused : l = [] ∨ s.luck 1 = false) (hmd : m ≠ d)
    (htable : (s.mem d (v / 1024)).p = false) :
    Ends (allocFrom d (n + 1) v) Q E s ↔ Ends (allocFrom d n (v + 1)) Q E (s.leak m l) := by
  obtain ⟨m', l', hfree', hkalloc⟩ := kalloc_granted hluck (by rw [hfree]; exact List.cons_ne_nil m l)
  obtain ⟨rfl, rfl⟩ : m' = m ∧ l' = l := by simpa [hfree, eq_comm] using hfree'
  set s₁ := (s.draw.setFree l').setPage m' fun _ => Pte.zero with hs₁
  have hdir : s₁.mem d = s.mem d := Function.update_of_ne hmd.symm ..
  have hkalloc₁ : kalloc s₁ = .ok (none, s₁.draw) := kalloc_refused hrefused
  have hmap : mappages d true true 1 v m' s₁ = .ok (false, s.leak m' l') := by
    rw [mappages, bind_of_ok (a := false) (t := s.leak m' l')]
    · rfl
    · rw [mapPage, bind_of_ok (a := none) (t := s.leak m' l')]
      · rfl
      · rw [walkpgdir, bind_of_ok get_run, hdir, htable]
        simp only [Bool.false_eq_true, if_false, if_true]
        rw [bind_of_ok hkalloc₁]
        rfl
  rw [allocFrom, ends_bind, ends_of_ok hkalloc]
  simp only [ends_bind, ends_modify]
  rw [ends_of_ok hmap]

theorem allocFrom_add (d n k a : ℕ) : allocFrom d (n + k) a =
    (do if ← allocFrom d n a then allocFrom d k (a + n) else return false) := by
  induction n generalizing a with
  | zero =>
    rw [Nat.zero_add, allocFrom, pure_bind]
    rfl
  | succ n ih =>
    rw [Nat.add_right_comm, allocFrom, allocFrom, bind_assoc]
    congr 1
    funext x
    cases x with
    | none => rfl
    | some f =>
      simp only [bind_assoc]
      congr 1
      funext _
      congr 1
      funext _
      rw [ih, Nat.add_assoc, Nat.add_comm 1 n]

/-- A fresh address space has no page table below the kernel. -/
structure Blank (L : Layout) (s : Machine) (d N : ℕ) : Prop where
  good : Good L (s.heap.total (frames s.mem d))
  view : ∀ u < kernbase, (Vm.view s.mem d u).p = false
  dir : ∀ i < 512, (s.mem d i).p = false
  free : s.free.length = N

theorem setupkvm_blank {N : ℕ} (h : Good L (s.heap.total 0)) (hluck : ∀ n < 65, s.luck n = true)
    (hfree : s.free.length = N + 65) :
    ∃ d s', setupkvm L s = .ok (some d, s') ∧ Blank L s' d N ∧ Effect s s' 0 (frames s'.mem d) ∧
      ∀ n, s'.luck n = s.luck (n + 65) := by
  obtain ⟨d, s', hrun, hfresh, hluck', hlen, hothers⟩ := setupkvm_exact h hluck (by omega)
  refine ⟨d, s', hrun, ⟨h.of_moves hfresh.moves, fun u hu => ?_, fun i hi => ?_, by omega⟩,
    Effect.of_moves hfresh.moves hfresh.starved, hluck'⟩
  · rw [hfresh.view u (lt_top_of_lt_kernbase hu), kview_of_lt hu]
    rfl
  · rw [hothers i fun hmem => ?_]
    · rfl
    · simp only [kernelTables, mem_union, mem_Ico] at hmem
      omega

/-- No more frames are needed than there are. -/
theorem allocuvm_plenty {lam : ℕ → Bool} {N oldsz newsz : ℕ} {D : ℕ → Pte} {I : Finset ℕ}
    (h : Plenty lam N D s d I (k + n)) (hlam : ∀ i < N - k, lam i = true)
    (hgood : Good L (s.heap.total (frames s.mem d))) (hn : pages newsz = pages oldsz + n)
    (hnew : newsz < kernbase * PGSIZE) (hle : oldsz ≤ newsz)
    (hi : ∀ u, pages oldsz ≤ u → u < pages newsz → u / 1024 ∈ I)
    (habsent : ∀ u, pages oldsz ≤ u → u < pages newsz → (view s.mem d u).p = false) :
    Ends (allocuvm L d oldsz newsz) (fun x s' => x = newsz ∧ Plenty lam N D s' d I k ∧
      Grown s s' d (pages oldsz) n ∧ ∀ u, pages oldsz ≤ u → u < pages newsz → (view s'.mem d u).p = true)
      (fun _ => False) s := by
  have hlast := pages_le_kernbase hnew.le
  have hn' : pages newsz - pages oldsz = n := by omega
  rw [allocuvm, if_neg (by omega), if_neg (by omega), hn', ends_bind]
  refine ((allocFrom_spec hgood (by omega)).and (allocFrom_plenty h hlam hgood (by omega)
    fun u hlo hhi => hi u hlo (by omega))).mono ?_ ?_
  · rintro ok s' ⟨⟨k', -, hk', hgrown⟩, rfl, hstarved, hplenty⟩
    rw [hk' rfl] at hgrown
    refine ⟨rfl, hplenty, hgrown, fun u hlo hhi => ?_⟩
    obtain ⟨f, hf⟩ := hgrown.fed hstarved u (lt_top_of_lt_kernbase (by omega)) hlo (by omega)
    rw [hf]
  · rintro e ⟨⟨-, u, hlo, hhi, hp⟩, -⟩
    rw [habsent u hlo (by omega)] at hp
    cases hp

/-! ## Files with one segment of zeros -/

/-- An ELF header with one program header, for `memsz` bytes of zeros at address zero. -/
def bssImage (memsz : UInt32) : Image where
  bytes := put32 (put32 (put32 (put32 (put32 (fun _ => 0) 0 0x464C457F) 28 52) 44 1) 52 1) 72 memsz
  size := 100
  size_le := hundred_le_maxfile

structure IsBss (img : Image) (memsz : ℕ) : Prop where
  size : img.size = 100
  magic : img.magic = ELF_MAGIC
  phoff : img.phoff = 52
  phnum : img.phnum = 1
  proghdr : img.proghdr 52 = ⟨1, 0, 0, 0, memsz⟩

theorem isBss_one : IsBss (bssImage 0x1000) 0x1000 := by
  constructor <;> decide

theorem isBss_many : IsBss (bssImage 0x3FF000) 0x3FF000 := by
  constructor <;> decide

theorem IsBss.loads {img : Image} {memsz : ℕ} (h : IsBss img memsz) :
    img.loads img.phnum img.phoff = [⟨1, 0, 0, 0, memsz⟩] := by
  rw [h.phnum, h.phoff, Image.loads, h.proghdr, if_pos rfl]
  rfl

theorem IsBss.loadSegments {img : Image} {memsz : ℕ} {Q : Machine → Prop} (h : IsBss img memsz)
    (hpos : 0 < memsz) (hlt : memsz < word)
    (halloc : Ends (allocuvm L d 0 memsz) (fun x s' => x = memsz ∧ Q s') (fun _ => False) s) :
    Ends (loadSegments L d img img.phnum img.phoff 0) (fun x s' => x = some memsz ∧ Q s')
      (fun _ => False) s := by
  have hread : img.readi 52 32 = some 32 := by
    rw [Image.readi, h.size, word, if_neg (by omega)]
    rfl
  rw [h.phnum, h.phoff, Vm.loadSegments, hread, if_neg (fun hne => hne rfl)]
  simp only [h.proghdr, Nat.zero_add, Nat.mod_eq_of_lt hlt]
  rw [if_neg (fun hne => hne rfl), if_neg (Nat.not_lt_zero _), ends_bind]
  refine halloc.mono ?_ fun _ he => he
  rintro x s' ⟨rfl, hQ⟩
  rw [if_neg (by omega)]
  exact ⟨rfl, hQ⟩

namespace Ram

variable {r : Ram} {e sz old : ℕ} {c : ExecCall} {img : Image}

/-- The two pages of the stack. -/
theorem allocStack_runs {Q : Machine → Prop} {b : ℕ → Bytes} (hsize : pages e + 2 < kernbase)
    (halloc : Ends (Vm.allocuvm L d (pages e * PGSIZE) ((pages e + 2) * PGSIZE)) (fun x s' =>
      x = (pages e + 2) * PGSIZE ∧ Good L (s'.heap.total (frames s'.mem d)) ∧
        (s'.mem d (pages e / 1024)).p = true ∧ Q s') (fun _ => False) s) :
    Ends (allocStack L d e) (fun x t => x = some ((pages e + 2) * PGSIZE) ∧
      ∃ s', Q s' ∧ Closed s' t.1 d (pages e)) (fun _ => False) (s, b) := by
  have hpos : 0 < (pages e + 2) * PGSIZE := Nat.mul_pos (by omega) (by rw [PGSIZE]; omega)
  have hdiv : (pages e + 2) * PGSIZE / PGSIZE - 2 = pages e := by
    rw [Nat.mul_div_cancel _ (by rw [PGSIZE]; omega), Nat.add_sub_cancel]
  rw [allocStack, ← Nat.add_mul, ends_bind]
  refine ((Projects.ends (s := (s, b)) (projects_allocuvm L d _ _)).mpr halloc).mono ?_ fun _ he => he
  rintro x t ⟨hx, hgood, htable, hQ⟩
  simp only [id] at hx
  rw [hx, if_neg (by omega), ends_bind, ends_first, hdiv]
  refine (clearpteu_spec hgood (by omega)).mono (fun _ s' hclosed => ?_) fun e he => ?_
  · exact ⟨rfl, t.1, hQ, hclosed⟩
  · rw [htable] at he
    exact absurd he.2.symm Bool.false_ne_true

theorem loadImage_runs {Q R : Machine → Prop} {b : ℕ → Bytes} (hsize : pages e + 2 < kernbase)
    (hsegments : Ends (Vm.loadSegments L d img img.phnum img.phoff 0) (fun x s' => x = some e ∧ Q s')
      (fun _ => False) s)
    (hstack : ∀ s', Q s' → Ends (Vm.allocuvm L d (pages e * PGSIZE) ((pages e + 2) * PGSIZE)) (fun x s'' =>
      x = (pages e + 2) * PGSIZE ∧ Good L (s''.heap.total (frames s''.mem d)) ∧
        (s''.mem d (pages e / 1024)).p = true ∧ R s'') (fun _ => False) s') :
    Ends (loadImage L d img) (fun x t => x = some ((pages e + 2) * PGSIZE) ∧
      ∃ s', R s' ∧ Closed s' t.1 d (pages e)) (fun _ => False) (s, b) := by
  rw [loadImage, ends_bind]
  refine ((Projects.ends (s := (s, b)) (projects_loadSegments L _ _ _)).mpr hsegments).mono ?_ fun _ he => he
  rintro x t ⟨hx, hQ⟩
  simp only [id] at hx
  rw [hx]
  exact allocStack_runs hsize (hstack t.1 hQ)

/-- A call of `execve` that starts a program. -/
theorem execve_runs {Q : ℕ → ℕ → Machine → Prop} (h : Good L (r.1.heap.total (frames r.1.mem old)))
    (hheader : 52 ≤ c.image.size ∧ c.image.magic = ELF_MAGIC)
    (hsetup : setupkvm L r.1.forget = .ok (some d, s))
    (hbuild : Ends (buildImage L d c) (fun x t => ∃ sz sp, x = some (sz, sp) ∧ Q sz sp t.1)
      (fun _ => False) (s, r.2))
    (hkeep : ∀ sz sp s s', (∀ u < top, view s'.mem d u = view s.mem d u) → Q sz sp s → Q sz sp s') :
    Ends (execve L old c) (fun x t => ∃ y, x = some y ∧ y.pgdir = d ∧ Q y.sz y.esp t.1)
      (fun _ => False) r := by
  have hgood : Good L (r.1.forget.heap.total 0) := by
    refine h.mono ?_
    rw [Heap.total, add_zero]
    exact Multiset.le_add_right ..
  have hfresh := fresh_of_setupkvm hgood hsetup
  have hjudged := (Projects.ends (s := (s, r.2)) (projects_buildImage L (d := d) (c := c))).mpr
    (buildImage_judged (a := c.args) (hfresh.building rfl) hgood)
  rw [execve, ends_bind, ends_first, ends_modify, if_neg (by rw [hheader.2]; simp; omega), ends_bind,
    ends_first]
  rw [ends_of_ok hsetup]
  simp only [ends_bind]
  refine (hbuild.and hjudged).mono ?_ fun _ he => he.1
  rintro x t ⟨⟨sz, sp, rfl, hQ⟩, hbegun, -⟩
  rw [ends_bind, ends_first]
  refine (freevm_old h hbegun.effect).mono (fun _ s' hview => ?_) fun _ he => he
  exact ⟨_, rfl, rfl, hkeep _ _ _ _ hview hQ⟩

/-! ## A stack that is not there -/

/-- Without a page table a copy goes where the word at address zero says. -/
theorem copyout_through {null : Pte} {size va len : ℕ} {src : Bytes} (hp : null.p = true)
    (hu : null.u = true) (haddr : null.addr < phystop)
    (htable : (r.1.mem d (va / PGSIZE / 1024)).p = false) (hfit : va % PGSIZE + len ≤ PGSIZE) :
    Ends (copyout null d size va len src) (fun ok t => ok = true ∧ SameTables r t) (fun _ => False) r := by
  cases len with
  | zero =>
    rw [copyout, copyoutFrom_zero]
    exact ⟨rfl, SameTables.refl r⟩
  | succ len =>
    rw [copyout, copyoutFrom, if_neg (Nat.succ_ne_zero _), ends_bind, ends_first,
      ends_of_ok (uva2ka_of_no_table htable hp hu), ends_bind, storeTo, Vm.storeTo,
      if_neg (Nat.not_le.mpr haddr), min_eq_right (by omega), Nat.sub_self, copyoutFrom_zero]
    exact ⟨rfl, _, rfl⟩

theorem stack_offset {k : ℕ} (hsz : sz = (pages e + 2) * PGSIZE) (hlo : n ≤ k) (hhi : k ≤ PGSIZE) :
    (sz - k) % PGSIZE + n ≤ PGSIZE := by
  unfold PGSIZE at *
  omega

theorem pushArguments_through {ustack : ℕ → UInt32} {null : Pte} (hp : null.p = true) (hu : null.u = true)
    (haddr : null.addr < phystop) (htable : (r.1.mem d ((pages e + 1) / 1024)).p = false)
    (hsz : sz = (pages e + 2) * PGSIZE) (hword : sz < word) :
    Ends (pushArguments d sz ⟨img, [], [], null, ustack⟩) (fun x t => (∃ sp, x = some sp) ∧ SameTables r t)
      (fun _ => False) r := by
  have hend : (pages e + 2) * PGSIZE = (pages e + 1) * PGSIZE + PGSIZE := Nat.succ_mul ..
  have hvalue : PGSIZE = 4096 := by rw [PGSIZE]
  have hsp₁ : (sz + word - (5 + 0 + 1) * 4) % word = sz - 24 := sub_word (by omega) hword
  have hsp₂ : (sz - 24 + word - (4 + 0 + 1) * 4) % word = sz - 44 := by
    rw [sub_word (by omega) (by omega)]
    omega
  have hcopy : ∀ (t : Ram) (k : ℕ) (src : Bytes), t.1.mem = r.1.mem → 20 ≤ k → k ≤ PGSIZE →
      Ends (copyout null d sz (sz - k) 20 src) (fun ok u => ok = true ∧ SameTables t u)
        (fun _ => False) t := fun t k src hmem hlo hhi => by
    have hpage : (sz - k) / PGSIZE = pages e + 1 := stack_page (by omega) (by omega)
    have habsent : (t.1.mem d ((sz - k) / PGSIZE / 1024)).p = false := by
      rw [hpage, hmem]
      exact htable
    exact copyout_through hp hu haddr habsent (stack_offset hsz hlo hhi)
  rw [pushArguments, pushEnv, pushStrings, pure_bind]
  simp only [List.length_nil, hsp₁, ends_bind]
  refine (hcopy r 24 _ rfl (by omega) (by omega)).mono ?_ fun _ he => he
  rintro ok t ⟨rfl, hsame⟩
  simp only [if_true, ends_pure]
  rw [pushArgv, pushStrings, pure_bind]
  simp only [List.length_nil, hsp₂, ends_bind]
  refine (hcopy t 44 _ hsame.mem_eq (by omega) (by omega)).mono ?_ fun _ he => he
  rintro ok u ⟨rfl, hsame'⟩
  exact ⟨⟨_, rfl⟩, hsame.trans hsame'⟩

/-! ## The examples -/

/-- A machine with `k` free frames, and an empty directory in frame `0x1FF`. -/
def stocked (k : ℕ) (luck : ℕ → Bool) : Machine where
  mem _ _ := .zero
  free := List.range' 0x200 k
  luck := luck
  starved := 0
  stores := []

theorem good_stocked (luck : ℕ → Bool) (hk : k ≤ 0x2000) :
    Good smallLayout ((stocked k luck).heap.total (frames (stocked k luck).mem 0x1FF)) := by
  have hframes : frames (stocked k luck).mem 0x1FF = {0x1FF} := by
    rw [frames, skeleton_of_empty rfl, userFrames_of_view_zero, add_zero]
    intro u _
    rw [view_of_empty rfl]
    rfl
  have htotal : (stocked k luck).heap.total (frames (stocked k luck).mem 0x1FF) =
      ((0x1FF :: List.range' 0x200 k : List ℕ) : Multiset ℕ) := by
    rw [hframes, Heap.total, ← Multiset.cons_coe, ← Multiset.singleton_add, add_comm]
    rfl
  have hc := constants
  rw [htotal]
  refine ⟨Multiset.coe_nodup.mpr ?_, fun f hf => ?_⟩
  · rw [List.nodup_cons, List.mem_range'_1]
    exact ⟨by omega, List.nodup_range'⟩
  · rw [Multiset.mem_coe, List.mem_cons, List.mem_range'_1] at hf
    simp only [smallLayout]
    omega

theorem good_stocked_zero {luck : ℕ → Bool} (hk : k ≤ 0x2000) :
    Good smallLayout ((stocked k luck).heap.total 0) := by
  refine (good_stocked luck hk).mono ?_
  rw [Heap.total, add_zero]
  exact Multiset.le_add_right ..

/-- The state after `setupkvm` on such a machine. -/
theorem setupkvm_stocked (luck : ℕ → Bool) (hk : 65 ≤ k ∧ k ≤ 0x2000) (hluck : ∀ n < 65, luck n = true) :
    ∃ d s, setupkvm smallLayout (stocked k luck).forget = .ok (some d, s) ∧
      Blank smallLayout s d (k - 65) ∧ ∀ n, s.luck n = luck (n + 65) := by
  have hgood : Good smallLayout ((stocked k luck).forget.heap.total 0) := good_stocked_zero hk.2
  have hlen : (stocked k luck).forget.free.length = k - 65 + 65 := by
    rw [Nat.sub_add_cancel hk.1]
    exact List.length_range'
  obtain ⟨d, s, hrun, hblank, -, hluck'⟩ := setupkvm_blank hgood hluck hlen
  exact ⟨d, s, hrun, hblank, hluck'⟩

/-- The last frame goes to a page whose page table is missing. -/
theorem allocuvm_last {lam : ℕ → Bool} {N : ℕ} {D : ℕ → Pte} (h : Plenty lam N D s d {k / 1024} 2)
    (hlam : ∀ n < N, lam n = true) (hgood : Good L (s.heap.total (frames s.mem d))) (hk : k + 2 < kernbase)
    (hout : (k + 1) / 1024 ≠ k / 1024) (hD : (D ((k + 1) / 1024)).p = false)
    (habsent : ∀ u, k ≤ u → u < k + 2 → (view s.mem d u).p = false) :
    Ends (Vm.allocuvm L d (k * PGSIZE) ((k + 2) * PGSIZE)) (fun x s' => x = (k + 2) * PGSIZE ∧
      Good L (s'.heap.total (frames s'.mem d)) ∧ (s'.mem d (k / 1024)).p = true ∧
      (s'.mem d ((k + 1) / 1024)).p = false) (fun _ => False) s := by
  have hpos : 0 < (k + 2) * PGSIZE := Nat.mul_pos (by omega) (by rw [PGSIZE]; omega)
  have hmul : k * PGSIZE ≤ (k + 2) * PGSIZE := Nat.mul_le_mul_right _ (by omega)
  have hnew : (k + 2) * PGSIZE < kernbase * PGSIZE := Nat.mul_lt_mul_of_pos_right hk (by rw [PGSIZE]; omega)
  have hrun : Ends (Vm.allocuvm L d (k * PGSIZE) ((k + 2) * PGSIZE)) (fun x s' => x = (k + 2) * PGSIZE ∧
      (s'.mem d (k / 1024)).p = true ∧ (s'.mem d ((k + 1) / 1024)).p = false) (fun _ => True) s := by
    rw [Vm.allocuvm, if_neg (by omega), if_neg (by omega), pages_mul_PGSIZE, pages_mul_PGSIZE,
      show k + 2 - k = 1 + 1 by omega, allocFrom_add, ends_bind, ends_bind]
    refine ((allocFrom_spec hgood (by omega)).and (allocFrom_plenty (k := 1) (n := 1) h
      (fun i hi => hlam i (by omega)) hgood (by omega) fun u hlo hhi => ?_)).mono ?_ fun _ _ => trivial
    · rw [mem_singleton, show u = k by omega]
    rintro ok s₁ ⟨⟨n, -, hn, hgrown⟩, rfl, hstarved, hplenty⟩
    rw [hn rfl] at hgrown
    have htable : (s₁.mem d (k / 1024)).p = true := by
      obtain ⟨f, hf⟩ := hgrown.fed hstarved k (lt_top_of_lt_kernbase (by omega)) le_rfl (by omega)
      exact table_of_present (by rw [hf])
    have hmissing : missing s₁.mem d {k / 1024} = ∅ := filter_eq_empty_iff.mpr fun i hi hp => by
      rw [mem_singleton.mp hi, htable] at hp
      cases hp
    have hcount := hplenty.count
    rw [hmissing, card_empty] at hcount
    obtain ⟨m, hfree⟩ := List.length_eq_one_iff.mp hcount.symm
    have hmd : m ≠ d := fun heq =>
      (hgrown.effect.good hgood).skeleton_of_frames.free_not_mem hfree (heq ▸ self_mem_skeleton s₁.mem d)
    have hluck : s₁.luck 0 = true := by
      have hle := hplenty.le
      rw [hplenty.luck]
      exact hlam _ (by omega)
    have hnone : (s₁.mem d ((k + 1) / 1024)).p = false := by
      rw [hplenty.others _ (by rw [mem_singleton]; exact hout)]
      exact hD
    have hdir : (s₁.leak m []).mem d = s₁.mem d := Function.update_of_ne hmd.symm ..
    rw [if_pos rfl, allocFrom_refused hfree hluck (Or.inl rfl) hmd hnone]
    refine ⟨rfl, ?_, ?_⟩
    · rw [hdir]
      exact htable
    · rw [hdir]
      exact hnone
  refine ((allocuvm_spec hgood).and hrun).mono ?_ ?_
  · rintro x s' ⟨(⟨hge, -⟩ | ⟨-, hlt, -⟩) | ⟨-, -, ⟨-, hgrown⟩ | ⟨rfl, -⟩⟩, hx, htables⟩
    · omega
    · omega
    · exact ⟨hx, hgrown.effect.good hgood, htables⟩
    · omega
  · rintro e ⟨⟨-, -, u, hlo, hhi, hp⟩, -⟩
    rw [pages_mul_PGSIZE] at hlo hhi
    rw [habsent u hlo hhi] at hp
    cases hp

/-- A program whose stack is the first page that needs a second page table. -/
def bigCall : ExecCall := ⟨bssImage 0x3FF000, [], [], ⟨0x150, true, true, true⟩, fun _ => 0⟩

theorem loadImage_bigCall {b : ℕ → Bytes} (hblank : Blank L s d 1026) (hluck : ∀ n, s.luck n = true) :
    Ends (loadImage L d bigCall.image) (fun x t => x = some ((pages 0x3FF000 + 2) * PGSIZE) ∧
      (t.1.mem d ((pages 0x3FF000 + 1) / 1024)).p = false) (fun _ => False) (s, b) := by
  have hc := constants
  have hpages : pages 0x3FF000 = 1023 := rfl
  have hmissing : missing s.mem d {0} = {0} := filter_true_of_mem fun i hi => by
    rw [mem_singleton.mp hi]
    exact hblank.dir 0 (by omega)
  have hplenty : Plenty (fun _ => true) 1026 (s.mem d) s d {0} (2 + 1023) :=
    ⟨hluck, by rw [hmissing, card_singleton, hblank.free], hblank.free.le, fun _ _ => rfl⟩
  have halloc : Ends (Vm.allocuvm L d 0 0x3FF000) _ _ s := allocuvm_plenty hplenty (fun _ _ => rfl)
    hblank.good rfl (by rw [PGSIZE]; omega) (by omega) (fun u _ hu => by rw [mem_singleton]; omega)
    fun u _ hu => hblank.view u (by omega)
  have hsegments := isBss_many.loadSegments (by omega) (by rw [word]; omega) halloc
  refine (loadImage_runs (b := b) (by omega) hsegments
    (R := fun s' => (s'.mem d ((pages 0x3FF000 + 1) / 1024)).p = false) fun s₁ hs₁ => ?_).mono ?_ fun _ he => he
  · obtain ⟨hplenty₁, hgrown, -⟩ := hs₁
    refine allocuvm_last hplenty₁ (fun _ _ => rfl) (hgrown.effect.good hblank.good) (by omega) (by omega)
      (hblank.dir 1 (by omega)) fun u hlo hhi => ?_
    rw [hgrown.outside u (lt_top_of_lt_kernbase (by omega)) (Or.inr hlo)]
    exact hblank.view u (by omega)
  · rintro x t ⟨hx, s₂, htable, hclosed⟩
    exact ⟨hx, by rw [hclosed.dir]; exact htable⟩

def smallCall : ExecCall := ⟨bssImage 0x1000, [], [], .zero, fun _ => 0⟩

theorem proper_smallCall : Proper smallCall.image 0
    (smallCall.image.loads smallCall.image.phnum smallCall.image.phoff) := by
  rw [show smallCall.image.loads smallCall.image.phnum smallCall.image.phoff = _ from isBss_one.loads]
  refine ⟨rfl, ?_, Nat.zero_le _, Nat.zero_le _, le_rfl, trivial⟩
  have hc := constants
  simp only [PGSIZE]
  omega

theorem imageEnd_smallCall :
    imageEnd 0 (smallCall.image.loads smallCall.image.phnum smallCall.image.phoff) = 0x1000 := by
  rw [show smallCall.image.loads smallCall.image.phnum smallCall.image.phoff = _ from isBss_one.loads]
  rfl

/-- The page table for the only page of the image is refused, and no other frame. -/
theorem loadImage_smallCall {b : ℕ → Bytes} (hblank : Blank L s d 35) (hluck : ∀ n, s.luck n = decide (n ≠ 1)) :
    Ends (loadImage L d smallCall.image) (fun x t => x = some ((pages 0x1000 + 2) * PGSIZE) ∧
      (view t.1.mem d 0).p = false ∧ (view t.1.mem d (pages 0x1000 + 1)).p = true) (fun _ => False) (s, b) := by
  have hc := constants
  have hpages : pages 0x1000 = 1 := rfl
  obtain ⟨m, l, hfree⟩ := List.exists_cons_of_length_eq_add_one (n := 34) hblank.free
  have hmd : m ≠ d := fun heq =>
    hblank.good.skeleton_of_frames.free_not_mem hfree (heq ▸ self_mem_skeleton s.mem d)
  have hdir : (s.leak m l).mem d = s.mem d := Function.update_of_ne hmd.symm ..
  have halloc : Ends (Vm.allocuvm L d 0 0x1000) (fun x s' => x = 0x1000 ∧ s' = s.leak m l ∧
      Good L (s'.heap.total (frames s'.mem d))) (fun _ => False) s := by
    have hrun : Ends (Vm.allocuvm L d 0 0x1000) (fun x s' => x = 0x1000 ∧ s' = s.leak m l)
        (fun _ => True) s := by
      rw [Vm.allocuvm, if_neg (by rw [PGSIZE]; omega), if_neg (by omega), ends_bind]
      change Ends (Vm.allocFrom d (0 + 1) 0) _ _ s
      rw [allocFrom_refused hfree (hluck 0) (Or.inr (hluck 1)) hmd (hblank.dir 0 (by omega))]
      exact ⟨rfl, rfl⟩
    refine ((allocuvm_spec hblank.good).and hrun).mono ?_ ?_
    · rintro x s' ⟨(⟨-, rfl, -⟩ | ⟨-, hlt, -⟩) | ⟨-, -, ⟨-, hgrown⟩ | ⟨rfl, -⟩⟩, hx, hs'⟩
      · cases hx
      · omega
      · exact ⟨hx, hs', hgrown.effect.good hblank.good⟩
      · cases hx
    · rintro e ⟨⟨-, -, u, -, hu, hp⟩, -⟩
      rw [hblank.view u (by omega)] at hp
      cases hp
  have hsegments := isBss_one.loadSegments (by omega) (by rw [word]; omega) halloc
  have hview : ∀ u < kernbase, (view (s.leak m l).mem d u).p = false := fun u hu => by
    rw [view_of_no_table]
    · rfl
    · rw [hdir]
      exact hblank.dir _ (by omega)
  refine (loadImage_runs (b := b) (by omega) hsegments (R := fun s' => (view s'.mem d 0).p = false ∧
    (view s'.mem d (pages 0x1000 + 1)).p = true) ?_).mono ?_ fun _ he => he
  · rintro s' ⟨rfl, hgood⟩
    have hmissing : missing (s.leak m l).mem d {0} = {0} := filter_true_of_mem fun i hi => by
      rw [mem_singleton.mp hi, hdir]
      exact hblank.dir 0 (by omega)
    have hlen : l.length = 34 := by
      have hfull := hblank.free
      rw [hfree, List.length_cons] at hfull
      omega
    have hplenty : Plenty (fun _ => true) 34 (s.mem d) (s.leak m l) d {0} (31 + 2) := by
      refine ⟨fun n => ?_, by rw [hmissing, card_singleton]; exact hlen.symm, hlen.le, fun j _ => by rw [hdir]⟩
      change s.luck (n + 1 + 1) = true
      rw [hluck, decide_eq_true (by omega)]
    have hold : pages (pages 0x1000 * PGSIZE) = 1 := by rw [pages_mul_PGSIZE, hpages]
    have hnew : pages ((pages 0x1000 + 2) * PGSIZE) = 3 := by rw [pages_mul_PGSIZE, hpages]
    refine (allocuvm_plenty hplenty (fun _ _ => rfl) hgood (by omega) ?_ ?_ (fun u _ hu => ?_)
      fun u _ hu => hview u (by omega)).mono ?_ fun _ he => he
    · exact Nat.mul_lt_mul_of_pos_right (by omega) (by rw [PGSIZE]; omega)
    · exact Nat.mul_le_mul_right _ (by omega)
    · rw [mem_singleton]
      omega
    · rintro x s' ⟨rfl, -, hgrown, hpresent⟩
      refine ⟨rfl, hgrown.effect.good hgood, ?_, ?_, hpresent _ (by omega) (by omega)⟩
      · exact table_of_present (hpresent _ (by omega) (by omega))
      · rw [hgrown.outside 0 (by omega) (by omega)]
        exact hview 0 (by omega)
  · rintro x t ⟨hx, s', ⟨hzero, hstack⟩, hclosed⟩
    refine ⟨hx, ?_, ?_⟩
    · rw [hclosed.view_of_ne (by omega) (by omega)]
      exact hzero
    · rw [hclosed.view_of_ne (by omega) (by omega)]
      exact hstack

/-- Headers that are not for the loader are skipped. -/
theorem loadSegments_skip {n off : ℕ} (hfile : off + 32 * n ≤ img.size)
    (htype : ∀ i < n, (img.proghdr (off + 32 * i)).type ≠ 1) :
    Vm.loadSegments L d img n off sz = pure (some sz) := by
  have hsize := img.size_le
  induction n generalizing off with
  | zero => rfl
  | succ n ih =>
    have hread : img.readi off 32 = some 32 := by
      rw [Image.readi, word, if_neg (by omega), min_eq_left (by omega)]
    have hoff : (off + 32) % word = off + 32 := Nat.mod_eq_of_lt (by rw [word]; omega)
    have hfirst := htype 0 (by omega)
    rw [Nat.mul_zero, Nat.add_zero] at hfirst
    rw [Vm.loadSegments, hread, if_neg (fun hne => hne rfl)]
    dsimp only
    rw [if_pos hfirst, hoff]
    refine ih (by omega) fun i hi => ?_
    have hnext := htype (i + 1) (by omega)
    rwa [show off + 32 * (i + 1) = off + 32 + 32 * i by omega] at hnext

/-- Thirty-two program headers that are not for the loader. -/
def crowdedImage : Image where
  bytes := put32 (put32 (put32 (fun _ => 0) 0 0x464C457F) 28 52) 44 32
  size := 1076
  size_le := by decide

def crowdedCall : ExecCall := ⟨crowdedImage, [], [[65]], .zero, fun _ => 0⟩

theorem loadImage_crowdedCall {b : ℕ → Bytes} (hblank : Blank L s d 35) (hluck : ∀ n, s.luck n = true) :
    Ends (loadImage L d crowdedCall.image) (fun x _ => x = some ((pages 0 + 2) * PGSIZE)) (fun _ => False)
      (s, b) := by
  have hc := constants
  have hpages : pages 0 = 0 := rfl
  have hsegments : Ends (Vm.loadSegments L d crowdedCall.image crowdedCall.image.phnum
      crowdedCall.image.phoff 0) (fun x s' => x = some 0 ∧ s' = s) (fun _ => False) s := by
    rw [loadSegments_skip (by decide) (by decide)]
    exact ⟨rfl, rfl⟩
  refine (loadImage_runs (b := b) (by omega) hsegments (R := fun _ => True) ?_).mono (fun _ _ h => h.1)
    fun _ he => he
  rintro s' rfl
  have hmissing : missing s'.mem d {0} = {0} := filter_true_of_mem fun i hi => by
    rw [mem_singleton.mp hi]
    exact hblank.dir 0 (by omega)
  have hplenty : Plenty (fun _ => true) 35 (s'.mem d) s' d {0} (32 + 2) :=
    ⟨hluck, by rw [hmissing, card_singleton, hblank.free], hblank.free.le, fun _ _ => rfl⟩
  have hold : pages (pages 0 * PGSIZE) = 0 := by rw [pages_mul_PGSIZE, hpages]
  have hnew : pages ((pages 0 + 2) * PGSIZE) = 2 := by rw [pages_mul_PGSIZE, hpages]
  refine (allocuvm_plenty hplenty (fun _ _ => rfl) hblank.good (by omega) ?_ ?_ (fun u _ hu => ?_)
    fun u _ hu => hblank.view u (by omega)).mono ?_ fun _ he => he
  · exact Nat.mul_lt_mul_of_pos_right (by omega) (by rw [PGSIZE]; omega)
  · exact Nat.mul_le_mul_right _ (by omega)
  · rw [mem_singleton]
    omega
  · rintro x s'' ⟨rfl, -, hgrown, hpresent⟩
    exact ⟨rfl, hgrown.effect.good hblank.good, table_of_present (hpresent _ (by omega) (by omega)), trivial⟩

end Ram


end Lainos.Vm
