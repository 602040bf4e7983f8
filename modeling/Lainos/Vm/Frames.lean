import Lainos.Vm.Files

/-!
# Who holds which frame

The owners of frames are the kernel's own address space, the stacks of the processors,
the kernel stack and the address space of each process, and the pipes. Every call
exchanges frames between the owners and the free list. No frame ever appears twice, and
frames are lost exactly when `walkpgdir` could not get a page table.
-/

namespace Lainos.Vm

open Library Exec Finset

variable {L : Layout} {s s' : System} {p : ℕ} {mem mem' : Memory} {q : Proc}

def procFrames (mem : Memory) (q : Proc) : Multiset ℕ :=
  if q.state = .unused then 0 else {q.kstack} + frames mem q.pgdir

theorem procFrames_unused (h : q.state = .unused) : procFrames mem q = 0 := if_pos h

theorem procFrames_used (h : q.state ≠ .unused) :
    procFrames mem q = {q.kstack} + frames mem q.pgdir := if_neg h

namespace System

/-- The frames of the kernel and of the processes in `I`. -/
def spaces (s : System) (I : Finset ℕ) : Multiset ℕ :=
  frames s.vm.mem s.kpgdir + (s.cpus : Multiset ℕ) + ∑ p ∈ I, procFrames s.vm.mem (s.proc p)

/-- The frames that something owns. -/
def owners (s : System) : Multiset ℕ := s.spaces (range NPROC) + (pipeFrames s.file).val

/-- What everything but process `p` owns. -/
def rest (s : System) (p : ℕ) : Multiset ℕ :=
  s.spaces ((range NPROC).erase p) + (pipeFrames s.file).val

theorem owners_eq (s : System) (hp : p < NPROC) :
    s.owners = procFrames s.vm.mem (s.proc p) + s.rest p := by
  rw [owners, rest, spaces, spaces, ← add_sum_erase _ _ (mem_range.mpr hp)]
  abel

end System

theorem skeleton_subset_procFrames (hq : q.state ≠ .unused) {f : ℕ} (hf : f ∈ skeleton mem q.pgdir) :
    f ∈ procFrames mem q := by
  rw [procFrames_used hq, frames, Multiset.mem_add, Multiset.mem_add]
  exact Or.inr (Or.inl hf)

theorem procFrames_congr (h : ∀ f ∈ procFrames mem q, mem' f = mem f) :
    procFrames mem' q = procFrames mem q := by
  by_cases hq : q.state = .unused
  · rw [procFrames_unused hq, procFrames_unused hq]
  · rw [procFrames_used hq, procFrames_used hq,
      frames_congr fun f hf => h f (skeleton_subset_procFrames hq hf)]

theorem spaces_congr {I : Finset ℕ} (hk : s'.kpgdir = s.kpgdir) (hc : s'.cpus = s.cpus)
    (hproc : ∀ p ∈ I, ∀ mem, procFrames mem (s'.proc p) = procFrames mem (s.proc p))
    (hmem : ∀ f ∈ s.spaces I, s'.vm.mem f = s.vm.mem f) : s'.spaces I = s.spaces I := by
  have hkernel : frames s'.vm.mem s.kpgdir = frames s.vm.mem s.kpgdir := by
    refine frames_congr fun f hf => hmem f ?_
    rw [System.spaces, frames]
    simp only [Multiset.mem_add]
    exact Or.inl (Or.inl (Or.inl hf))
  rw [System.spaces, System.spaces, hk, hc, hkernel]
  refine congrArg _ (sum_congr rfl fun p hp => ?_)
  rw [hproc p hp]
  refine procFrames_congr fun f hf => hmem f ?_
  rw [System.spaces]
  exact Multiset.mem_add.mpr (Or.inr (mem_sum_of_mem hp hf))

/-! ## The state between calls -/

structure Valid (L : Layout) (s : System) : Prop where
  good : Good L (s.vm.heap.total s.owners)
  filed : Filed (opened s.proc) s.file s.pipe
  idle : ∀ p < NPROC, (s.proc p).state = .unused ∨ (s.proc p).state = .zombie →
    ∀ fd < NOFILE, (s.proc p).ofile fd = none
  size : ∀ p < NPROC, (s.proc p).state ≠ .unused → (s.proc p).sz ≤ kernbase * PGSIZE

/-- The pages that are present are those below the size. -/
def Proc.Sized (mem : Memory) (q : Proc) : Prop :=
  ∀ u < kernbase, (view mem q.pgdir u).p = decide (u < pages q.sz)

def System.Sized (s : System) : Prop :=
  ∀ p < NPROC, (s.proc p).state ≠ .unused → (s.proc p).Sized s.vm.mem

theorem Proc.Sized.congr (h : q.Sized mem) (hq : q.state ≠ .unused)
    (hmem : ∀ f ∈ procFrames mem q, mem' f = mem f) : q.Sized mem' := fun u hu => by
  rw [view_congr (fun f hf => hmem f (skeleton_subset_procFrames hq hf)) (lt_top_of_lt_kernbase hu)]
  exact h u hu

theorem Good.of_owners {X : Multiset ℕ} (h : Good L (s.vm.heap.total s.owners)) (hX : X ≤ s.owners) :
    Good L (s.vm.heap.total X) :=
  h.mono (add_le_add_right hX _)

theorem procFrames_le_owners (hp : p < NPROC) : procFrames s.vm.mem (s.proc p) ≤ s.owners := by
  rw [s.owners_eq hp]
  exact Multiset.le_add_right ..

theorem Valid.good_pipes (h : Valid L s) : Good L (s.vm.heap.total (pipeFrames s.file).val) :=
  h.good.of_owners (Multiset.le_add_left ..)

theorem Valid.good_space (h : Valid L s) (hp : p < NPROC) (hq : (s.proc p).state ≠ .unused) :
    Good L (s.vm.heap.total (frames s.vm.mem (s.proc p).pgdir)) := by
  refine h.good.of_owners (le_trans ?_ (procFrames_le_owners hp))
  rw [procFrames_used hq]
  exact Multiset.le_add_left ..

/-! ## What changes and what does not -/

section SetProc

variable {m : Machine} (hgood : Good L (s.vm.heap.total s.owners)) (hp : p < NPROC)
  (h : Effect s.vm m (procFrames s.vm.mem (s.proc p)) (procFrames m.mem q))

include hgood hp h

theorem rest_mem_eq {f : ℕ} (hf : f ∈ s.rest p) : m.mem f = s.vm.mem f := by
  rw [s.owners_eq hp] at hgood
  exact h.mem_eq hgood hf

theorem rest_setProc : ((s.setVm m).setProc p q).rest p = s.rest p := by
  rw [System.rest, System.rest]
  refine congrArg (· + _) (spaces_congr rfl rfl (fun r hr mem => ?_) fun f hf => ?_)
  · rw [System.setProc_proc, Function.update_of_ne (ne_of_mem_erase hr)]
    rfl
  · exact rest_mem_eq hgood hp h (Multiset.mem_add.mpr (Or.inl hf))

/-- A call that works on one process has its effect on all owners together. -/
theorem effect_setProc : Effect s.vm m s.owners ((s.setVm m).setProc p q).owners := by
  refine (h.add (s.rest p)).cast (s.owners_eq hp).symm ?_
  rw [System.owners_eq _ hp, rest_setProc hgood hp h, System.setProc_proc, Function.update_self]
  rfl

theorem sized_setProc (hsized : s.Sized) (hq : q.state ≠ .unused → q.Sized m.mem) :
    ((s.setVm m).setProc p q).Sized := by
  intro r hr hused
  rw [System.setProc_proc] at hused ⊢
  by_cases hrp : r = p
  · subst hrp
    rw [Function.update_self] at hused ⊢
    exact hq hused
  · rw [Function.update_of_ne hrp] at hused ⊢
    refine (hsized r hr hused).congr hused fun f hf => rest_mem_eq hgood hp h ?_
    rw [System.rest, System.spaces]
    exact Multiset.mem_add.mpr (Or.inl (Multiset.mem_add.mpr (Or.inr
      (mem_sum_of_mem (mem_erase.mpr ⟨hrp, mem_range.mpr hr⟩) hf))))

end SetProc

theorem DescrStep.procFrames_eq {H : Multiset ℕ} (h : DescrStep p s s' H) (r : ℕ) (mem : Memory) :
    procFrames mem (s'.proc r) = procFrames mem (s.proc r) := by
  by_cases hr : r = p
  · rw [hr, h.self]
    rfl
  · rw [h.others r hr]

theorem DescrStep.mem_eq {H : Multiset ℕ} {f : ℕ} (h : DescrStep p s s' H)
    (hgood : Good L (s.vm.heap.total s.owners)) (hf : f ∈ s.spaces (range NPROC)) :
    s'.vm.mem f = s.vm.mem f := by
  rw [System.owners, add_comm (s.spaces _)] at hgood
  exact h.moves.mem_eq hgood.nodup hf

theorem DescrStep.spaces_eq {H : Multiset ℕ} (h : DescrStep p s s' H)
    (hgood : Good L (s.vm.heap.total s.owners)) :
    s'.spaces (range NPROC) = s.spaces (range NPROC) :=
  spaces_congr h.kpgdir h.cpus (fun r _ => h.procFrames_eq r) fun _ hf => h.mem_eq hgood hf

theorem DescrStep.moves_owners {H : Multiset ℕ} (h : DescrStep p s s' H)
    (hgood : Good L (s.vm.heap.total s.owners)) :
    Moves s.vm.heap s'.vm.heap s.owners s'.owners := by
  refine (h.moves.add (s.spaces (range NPROC))).cast ?_ ?_
  · rw [System.owners, add_comm]
  · rw [System.owners, h.spaces_eq hgood, add_comm]

theorem DescrStep.sized {H : Multiset ℕ} (h : DescrStep p s s' H)
    (hgood : Good L (s.vm.heap.total s.owners)) (hsized : s.Sized) : s'.Sized := by
  intro r hr hused
  have hmem : ∀ f ∈ procFrames s.vm.mem (s.proc r), s'.vm.mem f = s.vm.mem f := fun f hf =>
    h.mem_eq hgood (Multiset.mem_add.mpr (Or.inr (mem_sum_of_mem (mem_range.mpr hr) hf)))
  by_cases hrp : r = p
  · subst hrp
    have hstate : (s'.proc r).state = (s.proc r).state := by rw [h.self]
    have hsame := (hsized r hr (by rwa [hstate] at hused)).congr (by rwa [hstate] at hused) hmem
    rw [h.self]
    exact hsame
  · rw [h.others r hrp] at hused ⊢
    exact (hsized r hr hused).congr hused hmem

/-- What is known after a call. If it met the condition `C`, address spaces have the
sizes they should. -/
structure Outcome (L : Layout) (s s' : System) (C : Prop) : Prop where
  effect : Effect s.vm s'.vm s.owners s'.owners
  valid : Valid L s'
  sized : C → s.Sized → s'.Sized

theorem Outcome.refl {C : Prop} (h : Valid L s) : Outcome L s s C :=
  ⟨Effect.refl .., h, fun _ hsized => hsized⟩

theorem Outcome.trans {s'' : System} {C : Prop} (h₁ : Outcome L s s' C) (h₂ : Outcome L s' s'' C) :
    Outcome L s s'' C :=
  ⟨h₁.effect.trans h₂.effect, h₂.valid, fun hC hs => h₂.sized hC (h₁.sized hC hs)⟩

theorem Valid.setProc {m : Machine} (hv : Valid L s) (hp : p < NPROC)
    (h : Effect s.vm m (procFrames s.vm.mem (s.proc p)) (procFrames m.mem q))
    (hofile : q.ofile = (s.proc p).ofile)
    (hidle : q.state = .unused ∨ q.state = .zombie → ∀ fd < NOFILE, q.ofile fd = none)
    (hsize : q.state ≠ .unused → q.sz ≤ kernbase * PGSIZE) :
    Valid L ((s.setVm m).setProc p q) where
  good := (effect_setProc hv.good hp h).good hv.good
  filed := by
    have hopened := opened_update s.proc q hp
    rw [show q.files = (s.proc p).files by rw [Proc.files, Proc.files, hofile], add_left_inj] at hopened
    rw [System.setProc_proc, System.setVm_proc, hopened]
    exact hv.filed
  idle r hr := by
    rw [System.setProc_proc]
    by_cases hrp : r = p
    · rw [hrp, Function.update_self]
      exact hidle
    · rw [Function.update_of_ne hrp]
      exact hv.idle r hr
  size r hr := by
    rw [System.setProc_proc]
    by_cases hrp : r = p
    · rw [hrp, Function.update_self]
      exact hsize
    · rw [Function.update_of_ne hrp]
      exact hv.size r hr

/-- A call after which process `p` has the address space `d` with `sz` bytes. -/
theorem Outcome.of_space {m : Machine} {d sz : ℕ} {C : Prop} (hv : Valid L s) (hp : p < NPROC)
    (hrun : (s.proc p).state = .runnable)
    (h : Effect s.vm m (frames s.vm.mem (s.proc p).pgdir) (frames m.mem d))
    (hsize : sz ≤ kernbase * PGSIZE)
    (hsized : C → s.Sized → ∀ u < kernbase, (view m.mem d u).p = decide (u < pages sz)) :
    Outcome L s ((s.setVm m).setProc p { s.proc p with pgdir := d, sz := sz }) C := by
  have hused : (s.proc p).state ≠ .unused := by simp [hrun]
  have heffect : Effect s.vm m (procFrames s.vm.mem (s.proc p))
      (procFrames m.mem { s.proc p with pgdir := d, sz := sz }) := by
    refine (h.add {(s.proc p).kstack}).cast ?_ ?_
    · rw [procFrames_used hused, add_comm]
    · rw [procFrames_used (q := { s.proc p with pgdir := d, sz := sz }) hused, add_comm]
  refine ⟨effect_setProc hv.good hp heffect, hv.setProc hp heffect rfl ?_ fun _ => hsize,
    fun hC hs => sized_setProc hv.good hp heffect hs fun _ => hsized hC hs⟩
  intro hidle
  simp [hrun] at hidle

/-- The size is as it was. -/
theorem Outcome.of_same_size {m : Machine} {C : Prop} (hv : Valid L s) (hp : p < NPROC)
    (hrun : (s.proc p).state = .runnable)
    (h : Effect s.vm m (frames s.vm.mem (s.proc p).pgdir) (frames m.mem (s.proc p).pgdir))
    (hsized : C → s.Sized → (s.proc p).Sized m.mem) : Outcome L s (s.setVm m) C := by
  have houtcome := Outcome.of_space hv hp hrun h (hv.size p hp (by simp [hrun])) hsized
  rwa [show (s.setVm m).setProc p { s.proc p with pgdir := (s.proc p).pgdir, sz := (s.proc p).sz } =
    s.setVm m by rw [System.setProc]; simp [System.setVm]] at houtcome

/-! ## `sbrk` and `execve` -/

section Space

variable (hv : Valid L s) (hp : p < NPROC) (hrun : (s.proc p).state = .runnable)

include hv hp hrun

/-- The state after `growproc` was given the result `r`. -/
theorem Outcome.of_result {m : Machine} {r : ℕ} {C : Machine → Prop}
    (h : Effect s.vm m (frames s.vm.mem (s.proc p).pgdir) (frames m.mem (s.proc p).pgdir))
    (hr : r ≤ kernbase * PGSIZE)
    (hsized : C m → s.Sized → ∀ u < kernbase, (view m.mem (s.proc p).pgdir u).p =
      decide (u < pages (if r = 0 then (s.proc p).sz else r))) :
    Ends (if r = 0 then pure false else do
      modify fun s => s.setProc p { s.proc p with sz := r }
      return true : SAct Bool) (fun _ s' => Outcome L s s' (C s'.vm)) (fun _ => False) (s.setVm m) := by
  rw [ends_ite]
  refine ⟨fun hzero => ?_, fun hne => ?_⟩
  · refine Outcome.of_same_size hv hp hrun h fun hC hs => ?_
    have := hsized hC hs
    rwa [if_pos hzero] at this
  · rw [if_neg hne] at hsized
    exact Outcome.of_space hv hp hrun h hr hsized

theorem allocuvm_outcome {newsz : ℕ} :
    Ends (allocuvm L (s.proc p).pgdir (s.proc p).sz newsz) (fun r m =>
      Effect s.vm m (frames s.vm.mem (s.proc p).pgdir) (frames m.mem (s.proc p).pgdir) ∧
      r ≤ kernbase * PGSIZE ∧ (m.starved = s.vm.starved → s.Sized → ∀ u < kernbase,
        (view m.mem (s.proc p).pgdir u).p = decide (u < pages (if r = 0 then (s.proc p).sz else r))))
      (fun e => s.Sized → e.why ∉ mappingPanics) s.vm := by
  have hused : (s.proc p).state ≠ .unused := by simp [hrun]
  have hsize := hv.size p hp hused
  refine (allocuvm_spec (hv.good_space hp hused)).mono ?_ ?_
  · rintro r m ((⟨-, rfl, rfl⟩ | ⟨-, hlt, rfl, rfl⟩) | ⟨hnew, hle, ⟨rfl, hgrown⟩ | ⟨rfl, hundone⟩⟩)
    · exact ⟨Effect.refl .., Nat.zero_le _, fun _ hs => hs p hp hused⟩
    · refine ⟨Effect.refl .., hsize, fun _ hs => ?_⟩
      rw [if_neg (by omega)]
      exact hs p hp hused
    · refine ⟨hgrown.effect, hnew.le, fun hfed hs u hu => ?_⟩
      have hmono := pages_le_of_le hle
      have hutop := lt_top_of_lt_kernbase hu
      have hpages : pages (if r = 0 then (s.proc p).sz else r) = pages r := by
        by_cases hzero : r = 0
        · rw [if_pos hzero, hzero, show (s.proc p).sz = 0 by omega]
        · rw [if_neg hzero]
      rw [hpages]
      by_cases hin : pages (s.proc p).sz ≤ u ∧ u < pages r
      · obtain ⟨f, hf⟩ := hgrown.fed hfed u hutop hin.1 (by omega)
        rw [hf, decide_eq_true hin.2]
      · rw [hgrown.outside u hutop (by omega), hs p hp hused u hu]
        exact decide_eq_decide.mpr (by omega)
    · refine ⟨hundone.effect, Nat.zero_le _, fun hfed hs u hu => ?_⟩
      rw [if_pos rfl]
      have hold := hs p hp hused u hu
      by_cases hin : pages (s.proc p).sz ≤ u ∧ u < pages newsz
      · have hlast := pages_le_kernbase hnew.le
        rw [hundone.fed hfed (fun v hlo hhi => ?_) u hin.1 hin.2, decide_eq_false (by omega)]
        rw [hs p hp hused v (by omega), decide_eq_false (by omega)]
      · rw [hundone.outside u (lt_top_of_lt_kernbase hu) (by omega), hold]
  · rintro e ⟨-, hnew, u, hlo, hhi, hpres⟩ hs
    have hlast := pages_le_kernbase hnew.le
    rw [hs p hp hused u (by omega), decide_eq_false (by omega)] at hpres
    cases hpres

theorem deallocuvm_outcome {newsz : ℕ} :
    Ends (deallocuvm L (s.proc p).pgdir (s.proc p).sz newsz) (fun r m =>
      Effect s.vm m (frames s.vm.mem (s.proc p).pgdir) (frames m.mem (s.proc p).pgdir) ∧
      r ≤ kernbase * PGSIZE ∧ (newsz ≠ 0 → s.Sized → ∀ u < kernbase,
        (view m.mem (s.proc p).pgdir u).p = decide (u < pages (if r = 0 then (s.proc p).sz else r))))
      (fun _ => False) s.vm := by
  have hused : (s.proc p).state ≠ .unused := by simp [hrun]
  have hsize := hv.size p hp hused
  have hlast := pages_le_kernbase hsize
  refine (deallocuvm_spec (hv.good_space hp hused) hsize).mono ?_ fun _ hfalse => hfalse
  rintro r m (⟨-, rfl, rfl⟩ | ⟨hlt, rfl, hdealloc⟩)
  · refine ⟨Effect.refl .., hsize, fun _ hs => ?_⟩
    rw [ite_self]
    exact hs p hp hused
  · refine ⟨Effect.of_moves hdealloc.moves hdealloc.starved, by omega, fun hne hs u hu => ?_⟩
    have hmono := pages_le_of_le hlt.le
    have hold := hs p hp hused
    rw [if_neg hne]
    by_cases hin : pages r ≤ u ∧ u < pages (s.proc p).sz
    · -- The first page to go is there, and so is its page table.
      have hfirst : (view s.vm.mem (s.proc p).pgdir (pages r)).p = true := by
        rw [hold _ (by omega), decide_eq_true (by omega)]
      have htable := table_of_present hfirst
      rw [hdealloc.swept (Or.inr (Or.inl htable)) u hin.1 hin.2, decide_eq_false (by omega)]
    · obtain hkept | ⟨hlo, hhi, -⟩ := hdealloc.kept u (lt_top_of_lt_kernbase hu)
      · rw [hkept, hold u hu]
        exact decide_eq_decide.mpr (by omega)
      · exact absurd ⟨hlo, hhi⟩ hin

theorem growproc_outcome {n : ℤ} (hn : -0x80000000 ≤ n) :
    Ends (growproc L p n) (fun _ s' => Outcome L s s'
      ((n < 0 → (s.proc p).sz + n ≠ 0) ∧ s'.vm.starved = s.vm.starved))
      (fun e => s.Sized → e.why ∉ mappingPanics) s := by
  have hused : (s.proc p).state ≠ .unused := by simp [hrun]
  have hsize := hv.size p hp hused
  rw [growproc, ends_bind, ends_get, ends_ite]
  refine ⟨fun _ => Outcome.refl hv, fun hne => ?_⟩
  rw [ends_bind, ends_onVm]
  by_cases hpos : 0 < n
  · rw [if_pos hpos]
    refine (allocuvm_outcome hv hp hrun).mono ?_ fun _ he => he
    rintro r m ⟨heffect, hr, hsized⟩
    exact (Outcome.of_result (C := fun m => (n < 0 → (s.proc p).sz + n ≠ 0) ∧
      m.starved = s.vm.starved) hv hp hrun heffect hr fun hC => hsized hC.2).mono
        (fun _ _ houtcome => houtcome) fun _ hfalse => hfalse.elim
  · rw [if_neg hpos]
    refine (deallocuvm_outcome hv hp hrun).mono ?_ fun _ hfalse => hfalse.elim
    rintro r m ⟨heffect, hr, hsized⟩
    refine (Outcome.of_result (C := fun m => (n < 0 → (s.proc p).sz + n ≠ 0) ∧
      m.starved = s.vm.starved) hv hp hrun heffect hr fun hC => hsized ?_).mono
        (fun _ _ houtcome => houtcome) fun _ hfalse => hfalse.elim
    have hsum := hC.1 (by omega)
    have hc := constants
    rw [PGSIZE] at hsize
    rw [word]
    omega

theorem sysExecve_outcome {a : ExecArgs} :
    Ends (sysExecve L p a) (fun ok s' => Outcome L s s' (s'.vm.starved = s.vm.starved) ∧
      (ok = false → s'.owners = s.owners)) (fun e => e.why ∉ mappingPanics) s := by
  have hused : (s.proc p).state ≠ .unused := by simp [hrun]
  rw [sysExecve, ends_bind, ends_get, ends_bind, ends_onVm]
  refine (execve_spec (hv.good_space hp hused)).mono ?_ fun _ he => he.2
  rintro r m ⟨-, ⟨rfl, heffect⟩ | ⟨d, sz, rfl, hreplaced⟩⟩
  · -- Nothing that anyone owns was touched.
    have hmem : ∀ f ∈ s.owners, m.mem f = s.vm.mem f := fun f hf =>
      heffect.mem_eq (by rw [zero_add]; exact hv.good) hf
    have howners : (s.setVm m).owners = s.owners := by
      rw [System.owners, System.owners]
      refine congrArg (· + _) (spaces_congr rfl rfl (fun _ _ _ => rfl) fun f hf => ?_)
      exact hmem f (Multiset.mem_add.mpr (Or.inl hf))
    have heffect' : Effect s.vm m (frames s.vm.mem (s.proc p).pgdir)
        (frames m.mem (s.proc p).pgdir) := by
      have hgood := hv.good_space hp hused
      rw [heffect.frames_eq (by rwa [zero_add])]
      exact (heffect.add _).cast (zero_add _) (zero_add _)
    refine ⟨Outcome.of_same_size hv hp hrun heffect' fun _ hs => ?_, fun _ => howners⟩
    exact (hs p hp hused).congr hused fun f hf =>
      hmem f (Multiset.mem_of_le (procFrames_le_owners hp) hf)
  · exact ⟨Outcome.of_space hv hp hrun hreplaced.effect hreplaced.size fun hfed _ => hreplaced.fed hfed,
      fun hfalse => by cases hfalse⟩

end Space

/-! ## Descriptors and processes -/

theorem DescrStep.outcome {C : Prop} (h : DescrStep p s s' 0) (hv : Valid L s)
    (hstate : (s.proc p).state = .runnable ∨ (s.proc p).state = .embryo) : Outcome L s s' C where
  effect := Effect.of_moves (h.moves_owners hv.good) h.starved
  valid :=
    { good := hv.good.of_moves (h.moves_owners hv.good)
      filed := by simpa using h.filed
      idle := fun r hr hidle => by
        have hrp : r ≠ p := by
          rintro rfl
          rw [h.self] at hidle
          rcases hstate with hstate | hstate <;> simp [hstate] at hidle
        rw [h.others r hrp] at hidle ⊢
        exact hv.idle r hr hidle
      size := fun r hr => by
        by_cases hrp : r = p
        · subst hrp
          rw [h.self]
          exact hv.size r hr
        · rw [h.others r hrp]
          exact hv.size r hr }
  sized _ := h.sized hv.good

theorem sysPipe_outcome {C : Prop} (hv : Valid L s) (hp : p < NPROC)
    (hrun : (s.proc p).state = .runnable) :
    Ends (sysPipe L p) (fun ok s' => Outcome L s s' C ∧ (ok = false → s'.owners = s.owners))
      (fun _ => False) s := by
  refine (sysPipe_spec hv.filed hp hv.good_pipes).mono ?_ fun _ hfalse => hfalse
  rintro ok s' ⟨hstep, hfail⟩
  refine ⟨hstep.outcome hv (Or.inl hrun), fun hok => ?_⟩
  rw [System.owners, System.owners, hstep.spaces_eq hv.good, (hfail hok).2.pipeFrames_eq]

theorem sysClose_outcome {C : Prop} {fd : ℕ} (hv : Valid L s) (hp : p < NPROC)
    (hrun : (s.proc p).state = .runnable) :
    Ends (sysClose L p fd) (fun _ s' => Outcome L s s' C) (fun _ => False) s :=
  (sysClose_spec hv.filed hp hv.good_pipes fd).mono (fun _ _ hs' => hs'.outcome hv (Or.inl hrun))
    fun _ hfalse => hfalse

/-- Processes that keep what they hold. -/
theorem Outcome.of_relabel {C : Prop} {g : ℕ → Proc} (hv : Valid L s)
    (hsame : ∀ r, (g r).kstack = (s.proc r).kstack ∧ (g r).pgdir = (s.proc r).pgdir ∧
      (g r).sz = (s.proc r).sz ∧ (g r).ofile = (s.proc r).ofile ∧
      ((g r).state = .unused ↔ (s.proc r).state = .unused))
    (hidle : ∀ r < NPROC, (g r).state = .zombie → ∀ fd < NOFILE, (s.proc r).ofile fd = none) :
    Outcome L s { s with proc := g } C := by
  have hframes : ∀ r mem, procFrames mem (g r) = procFrames mem (s.proc r) := fun r mem => by
    obtain ⟨hk, hd, -, -, hstate⟩ := hsame r
    rw [procFrames, procFrames, hk, hd]
    exact if_congr hstate rfl rfl
  have howners : ({ s with proc := g } : System).owners = s.owners := by
    rw [System.owners, System.owners]
    exact congrArg (· + _) (spaces_congr rfl rfl (fun r _ => hframes r) fun _ _ => rfl)
  have hopened : opened g = opened s.proc := sum_congr rfl fun r _ => by
    rw [Proc.files, Proc.files, (hsame r).2.2.2.1]
  refine ⟨by rw [howners]; exact Effect.refl .., ⟨by rw [howners]; exact hv.good, ?_, ?_, ?_⟩, ?_⟩
  · rw [hopened]
    exact hv.filed
  · intro r hr hstate fd hfd
    rw [(hsame r).2.2.2.1]
    rcases hstate with hunused | hzombie
    · exact hv.idle r hr (Or.inl ((hsame r).2.2.2.2.mp hunused)) fd hfd
    · exact hidle r hr hzombie fd hfd
  · intro r hr hstate
    rw [(hsame r).2.2.1]
    exact hv.size r hr fun hunused => hstate ((hsame r).2.2.2.2.mpr hunused)
  · intro _ hs r hr hstate u hu
    rw [(hsame r).2.1, (hsame r).2.2.1]
    exact hs r hr (fun hunused => hstate ((hsame r).2.2.2.2.mpr hunused)) u hu

theorem exit_outcome {C : Prop} (hv : Valid L s) (hp : p < NPROC)
    (hrun : (s.proc p).state = .runnable) :
    Ends (exit L p) (fun _ s' => Outcome L s s' C) (fun e => e.why ∉ mappingPanics) s := by
  rw [Vm.exit, ends_ite]
  refine ⟨fun _ => ends_bind.mpr (show "init exiting" ∉ mappingPanics by decide), fun _ => ?_⟩
  rw [ends_bind]
  refine (closeFiles_spec hv.filed hp hv.good_pipes (by omega)).mono ?_ fun _ hfalse => hfalse.elim
  rintro _ s₁ ⟨hstep, hofile⟩
  have houtcome := hstep.outcome (C := C) hv (Or.inl hrun)
  simp only [ends_bind, ends_modify, ends_pure]
  refine houtcome.trans (Outcome.of_relabel houtcome.valid (fun r => ?_) fun r hr hzombie fd hfd => ?_)
  · have hstate : (s₁.proc p).state = .runnable := by rw [hstep.self]; exact hrun
    by_cases hrp : r = p
    · subst hrp
      simp only [Function.update_self]
      split <;> simp [hstate]
    · simp only [Function.update_of_ne hrp]
      split <;> simp
  · by_cases hrp : r = p
    · rw [hrp, hofile, if_pos (by omega)]
    · simp only [Function.update_of_ne hrp] at hzombie
      refine houtcome.valid.idle r hr (Or.inr ?_) fd hfd
      split at hzombie <;> exact hzombie

theorem wait_outcome {C : Prop} (hv : Valid L s) :
    Ends (wait L p) (fun _ s' => Outcome L s s' C) (fun _ => False) s := by
  rw [wait, ends_bind, ends_get]
  cases hfind : (List.range NPROC).find? fun q =>
      (s.proc q).parent = some p && (s.proc q).state = .zombie with
  | none => exact Outcome.refl hv
  | some q =>
    have hq : q < NPROC := List.mem_range.mp (List.mem_of_find?_eq_some hfind)
    have hzombie : (s.proc q).state = .zombie := by
      have := List.find?_some hfind
      simp only [Bool.and_eq_true, decide_eq_true_eq] at this
      exact this.2
    have hused : (s.proc q).state ≠ .unused := by simp [hzombie]
    have hgood := hv.good.of_owners (procFrames_le_owners hq)
    rw [procFrames_used hused] at hgood
    simp only [ends_bind, ends_onVm]
    refine (kfree_spec (hgood.managed _ (by simp [Heap.total]))).mono ?_ fun _ hfalse => hfalse
    rintro _ m₁ rfl
    set m₁ := (s.vm.setPage (s.proc q).kstack fun _ => .junk).setFree ((s.proc q).kstack :: s.vm.free)
      with hm₁
    have hmoves : Moves s.vm.heap m₁.heap {(s.proc q).kstack} 0 := kfree_moves s.vm (s.proc q).kstack
    have hframes : frames m₁.mem (s.proc q).pgdir = frames s.vm.mem (s.proc q).pgdir :=
      frames_congr fun f hf => hmoves.mem_eq hgood.nodup (Multiset.mem_add.mpr (Or.inl hf))
    have hmoves₁ := (hmoves.add (frames s.vm.mem (s.proc q).pgdir)).cast rfl (zero_add _)
    have hgood₁ := hgood.of_moves hmoves₁
    rw [← hframes] at hgood₁
    refine (freevm_spec hgood₁).mono ?_ fun _ hfalse => hfalse
    rintro _ m₂ ⟨hmoves₂, hstarved, -⟩
    rw [hframes] at hmoves₂
    have heffect : Effect s.vm m₂ (procFrames s.vm.mem (s.proc q)) (procFrames m₂.mem
        { s.proc q with kstack := 0, state := .unused, parent := none }) := by
      rw [procFrames_used hused, procFrames_unused rfl]
      exact Effect.of_moves (hmoves₁.trans hmoves₂) hstarved
    change Outcome L s ((s.setVm m₂).setProc q
      { s.proc q with kstack := 0, state := .unused, parent := none }) C
    refine ⟨effect_setProc hv.good hq heffect, hv.setProc hq heffect rfl ?_ ?_, ?_⟩
    · exact fun _ => hv.idle q hq (Or.inr hzombie)
    · exact fun hfalse => absurd rfl hfalse
    · exact fun _ hs => sized_setProc hv.good hq heffect hs fun hfalse => absurd rfl hfalse

/-- A slot of the process table that stays free. -/
theorem Outcome.of_slot {C : Prop} {m : Machine} (hv : Valid L s) (hp : p < NPROC)
    (hslot : (s.proc p).state = .unused) (hq : q.state = .unused)
    (hofile : q.ofile = (s.proc p).ofile) (h : Effect s.vm m 0 0) :
    Outcome L s ((s.setVm m).setProc p q) C ∧ ((s.setVm m).setProc p q).owners = s.owners := by
  have heffect : Effect s.vm m (procFrames s.vm.mem (s.proc p)) (procFrames m.mem q) := by
    rwa [procFrames_unused hslot, procFrames_unused hq]
  refine ⟨⟨effect_setProc hv.good hp heffect, hv.setProc hp heffect hofile ?_ ?_, ?_⟩, ?_⟩
  · exact fun _ => hofile ▸ hv.idle p hp (Or.inl hslot)
  · exact fun hne => absurd hq hne
  · exact fun _ hs => sized_setProc hv.good hp heffect hs fun hne => absurd hq hne
  · rw [System.owners_eq _ hp, rest_setProc hv.good hp heffect, System.setProc_proc,
      Function.update_self, s.owners_eq hp, procFrames_unused hslot, procFrames_unused hq]

theorem setProc_setVm_setProc (s : System) (p : ℕ) (q q' : Proc) (m : Machine) :
    ((s.setProc p q).setVm m).setProc p q' = (s.setVm m).setProc p q' := by
  simp [System.setProc, System.setVm]

theorem setProc_setProc (s : System) (p : ℕ) (q q' : Proc) :
    (s.setProc p q).setProc p q' = s.setProc p q' := by
  simp [System.setProc]

theorem allocproc_spec (s : System) :
    Ends allocproc (fun r s' =>
      (r = none ∧ s' = s ∧ ∀ q < NPROC, (s.proc q).state ≠ .unused) ∨
      ∃ q < NPROC, (s.proc q).state = .unused ∧ (∀ r < q, (s.proc r).state ≠ .unused) ∧
      ((r = none ∧ (s.vm.free = [] ∨ s.vm.luck 0 = false) ∧
          s' = (s.setVm s.vm.draw).setProc q { s.proc q with kstack := 0, state := .unused }) ∨
        ∃ k l, s.vm.free = k :: l ∧ r = some q ∧
          s' = (s.setVm (s.vm.draw.setFree l)).setProc q { s.proc q with state := .embryo, kstack := k }))
      (fun _ => False) s := by
  rw [allocproc, ends_bind, ends_get]
  cases hfind : (List.range NPROC).find? fun q => (s.proc q).state = .unused with
  | none =>
    rw [List.find?_eq_none] at hfind
    exact Or.inl ⟨rfl, rfl, fun q hq => by simpa using hfind q (List.mem_range.mpr hq)⟩
  | some q =>
    rw [List.find?_range_eq_some] at hfind
    obtain ⟨hunused, hq, hfirst⟩ := hfind
    rw [decide_eq_true_eq] at hunused
    have hq := List.mem_range.mp hq
    have hfirst : ∀ r < q, (s.proc r).state ≠ .unused := fun r hr => by simpa using hfirst r hr
    simp only [ends_bind, ends_set, ends_onVm]
    refine (kalloc_spec s.vm).mono ?_ fun _ hfalse => hfalse
    rintro r m (⟨rfl, rfl, hwhy⟩ | ⟨k, l, hfree, rfl, rfl⟩)
    · refine Or.inr ⟨q, hq, hunused, hfirst, Or.inl ⟨rfl, hwhy, ?_⟩⟩
      beta_reduce
      rw [setProc_setVm_setProc]
      simp
    · refine Or.inr ⟨q, hq, hunused, hfirst, Or.inr ⟨k, l, hfree, rfl, ?_⟩⟩
      beta_reduce
      rw [setProc_setVm_setProc]
      simp

/-- A slot that has become a process. -/
theorem Outcome.of_born {C : Prop} {m : Machine} (hv : Valid L s) (hp : p < NPROC)
    (hslot : (s.proc p).state = .unused) (hq : q.state = .runnable ∨ q.state = .embryo)
    (hofile : q.ofile = (s.proc p).ofile) (h : Effect s.vm m 0 ({q.kstack} + frames m.mem q.pgdir))
    (hsize : q.sz ≤ kernbase * PGSIZE) (hsized : s.Sized → q.Sized m.mem) :
    Outcome L s ((s.setVm m).setProc p q) C := by
  have heffect : Effect s.vm m (procFrames s.vm.mem (s.proc p)) (procFrames m.mem q) := by
    rwa [procFrames_unused hslot, procFrames_used (by rcases hq with hq | hq <;> simp [hq])]
  refine ⟨effect_setProc hv.good hp heffect, hv.setProc hp heffect hofile ?_ fun _ => hsize, ?_⟩
  · intro hidle
    rcases hq with hq | hq <;> simp [hq] at hidle
  · exact fun _ hs => sized_setProc hv.good hp heffect hs fun _ => hsized hs

theorem fork_outcome {C : Prop} (hv : Valid L s) (hp : p < NPROC)
    (hrun : (s.proc p).state = .runnable) :
    Ends (fork L p) (fun ok s' => Outcome L s s' C ∧ (ok = false → s'.owners = s.owners))
      (fun e => s.Sized → e.why ∉ mappingPanics) s := by
  have hused : (s.proc p).state ≠ .unused := by simp [hrun]
  rw [fork, ends_bind]
  refine (allocproc_spec s).mono ?_ fun _ hfalse => hfalse.elim
  rintro r s₁ (⟨rfl, rfl, -⟩ | ⟨q, hq, hslot, -, ⟨rfl, -, rfl⟩ | ⟨k, l, hfree, rfl, rfl⟩⟩)
  · exact ⟨Outcome.refl hv, fun _ => rfl⟩
  · have hslot' := Outcome.of_slot (C := C) (q := { s.proc q with kstack := 0, state := .unused }) hv hq
      hslot rfl rfl (Effect.of_moves (Moves.refl s.vm.heap 0) rfl : Effect s.vm s.vm.draw 0 0)
    exact ⟨hslot'.1, fun _ => hslot'.2⟩
  -- The new process has a kernel stack `k` and no address space yet.
  have hqp : p ≠ q := fun heq => hused (heq ▸ hslot)
  have htake := kalloc_takes hfree
  have hgood₁ : Good L ((s.vm.draw.setFree l).heap.total ({k} + s.owners)) :=
    hv.good.of_moves ((htake.add s.owners).cast (zero_add _) rfl)
  have hspace : frames s.vm.mem (s.proc p).pgdir ≤ s.owners := by
    refine le_trans ?_ (procFrames_le_owners hp)
    rw [procFrames_used hused]
    exact Multiset.le_add_left ..
  simp only [ends_bind, ends_get, ends_onVm, System.setProc_proc, Function.update_self,
    Function.update_of_ne hqp, System.setVm_proc, System.setProc_vm, System.setVm_vm]
  refine (copyuvm_spec (hgood₁.mono (add_le_add_right (hspace.trans (Multiset.le_add_left ..)) _))
    (hv.size p hp hused)).mono ?_ ?_
  swap
  · rintro e ⟨-, u, hu, hp'⟩ hs
    have hlast := pages_le_kernbase (hv.size p hp hused)
    have hpres := hs p hp hused u (by omega)
    rw [decide_eq_true hu] at hpres
    exact absurd (hpres.symm.trans hp') (by simp)
  rintro r m (⟨d, rfl, hmoves, hsized, hstarved, -⟩ | ⟨rfl, heffect, -⟩)
  · -- The address space is complete, and the descriptors are copied.
    have heffect : Effect s.vm m 0 ({k} + frames m.mem d) :=
      Effect.of_moves (htake.trans ((hmoves.add {k}).cast (zero_add _) (add_comm ..))) hstarved
    set q₁ : Proc := ⟨.embryo, k, d, (s.proc p).sz, some p, (s.proc q).ofile⟩ with hq₁
    have hborn : Outcome L s ((s.setVm m).setProc q q₁) C :=
      Outcome.of_born hv hq hslot (Or.inr rfl) rfl heffect (hv.size p hp hused) fun _ => hsized
    simp only [ends_bind, ends_modify]
    rw [setProc_setVm_setProc]
    simp only [System.setProc_proc, System.setVm_proc, Function.update_self, Function.update_of_ne hqp]
    change Ends _ _ _ ((s.setVm m).setProc q q₁)
    refine (dupFiles_spec hborn.valid.filed hp hq (by omega) fun i _ hi => ?_).mono ?_
      fun _ hfalse => hfalse.elim
    · rw [System.setProc_proc, Function.update_self]
      exact hv.idle q hq (Or.inl hslot) i hi
    · intro _ s₂ hstep
      have hembryo : (((s.setVm m).setProc q q₁).proc q).state = .embryo := by
        rw [System.setProc_proc, Function.update_self]
      have houtcome := hborn.trans (hstep.outcome hborn.valid (Or.inr hembryo))
      refine ⟨houtcome.trans (Outcome.of_relabel houtcome.valid (fun r => ?_) fun r hr hzombie => ?_),
        fun hfalse => by cases hfalse⟩
      · by_cases hrq : r = q
        · subst hrq
          have hused₂ : (s₂.proc r).state = .embryo := by rw [hstep.self]; exact hembryo
          simp [hused₂]
        · simp [Function.update_of_ne hrq]
      · by_cases hrq : r = q
        · subst hrq
          simp at hzombie
        · simp only [Function.update_of_ne hrq] at hzombie
          exact houtcome.valid.idle r hr (Or.inr hzombie)
  · -- The kernel stack is given back.
    have hk : L.first ≤ k ∧ k < phystop := hgood₁.managed k (by simp [Heap.total])
    simp only [ends_bind, ends_onVm, System.setVm_vm]
    refine (kfree_spec hk).mono ?_ fun _ hfalse => hfalse.elim
    rintro _ m' rfl
    have heffect' : Effect s.vm ((m.setPage k fun _ => .junk).setFree (k :: m.free)) 0 0 :=
      ((Effect.of_moves htake rfl).trans ((heffect.add {k}).cast (zero_add _) (zero_add _))).trans
        (Effect.of_moves (kfree_moves m k) rfl)
    have hslot' := Outcome.of_slot (C := C) (q := { s.proc q with pgdir := 0, kstack := 0, state := .unused })
      hv hq hslot rfl rfl heffect'
    simp only [ends_modify, ends_pure, System.setProc, System.setVm, Function.update_idem,
      Function.update_self] at hslot' ⊢
    exact ⟨hslot'.1, fun _ => hslot'.2⟩

end Lainos.Vm
