import Lainos.Vm.Process
import Lainos.Vm.Confine

/-!
# The file table and the pipes

A pipe lives in a frame. The frame is given back when both ends are closed, so the frames
held by pipes are those that an entry of the file table names.
-/

namespace Lainos.Vm

open Library Exec Finset

variable {L : Layout} {s s' : System} {T T' : Multiset ℕ} {f : ℕ}

@[simp] theorem ends_onVm {α : Type} {x : VAct α} {Q : α → System → Prop} {E : Halt → Prop} :
    Ends (onVm x) Q E s ↔ Ends x (fun a m => Q a (s.setVm m)) E s.vm := by
  unfold Ends onVm
  cases x s.vm <;> rfl

@[simp] theorem ends_sysPanic {α : Type} {Q : α → System → Prop} {E : Halt → Prop} {why : String} :
    Ends (sysPanic why : SAct α) Q E s ↔ E ⟨why, s.vm.stores⟩ := Iff.rfl

def Pipe.isOpen (x : Pipe) (writable : Bool) : Bool := if writable then x.writeopen else x.readopen

/-- The frames of the pipes. -/
def pipeFrames (file : ℕ → File) : Finset ℕ :=
  ((range NFILE).filter fun f => (file f).type = .pipe).image fun f => (file f).pipe

theorem mem_pipeFrames {file : ℕ → File} {x : ℕ} :
    x ∈ pipeFrames file ↔ ∃ f < NFILE, (file f).type = .pipe ∧ (file f).pipe = x := by
  simp [pipeFrames, and_assoc]

/-- The file table when the references to files are those in `T`. -/
structure Filed (T : Multiset ℕ) (file : ℕ → File) (pipe : ℕ → Pipe) : Prop where
  refs : ∀ f < NFILE, (file f).ref = T.count f
  range : ∀ f ∈ T, f < NFILE
  closed : ∀ f < NFILE, (file f).ref = 0 → (file f).type = .none
  ends : ∀ f < NFILE, (file f).type = .pipe →
    (pipe (file f).pipe).isOpen (file f).writable = true
  unique : ∀ f < NFILE, ∀ g < NFILE, (file f).type = .pipe → (file g).type = .pipe →
    (file f).pipe = (file g).pipe → (file f).writable = (file g).writable → f = g
  other : ∀ f < NFILE, (file f).type = .pipe → ∀ w, (pipe (file f).pipe).isOpen w = true →
    ∃ g < NFILE, (file g).type = .pipe ∧ (file g).pipe = (file f).pipe ∧ (file g).writable = w

/-- Changing the number of references of a file that stays open. -/
theorem Filed.setRef {file : ℕ → File} {pipe : ℕ → Pipe} {n : ℕ} (h : Filed T file pipe)
    (hn : n = T'.count f) (hne : n = 0 → (file f).type = .none)
    (hother : ∀ g, g ≠ f → T'.count g = T.count g) (hrange : ∀ g ∈ T', g < NFILE) :
    Filed T' (Function.update file f { file f with ref := n }) pipe ∧
      pipeFrames (Function.update file f { file f with ref := n }) = pipeFrames file := by
  set file' := Function.update file f { file f with ref := n } with hfile'
  have hself : file' f = { file f with ref := n } := Function.update_self ..
  have hne' : ∀ g, g ≠ f → file' g = file g := fun g hg => Function.update_of_ne hg ..
  have htype : ∀ g, (file' g).type = (file g).type := fun g => by
    by_cases hg : g = f
    · rw [hg, hself]
    · rw [hne' g hg]
  have hpipe : ∀ g, (file' g).pipe = (file g).pipe := fun g => by
    by_cases hg : g = f
    · rw [hg, hself]
    · rw [hne' g hg]
  have hwritable : ∀ g, (file' g).writable = (file g).writable := fun g => by
    by_cases hg : g = f
    · rw [hg, hself]
    · rw [hne' g hg]
  refine ⟨⟨fun g hg => ?_, hrange, fun g hg hzero => ?_, ?_, ?_, ?_⟩, ?_⟩
  · by_cases hgf : g = f
    · rw [hgf, hself, hn]
    · rw [hne' g hgf, h.refs g hg, hother g hgf]
  · rw [htype]
    by_cases hgf : g = f
    · rw [hgf, hself] at hzero
      exact hgf ▸ hne hzero
    · rw [hne' g hgf] at hzero
      exact h.closed g hg hzero
  · simpa only [htype, hpipe, hwritable] using h.ends
  · simpa only [htype, hpipe, hwritable] using h.unique
  · simpa only [htype, hpipe, hwritable] using h.other
  · simp only [pipeFrames, htype, hpipe]

/-- What code that works on the file table does, starting with the references `T` and
ending with `T'`. -/
structure FileStep (s s' : System) (T' : Multiset ℕ) : Prop where
  proc : s'.proc = s.proc
  kpgdir : s'.kpgdir = s.kpgdir
  cpus : s'.cpus = s.cpus
  filed : Filed T' s'.file s'.pipe
  moves : Moves s.vm.heap s'.vm.heap (pipeFrames s.file).val (pipeFrames s'.file).val
  starved : s'.vm.starved = s.vm.starved

theorem FileStep.refl (h : Filed T s.file s.pipe) : FileStep s s T :=
  ⟨rfl, rfl, rfl, h, Moves.refl .., rfl⟩

theorem FileStep.trans {s'' : System} (h₁ : FileStep s s' T) (h₂ : FileStep s' s'' T') :
    FileStep s s'' T' :=
  ⟨h₂.proc.trans h₁.proc, h₂.kpgdir.trans h₁.kpgdir, h₂.cpus.trans h₁.cpus, h₂.filed,
    h₁.moves.trans h₂.moves, h₂.starved.trans h₁.starved⟩

theorem FileStep.setRef {n : ℕ} (h : Filed T s.file s.pipe) (hn : n = T'.count f)
    (hne : n = 0 → (s.file f).type = .none) (hother : ∀ g, g ≠ f → T'.count g = T.count g)
    (hrange : ∀ g ∈ T', g < NFILE) : FileStep s (s.setFile f { s.file f with ref := n }) T' := by
  obtain ⟨hfiled, hframes⟩ := h.setRef hn hne hother hrange
  refine ⟨rfl, rfl, rfl, hfiled, ?_, rfl⟩
  rw [System.setFile_file, hframes]
  exact Moves.refl ..

theorem filealloc_spec (h : Filed T s.file s.pipe) :
    Ends filealloc (fun r s' => (r = none ∧ s' = s) ∨
      ∃ f < NFILE, r = some f ∧ f ∉ T ∧ (s.file f).type = .none ∧ (s'.file f).type = .none ∧
        (∀ g, g ≠ f → s'.file g = s.file g) ∧ FileStep s s' (f ::ₘ T))
      (fun _ => False) s := by
  rw [filealloc, ends_bind, ends_get]
  cases hfind : (List.range NFILE).find? fun f => (s.file f).ref = 0 with
  | none => exact Or.inl ⟨rfl, rfl⟩
  | some f =>
    have hf : f < NFILE := List.mem_range.mp (List.mem_of_find?_eq_some hfind)
    have hzero : (s.file f).ref = 0 := by simpa using List.find?_some hfind
    have hcount : T.count f = 0 := by rw [← h.refs f hf, hzero]
    have hnone := h.closed f hf hzero
    refine Or.inr ⟨f, hf, rfl, Multiset.count_eq_zero.mp hcount, hnone, ?_,
      fun g hg => Function.update_of_ne hg .., ?_⟩
    · rw [System.setFile_file, Function.update_self, hnone]
    · refine FileStep.setRef h ?_ (fun hfalse => by omega) (fun g hg => ?_) fun g hg => ?_
      · rw [Multiset.count_cons_self, hcount]
      · rw [Multiset.count_cons_of_ne hg]
      · rcases Multiset.mem_cons.mp hg with rfl | hg
        · exact hf
        · exact h.range g hg

theorem filedup_spec (h : Filed T s.file s.pipe) (hf : f ∈ T) :
    Ends (filedup f) (fun _ s' => FileStep s s' (f ::ₘ T)) (fun _ => False) s := by
  have hlt := h.range f hf
  have hpos : 0 < T.count f := Multiset.count_pos.mpr hf
  have href := h.refs f hlt
  rw [filedup, ends_bind, ends_get]
  rw [if_neg (by omega)]
  refine FileStep.setRef h ?_ (fun hfalse => by omega) (fun g hg => ?_) fun g hg => ?_
  · rw [Multiset.count_cons_self, href]
  · rw [Multiset.count_cons_of_ne hg]
  · rcases Multiset.mem_cons.mp hg with rfl | hg
    · exact hlt
    · exact h.range g hg

/-! ## Closing -/

def Pipe.shut (x : Pipe) (writable : Bool) : Pipe :=
  if writable then { x with writeopen := false } else { x with readopen := false }

theorem Pipe.isOpen_shut (x : Pipe) (w w' : Bool) :
    (x.shut w).isOpen w' = (x.isOpen w' && decide (w' ≠ w)) := by
  cases w <;> cases w' <;> simp [Pipe.shut, Pipe.isOpen]

theorem Pipe.isOpen_or (x : Pipe) (w : Bool) :
    (!x.readopen && !x.writeopen) = true ↔ x.isOpen w = false ∧ x.isOpen (!w) = false := by
  cases w <;> simp [Pipe.isOpen, and_comm]

section Drop

variable {file : ℕ → File} {pipe : ℕ → Pipe}

/-- The table without the file `f`. -/
def dropFile (file : ℕ → File) (f : ℕ) : ℕ → File :=
  Function.update file f { file f with ref := 0, type := .none }

theorem dropFile_self : dropFile file f f = { file f with ref := 0, type := .none } :=
  Function.update_self ..

theorem dropFile_of_ne {g : ℕ} (h : g ≠ f) : dropFile file f g = file g := Function.update_of_ne h ..

theorem dropFile_pipe {g : ℕ} : (dropFile file f g).type = .pipe ↔ (file g).type = .pipe ∧ g ≠ f := by
  by_cases hg : g = f
  · subst hg
    simp [dropFile_self]
  · simp [dropFile_of_ne hg, hg]

/-- Dropping a file, for any state of the pipes that agrees with the files left. -/
theorem Filed.drop {pipe' : ℕ → Pipe} (h : Filed (f ::ₘ T) file pipe) (hf : f ∉ T)
    (hends : ∀ g < NFILE, g ≠ f → (file g).type = .pipe →
      (pipe' (file g).pipe).isOpen (file g).writable = true)
    (hother : ∀ g < NFILE, g ≠ f → (file g).type = .pipe →
      ∀ w, (pipe' (file g).pipe).isOpen w = true → ∃ k < NFILE, k ≠ f ∧
        (file k).type = .pipe ∧ (file k).pipe = (file g).pipe ∧ (file k).writable = w) :
    Filed T (dropFile file f) pipe' where
  refs g hg := by
    by_cases hgf : g = f
    · rw [hgf, dropFile_self, Multiset.count_eq_zero.mpr hf]
    · rw [dropFile_of_ne hgf, h.refs g hg, Multiset.count_cons_of_ne hgf]
  range g hg := h.range g (Multiset.mem_cons_of_mem hg)
  closed g hg hzero := by
    by_cases hgf : g = f
    · rw [hgf, dropFile_self]
    · rw [dropFile_of_ne hgf] at hzero ⊢
      exact h.closed g hg hzero
  ends g hg hpipe := by
    obtain ⟨hpipe, hgf⟩ := dropFile_pipe.mp hpipe
    rw [dropFile_of_ne hgf]
    exact hends g hg hgf hpipe
  unique g hg k hk hg' hk' := by
    obtain ⟨hg', hgf⟩ := dropFile_pipe.mp hg'
    obtain ⟨hk', hkf⟩ := dropFile_pipe.mp hk'
    rw [dropFile_of_ne hgf, dropFile_of_ne hkf]
    exact h.unique g hg k hk hg' hk'
  other g hg hpipe w hw := by
    obtain ⟨hpipe, hgf⟩ := dropFile_pipe.mp hpipe
    rw [dropFile_of_ne hgf] at hw ⊢
    obtain ⟨k, hk, hkf, htype, hkpipe, hkw⟩ := hother g hg hgf hpipe w hw
    exact ⟨k, hk, dropFile_pipe.mpr ⟨htype, hkf⟩, by rwa [dropFile_of_ne hkf],
      by rwa [dropFile_of_ne hkf]⟩

theorem mem_pipeFrames_dropFile {x : ℕ} : x ∈ pipeFrames (dropFile file f) ↔
    ∃ g < NFILE, g ≠ f ∧ (file g).type = .pipe ∧ (file g).pipe = x := by
  rw [mem_pipeFrames]
  refine exists_congr fun g => and_congr_right fun _ => ?_
  rw [dropFile_pipe]
  constructor
  · rintro ⟨⟨htype, hgf⟩, hpipe⟩
    exact ⟨hgf, htype, by rwa [dropFile_of_ne hgf] at hpipe⟩
  · rintro ⟨hgf, htype, hpipe⟩
    exact ⟨⟨htype, hgf⟩, by rwa [dropFile_of_ne hgf]⟩

/-- Dropping a file that is not a pipe. -/
theorem Filed.drop_plain (h : Filed (f ::ₘ T) file pipe) (hf : f ∉ T)
    (htype : (file f).type ≠ .pipe) :
    Filed T (dropFile file f) pipe ∧ pipeFrames (dropFile file f) = pipeFrames file := by
  have hne : ∀ g, (file g).type = .pipe → g ≠ f := fun g hg heq => htype (heq ▸ hg)
  refine ⟨h.drop hf (fun g hg _ => h.ends g hg) fun g hg _ hpipe w hw => ?_, ?_⟩
  · obtain ⟨k, hk, hktype, hkpipe, hkw⟩ := h.other g hg hpipe w hw
    exact ⟨k, hk, hne k hktype, hktype, hkpipe, hkw⟩
  · ext x
    rw [mem_pipeFrames_dropFile, mem_pipeFrames]
    exact exists_congr fun g => and_congr_right fun _ =>
      ⟨fun ⟨_, htype, hpipe⟩ => ⟨htype, hpipe⟩, fun ⟨htype, hpipe⟩ => ⟨hne g htype, htype, hpipe⟩⟩

/-- Dropping one end of a pipe. -/
theorem Filed.drop_end (h : Filed (f ::ₘ T) file pipe) (hf : f ∉ T) (htype : (file f).type = .pipe) :
    Filed T (dropFile file f) (Function.update pipe (file f).pipe
      ((pipe (file f).pipe).shut (file f).writable)) := by
  have hlt := h.range f (Multiset.mem_cons_self f T)
  refine h.drop hf (fun g hg hgf hpipe => ?_) fun g hg hgf hpipe w hw => ?_
  · by_cases hsame : (file g).pipe = (file f).pipe
    · have hw : (file g).writable ≠ (file f).writable := fun heq =>
        hgf (h.unique g hg f hlt hpipe htype hsame heq)
      rw [hsame, Function.update_self, Pipe.isOpen_shut, ← hsame, h.ends g hg hpipe]
      simpa using hw
    · rw [Function.update_of_ne hsame]
      exact h.ends g hg hpipe
  · by_cases hsame : (file g).pipe = (file f).pipe
    · rw [hsame, Function.update_self, Pipe.isOpen_shut, Bool.and_eq_true, decide_eq_true_eq] at hw
      obtain ⟨k, hk, hktype, hkpipe, hkw⟩ := h.other f hlt htype w hw.1
      refine ⟨k, hk, ?_, hktype, hkpipe.trans hsame.symm, hkw⟩
      rintro rfl
      exact hw.2 hkw.symm
    · rw [Function.update_of_ne hsame] at hw
      obtain ⟨k, hk, hktype, hkpipe, hkw⟩ := h.other g hg hpipe w hw
      refine ⟨k, hk, ?_, hktype, hkpipe, hkw⟩
      rintro rfl
      exact hsame hkpipe.symm

/-- Once its other end is closed too, no file names the pipe. -/
theorem Filed.pipeFrames_last (h : Filed (f ::ₘ T) file pipe) (htype : (file f).type = .pipe)
    (hshut : (pipe (file f).pipe).isOpen (!(file f).writable) = false) :
    pipeFrames (dropFile file f) = (pipeFrames file).erase (file f).pipe := by
  have hlt := h.range f (Multiset.mem_cons_self f T)
  ext x
  rw [mem_pipeFrames_dropFile, mem_erase, mem_pipeFrames]
  constructor
  · rintro ⟨g, hg, hgf, hgtype, rfl⟩
    refine ⟨fun hsame => ?_, g, hg, hgtype, rfl⟩
    have hw : (file g).writable ≠ (file f).writable := fun heq =>
      hgf (h.unique g hg f hlt hgtype htype hsame heq)
    have hopen := h.ends g hg hgtype
    rw [hsame, Bool.eq_not_of_ne hw, hshut] at hopen
    cases hopen
  · rintro ⟨hne, g, hg, hgtype, rfl⟩
    exact ⟨g, hg, fun hgf => hne (hgf ▸ rfl), hgtype, rfl⟩

theorem Filed.pipeFrames_first (h : Filed (f ::ₘ T) file pipe) (htype : (file f).type = .pipe)
    (hopen : (pipe (file f).pipe).isOpen (!(file f).writable) = true) :
    pipeFrames (dropFile file f) = pipeFrames file := by
  have hlt := h.range f (Multiset.mem_cons_self f T)
  obtain ⟨k, hk, hktype, hkpipe, hkw⟩ := h.other f hlt htype _ hopen
  have hkf : k ≠ f := by
    rintro rfl
    simp at hkw
  ext x
  rw [mem_pipeFrames_dropFile, mem_pipeFrames]
  constructor
  · rintro ⟨g, hg, -, hgtype, hpipe⟩
    exact ⟨g, hg, hgtype, hpipe⟩
  · rintro ⟨g, hg, hgtype, hpipe⟩
    by_cases hgf : g = f
    · exact ⟨k, hk, hkf, hktype, by rw [hkpipe, ← hgf, hpipe]⟩
    · exact ⟨g, hg, hgf, hgtype, hpipe⟩

end Drop

theorem pipeclose_spec {x : ℕ} {w : Bool} (hx : L.first ≤ x ∧ x < phystop) :
    Ends (pipeclose L x w) (fun _ s' =>
      (s' = (s.setPipe x ((s.pipe x).shut w)) ∧ (s.pipe x).isOpen (!w) = true) ∨
      ((s.pipe x).isOpen (!w) = false ∧ s' = (s.setPipe x ((s.pipe x).shut w)).setVm
        ((s.vm.setPage x fun _ => .junk).setFree (x :: s.vm.free))))
      (fun _ => False) s := by
  rw [pipeclose, ends_bind, ends_modify, ends_bind, ends_get]
  change Ends (if (!((s.setPipe x ((s.pipe x).shut w)).pipe x).readopen &&
    !((s.setPipe x ((s.pipe x).shut w)).pipe x).writeopen) = true then _ else _) _ _ _
  rw [System.setPipe_pipe, Function.update_self, ends_ite, Pipe.isOpen_or _ w, Pipe.isOpen_shut,
    Pipe.isOpen_shut]
  refine ⟨fun hboth => ends_onVm.mpr ?_, fun hne => Or.inl ⟨rfl, ?_⟩⟩
  · refine (kfree_spec hx).mono ?_ fun _ hfalse => hfalse
    rintro _ m rfl
    exact Or.inr ⟨by simpa using hboth, rfl⟩
  · simpa using hne

theorem fileclose_spec (h : Filed (f ::ₘ T) s.file s.pipe)
    (hmanaged : ∀ x ∈ pipeFrames s.file, L.first ≤ x ∧ x < phystop) :
    Ends (fileclose L f) (fun _ s' => FileStep s s' T ∧ (∀ g, g ≠ f → s'.file g = s.file g) ∧
      (f ∉ T → (s'.file f).type = .none)) (fun _ => False) s := by
  have hlt := h.range f (Multiset.mem_cons_self f T)
  have href := h.refs f hlt
  rw [Multiset.count_cons_self] at href
  rw [fileclose, ends_bind, ends_get, if_neg (by omega), ends_ite]
  refine ⟨fun hmany => ?_, fun hlast => ?_⟩
  · refine ⟨?_, fun g hg => Function.update_of_ne hg .., fun hf => ?_⟩
    · refine FileStep.setRef h (by omega) (fun hfalse => by omega) (fun g hg => ?_) fun g hg => ?_
      · rw [Multiset.count_cons_of_ne hg]
      · exact h.range g (Multiset.mem_cons_of_mem hg)
    · rw [← Multiset.count_eq_zero] at hf
      omega
  · have hf : f ∉ T := Multiset.count_eq_zero.mp (by omega)
    rw [ends_bind, ends_set, ends_ite]
    have hfile : (s.setFile f { s.file f with ref := 0, type := .none }).file = dropFile s.file f := rfl
    have hrest : (∀ g, g ≠ f → dropFile s.file f g = s.file g) ∧
        (f ∉ T → (dropFile s.file f f).type = .none) :=
      ⟨fun g hg => dropFile_of_ne hg, fun _ => by rw [dropFile_self]⟩
    refine ⟨fun htype => ?_, fun htype => ?_⟩
    · have hmem : (s.file f).pipe ∈ pipeFrames s.file := mem_pipeFrames.mpr ⟨f, hlt, htype, rfl⟩
      refine (pipeclose_spec (hmanaged _ hmem)).mono ?_ fun _ hfalse => hfalse
      have hfiled := h.drop_end hf htype
      rintro _ s' (⟨rfl, hopen⟩ | ⟨hshut, rfl⟩)
      · refine ⟨⟨rfl, rfl, rfl, hfiled, ?_, rfl⟩, hrest⟩
        rw [System.setPipe_file, hfile, h.pipeFrames_first htype hopen]
        exact Moves.refl ..
      · refine ⟨⟨rfl, rfl, rfl, hfiled, ?_, rfl⟩, hrest⟩
        rw [System.setVm_file, System.setPipe_file, hfile, h.pipeFrames_last htype hshut, erase_val]
        refine ((kfree_moves s.vm (s.file f).pipe).add
          ((pipeFrames s.file).val.erase (s.file f).pipe)).cast ?_ (zero_add _)
        rw [Multiset.singleton_add, Multiset.cons_erase hmem]
    · obtain ⟨hfiled, hframes⟩ := h.drop_plain hf htype
      refine ⟨⟨rfl, rfl, rfl, hfiled, ?_, rfl⟩, hrest⟩
      rw [hfile, hframes]
      exact Moves.refl ..

/-! ## Making a pipe -/

section Make

variable {file : ℕ → File} {pipe : ℕ → Pipe} {f₀ f₁ x : ℕ}

/-- The table with both ends of a pipe in the frame `x`. -/
def pipeFiles (file : ℕ → File) (f₀ f₁ x : ℕ) : ℕ → File :=
  Function.update (Function.update file f₀
    { file f₀ with type := .pipe, writable := false, pipe := x }) f₁
      { file f₁ with type := .pipe, writable := true, pipe := x }

variable (hne : f₀ ≠ f₁)

include hne

theorem pipeFiles_reader : pipeFiles file f₀ f₁ x f₀ =
    { file f₀ with type := .pipe, writable := false, pipe := x } := by
  rw [pipeFiles, Function.update_of_ne hne, Function.update_self]

omit hne in
theorem pipeFiles_writer : pipeFiles file f₀ f₁ x f₁ =
    { file f₁ with type := .pipe, writable := true, pipe := x } := Function.update_self ..

omit hne in
theorem pipeFiles_of_ne {g : ℕ} (h₀ : g ≠ f₀) (h₁ : g ≠ f₁) : pipeFiles file f₀ f₁ x g = file g := by
  rw [pipeFiles, Function.update_of_ne h₁, Function.update_of_ne h₀]

theorem pipeFiles_ref (g : ℕ) : (pipeFiles file f₀ f₁ x g).ref = (file g).ref := by
  by_cases h₁ : g = f₁
  · rw [h₁, pipeFiles_writer]
  by_cases h₀ : g = f₀
  · rw [h₀, pipeFiles_reader hne]
  · rw [pipeFiles_of_ne h₀ h₁]

variable (htype₀ : (file f₀).type = .none) (htype₁ : (file f₁).type = .none)

include htype₀ htype₁

/-- The pipes of the new table: an end of the new one, or one there was. -/
theorem pipeFiles_pipe {g : ℕ} (h : (pipeFiles file f₀ f₁ x g).type = .pipe) :
    (g = f₀ ∧ (pipeFiles file f₀ f₁ x g).writable = false ∧ (pipeFiles file f₀ f₁ x g).pipe = x) ∨
    (g = f₁ ∧ (pipeFiles file f₀ f₁ x g).writable = true ∧ (pipeFiles file f₀ f₁ x g).pipe = x) ∨
    ((file g).type = .pipe ∧ pipeFiles file f₀ f₁ x g = file g) := by
  by_cases h₀ : g = f₀
  · subst h₀
    exact Or.inl ⟨rfl, by rw [pipeFiles_reader hne], by rw [pipeFiles_reader hne]⟩
  by_cases h₁ : g = f₁
  · subst h₁
    exact Or.inr (Or.inl ⟨rfl, by rw [pipeFiles_writer], by rw [pipeFiles_writer]⟩)
  · rw [pipeFiles_of_ne h₀ h₁] at h
    exact Or.inr (Or.inr ⟨h, pipeFiles_of_ne h₀ h₁⟩)

theorem pipeFiles_old {g : ℕ} (h : (file g).type = .pipe) : pipeFiles file f₀ f₁ x g = file g := by
  refine pipeFiles_of_ne ?_ ?_
  · rintro rfl
    rw [h] at htype₀
    cases htype₀
  · rintro rfl
    rw [h] at htype₁
    cases htype₁

theorem pipeFrames_pipeFiles (hf₁ : f₁ < NFILE) :
    pipeFrames (pipeFiles file f₀ f₁ x) = insert x (pipeFrames file) := by
  ext y
  rw [mem_pipeFrames, mem_insert, mem_pipeFrames]
  constructor
  · rintro ⟨g, hg, htype, hpipe⟩
    obtain ⟨-, -, hx⟩ | ⟨-, -, hx⟩ | ⟨hold, hsame⟩ := pipeFiles_pipe hne htype₀ htype₁ htype
    · exact Or.inl (hpipe.symm.trans hx)
    · exact Or.inl (hpipe.symm.trans hx)
    · exact Or.inr ⟨g, hg, hold, by rwa [hsame] at hpipe⟩
  · rintro (rfl | ⟨g, hg, htype, hpipe⟩)
    · exact ⟨f₁, hf₁, by rw [pipeFiles_writer], by rw [pipeFiles_writer]⟩
    · have hsame : pipeFiles file f₀ f₁ x g = file g := pipeFiles_old hne htype₀ htype₁ htype
      exact ⟨g, hg, by rwa [hsame], by rwa [hsame]⟩

theorem Filed.makePipe (h : Filed T file pipe) (hf₀ : f₀ ∈ T) (hf₁ : f₁ ∈ T)
    (hx : x ∉ pipeFrames file) :
    Filed T (pipeFiles file f₀ f₁ x) (Function.update pipe x ⟨true, true⟩) := by
  have hold : ∀ g < NFILE, (file g).type = .pipe → (file g).pipe ≠ x := fun g hg htype heq =>
    hx (mem_pipeFrames.mpr ⟨g, hg, htype, heq⟩)
  have hlt₀ := h.range f₀ hf₀
  have hlt₁ := h.range f₁ hf₁
  have hopen : ∀ w, (⟨true, true⟩ : Pipe).isOpen w = true := fun w => by cases w <;> rfl
  have hcases := fun g => pipeFiles_pipe (g := g) (x := x) hne htype₀ htype₁
  refine ⟨fun g hg => ?_, h.range, fun g hg hzero => ?_, fun g hg htype => ?_,
    fun g hg k hk hgtype hktype hpipe hw => ?_, fun g hg htype w hw => ?_⟩
  · rw [pipeFiles_ref hne, h.refs g hg]
  · rw [pipeFiles_ref hne] at hzero
    have hcount := h.refs g hg
    rw [hzero, eq_comm, Multiset.count_eq_zero] at hcount
    rw [pipeFiles_of_ne (fun heq : g = f₀ => hcount (heq ▸ hf₀))
      fun heq : g = f₁ => hcount (heq ▸ hf₁)]
    exact h.closed g hg hzero
  · obtain ⟨-, -, hgx⟩ | ⟨-, -, hgx⟩ | ⟨hgold, hsame⟩ := hcases g htype
    · rw [hgx, Function.update_self, hopen]
    · rw [hgx, Function.update_self, hopen]
    · rw [hsame, Function.update_of_ne (hold g hg hgold)]
      exact h.ends g hg hgold
  · obtain ⟨rfl, hgw, hgx⟩ | ⟨rfl, hgw, hgx⟩ | ⟨hgold, hgsame⟩ := hcases g hgtype <;>
      obtain ⟨rfl, hkw, hkx⟩ | ⟨rfl, hkw, hkx⟩ | ⟨hkold, hksame⟩ := hcases k hktype
    · rfl
    · rw [hgw, hkw] at hw
      cases hw
    · exact absurd (hpipe.symm.trans hgx) (by rw [hksame]; exact hold k hk hkold)
    · rw [hgw, hkw] at hw
      cases hw
    · rfl
    · exact absurd (hpipe.symm.trans hgx) (by rw [hksame]; exact hold k hk hkold)
    · exact absurd (hpipe.trans hkx) (by rw [hgsame]; exact hold g hg hgold)
    · exact absurd (hpipe.trans hkx) (by rw [hgsame]; exact hold g hg hgold)
    · rw [hgsame, hksame] at hpipe hw
      exact h.unique g hg k hk hgold hkold hpipe hw
  · have hnew : (pipeFiles file f₀ f₁ x g).pipe = x → ∃ k < NFILE,
        (pipeFiles file f₀ f₁ x k).type = .pipe ∧
        (pipeFiles file f₀ f₁ x k).pipe = (pipeFiles file f₀ f₁ x g).pipe ∧
        (pipeFiles file f₀ f₁ x k).writable = w := fun hgx => by
      rw [hgx]
      cases w with
      | false => exact ⟨f₀, hlt₀, by simp [pipeFiles_reader hne]⟩
      | true => exact ⟨f₁, hlt₁, by simp [pipeFiles_writer]⟩
    obtain ⟨-, -, hgx⟩ | ⟨-, -, hgx⟩ | ⟨hgold, hsame⟩ := hcases g htype
    · exact hnew hgx
    · exact hnew hgx
    · rw [hsame, Function.update_of_ne (hold g hg hgold)] at hw
      obtain ⟨k, hk, hktype, hkpipe, hkw⟩ := h.other g hg hgold w hw
      have hksame : pipeFiles file f₀ f₁ x k = file k := pipeFiles_old hne htype₀ htype₁ hktype
      exact ⟨k, hk, by rwa [hksame], by rwa [hksame, hsame], by rwa [hksame]⟩

end Make

theorem kalloc_takes {m : Machine} {x : ℕ} {l : List ℕ} (hfree : m.free = x :: l) :
    Moves m.heap (m.draw.setFree l).heap 0 {x} := by
  refine ⟨?_, fun _ _ => rfl⟩
  simp only [Heap.total, Machine.heap, hfree, Machine.setFree_free]
  rw [← Multiset.cons_coe, add_zero, ← Multiset.singleton_add, add_comm]

/-- The tables differ only in entries that are in use in neither. -/
def SamePipes (file file' : ℕ → File) : Prop :=
  ∀ g, file' g = file g ∨ ((file' g).type = .none ∧ (file g).type = .none)

theorem SamePipes.pipeFrames_eq {file file' : ℕ → File} (h : SamePipes file file') :
    pipeFrames file' = pipeFrames file := by
  have hiff : ∀ g x, ((file' g).type = .pipe ∧ (file' g).pipe = x) ↔
      ((file g).type = .pipe ∧ (file g).pipe = x) := fun g x => by
    obtain hsame | ⟨h₁, h₂⟩ := h g
    · rw [hsame]
    · simp [h₁, h₂]
  ext x
  simp only [mem_pipeFrames, hiff]

/-- Two files that were not in use and now refer to the ends of a pipe, or are about to. -/
structure TwoFiles (s s' : System) (T : Multiset ℕ) (f₀ f₁ : ℕ) : Prop where
  step : FileStep s s' (f₀ ::ₘ f₁ ::ₘ T)
  ne : f₀ ≠ f₁
  new₀ : f₀ ∉ T
  new₁ : f₁ ∉ T
  lt₁ : f₁ < NFILE
  old₀ : (s.file f₀).type = .none
  old₁ : (s.file f₁).type = .none
  others : ∀ g, g ≠ f₀ → g ≠ f₁ → s'.file g = s.file g

/-- Closing both files leaves the pipes as they were. -/
theorem TwoFiles.close {f₀ f₁ : ℕ} (h : TwoFiles s s' T f₀ f₁)
    (hgood : Good L (s.vm.heap.total (pipeFrames s.file).val)) :
    Ends (fileclose L f₀ >>= fun _ => fileclose L f₁)
      (fun _ s' => FileStep s s' T ∧ SamePipes s.file s'.file) (fun _ => False) s' := by
  have hgood' := hgood.of_moves h.step.moves
  rw [ends_bind]
  refine (fileclose_spec h.step.filed fun x hx =>
    hgood'.managed x (Multiset.mem_add.mpr (Or.inr hx))).mono ?_ fun _ hfalse => hfalse
  rintro _ s₁ ⟨hs₁, hothers₁, hnone₁⟩
  refine (fileclose_spec hs₁.filed fun x hx => (hgood'.of_moves hs₁.moves).managed x
    (Multiset.mem_add.mpr (Or.inr hx))).mono ?_ fun _ hfalse => hfalse
  rintro _ s₂ ⟨hs₂, hothers₂, hnone₂⟩
  refine ⟨(h.step.trans hs₁).trans hs₂, fun g => ?_⟩
  by_cases hg₁ : g = f₁
  · subst hg₁
    exact Or.inr ⟨hnone₂ h.new₁, h.old₁⟩
  by_cases hg₀ : g = f₀
  · subst hg₀
    rw [hothers₂ g hg₁]
    refine Or.inr ⟨hnone₁ fun hmem => ?_, h.old₀⟩
    rcases Multiset.mem_cons.mp hmem with heq | hmem
    · exact hg₁ heq
    · exact h.new₀ hmem
  · rw [hothers₂ g hg₁, hothers₁ g hg₀]
    exact Or.inl (h.others g hg₀ hg₁)

theorem pipealloc_spec (h : Filed T s.file s.pipe)
    (hgood : Good L (s.vm.heap.total (pipeFrames s.file).val)) :
    Ends (pipealloc L) (fun r s' => (r = none ∧ FileStep s s' T ∧ SamePipes s.file s'.file) ∨
      ∃ f₀ f₁, r = some (f₀, f₁) ∧ TwoFiles s s' T f₀ f₁) (fun _ => False) s := by
  rw [pipealloc, ends_bind]
  refine (filealloc_spec h).mono ?_ fun _ hfalse => hfalse
  rintro r s₁ (⟨rfl, rfl⟩ | ⟨f₀, hlt₀, rfl, hf₀, hold₀, htype₀, hothers₁, hs₁⟩)
  · exact Or.inl ⟨rfl, FileStep.refl h, fun _ => Or.inl rfl⟩
  have hgood₁ := hgood.of_moves hs₁.moves
  simp only [ends_bind]
  refine (filealloc_spec hs₁.filed).mono ?_ fun _ hfalse => hfalse
  rintro r s₂ (⟨rfl, rfl⟩ | ⟨f₁, hlt₁, rfl, hf₁, hold₁, htype₁, hothers₂, hs₂⟩)
  · rw [ends_bind]
    refine (fileclose_spec hs₁.filed fun x hx =>
      hgood₁.managed x (Multiset.mem_add.mpr (Or.inr hx))).mono ?_ fun _ hfalse => hfalse
    rintro _ s₃ ⟨hs₃, hothers₃, hnone₃⟩
    refine Or.inl ⟨rfl, hs₁.trans hs₃, fun g => ?_⟩
    by_cases hg : g = f₀
    · subst hg
      exact Or.inr ⟨hnone₃ hf₀, hold₀⟩
    · exact Or.inl ((hothers₃ g hg).trans (hothers₁ g hg))
  have hne : f₀ ≠ f₁ := fun heq => hf₁ (heq ▸ Multiset.mem_cons_self ..)
  have hstep := hs₁.trans hs₂
  rw [Multiset.cons_swap] at hstep
  have htwo : TwoFiles s s₂ T f₀ f₁ := by
    refine ⟨hstep, hne, hf₀, fun hmem => hf₁ (Multiset.mem_cons_of_mem hmem), hlt₁, hold₀, ?_,
      fun g hg₀ hg₁ => (hothers₂ g hg₁).trans (hothers₁ g hg₀)⟩
    rwa [hothers₁ f₁ hne.symm] at hold₁
  have hgood₂ := hgood.of_moves hstep.moves
  simp only [ends_bind, ends_onVm]
  refine (kalloc_spec s₂.vm).mono ?_ fun _ hfalse => hfalse
  rintro r m (⟨rfl, rfl, -⟩ | ⟨x, l, hfree, rfl, rfl⟩)
  · have hdraw : TwoFiles s (s₂.setVm s₂.vm.draw) T f₀ f₁ :=
      { htwo with step := ⟨hstep.proc, hstep.kpgdir, hstep.cpus, hstep.filed, hstep.moves, hstep.starved⟩ }
    have hclose := hdraw.close hgood
    simp only [ends_bind] at hclose ⊢
    refine hclose.mono (fun _ s₃ hs₃ => ?_) fun _ hfalse => hfalse
    exact hs₃.mono (fun _ s₄ hs₄ => Or.inl ⟨rfl, hs₄⟩) fun _ hfalse => hfalse
  · have hx : x ∉ pipeFrames s₂.file := hgood₂.free_not_mem hfree
    rw [← hothers₂ f₀ hne] at htype₀
    have hframes : pipeFrames (pipeFiles s₂.file f₀ f₁ x) = insert x (pipeFrames s₂.file) :=
      pipeFrames_pipeFiles hne htype₀ htype₁ hlt₁
    refine Or.inr ⟨f₀, f₁, rfl, { htwo with step := ?_, others := fun g hg₀ hg₁ => ?_ }⟩
    · refine ⟨hstep.proc, hstep.kpgdir, hstep.cpus, ?_, ?_, hstep.starved⟩
      · exact hstep.filed.makePipe hne htype₀ htype₁ (Multiset.mem_cons_self ..)
          (Multiset.mem_cons_of_mem (Multiset.mem_cons_self ..)) hx
      · change Moves _ _ _ (pipeFrames (pipeFiles s₂.file f₀ f₁ x)).val
        rw [hframes, insert_val_of_notMem hx]
        refine hstep.moves.trans (((kalloc_takes hfree).add _).cast (zero_add _) ?_)
        rw [Multiset.singleton_add]
    · exact (pipeFiles_of_ne hg₀ hg₁).trans (htwo.others g hg₀ hg₁)

/-! ## Descriptors -/

/-- The file a descriptor refers to. -/
def descriptor (x : Option ℕ) : Multiset ℕ := x.elim 0 fun f => {f}

@[simp] theorem descriptor_none : descriptor none = 0 := rfl

@[simp] theorem descriptor_some (f : ℕ) : descriptor (some f) = {f} := rfl

/-- The files a process has open, once for each descriptor. -/
def Proc.files (q : Proc) : Multiset ℕ := ∑ fd ∈ range NOFILE, descriptor (q.ofile fd)

def opened (proc : ℕ → Proc) : Multiset ℕ := ∑ p ∈ range NPROC, (proc p).files

/-- The process with another file in the descriptor `fd`. -/
def Proc.setFd (q : Proc) (fd : ℕ) (x : Option ℕ) : Proc :=
  { q with ofile := Function.update q.ofile fd x }

theorem files_setFd {q : Proc} {fd : ℕ} {x : Option ℕ} (hfd : fd < NOFILE) :
    (q.setFd fd x).files + descriptor (q.ofile fd) = q.files + descriptor x := by
  have hexchange := sum_exchange (f := fun i => descriptor (q.ofile i))
    (g := fun i => descriptor ((q.setFd fd x).ofile i)) (mem_range.mpr hfd) fun j _ hj =>
      congrArg descriptor (Function.update_of_ne hj ..)
  rw [show (q.setFd fd x).ofile fd = x from Function.update_self ..] at hexchange
  exact hexchange

theorem opened_update (proc : ℕ → Proc) {p : ℕ} (q : Proc) (hp : p < NPROC) :
    opened (Function.update proc p q) + (proc p).files = opened proc + q.files := by
  have hexchange := sum_exchange (f := fun i => (proc i).files)
    (g := fun i => (Function.update proc p q i).files) (mem_range.mpr hp) fun j _ hj => by
      rw [Function.update_of_ne hj]
  rw [Function.update_self] at hexchange
  exact hexchange

theorem opened_setFd (proc : ℕ → Proc) {p fd : ℕ} (x : Option ℕ) (hp : p < NPROC)
    (hfd : fd < NOFILE) :
    opened (Function.update proc p ((proc p).setFd fd x)) + descriptor ((proc p).ofile fd) =
      opened proc + descriptor x := by
  have h₁ := opened_update proc ((proc p).setFd fd x) hp
  have h₂ := files_setFd (q := proc p) (x := x) hfd
  refine add_right_cancel (b := (proc p).files) ?_
  calc
    _ = opened (Function.update proc p ((proc p).setFd fd x)) + (proc p).files +
        descriptor ((proc p).ofile fd) := by abel
    _ = opened proc + ((proc p).setFd fd x).files + descriptor ((proc p).ofile fd) := by rw [h₁]
    _ = opened proc + (((proc p).setFd fd x).files + descriptor ((proc p).ofile fd)) := by abel
    _ = opened proc + ((proc p).files + descriptor x) := by rw [h₂]
    _ = _ := by abel

/-- A step that changes the file table, the pipes and the descriptors of process `p`. The
code still holds references to the files in `H`. -/
structure DescrStep (p : ℕ) (s s' : System) (H : Multiset ℕ) : Prop where
  others : ∀ r, r ≠ p → s'.proc r = s.proc r
  self : s'.proc p = { s.proc p with ofile := (s'.proc p).ofile }
  kpgdir : s'.kpgdir = s.kpgdir
  cpus : s'.cpus = s.cpus
  filed : Filed (opened s'.proc + H) s'.file s'.pipe
  moves : Moves s.vm.heap s'.vm.heap (pipeFrames s.file).val (pipeFrames s'.file).val
  starved : s'.vm.starved = s.vm.starved

namespace DescrStep

variable {p fd : ℕ} {H H' : Multiset ℕ} {x : Option ℕ}

theorem refl (h : Filed (opened s.proc) s.file s.pipe) : DescrStep p s s 0 :=
  ⟨fun _ _ => rfl, rfl, rfl, rfl, by rwa [add_zero], Moves.refl .., rfl⟩

theorem trans {s'' : System} (h₁ : DescrStep p s s' H) (h₂ : DescrStep p s' s'' H') :
    DescrStep p s s'' H' where
  others r hr := (h₂.others r hr).trans (h₁.others r hr)
  self := by
    have hself := h₂.self
    rw [h₁.self] at hself
    exact hself
  kpgdir := h₂.kpgdir.trans h₁.kpgdir
  cpus := h₂.cpus.trans h₁.cpus
  filed := h₂.filed
  moves := h₁.moves.trans h₂.moves
  starved := h₂.starved.trans h₁.starved

theorem of_fileStep (h : FileStep s s' (opened s.proc + H)) : DescrStep p s s' H :=
  ⟨fun r _ => by rw [h.proc], by rw [h.proc], h.kpgdir, h.cpus, by rw [h.proc]; exact h.filed,
    h.moves, h.starved⟩

/-- A step on the file table after which the descriptor `fd` is set. -/
theorem of_fileStep_setFd
    (h : FileStep s s' (opened (Function.update s.proc p ((s.proc p).setFd fd x)) + H)) :
    DescrStep p s (s'.setProc p ((s'.proc p).setFd fd x)) H where
  others r hr := by rw [System.setProc_proc, Function.update_of_ne hr, h.proc]
  self := by
    rw [System.setProc_proc, Function.update_self, h.proc]
    rfl
  kpgdir := h.kpgdir
  cpus := h.cpus
  filed := by
    rw [System.setProc_proc, h.proc]
    exact h.filed
  moves := h.moves
  starved := h.starved

/-- Setting a descriptor exchanges the references in it and in hand. -/
theorem setFd (h : DescrStep p s s' (descriptor x + H)) (hp : p < NPROC) (hfd : fd < NOFILE) :
    DescrStep p s (s'.setProc p ((s'.proc p).setFd fd x)) (descriptor ((s'.proc p).ofile fd) + H) := by
  refine h.trans (of_fileStep_setFd (FileStep.refl ?_))
  rw [← add_assoc, opened_setFd _ _ hp hfd, add_assoc]
  exact h.filed

end DescrStep

variable {p fd : ℕ}

theorem fdalloc_spec (s : System) (p f : ℕ) :
    Ends (fdalloc p f) (fun r s' => (r = none ∧ s' = s) ∨ ∃ fd < NOFILE, r = some fd ∧
      (s.proc p).ofile fd = none ∧ s' = s.setProc p ((s.proc p).setFd fd (some f)))
      (fun _ => False) s := by
  rw [fdalloc, ends_bind, ends_get]
  cases hfind : (List.range NOFILE).find? fun fd => (s.proc p).ofile fd = none with
  | none => exact Or.inl ⟨rfl, rfl⟩
  | some fd =>
    refine Or.inr ⟨fd, List.mem_range.mp (List.mem_of_find?_eq_some hfind), rfl, ?_, rfl⟩
    simpa using List.find?_some hfind

/-- Clearing a descriptor that was just set. -/
theorem setProc_clear (h : (s.proc p).ofile fd = none) (x : Option ℕ) :
    (s.setProc p ((s.proc p).setFd fd x)).setProc p
      (((s.setProc p ((s.proc p).setFd fd x)).proc p).setFd fd none) = s := by
  have hself : ((s.proc p).setFd fd x).setFd fd none = s.proc p := by
    rw [Proc.setFd, Proc.setFd]
    simp only [Function.update_idem]
    rw [← h, Function.update_eq_self]
  rw [System.setProc_proc, Function.update_self, hself, System.setProc, System.setProc]
  simp only [Function.update_idem, Function.update_eq_self]

section Calls

variable (h : Filed (opened s.proc) s.file s.pipe) (hp : p < NPROC)
  (hgood : Good L (s.vm.heap.total (pipeFrames s.file).val))

include h hp hgood

theorem sysPipe_spec : Ends (sysPipe L p) (fun ok s' => DescrStep p s s' 0 ∧
      (ok = false → s'.proc = s.proc ∧ SamePipes s.file s'.file)) (fun _ => False) s := by
  rw [sysPipe, ends_bind]
  refine (pipealloc_spec h hgood).mono ?_ fun _ hfalse => hfalse
  rintro r s₁ (⟨rfl, hs₁, hsame⟩ | ⟨f₀, f₁, rfl, htwo⟩)
  · exact ⟨DescrStep.of_fileStep (by rwa [add_zero]), fun _ => ⟨hs₁.proc, hsame⟩⟩
  have hclose : Ends (fileclose L f₀ >>= fun _ => fileclose L f₁ >>= fun _ => pure false)
      (fun ok s' => DescrStep p s s' 0 ∧
        (ok = false → s'.proc = s.proc ∧ SamePipes s.file s'.file)) (fun _ => False) s₁ := by
    have hends := htwo.close hgood
    simp only [ends_bind] at hends ⊢
    refine hends.mono (fun _ s₃ hs₃ => ?_) fun _ hfalse => hfalse
    refine hs₃.mono (fun _ s₄ hs₄ => ?_) fun _ hfalse => hfalse
    exact ⟨DescrStep.of_fileStep (by rw [add_zero]; exact hs₄.1), fun _ => ⟨hs₄.1.proc, hs₄.2⟩⟩
  simp only [ends_bind]
  refine (fdalloc_spec s₁ p f₀).mono ?_ fun _ hfalse => hfalse
  rintro r s₂ (⟨rfl, rfl⟩ | ⟨fd₀, hfd₀, rfl, hnone₀, rfl⟩)
  · exact hclose
  have hstep : DescrStep p s s₁ (descriptor (some f₀) + {f₁}) := by
    refine DescrStep.of_fileStep ?_
    have hstep := htwo.step
    rw [← Multiset.singleton_add, ← Multiset.singleton_add, ← add_assoc, add_comm] at hstep
    exact hstep
  have hstep₂ := hstep.setFd hp hfd₀
  rw [hnone₀, descriptor_none, zero_add, ← descriptor_some f₁, ← add_zero (descriptor _)] at hstep₂
  simp only [ends_bind]
  refine (fdalloc_spec _ p f₁).mono ?_ fun _ hfalse => hfalse
  rintro r s₃ (⟨rfl, rfl⟩ | ⟨fd₁, hfd₁, rfl, hnone₁, rfl⟩)
  · rw [clearFd, ends_bind, ends_modify]
    change Ends _ _ _ ((s₁.setProc p ((s₁.proc p).setFd fd₀ (some f₀))).setProc p
      (((s₁.setProc p ((s₁.proc p).setFd fd₀ (some f₀))).proc p).setFd fd₀ none))
    rw [setProc_clear hnone₀]
    exact hclose
  · have hstep₃ := hstep₂.setFd hp hfd₁
    rw [hnone₁, descriptor_none, zero_add] at hstep₃
    exact ⟨hstep₃, fun hfalse => by cases hfalse⟩

theorem sysClose_spec (fd : ℕ) : Ends (sysClose L p fd) (fun _ s' => DescrStep p s s' 0)
    (fun _ => False) s := by
  rw [sysClose, ends_bind, ends_get, ends_ite]
  refine ⟨fun _ => DescrStep.refl h, fun hfd => ?_⟩
  cases hofile : (s.proc p).ofile fd with
  | none => exact DescrStep.refl h
  | some f =>
    have hclear := (DescrStep.refl (p := p) h).setFd (x := none) (H := 0) hp (Nat.lt_of_not_le hfd)
    rw [hofile, descriptor_some, add_zero] at hclear
    simp only [ends_bind, clearFd, ends_modify]
    have hfiled := hclear.filed
    rw [add_comm, Multiset.singleton_add] at hfiled
    refine (fileclose_spec hfiled fun x hx => hgood.managed x (Multiset.mem_add.mpr (Or.inr hx))).mono
      ?_ fun _ hfalse => hfalse
    rintro _ s' ⟨hs', -⟩
    exact hclear.trans (DescrStep.of_fileStep (by rw [add_zero]; exact hs'))

/-- After the loop of `exit` the descriptors it went through are closed. -/
theorem closeFiles_spec {n : ℕ} (hn : fd + n ≤ NOFILE) :
    Ends (closeFiles L p n fd) (fun _ s' => DescrStep p s s' 0 ∧
      ∀ i, (s'.proc p).ofile i = if fd ≤ i ∧ i < fd + n then none else (s.proc p).ofile i)
      (fun _ => False) s := by
  induction n generalizing s fd with
  | zero => exact ⟨DescrStep.refl h, fun i => by rw [if_neg (by omega)]⟩
  | succ n ih =>
    rw [closeFiles, ends_bind, ends_get]
    cases hofile : (s.proc p).ofile fd with
    | none =>
      refine (ih h hgood (by omega)).mono ?_ fun _ hfalse => hfalse
      rintro _ s' ⟨hs', hi⟩
      refine ⟨hs', fun i => ?_⟩
      by_cases hifd : i = fd
      · rw [hi, if_neg (by omega), if_pos (by omega), hifd, hofile]
      · rw [hi]
        exact if_congr (by omega) rfl rfl
    | some f =>
      have hopened := opened_setFd s.proc none hp (show fd < NOFILE by omega)
      rw [hofile, descriptor_some, descriptor_none, add_zero, add_comm, Multiset.singleton_add] at hopened
      have hfiled := h
      rw [← hopened] at hfiled
      simp only [ends_bind]
      refine (fileclose_spec hfiled fun x hx =>
        hgood.managed x (Multiset.mem_add.mpr (Or.inr hx))).mono ?_ fun _ hfalse => hfalse
      rintro _ s₁ ⟨hs₁, -⟩
      rw [clearFd, ends_modify]
      have hstep : DescrStep p s (s₁.setProc p ((s₁.proc p).setFd fd none)) 0 :=
        DescrStep.of_fileStep_setFd (by rwa [add_zero])
      have hfiled₁ := hstep.filed
      rw [add_zero] at hfiled₁
      refine (ih hfiled₁ (hgood.of_moves hstep.moves) (by omega)).mono ?_ fun _ hfalse => hfalse
      rintro _ s' ⟨hs', hi⟩
      refine ⟨hstep.trans hs', fun i => ?_⟩
      rw [hi, System.setProc_proc, Function.update_self, hs₁.proc, Proc.setFd]
      by_cases hifd : i = fd
      · rw [if_neg (by omega), if_pos (by omega), hifd]
        exact Function.update_self ..
      · simp only [Function.update_of_ne hifd]
        exact if_congr (by omega) rfl rfl

end Calls

/-- The loop of `fork` over the descriptors. -/
theorem dupFiles_spec {q n : ℕ} (h : Filed (opened s.proc) s.file s.pipe) (hp : p < NPROC)
    (hq : q < NPROC) (hn : fd + n ≤ NOFILE)
    (hempty : ∀ i, fd ≤ i → i < NOFILE → (s.proc q).ofile i = none) :
    Ends (dupFiles p q n fd) (fun _ s' => DescrStep q s s' 0) (fun _ => False) s := by
  induction n generalizing s fd with
  | zero => exact DescrStep.refl h
  | succ n ih =>
    rw [dupFiles, ends_bind, ends_get]
    cases hofile : (s.proc p).ofile fd with
    | none => exact ih h (by omega) fun i hi => hempty i (by omega)
    | some f =>
      have hmem : f ∈ opened s.proc := by
        refine mem_sum_of_mem (mem_range.mpr hp) (mem_sum_of_mem (mem_range.mpr (show fd < NOFILE by omega)) ?_)
        rw [hofile, descriptor_some]
        exact Multiset.mem_singleton_self f
      simp only [ends_bind]
      refine (filedup_spec h hmem).mono ?_ fun _ hfalse => hfalse
      intro _ s₁ hs₁
      have hopened := opened_setFd s.proc (some f) hq (show fd < NOFILE by omega)
      rw [hempty fd le_rfl (by omega), descriptor_none, add_zero, descriptor_some, add_comm,
        Multiset.singleton_add] at hopened
      have hstep : DescrStep q s (s₁.setProc q ((s₁.proc q).setFd fd (some f))) 0 :=
        DescrStep.of_fileStep_setFd (by rw [add_zero, hopened]; exact hs₁)
      have hfiled₁ := hstep.filed
      rw [add_zero] at hfiled₁
      rw [ends_modify]
      refine (ih hfiled₁ (by omega) fun i hi hlt => ?_).mono
        (fun _ s' hs' => hstep.trans hs') fun _ hfalse => hfalse
      rw [System.setProc_proc, Function.update_self, hs₁.proc, Proc.setFd]
      simp only [Function.update_of_ne (show i ≠ fd by omega)]
      exact hempty i (by omega) hlt

end Lainos.Vm
