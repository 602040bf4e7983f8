import Lainos.Kernel.Cache
import Lainos.Kernel.Paths

/-!
# Reading back an image

The kernel's `namei` on an image that mkfs wrote finds the inode of every path of
the host tree, and `readi` returns the bytes of the host file. The walk keeps one
cache entry at a time, that of the directory it has come to.
-/

namespace Lainos.Kernel

open Library Mkfs

variable {img : Disk} {s : Sys} {p : Pid} {k i c parent : ℕ} {t : HostDir}

/-! ## Directories of an image -/

/-- All entries of a directory, with their inode numbers. -/
def dirList (i parent : ℕ) (es : List (ℕ × List UInt8)) : List (ℕ × List UInt8) :=
  (i, dot) :: (parent, dotdot) :: es.map fun e => (e.1, imageName e.2)

theorem dirBytes_eq (i parent : ℕ) (es : List (ℕ × List UInt8)) :
    dirBytes i parent es =
      (dirList i parent es).flatMap fun e => direntBytes e.1 (direntName e.2) := by
  simp only [dirBytes, dotBytes, entryBytes, dirList, dotName_eq, dotdotName_eq, entryName_eq,
    List.flatMap_cons, List.flatMap_map, List.append_assoc]

theorem getD_flatMap_direntBytes (es : List (ℕ × List UInt8)) {j o : ℕ} {e : ℕ × List UInt8}
    (he : es[j]? = some e) (ho : o < 16) :
    (es.flatMap fun e => direntBytes e.1 (direntName e.2)).getD (16 * j + o) 0 =
      Dirent.encode ⟨UInt16.ofNat e.1, direntName e.2⟩ o := by
  induction es generalizing j with
  | nil => simp at he
  | cons x es ih =>
    rw [List.flatMap_cons]
    cases j with
    | zero =>
      obtain rfl : x = e := by simpa using he
      rw [List.getD_append _ _ _ _ (by rw [length_direntBytes]; omega)]
      simp [direntBytes, ho]
    | succ j =>
      rw [List.getElem?_cons_succ] at he
      rw [List.getD_append_right _ _ _ _ (by rw [length_direntBytes]; omega), length_direntBytes,
        show 16 * (j + 1) + o - 16 = 16 * j + o by omega, ih he]

/-- The entries that mkfs wrote are there to be read. -/
theorem dirAt_entry (h : DirAt img i parent t) {j : ℕ} {e : ℕ × List UInt8}
    (he : (dirList i parent (t.entries (i + 1)))[j]? = some e) :
    Readable img (dinodeAt img i) (16 * j) ∧
      direntAt img (dinodeAt img i) (16 * j) = ⟨UInt16.ofNat e.1, direntName e.2⟩ := by
  have hlen := length_dirBytes i parent (t.entries (i + 1))
  have hj : j < (t.entries (i + 1)).length + 2 := by
    have := (List.getElem?_eq_some_iff.mp he).1
    simp only [dirList, List.length_cons, List.length_map] at this
    omega
  have hbound := h.bound
  have hsize := h.size_eq
  rw [hlen] at hbound
  simp only [dirSize, HostDir.length_entries, MAXFILE, NDIRECT, NINDIRECT, BSIZE] at hsize hbound hj
  refine ⟨⟨by omega, fun o ho => ?_⟩, ?_⟩
  · have hbn : (16 * j + o) / BSIZE < MAXFILE := by
      simp only [MAXFILE, NDIRECT, NINDIRECT, BSIZE]
      omega
    refine ⟨hbn, (h.contents.filled.map hbn).mpr ?_⟩
    rw [hlen, HostDir.length_entries]
    simp only [blockCount, BSIZE]
    omega
  · rw [direntAt, ← Dirent.decode_encode ⟨UInt16.ofNat e.1, direntName e.2⟩]
    apply Dirent.decode_congr
    intro o ho
    rw [h.contents.data _ (by rw [hlen, HostDir.length_entries]; omega), dirBytes_eq,
      getD_flatMap_direntBytes _ he ho]

theorem goodName_dot : GoodName dot := ⟨by decide, by decide⟩

theorem goodName_dotdot : GoodName dotdot := ⟨by decide, by decide⟩

/-- The search in a directory finds an entry of the host directory. -/
theorem dirScan_image (hdisk : s.disk = img) (hd : (s.icache k).d = dinodeAt img i)
    (hdir : DirAt img i parent t) (ht : t.Tidy) {x : Item} {name : List UInt8} {m : ℕ}
    (hcount : i + 1 + t.count < 65536) (hhas : t.Has (i + 1) name m x) :
    ∃ off, dirScan p k (imageName name) (entryCount (s.icache k).d.size.toNat) 0 s =
      .ok (some (m, off), s) := by
  obtain ⟨j, hj, hfirst⟩ := hhas.index ht
  have hgood := (hhas.name ht).2
  have hbounds := hhas.bounds
  have hget : (dirList i parent (t.entries (i + 1)))[j + 2]? = some (m, imageName name) := by
    simp [dirList, hj]
  have hjlt := (List.getElem?_eq_some_iff.mp hget).1
  have hread : ∀ l ≤ j + 2, ∃ e, (dirList i parent (t.entries (i + 1)))[l]? = some e :=
    fun l hl => ⟨_, List.getElem?_eq_getElem (by omega)⟩
  have hskip : ∀ l < j + 2, ∀ e, (dirList i parent (t.entries (i + 1)))[l]? = some e →
      GoodName e.2 ∧ imageName name ≠ e.2 := by
    intro l hl e he
    match l, hl with
    | 0, _ =>
      obtain rfl : (i, dot) = e := by simpa [dirList] using he
      exact ⟨goodName_dot, hgood.dot⟩
    | 1, _ =>
      obtain rfl : (parent, dotdot) = e := by simpa [dirList] using he
      exact ⟨goodName_dotdot, hgood.dotdot⟩
    | l + 2, hl =>
      simp only [dirList, List.getElem?_cons_succ, List.getElem?_map, Option.map_eq_some_iff] at he
      obtain ⟨e', he', rfl⟩ := he
      exact ⟨(ht.entry (List.mem_of_getElem? he')).1.goodName,
        Ne.symm (hfirst l (by omega) e' he')⟩
  have hm : (UInt16.ofNat m).toNat = m := by
    rw [UInt16.toNat_ofNat', Nat.mod_eq_of_lt (by omega)]
  have hmatch := (dirAt_entry hdir hget).2
  refine ⟨16 * (j + 2), ?_⟩
  have hscan := @dirScan_found p s 0 (entryCount (s.icache k).d.size.toNat) k (j + 2)
    (imageName name)
    (fun l hl => by
      obtain ⟨e, he⟩ := hread l hl
      rw [Nat.zero_add, hdisk, hd]
      exact (dirAt_entry hdir he).1)
    (fun l hl => by
      obtain ⟨e, he⟩ := hread l (by omega)
      obtain ⟨hg, hne⟩ := hskip l hl e he
      rw [Nat.zero_add, hdisk, hd, (dirAt_entry hdir he).2]
      exact fun hc => hne ((namecmp_direntName hgood.goodName hg).mp hc.2))
    (by
      rw [Nat.zero_add, hdisk, hd, hmatch]
      refine ⟨fun hz => ?_, (namecmp_direntName hgood.goodName hgood.goodName).mpr rfl⟩
      have := congrArg UInt16.toNat hz
      simp only [hm, UInt16.toNat_zero] at this
      omega)
    (by
      have := (dirAt_entry hdir hget).1.1
      rw [hd, entryCount]
      omega)
  rw [hscan, Nat.zero_add, hdisk, hd, hmatch]
  simp only [hm]

/-! ## One cache entry at a time -/

/-- The cache holds one reference, to inode `i` in entry `k`. -/
structure Holding (img : Disk) (s : Sys) (k i : ℕ) : Prop where
  disk : s.disk = img
  lt : k < NINODE
  inum : (s.icache k).inum = i
  ref : (s.icache k).ref = 1
  busy : (s.icache k).busy = false
  valid : (s.icache k).valid = true → (s.icache k).d = dinodeAt img i
  others : ∀ l < NINODE, l ≠ k → (s.icache l).ref = 0

/-- The same with the inode locked, and perhaps a reference to another inode. -/
structure Visiting (img : Disk) (s : Sys) (k i : ℕ) : Prop where
  disk : s.disk = img
  lt : k < NINODE
  entry : s.icache k = ⟨i, 1, true, true, dinodeAt img i⟩

theorem ilock_holding (h : Holding img s k i) (htype : (dinodeAt img i).type ≠ 0)
    (tk : Option Ticket) : ∃ s', (ilock tk k).run s = .ok (dinodeAt img i, s') ∧
      Visiting img s' k i ∧ ∀ l < NINODE, l ≠ k → (s'.icache l).ref = 0 := by
  have henter : ilockEnter k s = .ok ((), s.setFlags k true (s.icache k).valid) := by
    rw [ilockEnter, Exec.bind_of_ok Exec.get_run, h.ref, h.busy]
    rfl
  set s₁ := s.setFlags k true (s.icache k).valid with hs₁
  have hentry : s₁.icache k = ⟨i, 1, true, (s.icache k).valid, (s.icache k).d⟩ := by
    rw [hs₁, Sys.setFlags_icache, Function.update_self, h.inum, h.ref]
  have hothers : ∀ l < NINODE, l ≠ k → (s₁.icache l).ref = 0 := by
    intro l hl hlk
    rw [hs₁, Sys.setFlags_icache, Function.update_of_ne hlk]
    exact h.others l hl hlk
  have hdisk : s₁.disk = img := h.disk
  rw [ilock, Thread.run_bind, Thread.run_lift, Exec.bind_of_ok henter, Thread.run_lift]
  cases hv : (s.icache k).valid with
  | true =>
    rw [hv, h.valid hv] at hentry
    have hload := @ilockLoad_of_valid s₁ k tk (by rw [hentry])
    rw [hentry] at hload
    exact ⟨_, hload, ⟨hdisk, h.lt, hentry⟩, hothers⟩
  | false =>
    rw [hv] at hentry
    have hload := @ilockLoad_of_invalid s₁ k tk (by rw [hentry]) (by rwa [hentry, hdisk])
    rw [hentry, hdisk] at hload
    refine ⟨_, hload, ⟨hdisk, h.lt, by simp⟩, fun l hl hlk => ?_⟩
    rw [Sys.setInode_icache, Function.update_of_ne hlk]
    exact hothers l hl hlk

/-- A lookup in the directory visited takes a second entry for what it finds. -/
theorem dirlookup_visiting (h : Visiting img s k i)
    (hothers : ∀ l < NINODE, l ≠ k → (s.icache l).ref = 0) (hdir : DirAt img i parent t)
    (ht : t.Tidy) {x : Item} {name : List UInt8} {m : ℕ} (hcount : i + 1 + t.count < 65536)
    (hhas : t.Has (i + 1) name m x) : ∃ l off tk s',
      dirlookup p k (imageName name) s = .ok (some (l, off, tk), s') ∧ Visiting img s' k i ∧
      l < NINODE ∧ l ≠ k ∧ (s'.icache l).inum = m ∧ (s'.icache l).ref = 1 ∧
      (s'.icache l).busy = false ∧ (s'.icache l).valid = false ∧
      ∀ j < NINODE, j ≠ k → j ≠ l → (s'.icache j).ref = 0 := by
  set s₁ := s.note (.looks (s.icache k).d.nlink (imageName name)) with hs₁
  have hd : (s.icache k).d = dinodeAt img i := by rw [h.entry]
  obtain ⟨off, hscan⟩ := @dirScan_image img s₁ p k i parent t h.disk hd hdir ht x name m hcount hhas
  change dirScan p k (imageName name) (entryCount (s.icache k).d.size.toNat) 0 s₁ = _ at hscan
  have hbounds := hhas.bounds
  have hnone : ∀ l < NINODE, ¬ Uses s₁.icache m l := by
    rintro l hl ⟨hpos, hinum⟩
    by_cases hlk : l = k
    · subst hlk
      rw [hs₁, Sys.note_icache, h.entry] at hinum
      simp only at hinum
      omega
    · rw [hs₁, Sys.note_icache, hothers l hl hlk] at hpos
      exact absurd hpos (lt_irrefl _)
  obtain ⟨z, hz, hzk⟩ : ∃ z < NINODE, z ≠ k := by
    by_cases h0 : k = 0
    · exact ⟨1, by decide, by omega⟩
    · exact ⟨0, by decide, by omega⟩
  obtain ⟨l, hl, hlref, hget⟩ := iget_fresh hnone hz (hothers z hz hzk)
  have hlk : l ≠ k := by
    rintro rfl
    rw [hs₁, Sys.note_icache, h.entry] at hlref
    simp at hlref
  set s₂ := s₁.setInode l ⟨m, 1, false, false, (s₁.icache l).d⟩ with hs₂
  set s₃ := s₂.note (.found (s₂.icache k).inum off m) with hs₃
  have hrun : dirlookup p k (imageName name) s =
      .ok (some (l, off, ⟨m, freedCount m s₃.trace⟩), s₃) := by
    rw [dirlookup, Exec.bind_of_ok Exec.get_run]
    have htype : ¬ (s.icache k).d.type ≠ T_DIR := by
      rw [hd, hdir.type_eq]
      exact not_not.mpr rfl
    rw [if_neg htype, Exec.bind_of_ok (Exec.modify_run _), ← hs₁, Exec.bind_of_ok hscan]
    change (iget m >>= _) s₁ = _
    rw [Exec.bind_of_ok hget]
    rfl
  have hself : s₃.icache l = ⟨m, 1, false, false, (s₁.icache l).d⟩ := by
    rw [hs₃, hs₂, Sys.note_icache, Sys.setInode_icache, Function.update_self]
  refine ⟨l, off, _, s₃, hrun, ⟨h.disk, h.lt, ?_⟩, hl, hlk, by rw [hself], by rw [hself],
    by rw [hself], by rw [hself], ?_⟩
  · rw [hs₃, hs₂, Sys.note_icache, Sys.setInode_icache, Function.update_of_ne (Ne.symm hlk)]
    exact h.entry
  · intro j hj hjk hjl
    rw [hs₃, hs₂, Sys.note_icache, Sys.setInode_icache, Function.update_of_ne hjl]
    exact hothers j hj hjk

/-- Leaving a directory with links for the inode found in it. -/
theorem iunlockput_visiting (h : Visiting img s k i) (hlink : (dinodeAt img i).nlink ≠ 0) {l m : ℕ}
    (hl : l < NINODE) (hlk : l ≠ k) (hinum : (s.icache l).inum = m) (href : (s.icache l).ref = 1)
    (hbusy : (s.icache l).busy = false) (hvalid : (s.icache l).valid = false)
    (hothers : ∀ j < NINODE, j ≠ k → j ≠ l → (s.icache j).ref = 0) :
    ∃ s', (iunlockput p k).run s = .ok ((), s') ∧ Holding img s' l m := by
  set s₁ := s.setFlags k false true with hs₁
  have hunlock : iunlock k s = .ok ((), s₁) := by
    rw [iunlock, Exec.bind_of_ok Exec.get_run, h.entry]
    rw [if_neg (by simp)]
    rfl
  have hentry : s₁.icache k = ⟨i, 1, false, true, dinodeAt img i⟩ := by
    rw [hs₁, Sys.setFlags_icache, Function.update_self, h.entry]
  have henter : iputEnter p k s₁ = .ok (false, s₁.setRef k 0) := by
    rw [iputEnter, Exec.bind_of_ok Exec.get_run]
    have hfree : ¬ ((s₁.icache k).ref = 1 ∧ (s₁.icache k).valid = true ∧
        (s₁.icache k).d.nlink = 0) := by
      rw [hentry]
      exact fun hc => hlink hc.2.2
    rw [if_neg hfree, hentry]
    rfl
  have hrun : (iunlockput p k).run s = .ok ((), s₁.setRef k 0) := by
    rw [iunlockput, Thread.run_bind, Thread.run_lift, Exec.bind_of_ok hunlock, iput,
      Thread.run_bind, Thread.run_lift, Exec.bind_of_ok henter]
    rfl
  have hl' : (s₁.setRef k 0).icache l = s.icache l := by
    rw [Sys.setRef_icache, Function.update_of_ne hlk, hs₁, Sys.setFlags_icache,
      Function.update_of_ne hlk]
  refine ⟨_, hrun, h.disk, hl, by rw [hl', hinum], by rw [hl', href], by rw [hl', hbusy],
    fun hv => ?_, fun j hj hjl => ?_⟩
  · rw [hl', hvalid] at hv
    exact absurd hv (by decide)
  · by_cases hjk : j = k
    · subst hjk
      simp
    · rw [Sys.setRef_icache, Function.update_of_ne hjk, hs₁, Sys.setFlags_icache,
        Function.update_of_ne hjk]
      exact hothers j hj hjk hjl

/-! ## The walk -/

/-- The image holds a host file or directory as inode `i`. -/
def Placed (img : Disk) (i : ℕ) : Item → Prop
  | .file bytes => FileAt img i T_FILE 1 bytes.length bytes
  | .dir t => (∃ parent, DirAt img i parent t) ∧ Stored img t i (i + 1) ∧ t.Tidy ∧
      i + 1 + t.count < 65536

theorem placed_of_has {x : Item} {n cur m : ℕ} {name : List UInt8} (hhas : t.Has n name m x)
    (hstored : Stored img t cur n) (ht : t.Tidy) (hcount : n + t.count < 65536) :
    Placed img m x := by
  induction t generalizing n with
  | nil => exact hhas.elim
  | file nm bytes rest ih =>
    rw [HostDir.Has] at hhas
    rw [Stored] at hstored
    rw [HostDir.count] at hcount
    split_ifs at hhas hstored hcount with hh
    · exact ih hhas hstored ht.2 (by omega)
    · rcases hhas with ⟨-, rfl, rfl⟩ | hhas
      · exact hstored.1
      · exact ih hhas hstored.2 ht.2 (by omega)
  | dir nm sub rest _ ih =>
    rw [HostDir.Has] at hhas
    rw [Stored] at hstored
    rw [HostDir.count] at hcount
    split_ifs at hhas hstored hcount with hh
    · exact ih hhas hstored ht.2 (by omega)
    · rcases hhas with ⟨-, rfl, rfl⟩ | hhas
      · exact ⟨⟨cur, hstored.1⟩, hstored.2.1, (ht.1 (by simpa using hh)).2.2, by omega⟩
      · exact ih hhas hstored.2.2 ht.2 (by omega)

/-- The names on a path of tidy directories can be path elements. -/
theorem leads_elements {x y : Item} {i m : ℕ} {cs : List (List UInt8)} (hx : Placed img i x)
    (h : x.Leads i cs m y) : ∀ e ∈ cs.map imageName, Element e := by
  induction cs generalizing x i with
  | nil => simp
  | cons c cs ih =>
    cases x with
    | file bytes => exact h.elim
    | dir t =>
      obtain ⟨j, z, hhas, hrest⟩ := h
      obtain ⟨-, hstored, ht, hcount⟩ := hx
      have hz := placed_of_has hhas hstored ht hcount
      simp only [List.map_cons, List.mem_cons, forall_eq_or_imp]
      exact ⟨(hhas.name ht).2.element, ih hz hrest⟩

/-- The loop of `namex` follows a host path. -/
theorem namexLoop_walk {x y : Item} {m fuel slashes : ℕ} {cs : List (List UInt8)}
    {nm : List UInt8} {tk : Option Ticket} (h : Holding img s k i) (hx : Placed img i x)
    (hleads : x.Leads i cs m y) (hfuel : cs.length < fuel) :
    ∃ l nm' tk' s', (namexLoop p false fuel
        (List.replicate slashes 47 ++ joinPath (cs.map imageName)) nm k tk).run s =
      .ok (some (l, nm', tk'), s') ∧ Holding img s' l m ∧ Placed img m y := by
  induction fuel generalizing x i k s cs nm tk slashes with
  | zero => omega
  | succ fuel ih =>
    cases cs with
    | nil =>
      obtain ⟨rfl, rfl⟩ := hleads
      refine ⟨k, nm, tk, s, ?_, h, hx⟩
      rw [namexLoop, List.map_nil, joinPath, List.append_nil, skipelem_slashes]
      rfl
    | cons c cs =>
      have helem := leads_elements hx hleads
      cases x with
      | file bytes => exact hleads.elim
      | dir t =>
        obtain ⟨j, z, hhas, hrest⟩ := hleads
        obtain ⟨⟨parent, hdir⟩, hstored, ht, hcount⟩ := hx
        have htype : (dinodeAt img i).type ≠ 0 := by
          rw [hdir.type_eq]
          decide
        have hlink : (dinodeAt img i).nlink ≠ 0 := by
          rw [hdir.nlink_eq]
          decide
        obtain ⟨s₁, hlock, hv₁, hothers₁⟩ := ilock_holding h htype tk
        obtain ⟨l, off, tk', s₂, hlook, hv₂, hl, hlk, hinum, href, hbusy, hvalid, hothers₂⟩ :=
          @dirlookup_visiting img s₁ p k i parent t hv₁ hothers₁ hdir ht z c j hcount hhas
        obtain ⟨s₃, hput, hh₃⟩ :=
          @iunlockput_visiting img s₂ p k i hv₂ hlink l j hl hlk hinum href hbusy hvalid hothers₂
        have hz := placed_of_has hhas hstored ht hcount
        obtain ⟨l', nm', tk'', s₄, hloop, hh₄, hy⟩ := @ih s₃ l j z 0 cs (imageName c) (some tk')
          hh₃ hz hrest (by simp only [List.length_cons] at hfuel; omega)
        refine ⟨l', nm', tk'', s₄, ?_, hh₄, hy⟩
        rw [namexLoop, List.map_cons, skipelem_joinPath helem]
        simp only [Thread.run_bind]
        rw [Exec.bind_of_ok hlock, if_neg (by rw [hdir.type_eq]; exact not_not.mpr rfl),
          if_neg (by simp)]
        simp only [Thread.run_bind, Thread.run_lift]
        rw [Exec.bind_of_ok hlook]
        simp only [Thread.run_bind]
        rw [Exec.bind_of_ok hput]
        exact hloop

/-! ## Results -/

/-- A kernel that has just come up on a disk: nothing is cached. -/
structure Booted (img : Disk) (s : Sys) : Prop where
  disk : s.disk = img
  unused : ∀ k < NINODE, (s.icache k).ref = 0

/-- What the kernel sees of a locked inode is the host file or directory. -/
def ReadsAs (p : Pid) (k : ℕ) (d : Dinode) (s : Sys) : Item → Prop
  | .dir _ => d.type = T_DIR
  | .file bytes => d.type = T_FILE ∧ d.size.toNat = bytes.length ∧
      readFile p k 0 d.size s = .ok (some bytes, s)

theorem fileBytes_eq {bytes : List UInt8} (h : Contents img (dinodeAt img i) bytes) :
    fileBytes img (dinodeAt img i) 0 bytes.length = bytes := by
  apply List.ext_getElem
  · simp
  · intro j h₁ h₂
    simp only [fileBytes, List.getElem_map, List.getElem_range, Nat.zero_add]
    rw [h.data j h₂, List.getD_eq_getElem _ _ h₂]

theorem readsAs_of_placed {y : Item} (h : Visiting img s k i) (hy : Placed img i y) :
    ReadsAs p k (dinodeAt img i) s y := by
  cases y with
  | dir t =>
    obtain ⟨⟨parent, hdir⟩, -⟩ := hy
    exact hdir.type_eq
  | file bytes =>
    have hd : (s.icache k).d = dinodeAt img i := by rw [h.entry]
    have hzero : (0 : UInt32).toNat = 0 := rfl
    refine ⟨hy.type_eq, hy.size_eq, ?_⟩
    rw [readFile_of_mapped]
    · rw [hd, h.disk, hy.size_eq, hzero, fileBytes_eq hy.contents]
    · rw [hd, hzero, Nat.zero_add]
    · rw [hd, h.disk, hy.size_eq, hzero]
      intro o ho
      have hbound := hy.bound
      have hbn : (0 + o) / BSIZE < MAXFILE := by
        simp only [MAXFILE, NDIRECT, NINDIRECT, BSIZE] at *
        omega
      refine ⟨hbn, (hy.contents.filled.map hbn).mpr ?_⟩
      simp only [blockCount, BSIZE]
      omega

theorem placed_type {y : Item} (hy : Placed img i y) : (dinodeAt img i).type ≠ 0 := by
  cases y with
  | dir t =>
    obtain ⟨⟨parent, hdir⟩, -⟩ := hy
    rw [hdir.type_eq]
    decide
  | file bytes =>
    rw [hy.type_eq]
    decide

theorem namei_walk {y : Item} {m : ℕ} {cs : List (List UInt8)} (h : Booted img s)
    (hroot : Placed img ROOTINO (.dir t)) (hleads : (Item.dir t).Leads ROOTINO cs m y) :
    ∃ k tk s', (namei p (kernelPath cs)).run s = .ok (some (k, tk), s') ∧ Holding img s' k m ∧
      Placed img m y := by
  have hnone : ∀ l < NINODE, ¬ Uses s.icache ROOTINO l := by
    rintro l hl ⟨hpos, -⟩
    rw [h.unused l hl] at hpos
    exact absurd hpos (lt_irrefl _)
  obtain ⟨k, hk, -, hget⟩ := iget_fresh hnone (show 0 < NINODE by decide) (h.unused 0 (by decide))
  have hholding : Holding img (s.setInode k ⟨ROOTINO, 1, false, false, (s.icache k).d⟩) k ROOTINO := by
    refine ⟨h.disk, hk, by simp, by simp, by simp, by simp, fun l hl hlk => ?_⟩
    rw [Sys.setInode_icache, Function.update_of_ne hlk]
    exact h.unused l hl
  have hlen : cs.length < (kernelPath cs).length + 1 := by
    have helem := leads_elements hroot hleads
    have := length_joinPath helem
    simp only [List.length_map] at this
    simp only [kernelPath, List.length_cons]
    omega
  obtain ⟨l, nm, tk, s', hloop, hh, hy⟩ :=
    @namexLoop_walk img _ p k ROOTINO (.dir t) y m ((kernelPath cs).length + 1) 1 cs [] none hholding
      hroot hleads hlen
  refine ⟨l, tk, s', ?_, hh, hy⟩
  have hnamex : (namex p (kernelPath cs) false).run s = .ok (some (l, nm, tk), s') := by
    have hhead : (kernelPath cs).head? = some 47 := rfl
    rw [namex, if_pos hhead, Thread.run_bind, Thread.run_lift, Exec.bind_of_ok hget]
    exact hloop
  rw [namei, Thread.run_bind, Exec.bind_of_ok hnamex]
  rfl

/-- The kernel finds every path of the host tree in the image, and reads from a
file what the host file holds. -/
theorem namei_reads_back (ht : t.Tidy) (hinodes : t.count + 1 < ninodes) (hfit : t.FilesFit)
    (hblocks : t.total ≤ 985) : ∃ st, main t State.empty = .ok ((), st) ∧
      ∀ s p cs m y, Booted st.img s → (Item.dir t).Leads ROOTINO cs m y →
        ∃ k tk s₁ d s₂, (namei p (kernelPath cs)).run s = .ok (some (k, tk), s₁) ∧
          (s₁.icache k).inum = m ∧ (ilock tk k).run s₁ = .ok (d, s₂) ∧ ReadsAs p k d s₂ y := by
  have hw := t.width_le_count
  simp only [ninodes] at hinodes
  obtain ⟨st, hrun⟩ := main_ok (t := t) (by simp only [inodeRoom]; omega) (hfit.small (by omega))
    (by simp only [MAXFILE, NDIRECT, NINDIRECT, BSIZE]; omega)
    (by simp only [firstData]; omega)
  have hb := main_spec (by simp only [inodeRoom]; omega) hrun
  refine ⟨st, hrun, fun s p cs m y hboot hleads => ?_⟩
  have hroot : Placed st.img ROOTINO (.dir t) :=
    ⟨⟨ROOTINO, hb.root⟩, hb.stored, ht, by simp only [ROOTINO]; omega⟩
  obtain ⟨k, tk, s₁, hnamei, hholding, hy⟩ := namei_walk (p := p) hboot hroot hleads
  obtain ⟨s₂, hlock, hv, -⟩ := ilock_holding hholding (placed_type hy) tk
  exact ⟨k, tk, s₁, _, s₂, hnamei, hholding.inum, hlock, readsAs_of_placed hv hy⟩

theorem namei_reads_back_nested : ∃ st,
    main (.dir [97] (.file [95, 98] [1, 2, 3] .nil) .nil) State.empty = .ok ((), st) ∧
      ∀ s p, Booted st.img s → ∃ k tk s₁ d s₂,
        (namei p [47, 97, 47, 46, 98]).run s = .ok (some (k, tk), s₁) ∧ (s₁.icache k).inum = 3 ∧
          (ilock tk k).run s₁ = .ok (d, s₂) ∧ ReadsAs p k d s₂ (.file [1, 2, 3]) := by
  obtain ⟨st, hrun, hall⟩ :=
    @namei_reads_back (.dir [97] (.file [95, 98] [1, 2, 3] .nil) .nil)
      ⟨fun _ => ⟨⟨by decide, by decide, by decide, by decide, by decide, by decide⟩,
        by simp [HostDir.names], fun _ => ⟨⟨by decide, by decide, by decide, by decide, by decide,
          by decide⟩, by simp [HostDir.names]⟩, trivial⟩, trivial⟩
      (by decide) ⟨fun _ => ⟨fun _ => by decide, trivial⟩, trivial⟩ (by decide)
  refine ⟨st, hrun, fun s p hboot => ?_⟩
  have hpath : kernelPath [[97], [95, 98]] = [47, 97, 47, 46, 98] := by decide
  rw [← hpath]
  refine hall s p _ 3 _ hboot ⟨2, .dir (.file [95, 98] [1, 2, 3] .nil), ?_, 3, .file [1, 2, 3], ?_,
    rfl, rfl⟩
  · exact Or.inl ⟨rfl, rfl, rfl⟩
  · exact Or.inl ⟨rfl, rfl, rfl⟩

end Lainos.Kernel
