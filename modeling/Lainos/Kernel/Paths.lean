import Lainos.Kernel.Reading
import Lainos.Mkfs.Tree

/-!
# Host paths

Which inode a host path stands for, and how the kernel spells and takes apart the
path. An entry's name in the image is the host's, except that a leading `_` has
become a dot.
-/

namespace Lainos.Mkfs

open Library Kernel

/-- The name that an entry has in the image. -/
def imageName (name : List UInt8) : List UInt8 :=
  if name.head? = some 95 then 46 :: name.tail else name

theorem entryName_eq (name : List UInt8) : entryName name = direntName (imageName name) := by
  funext j
  rw [entryName, imageName, direntName]
  cases name with
  | nil => simp
  | cons c cs =>
    by_cases hc : c = 95
    · obtain ⟨j, hj⟩ := j
      cases j <;> simp [hc, Fin.ext_iff]
    · simp [hc]

theorem dotName_eq : dotName = direntName dot := by decide

theorem dotdotName_eq : dotdotName = direntName dotdot := by decide

/-! ## Entries of a host directory -/

inductive Item where
  | file (bytes : List UInt8)
  | dir (t : HostDir)

namespace HostDir

/-- Some visible entry has the host name `c`, the inode number `m` and is `x`, where
the inode numbers of the directory's entries start with `n`. -/
def Has : HostDir → ℕ → List UInt8 → ℕ → Item → Prop
  | .nil, _, _, _, _ => False
  | .file name bytes rest, n, c, m, x =>
    if hidden name then rest.Has n c m x
    else c = name ∧ m = n ∧ x = .file bytes ∨ rest.Has (n + 1) c m x
  | .dir name sub rest, n, c, m, x =>
    if hidden name then rest.Has n c m x
    else c = name ∧ m = n ∧ x = .dir sub ∨ rest.Has (n + 1 + sub.count) c m x

/-- The names of the visible entries in the image. -/
def names : HostDir → List (List UInt8)
  | .nil => []
  | .file name _ rest => if hidden name then rest.names else imageName name :: rest.names
  | .dir name _ rest => if hidden name then rest.names else imageName name :: rest.names

/-- A host name that survives in the image. -/
structure GoodEntry (name : List UInt8) : Prop where
  nonempty : name ≠ []
  nonzero : (0 : UInt8) ∉ name
  slash : (47 : UInt8) ∉ name
  length : name.length ≤ DIRSIZ
  dot : imageName name ≠ Kernel.dot
  dotdot : imageName name ≠ Kernel.dotdot

/-- Names are short, and distinct in each directory of the image. -/
def Tidy : HostDir → Prop
  | .nil => True
  | .file name _ rest =>
    (hidden name = false → GoodEntry name ∧ imageName name ∉ rest.names) ∧ rest.Tidy
  | .dir name sub rest =>
    (hidden name = false → GoodEntry name ∧ imageName name ∉ rest.names ∧ sub.Tidy) ∧ rest.Tidy

/-- Every file that mkfs copies has at most `MAXFILE` blocks. -/
def FilesFit : HostDir → Prop
  | .nil => True
  | .file name bytes rest => (hidden name = false → bytes.length ≤ MAXFILE * BSIZE) ∧ rest.FilesFit
  | .dir name sub rest => (hidden name = false → sub.FilesFit) ∧ rest.FilesFit

theorem width_le_count (t : HostDir) : t.width ≤ t.count := by
  induction t with
  | nil => exact le_rfl
  | file name bytes rest ih =>
    rw [width, count]
    split_ifs <;> omega
  | dir name sub rest _ ih =>
    rw [width, count]
    split_ifs <;> omega

/-- With few inodes, no directory is too large. -/
theorem FilesFit.small {t : HostDir} (h : t.FilesFit) (hcount : t.count < 4400) : t.Small := by
  induction t with
  | nil => trivial
  | file name bytes rest ih =>
    rw [count] at hcount
    exact ⟨h.1, ih h.2 (by omega)⟩
  | dir name sub rest ihsub ih =>
    rw [count] at hcount
    refine ⟨fun hh => ?_, ih h.2 (by omega)⟩
    rw [hh] at hcount
    simp only [Bool.false_eq_true, if_false] at hcount
    have hw := sub.width_le_count
    refine ⟨?_, ihsub (h.1 hh) (by omega)⟩
    simp only [MAXFILE, NDIRECT, NINDIRECT, BSIZE]
    omega

theorem Has.bounds {t : HostDir} {n m : ℕ} {c : List UInt8} {x : Item} (h : t.Has n c m x) :
    n ≤ m ∧ m < n + t.count := by
  induction t generalizing n with
  | nil => exact h.elim
  | file name bytes rest ih =>
    rw [Has] at h
    rw [count]
    split_ifs at h ⊢ with hh
    · have := ih h
      omega
    · rcases h with ⟨-, rfl, -⟩ | h
      · omega
      · have := ih h
        omega
  | dir name sub rest _ ih =>
    rw [Has] at h
    rw [count]
    split_ifs at h ⊢ with hh
    · have := ih h
      omega
    · rcases h with ⟨-, rfl, -⟩ | h
      · omega
      · have := ih h
        omega

/-- What an entry of a tidy directory is called. -/
theorem Has.name {t : HostDir} {n m : ℕ} {c : List UInt8} {x : Item} (h : t.Has n c m x)
    (ht : t.Tidy) : imageName c ∈ t.names ∧ GoodEntry c := by
  induction t generalizing n with
  | nil => exact h.elim
  | file name bytes rest ih =>
    rw [Has] at h
    rw [names]
    split_ifs at h ⊢ with hh
    · exact ih h ht.2
    · rcases h with ⟨rfl, -, -⟩ | h
      · exact ⟨List.mem_cons_self, (ht.1 (by simpa using hh)).1⟩
      · exact ⟨List.mem_cons_of_mem _ (ih h ht.2).1, (ih h ht.2).2⟩
  | dir name sub rest _ ih =>
    rw [Has] at h
    rw [names]
    split_ifs at h ⊢ with hh
    · exact ih h ht.2
    · rcases h with ⟨rfl, -, -⟩ | h
      · exact ⟨List.mem_cons_self, (ht.1 (by simpa using hh)).1⟩
      · exact ⟨List.mem_cons_of_mem _ (ih h ht.2).1, (ih h ht.2).2⟩

/-- The entry is the first of its name in the directory's list. -/
theorem Has.index {t : HostDir} {n m : ℕ} {c : List UInt8} {x : Item} (h : t.Has n c m x)
    (ht : t.Tidy) : ∃ j : ℕ, (t.entries n)[j]? = some (m, c) ∧
      ∀ i < j, ∀ e : ℕ × List UInt8, (t.entries n)[i]? = some e →
        imageName e.2 ≠ imageName c := by
  induction t generalizing n with
  | nil => exact h.elim
  | file name bytes rest ih =>
    rw [Has] at h
    rw [entries]
    split_ifs at h ⊢ with hh
    · exact ih h ht.2
    · rcases h with ⟨rfl, rfl, -⟩ | h
      · exact ⟨0, rfl, by simp⟩
      · obtain ⟨j, hj, hfirst⟩ := ih h ht.2
        refine ⟨j + 1, hj, fun i hi e he heq => ?_⟩
        cases i with
        | zero =>
          obtain rfl : (n, name) = e := by simpa using he
          exact (ht.1 (by simpa using hh)).2 (heq ▸ (h.name ht.2).1)
        | succ i => exact hfirst i (by omega) e he heq
  | dir name sub rest _ ih =>
    rw [Has] at h
    rw [entries]
    split_ifs at h ⊢ with hh
    · exact ih h ht.2
    · rcases h with ⟨rfl, rfl, -⟩ | h
      · exact ⟨0, rfl, by simp⟩
      · obtain ⟨j, hj, hfirst⟩ := ih h ht.2
        refine ⟨j + 1, hj, fun i hi e he heq => ?_⟩
        cases i with
        | zero =>
          obtain rfl : (n, name) = e := by simpa using he
          exact (ht.1 (by simpa using hh)).2.1 (heq ▸ (h.name ht.2).1)
        | succ i => exact hfirst i (by omega) e he heq

/-- All names of a tidy directory are good. -/
theorem Tidy.entry {t : HostDir} (ht : t.Tidy) {n : ℕ} {e : ℕ × List UInt8}
    (he : e ∈ t.entries n) : GoodEntry e.2 ∧ n ≤ e.1 ∧ e.1 < n + t.count := by
  induction t generalizing n with
  | nil => simp [entries] at he
  | file name bytes rest ih =>
    rw [entries] at he
    rw [count]
    split_ifs at he ⊢ with hh
    · obtain ⟨hg, hlo, hhi⟩ := ih ht.2 he
      exact ⟨hg, hlo, by omega⟩
    · rcases List.mem_cons.mp he with rfl | he
      · exact ⟨(ht.1 (by simpa using hh)).1, le_rfl, by omega⟩
      · obtain ⟨hg, hlo, hhi⟩ := ih ht.2 he
        exact ⟨hg, by omega, by omega⟩
  | dir name sub rest _ ih =>
    rw [entries] at he
    rw [count]
    split_ifs at he ⊢ with hh
    · obtain ⟨hg, hlo, hhi⟩ := ih ht.2 he
      exact ⟨hg, hlo, by omega⟩
    · rcases List.mem_cons.mp he with rfl | he
      · exact ⟨(ht.1 (by simpa using hh)).1, le_rfl, by omega⟩
      · obtain ⟨hg, hlo, hhi⟩ := ih ht.2 he
        exact ⟨hg, by omega, by omega⟩

end HostDir

/-- A path of host names leads from one item to another. -/
def Item.Leads : Item → ℕ → List (List UInt8) → ℕ → Item → Prop
  | x, i, [], m, y => m = i ∧ y = x
  | .file _, _, _ :: _, _, _ => False
  | .dir t, i, c :: cs, m, y => ∃ j z, t.Has (i + 1) c j z ∧ z.Leads j cs m y

/-! ## Spelling -/

/-- Path elements with slashes between them. -/
def joinPath : List (List UInt8) → Path
  | [] => []
  | [c] => c
  | c :: cs => c ++ 47 :: joinPath cs

/-- The absolute path that the kernel is given for a path of host names. -/
def kernelPath (cs : List (List UInt8)) : Path := 47 :: joinPath (cs.map imageName)

/-- A path element that `skipelem` takes as it is. -/
structure Element (c : List UInt8) : Prop where
  nonempty : c ≠ []
  slash : (47 : UInt8) ∉ c
  length : c.length ≤ DIRSIZ

theorem HostDir.GoodEntry.element {name : List UInt8} (h : HostDir.GoodEntry name) :
    Element (imageName name) := by
  have hne := h.nonempty
  have hslash := h.slash
  have hlen := h.length
  rw [imageName]
  cases name with
  | nil => exact absurd rfl hne
  | cons c cs =>
    simp only [List.mem_cons, not_or] at hslash
    split_ifs
    · exact ⟨by simp, by simp [hslash.2], by simpa using hlen⟩
    · exact ⟨by simp, by simp [hslash], hlen⟩

theorem HostDir.GoodEntry.goodName {name : List UInt8} (h : HostDir.GoodEntry name) :
    GoodName (imageName name) := by
  have hzero := h.nonzero
  refine ⟨?_, h.element.length⟩
  rw [imageName]
  cases name with
  | nil => simp
  | cons c cs =>
    simp only [List.mem_cons, not_or] at hzero
    split_ifs
    · simp [hzero.2]
    · simp [hzero]

theorem joinPath_cons {c : List UInt8} {cs : List (List UInt8)} :
    joinPath (c :: cs) = c ++ if cs = [] then [] else 47 :: joinPath cs := by
  cases cs <;> simp [joinPath]

/-- A path of elements does not start with a slash. -/
theorem dropWhile_joinPath {cs : List (List UInt8)} (h : ∀ c ∈ cs, Element c) :
    (joinPath cs).dropWhile (· == 47) = joinPath cs := by
  cases cs with
  | nil => rfl
  | cons c cs =>
    have hc := h c List.mem_cons_self
    rw [joinPath_cons]
    cases c with
    | nil => exact absurd rfl hc.nonempty
    | cons b bs =>
      have hb : b ≠ 47 := fun hb => hc.slash (by simp [hb])
      simp [hb]

theorem skipelem_joinPath {c : List UInt8} {cs : List (List UInt8)}
    (h : ∀ e ∈ c :: cs, Element e) (slashes : ℕ) :
    skipelem (List.replicate slashes 47 ++ joinPath (c :: cs)) = some (c, joinPath cs) := by
  have hc := h c List.mem_cons_self
  have hstrip : (List.replicate slashes 47 ++ joinPath (c :: cs)).dropWhile (· == 47) =
      joinPath (c :: cs) := by
    rw [List.dropWhile_append_of_pos (by simp), dropWhile_joinPath h]
  have hpos : ∀ b ∈ c, (b != 47) = true := by
    intro b hb
    simp only [bne_iff_ne, ne_eq]
    rintro rfl
    exact hc.slash hb
  have htake : (joinPath (c :: cs)).takeWhile (· != 47) = c := by
    rw [joinPath_cons, List.takeWhile_append_of_pos hpos]
    split_ifs <;> simp
  have hdrop : ((joinPath (c :: cs)).dropWhile (· != 47)).dropWhile (· == 47) = joinPath cs := by
    rw [joinPath_cons, List.dropWhile_append_of_pos hpos]
    split_ifs with hcs
    · simp [hcs, joinPath]
    · have hrest : ∀ e ∈ cs, Element e := fun e he => h e (List.mem_cons_of_mem _ he)
      simp [dropWhile_joinPath hrest]
  rw [skipelem, hstrip]
  cases hj : joinPath (c :: cs) with
  | nil =>
    rw [joinPath_cons, List.append_eq_nil_iff] at hj
    exact absurd hj.1 hc.nonempty
  | cons b bs =>
    rw [hj] at htake hdrop
    simp only [htake, hdrop, List.take_of_length_le hc.length]

theorem skipelem_slashes (n : ℕ) : skipelem (List.replicate n 47) = none := by
  have h : (List.replicate n (47 : UInt8)).dropWhile (· == 47) = [] := by simp
  rw [skipelem, h]

/-- Every element takes a byte of the path. -/
theorem length_joinPath {cs : List (List UInt8)} (h : ∀ c ∈ cs, Element c) :
    cs.length ≤ (joinPath cs).length := by
  induction cs with
  | nil => exact le_rfl
  | cons c cs ih =>
    have hpos := List.length_pos_iff.mpr (h c List.mem_cons_self).nonempty
    have hrest := ih fun e he => h e (List.mem_cons_of_mem _ he)
    rw [joinPath_cons, List.length_append, List.length_cons]
    split_ifs with hcs
    · subst hcs
      simp only [List.length_nil]
      omega
    · simp only [List.length_cons]
      omega

end Lainos.Mkfs
