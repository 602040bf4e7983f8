import Lainos.Library.Ledger
import Lainos.Vm.Memory

/-!
# The frames of an address space

`frames mem d` are the frames that belong to directory `d`: the directory itself, its
page tables, and the frames mapped below `KERNBASE`. The lemmas say how they and the
mapping change when a page table is added, an entry is set, or memory elsewhere is
written.
-/

namespace Lainos.Vm

open Library Finset

variable {mem mem' : Memory} {d i v t pa : ℕ} {x : Pte}

def Pte.frames (x : Pte) : Multiset ℕ := if x.p then {x.addr} else 0

theorem Pte.frames_of_present (h : x.p = true) : x.frames = {x.addr} := if_pos h

theorem Pte.frames_of_absent (h : x.p = false) : x.frames = 0 := if_neg (by simp [h])

theorem Pte.mem_frames : pa ∈ x.frames ↔ x.p = true ∧ pa = x.addr := by
  cases h : x.p with
  | true => simp [Pte.frames, h]
  | false => simp [Pte.frames, h]

@[simp] theorem Pte.frames_zero : Pte.zero.frames = 0 := rfl

@[irreducible]
def tables (mem : Memory) (d : ℕ) : Multiset ℕ := ∑ i ∈ range NPDENTRIES, (mem d i).frames

/-- The directory and its page tables. -/
def skeleton (mem : Memory) (d : ℕ) : Multiset ℕ := {d} + tables mem d

@[irreducible]
def userFrames (mem : Memory) (d : ℕ) : Multiset ℕ := ∑ v ∈ range kernbase, (view mem d v).frames

def frames (mem : Memory) (d : ℕ) : Multiset ℕ := skeleton mem d + userFrames mem d

theorem mem_tables (hi : i < NPDENTRIES) (hp : (mem d i).p = true) :
    (mem d i).addr ∈ tables mem d := by
  rw [tables]
  exact mem_sum_of_mem (mem_range.mpr hi) (Pte.mem_frames.mpr ⟨hp, rfl⟩)

theorem self_mem_skeleton (mem : Memory) (d : ℕ) : d ∈ skeleton mem d := by
  rw [skeleton, Multiset.mem_add]
  exact Or.inl (Multiset.mem_singleton_self d)

theorem table_mem_skeleton (hi : i < NPDENTRIES) (hp : (mem d i).p = true) :
    (mem d i).addr ∈ skeleton mem d := by
  rw [skeleton, Multiset.mem_add]
  exact Or.inr (mem_tables hi hp)

theorem mem_userFrames (hv : v < kernbase) (hp : (view mem d v).p = true) :
    (view mem d v).addr ∈ userFrames mem d := by
  rw [userFrames]
  exact mem_sum_of_mem (mem_range.mpr hv) (Pte.mem_frames.mpr ⟨hp, rfl⟩)

theorem div_lt_of_lt_top (hv : v < top) : v / 1024 < NPDENTRIES := by
  simp only [top, NPDENTRIES] at *
  omega

theorem lt_top_of_lt_kernbase (hv : v < kernbase) : v < top := by
  simp only [top, kernbase] at *
  omega

theorem view_of_table (hp : (mem d (v / 1024)).p = true) :
    view mem d v = mem (mem d (v / 1024)).addr (v % 1024) := if_pos hp

theorem view_of_no_table (hp : (mem d (v / 1024)).p = false) : view mem d v = .zero :=
  if_neg (by simp [hp])

theorem table_of_present (h : (view mem d v).p = true) : (mem d (v / 1024)).p = true := by
  by_contra hp
  rw [view_of_no_table (by simpa using hp)] at h
  cases h

/-! ## Writes elsewhere -/

section Congr

variable (h : ∀ f ∈ skeleton mem d, mem' f = mem f)

include h

theorem tables_congr : tables mem' d = tables mem d := by
  rw [tables, tables, h d (self_mem_skeleton mem d)]

theorem skeleton_congr : skeleton mem' d = skeleton mem d := by
  rw [skeleton, skeleton, tables_congr h]

theorem view_congr (hv : v < top) : view mem' d v = view mem d v := by
  have hd := h d (self_mem_skeleton mem d)
  cases hp : (mem d (v / 1024)).p with
  | true =>
    rw [view_of_table hp, view_of_table (by rw [hd]; exact hp), hd,
      h _ (table_mem_skeleton (div_lt_of_lt_top hv) hp)]
  | false => rw [view_of_no_table hp, view_of_no_table (by rw [hd]; exact hp)]

theorem userFrames_congr : userFrames mem' d = userFrames mem d := by
  rw [userFrames, userFrames]
  exact sum_congr rfl fun v hv => by rw [view_congr h (lt_top_of_lt_kernbase (mem_range.mp hv))]

theorem frames_congr : frames mem' d = frames mem d := by
  rw [frames, frames, skeleton_congr h, userFrames_congr h]

end Congr

/-! ## Distinct tables -/

theorem addr_ne_dir (hnodup : (skeleton mem d).Nodup) (hi : i < NPDENTRIES)
    (hp : (mem d i).p = true) : (mem d i).addr ≠ d := by
  rw [skeleton, Multiset.singleton_add, Multiset.nodup_cons] at hnodup
  intro heq
  have hmem := mem_tables hi hp
  rw [heq] at hmem
  exact hnodup.1 hmem

theorem addr_ne_addr {j : ℕ} (hnodup : (skeleton mem d).Nodup) (hi : i < NPDENTRIES)
    (hj : j < NPDENTRIES) (hij : i ≠ j) (hpi : (mem d i).p = true) (hpj : (mem d j).p = true) :
    (mem d i).addr ≠ (mem d j).addr := by
  rw [skeleton, Multiset.nodup_add, tables] at hnodup
  have hdisj := disjoint_of_nodup_sum hnodup.2.1 (mem_range.mpr hi) (mem_range.mpr hj) hij
  intro heq
  exact Multiset.disjoint_left.mp hdisj (Pte.mem_frames.mpr ⟨hpi, rfl⟩)
    (Pte.mem_frames.mpr ⟨hpj, heq⟩)

/-! ## A new page table -/

/-- Memory after `walkpgdir` put the empty page table `t` in place `i` of `d`. -/
def withTable (mem : Memory) (d i t : ℕ) : Memory :=
  Function.update (Function.update mem t fun _ => .zero) d
    (Function.update ((Function.update mem t fun _ => Pte.zero) d) i ⟨t, true, true, true⟩)

theorem withTable_dir (htd : t ≠ d) (j : ℕ) :
    withTable mem d i t d j = if j = i then ⟨t, true, true, true⟩ else mem d j := by
  rw [withTable, Function.update_self, Function.update_of_ne htd.symm]
  exact Function.update_apply ..

theorem withTable_of_ne {f : ℕ} (hfd : f ≠ d) (hft : f ≠ t) : withTable mem d i t f = mem f := by
  rw [withTable, Function.update_of_ne hfd, Function.update_of_ne hft]

theorem withTable_table (htd : t ≠ d) : withTable mem d i t t = fun _ => .zero := by
  rw [withTable, Function.update_of_ne htd, Function.update_self]

section WithTable

variable (hi : i < NPDENTRIES) (hp : (mem d i).p = false) (ht : t ∉ skeleton mem d)

include hi hp ht

theorem tables_withTable : tables (withTable mem d i t) d = tables mem d + {t} := by
  have htd : t ≠ d := fun heq => ht (heq ▸ self_mem_skeleton mem d)
  have hexchange := sum_exchange (f := fun j => (mem d j).frames)
    (g := fun j => (withTable mem d i t d j).frames) (mem_range.mpr hi) fun j _ hj => by
      rw [withTable_dir htd, if_neg hj]
  rw [withTable_dir htd, if_pos rfl, Pte.frames_of_absent hp, add_zero,
    Pte.frames_of_present rfl] at hexchange
  rw [tables, tables, hexchange]

theorem skeleton_withTable : skeleton (withTable mem d i t) d = skeleton mem d + {t} := by
  rw [skeleton, skeleton, tables_withTable hi hp ht, add_assoc]

omit hi in
theorem view_withTable (hnodup : (skeleton mem d).Nodup) (hv : v < top) :
    view (withTable mem d i t) d v = view mem d v := by
  have htd : t ≠ d := fun heq => ht (heq ▸ self_mem_skeleton mem d)
  have hdir : withTable mem d i t d (v / 1024) = _ := withTable_dir htd _
  by_cases hvi : v / 1024 = i
  · -- There was no table before, and the new one is empty.
    rw [if_pos hvi] at hdir
    rw [view_of_table (by rw [hdir]), hdir, withTable_table htd]
    exact (view_of_no_table (by rw [hvi]; exact hp)).symm
  · rw [if_neg hvi] at hdir
    cases hq : (mem d (v / 1024)).p with
    | false => rw [view_of_no_table hq, view_of_no_table (by rw [hdir]; exact hq)]
    | true =>
      have hlt := div_lt_of_lt_top hv
      have hne : (mem d (v / 1024)).addr ≠ t := fun heq =>
        ht (heq ▸ table_mem_skeleton hlt hq)
      rw [view_of_table hq, view_of_table (by rw [hdir]; exact hq), hdir,
        withTable_of_ne (addr_ne_dir hnodup hlt hq) hne]

end WithTable

/-! ## A new entry -/

def withPte (mem : Memory) (t j : ℕ) (x : Pte) : Memory :=
  Function.update mem t (Function.update (mem t) j x)

section WithPte

variable (hnodup : (skeleton mem d).Nodup) (hv : v < top) (hp : (mem d (v / 1024)).p = true)

include hnodup hv hp

theorem withPte_dir : withPte mem (mem d (v / 1024)).addr (v % 1024) x d = mem d :=
  Function.update_of_ne (addr_ne_dir hnodup (div_lt_of_lt_top hv) hp).symm ..

theorem tables_withPte :
    tables (withPte mem (mem d (v / 1024)).addr (v % 1024) x) d = tables mem d := by
  rw [tables, tables, withPte_dir hnodup hv hp]

theorem skeleton_withPte :
    skeleton (withPte mem (mem d (v / 1024)).addr (v % 1024) x) d = skeleton mem d := by
  rw [skeleton, skeleton, tables_withPte hnodup hv hp]

theorem view_withPte {u : ℕ} (hu : u < top) :
    view (withPte mem (mem d (v / 1024)).addr (v % 1024) x) d u =
      if u = v then x else view mem d u := by
  have hdir := withPte_dir (x := x) hnodup hv hp
  cases hq : (mem d (u / 1024)).p with
  | false =>
    have hne : u ≠ v := by
      rintro rfl
      rw [hp] at hq
      cases hq
    rw [view_of_no_table hq, view_of_no_table (by rw [hdir]; exact hq), if_neg hne]
  | true =>
    rw [view_of_table hq, view_of_table (by rw [hdir]; exact hq), hdir, withPte]
    by_cases hdiv : u / 1024 = v / 1024
    · rw [hdiv, Function.update_self]
      by_cases huv : u = v
      · rw [huv, Function.update_self, if_pos rfl]
      · rw [Function.update_of_ne (show u % 1024 ≠ v % 1024 by omega), if_neg huv]
    · have hne := addr_ne_addr hnodup (div_lt_of_lt_top hu) (div_lt_of_lt_top hv) hdiv hq hp
      rw [Function.update_of_ne hne, if_neg fun huv : u = v => hdiv (by rw [huv])]

end WithPte

/-! ## User frames, seen through the mapping -/

/-- One entry below `KERNBASE` changes. -/
theorem userFrames_of_view {d' : ℕ} (hv : v < kernbase)
    (h : ∀ u < kernbase, view mem' d' u = if u = v then x else view mem d u) :
    userFrames mem' d' + (view mem d v).frames = userFrames mem d + x.frames := by
  have hexchange := sum_exchange (f := fun u => (view mem d u).frames)
    (g := fun u => (view mem' d' u).frames) (mem_range.mpr hv) fun u hu hne => by
      rw [h u (mem_range.mp hu), if_neg hne]
  rw [h v hv, if_pos rfl] at hexchange
  rw [userFrames, userFrames, hexchange]

theorem userFrames_of_view_zero (h : ∀ u < kernbase, (view mem d u).p = false) :
    userFrames mem d = 0 := by
  rw [userFrames]
  exact sum_eq_zero fun u hu => Pte.frames_of_absent (h u (mem_range.mp hu))

end Lainos.Vm
