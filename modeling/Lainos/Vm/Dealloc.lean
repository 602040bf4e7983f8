import Lainos.Vm.Confine

/-!
# What deallocuvm leaves behind

Where there is no page table, the loop of `deallocuvm` moves on by the size of a page table
from where it is, and not to the beginning of the next one. What it jumps over there stays
mapped.
-/

namespace Lainos.Vm

open Library Exec Finset

variable {L : Layout} {s s' : Machine} {mem : Memory} {d a u last : ℕ}

/-- The loop, which begins at page `a`, jumps over page `u`: there is no page table for `a`, the
page table of `u` is the next one there is, and `u` comes in it before the place that
corresponds to `a`. -/
def Jumped (mem : Memory) (d a u : ℕ) : Prop :=
  (mem d (a / 1024)).p = false ∧ a / 1024 < u / 1024 ∧ u % 1024 < a % 1024 ∧
    ∀ j, a / 1024 < j → j < u / 1024 → (mem d j).p = false

theorem not_jumped_of_table (h : (mem d (a / 1024)).p = true) : ¬ Jumped mem d a u := by
  intro hj
  rw [hj.1] at h
  cases h

theorem not_jumped_of_aligned (h : a % 1024 = 0) : ¬ Jumped mem d a u := by
  rintro ⟨-, -, hlt, -⟩
  omega

/-- A jump goes on from the same place of the next page table. -/
theorem jumped_iff (h : (mem d (a / 1024)).p = false) (hau : a ≤ u) :
    Jumped mem d a u ↔ (u < a + 1024 ∧ u / 1024 ≠ a / 1024) ∨
      (a + 1024 ≤ u ∧ Jumped mem d (a + 1024) u) := by
  have hdiv : (a + 1024) / 1024 = a / 1024 + 1 := by omega
  have hmod : (a + 1024) % 1024 = a % 1024 := by omega
  rw [Jumped, Jumped, hdiv, hmod]
  constructor
  · rintro ⟨-, hlt, hplace, hnone⟩
    by_cases hnear : u < a + 1024
    · exact .inl ⟨hnear, by omega⟩
    · exact .inr ⟨by omega, hnone _ (by omega) (by omega), by omega, hplace,
        fun j hj hju => hnone j (by omega) hju⟩
  · rintro (⟨hnear, hne⟩ | ⟨-, hnext, hlt, hplace, hnone⟩)
    · exact ⟨h, by omega, by omega, fun j hj hju => by omega⟩
    · refine ⟨h, by omega, hplace, fun j hj hju => ?_⟩
      obtain rfl | hgt := Nat.eq_or_lt_of_le (Nat.succ_le_of_lt hj)
      · exact hnext
      · exact hnone j hgt hju

/-- What the loop from page `a` on has done. -/
structure Cleared (s s' : Machine) (d last a : ℕ) : Prop where
  dir : s'.mem d = s.mem d
  gone : ∀ u, a ≤ u → u < last → ¬ Jumped s.mem d a u → (view s'.mem d u).p = false
  left : ∀ u < top, u < a ∨ last ≤ u ∨ Jumped s.mem d a u → view s'.mem d u = view s.mem d u

theorem Cleared.refl (h : last ≤ a) : Cleared s s d last a :=
  ⟨rfl, fun u hau hul => by omega, fun _ _ _ => rfl⟩

/-- The page table is missing. -/
theorem Cleared.jump (h : Cleared s s' d last (a + 1024)) (htable : (s.mem d (a / 1024)).p = false)
    (hlast : last ≤ top) : Cleared s s' d last a := by
  refine ⟨h.dir, fun u hau hul hj => ?_, fun u hu hcase => ?_⟩
  · by_cases hnear : a + 1024 ≤ u
    · exact h.gone u hnear hul fun hj' => hj ((jumped_iff htable hau).mpr (.inr ⟨hnear, hj'⟩))
    · have hsame : u / 1024 = a / 1024 := by
        by_contra hne
        exact hj ((jumped_iff htable hau).mpr (.inl ⟨by omega, hne⟩))
      rw [h.left u (by omega) (.inl (by omega)), view_of_no_table (by rw [hsame]; exact htable)]
      rfl
  · refine h.left u hu ?_
    obtain hlt | hge | hj := hcase
    · exact .inl (by omega)
    · exact .inr (.inl hge)
    · have hau : a ≤ u := by
        have := hj.2.1
        omega
      obtain ⟨hnear, -⟩ | ⟨-, hj'⟩ := (jumped_iff htable hau).mp hj
      · exact .inl hnear
      · exact .inr (.inr hj')

/-- The page table is there. -/
theorem Cleared.next {s₁ : Machine} (h : Cleared s₁ s' d last (a + 1)) (hdir : s₁.mem d = s.mem d)
    (htable : (s.mem d (a / 1024)).p = true) (hlast : last ≤ top)
    (hpage : (view s₁.mem d a).p = false)
    (hview : ∀ u < top, u ≠ a → view s₁.mem d u = view s.mem d u) (ha : a < last) :
    Cleared s s' d last a := by
  have hnext : ∀ u, ¬ Jumped s₁.mem d (a + 1) u := fun u => by
    by_cases halign : (a + 1) % 1024 = 0
    · exact not_jumped_of_aligned halign
    · refine not_jumped_of_table ?_
      rw [hdir, show (a + 1) / 1024 = a / 1024 by omega]
      exact htable
  refine ⟨h.dir.trans hdir, fun u hau hul _ => ?_, fun u hu hcase => ?_⟩
  · by_cases hua : u = a
    · rw [hua, h.left a (by omega) (.inl (by omega))]
      exact hpage
    · exact h.gone u (by omega) hul (hnext u)
  · have hne : u < a ∨ last ≤ u := by
      obtain hlt | hge | hj := hcase
      · exact .inl hlt
      · exact .inr hge
      · exact absurd hj (not_jumped_of_table htable)
    rw [h.left u hu (by omega), hview u hu (by omega)]

theorem deallocFrom_cleared {fuel : ℕ} (h : Good L (s.heap.total (frames s.mem d)))
    (hlast : last ≤ kernbase) (hfuel : last ≤ a + fuel) :
    Ends (deallocFrom L d last fuel a) (fun _ s' => Cleared s s' d last a) (fun _ => False) s := by
  have htop : last ≤ top := by
    have := constants
    omega
  induction fuel generalizing s a with
  | zero => exact Cleared.refl (by omega)
  | succ fuel ih =>
    rw [deallocFrom]
    by_cases ha : a < last
    swap
    · rw [if_neg ha]
      exact Cleared.refl (by omega)
    rw [if_pos ha, ends_bind, Ends, walkpgdir_eq]
    cases htable : (s.mem d (a / 1024)).p with
    | false =>
      refine (ih h (by omega)).mono (fun _ s' hs' => ?_) fun _ hfalse => hfalse
      exact hs'.jump htable htop
    | true =>
      simp only [if_true, ends_bind, ends_get]
      rw [← view_of_table htable]
      by_cases hp : (view s.mem d a).p = true
      · obtain ⟨hmoves, hview, hdir⟩ := h.freed (by omega) hp
        have hmanaged : L.first ≤ (view s.mem d a).addr ∧ (view s.mem d a).addr < phystop := by
          refine h.managed _ (Multiset.mem_add.mpr (Or.inr ?_))
          rw [frames, Multiset.mem_add]
          exact Or.inr (mem_userFrames (by omega) hp)
        have hL := L.bounds
        rw [if_pos hp, if_neg (by omega), ends_bind]
        refine (kfree_spec hmanaged).mono ?_ fun _ hfalse => hfalse
        rintro _ s₁ rfl
        rw [ends_bind, ends_modify]
        refine (ih (h.of_moves hmoves) (by omega)).mono (fun _ s' hs' => ?_) fun _ hfalse => hfalse
        refine hs'.next hdir htable htop ?_ (fun u hu hne => (hview u hu).trans (if_neg hne)) ha
        have hgone := hview a (by omega)
        rw [if_pos rfl] at hgone
        exact congrArg Pte.p hgone
      · rw [if_neg hp]
        refine (ih h (by omega)).mono (fun _ s' hs' => ?_) fun _ hfalse => hfalse
        exact hs'.next rfl htable htop (by simpa using hp) (fun _ _ _ => rfl) ha

theorem deallocuvm_cleared {oldsz newsz : ℕ} (h : Good L (s.heap.total (frames s.mem d)))
    (hold : oldsz ≤ kernbase * PGSIZE) :
    Ends (deallocuvm L d oldsz newsz) (fun _ s' => Cleared s s' d (pages oldsz) (pages newsz))
      (fun _ => False) s := by
  rw [deallocuvm]
  by_cases hle : newsz ≥ oldsz
  · rw [if_pos hle]
    exact Cleared.refl (pages_le_of_le hle)
  · rw [if_neg hle, ends_bind]
    exact deallocFrom_cleared h (pages_le_kernbase hold) (by omega)

/-- Every page from `a` up to `last` is gone, the frames that were mapped there have been freed
once each, and the rest of the mapping is as it was. -/
structure AllFreed (s s' : Machine) (d a last : ℕ) : Prop where
  gone : ∀ u, a ≤ u → u < last → (view s'.mem d u).p = false
  freed : (s'.free : Multiset ℕ) = s.free + ∑ u ∈ Ico a last, (view s.mem d u).frames
  kept : ∀ u < top, u < a ∨ last ≤ u → view s'.mem d u = view s.mem d u

theorem userFrames_of_gone (hlast : last ≤ kernbase)
    (hgone : ∀ u, a ≤ u → u < last → (view s'.mem d u).p = false)
    (hkept : ∀ u < top, u < a ∨ last ≤ u → view s'.mem d u = view s.mem d u) :
    userFrames s.mem d = userFrames s'.mem d + ∑ u ∈ Ico a last, (view s.mem d u).frames := by
  have hinter : range kernbase ∩ Ico a last = Ico a last := by
    ext u
    simp only [mem_inter, mem_range, mem_Ico]
    omega
  rw [userFrames, userFrames, ← hinter, ← sum_ite_mem, ← sum_add_distrib]
  refine sum_congr rfl fun u hu => ?_
  have htop := lt_top_of_lt_kernbase (mem_range.mp hu)
  by_cases hin : a ≤ u ∧ u < last
  · rw [if_pos (mem_Ico.mpr hin), Pte.frames_of_absent (hgone u hin.1 hin.2), zero_add]
  · rw [if_neg (fun h => hin (mem_Ico.mp h)), hkept u htop (by omega), add_zero]

theorem Cleared.allFreed_iff (h : Cleared s s' d last a) (hlast : last ≤ kernbase)
    (hmoves : Moves s.heap s'.heap (frames s.mem d) (frames s'.mem d)) :
    AllFreed s s' d a last ↔
      ∀ u, a ≤ u → u < last → (view s.mem d u).p = true → ¬ Jumped s.mem d a u := by
  have htop : last ≤ top := by
    have := constants
    omega
  constructor
  · intro hall u hau hul hp hj
    have hgone := hall.gone u hau hul
    rw [h.left u (by omega) (.inr (.inr hj)), hp] at hgone
    cases hgone
  · intro hnone
    have hgone : ∀ u, a ≤ u → u < last → (view s'.mem d u).p = false := by
      intro u hau hul
      by_cases hj : Jumped s.mem d a u
      · rw [h.left u (by omega) (.inr (.inr hj))]
        by_contra hp
        exact hnone u hau hul (by simpa using hp) hj
      · exact h.gone u hau hul hj
    have hkept : ∀ u < top, u < a ∨ last ≤ u → view s'.mem d u = view s.mem d u :=
      fun u hu hcase => h.left u hu (hcase.imp_right .inl)
    refine ⟨hgone, ?_, hkept⟩
    have htotal := hmoves.total
    have hskel : skeleton s'.mem d = skeleton s.mem d := by
      rw [skeleton, skeleton, tables, tables, h.dir]
    rw [Heap.total, Heap.total, frames, frames, hskel, userFrames_of_gone hlast hgone hkept] at htotal
    refine add_right_cancel (b := skeleton s.mem d + userFrames s'.mem d) (htotal.symm.trans ?_)
    change (s.free : Multiset ℕ) + _ = _
    abel

/-- `deallocuvm` frees everything exactly if nothing that is mapped is jumped over. -/
theorem deallocuvm_frees_iff {oldsz newsz : ℕ} (h : Good L (s.heap.total (frames s.mem d)))
    (hlt : newsz < oldsz) (hold : oldsz ≤ kernbase * PGSIZE) :
    Ends (deallocuvm L d oldsz newsz) (fun r s' => r = newsz ∧
      (AllFreed s s' d (pages newsz) (pages oldsz) ↔ ∀ u, pages newsz ≤ u → u < pages oldsz →
        (view s.mem d u).p = true → ¬ Jumped s.mem d (pages newsz) u)) (fun _ => False) s := by
  have hlast := pages_le_kernbase hold
  have hmono := pages_le_of_le hlt.le
  have hfuel : pages oldsz ≤ pages newsz + (pages oldsz - pages newsz) := by omega
  rw [deallocuvm, if_neg (by omega), ends_bind]
  refine ((deallocFrom_cleared h hlast hfuel).and (deallocFrom_spec h hlast hfuel)).mono ?_
    fun _ hfalse => hfalse.1
  rintro _ s' ⟨hcleared, hdealloc⟩
  exact ⟨rfl, hcleared.allFreed_iff hlast hdealloc.moves⟩

/-! ## A page that stays -/

/-- A directory with one page table, for its entry `i`, which maps its first page; `k` frames are
free. -/
def singleMachine (i k : ℕ) : Machine where
  mem f j := if f = 0x1FF ∧ j = i then ⟨0x200, true, true, true⟩
    else if f = 0x200 ∧ j = 0 then ⟨0x201, true, true, true⟩ else .zero
  free := List.range' 0x210 k
  luck _ := true
  starved := 0
  stores := []

theorem singleMachine_dir (i k j : ℕ) : (singleMachine i k).mem 0x1FF j =
    if j = i then ⟨0x200, true, true, true⟩ else .zero := by
  simp [singleMachine]

theorem singleMachine_view (i k u : ℕ) : view (singleMachine i k).mem 0x1FF u =
    if u = 1024 * i then ⟨0x201, true, true, true⟩ else .zero := by
  by_cases hdiv : u / 1024 = i
  · have hdir := singleMachine_dir i k (u / 1024)
    rw [if_pos hdiv] at hdir
    rw [view_of_table (by rw [hdir]), hdir]
    change (singleMachine i k).mem 0x200 (u % 1024) = _
    simp only [singleMachine]
    rw [if_neg (by omega)]
    refine if_congr ⟨fun h => ?_, fun h => ⟨trivial, by omega⟩⟩ rfl rfl
    have := h.2
    omega
  · have hp : ((singleMachine i k).mem 0x1FF (u / 1024)).p = false := by
      rw [singleMachine_dir, if_neg hdiv]
      rfl
    rw [view_of_no_table hp, if_neg (by omega)]

theorem good_singleMachine {i k : ℕ} (hi : i < 512) (hk : k ≤ 100) :
    Good smallLayout ((singleMachine i k).heap.total (frames (singleMachine i k).mem 0x1FF)) := by
  have htables : tables (singleMachine i k).mem 0x1FF = {0x200} := by
    rw [tables, sum_eq_single i]
    · rw [singleMachine_dir, if_pos rfl]
      rfl
    · intro j _ hj
      rw [singleMachine_dir, if_neg hj]
      rfl
    · intro hout
      exact absurd (mem_range.mpr (by rw [NPDENTRIES]; omega)) hout
  have huser : userFrames (singleMachine i k).mem 0x1FF = {0x201} := by
    rw [userFrames, sum_eq_single (1024 * i)]
    · rw [singleMachine_view, if_pos rfl]
      rfl
    · intro u _ hu
      rw [singleMachine_view, if_neg hu]
      rfl
    · intro hout
      exact absurd (mem_range.mpr (by rw [kernbase]; omega)) hout
  have htotal : (singleMachine i k).heap.total (frames (singleMachine i k).mem 0x1FF) =
      ((List.range' 0x210 k ++ [0x1FF, 0x200, 0x201] : List ℕ) : Multiset ℕ) := by
    rw [Heap.total, frames, skeleton, htables, huser, ← Multiset.coe_add]
    rfl
  have hc := constants
  rw [htotal]
  refine ⟨Multiset.coe_nodup.mpr (List.nodup_append.mpr ⟨List.nodup_range', by decide, ?_⟩),
    fun f hf => ?_⟩
  · intro f hf g hg
    rw [List.mem_range'_1] at hf
    simp only [List.mem_cons, List.not_mem_nil, or_false] at hg
    omega
  · rw [Multiset.mem_coe, List.mem_append, List.mem_range'_1] at hf
    simp only [List.mem_cons, List.not_mem_nil, or_false] at hf
    simp only [smallLayout]
    omega

/-- The second page table is there and maps its first page, the first one is missing. The
sizes are 4100 KiB and 4 KiB, and the page at 4 MiB stays. -/
theorem deallocuvm_leaves_page :
    Good smallLayout ((singleMachine 1 0).heap.total (frames (singleMachine 1 0).mem 0x1FF)) ∧
    (view (singleMachine 1 0).mem 0x1FF 1024).p = true ∧
    deallocuvm smallLayout 0x1FF (1025 * 4096) 4096 (singleMachine 1 0) = .ok (4096, singleMachine 1 0) := by
  refine ⟨good_singleMachine (by omega) (by omega), by rw [singleMachine_view, if_pos rfl], ?_⟩
  have hwalk : walkpgdir 0x1FF 1 false (singleMachine 1 0) = .ok (none, singleMachine 1 0) := by
    rw [walkpgdir_eq, singleMachine_dir]
    rfl
  have hloop : deallocFrom smallLayout 0x1FF 1025 1024 1 (singleMachine 1 0) = .ok ((), singleMachine 1 0) := by
    rw [deallocFrom, if_pos (by omega), bind_of_ok hwalk]
    change deallocFrom smallLayout 0x1FF 1025 1023 1025 (singleMachine 1 0) = _
    rw [deallocFrom, if_neg (by omega)]
    rfl
  rw [deallocuvm, if_neg (by omega)]
  exact bind_of_ok hloop

theorem deallocuvm_frees_iff_jump : Ends (deallocuvm smallLayout 0x1FF (1025 * 4096) 4096)
    (fun r s' => r = 4096 ∧ (AllFreed (singleMachine 1 0) s' 0x1FF (pages 4096) (pages (1025 * 4096)) ↔
      ∀ u, pages 4096 ≤ u → u < pages (1025 * 4096) → (view (singleMachine 1 0).mem 0x1FF u).p = true →
        ¬ Jumped (singleMachine 1 0).mem 0x1FF (pages 4096) u)) (fun _ => False) (singleMachine 1 0) :=
  deallocuvm_frees_iff (good_singleMachine (by omega) (by omega)) (by omega) (by rw [kernbase, PGSIZE]; omega)

end Lainos.Vm
