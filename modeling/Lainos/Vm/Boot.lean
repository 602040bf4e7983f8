import Lainos.Vm.Frames

/-!
# Starting the kernel

`main` gets all the frames it asks for, and leaves one process with one page.
-/

namespace Lainos.Vm

open Library Exec Finset

variable {L : Layout} {m m' : Machine} {s s' : System} {d n k : ℕ}

/-- Nothing is refused, and there are `k` frames. -/
structure Ample (m : Machine) (k : ℕ) : Prop where
  luck : ∀ n, m.luck n = true
  free : k ≤ m.free.length

theorem kalloc_ample (h : Ample m (k + 1)) :
    Ends kalloc (fun r m' => ∃ f l, m.free = f :: l ∧ r = some f ∧ m' = m.draw.setFree l ∧ Ample m' k)
      (fun _ => False) m := by
  have hfree := h.free
  obtain ⟨f, l, hfl, hrun⟩ := kalloc_granted (h.luck 0) (List.ne_nil_of_length_pos (by omega))
  rw [Ends, hrun]
  refine ⟨f, l, hfl, rfl, rfl, fun n => h.luck (n + 1), ?_⟩
  rw [hfl, List.length_cons] at hfree
  exact Nat.le_of_succ_le_succ hfree

theorem setupkvm_ample (hgood : Good L (m.heap.total 0)) (h : Ample m (k + 65)) :
    Ends (setupkvm L) (fun r m' => ∃ d, r = some d ∧ Fresh L m m' d ∧ Ample m' k)
      (fun _ => False) m := by
  obtain ⟨d, m', hrun, hfresh, hluck, hlen⟩ := setupkvm_granted hgood h.luck h.free
  rw [Ends, hrun]
  exact ⟨d, rfl, hfresh, hluck, hlen⟩

/-- The frames of a range that is handed to the allocator. -/
theorem freerange_spec {f : ℕ} (hlo : L.first ≤ f) (hhi : f + n ≤ phystop) :
    Ends (freerange L n f) (fun _ m' => Moves m.heap m'.heap (Ico f (f + n)).val 0 ∧
      m'.starved = m.starved ∧ (Ample m k → Ample m' (n + k))) (fun _ => False) m := by
  induction n generalizing m f k with
  | zero =>
    rw [add_zero, Ico_self]
    exact ⟨Moves.refl .., rfl, fun h => by rwa [zero_add]⟩
  | succ n ih =>
    rw [freerange, ends_bind]
    refine (kfree_spec ⟨hlo, by omega⟩).mono ?_ fun _ hfalse => hfalse
    rintro _ m₁ rfl
    refine (ih (k := k + 1) (by omega) (by omega)).mono ?_ fun _ hfalse => hfalse
    rintro _ m' ⟨hmoves, hstarved, hample⟩
    refine ⟨?_, hstarved, fun h => ?_⟩
    · refine (((kfree_moves m f).add (Ico (f + 1) (f + 1 + n)).val).cast ?_ (zero_add _)).trans hmoves
      rw [Multiset.singleton_add, ← insert_val_of_notMem (by simp), show f + 1 + n = f + (n + 1) by omega,
        insert_Ico_add_one_left_eq_Ico (by omega)]
    · have hlen := h.free
      have := hample ⟨h.luck, by simp only [Machine.setFree_free, List.length_cons]; omega⟩
      rwa [show n + (k + 1) = n + 1 + k by omega] at this

theorem inituvm_spec (hgood : Good L (m.heap.total (frames m.mem d))) (h : Ample m (k + 2))
    (habsent : ∀ u < kernbase, (view m.mem d u).p = false) :
    Ends (inituvm d) (fun _ m' => Moves m.heap m'.heap (frames m.mem d) (frames m'.mem d) ∧
      (∀ u < kernbase, (view m'.mem d u).p = decide (u < 1)) ∧ m'.starved = m.starved ∧ Ample m' k)
      (fun _ => False) m := by
  have hc := constants
  rw [inituvm, ends_bind]
  refine (kalloc_ample h).mono ?_ fun _ hfalse => hfalse
  rintro r m₁ ⟨f, l, hfree, rfl, rfl, hample⟩
  simp only [ends_bind, ends_modify]
  set m₂ := (m.draw.setFree l).setPage f fun _ => Pte.zero with hm₂
  have hnot := hgood.skeleton_of_frames.free_not_mem hfree
  have hskel : skeleton m₂.mem d = skeleton m.mem d := skeleton_congr fun g hg =>
    Function.update_of_ne (fun heq : g = f => hnot (heq ▸ hg)) ..
  have hgood₂ : Good L (m₂.heap.total (skeleton m₂.mem d)) := by
    rw [hskel]
    have hmoves := ((kalloc_moves hfree fun _ => Pte.zero).add (frames m.mem d)).cast (zero_add _) rfl
    refine (hgood.of_moves hmoves).mono (add_le_add_right ?_ _)
    rw [frames, add_left_comm]
    exact Multiset.le_add_right ..
  have hcard : (missing m₂.mem d {0}).card ≤ 1 := card_filter_le ..
  have hlen : k + 1 ≤ m₂.free.length := hample.free
  have hplenty : Plenty (fun _ => true) m₂.free.length (m₂.mem d) m₂ d {0}
      (m₂.free.length - (missing m₂.mem d {0}).card) :=
    ⟨hample.luck, by omega, le_rfl, fun _ _ => rfl⟩
  refine ((give_spec hgood (by omega) hfree).and (mappages_plenty hplenty (fun _ _ => rfl) hgood₂ (by omega)
    fun u _ hu => ?_)).mono ?_ ?_
  · rw [mem_singleton, Nat.div_eq_zero_iff]
    omega
  · rintro ok m' ⟨hgiven, rfl, hplenty'⟩
    refine ⟨hgiven.moves.cast rfl (add_zero _), fun u hu => ?_, hgiven.starved, hplenty'.luck,
      ?_⟩
    · rw [hgiven.view u (lt_top_of_lt_kernbase hu), if_pos rfl, remap]
      by_cases hzero : u = 0
      · rw [if_pos hzero, decide_eq_true (by omega)]
      · rw [if_neg hzero, habsent u hu, decide_eq_false (by omega)]
    · have hcount := hplenty'.count
      omega
  · rintro e ⟨⟨-, hp⟩, -⟩
    rw [habsent 0 (by omega)] at hp
    cases hp

theorem startothers_spec (h : Ample s.vm (n + k)) :
    Ends (startothers n) (fun _ s' => ∃ m ks, s' = { s with vm := m, cpus := ks ++ s.cpus } ∧
      Moves s.vm.heap m.heap 0 (ks : Multiset ℕ) ∧ m.mem = s.vm.mem ∧ m.starved = s.vm.starved ∧
      Ample m k) (fun _ => False) s := by
  induction n generalizing s with
  | zero => exact ⟨s.vm, [], rfl, Moves.refl .., rfl, rfl, by rwa [zero_add] at h⟩
  | succ n ih =>
    rw [startothers, ends_bind, ends_onVm]
    rw [show n + 1 + k = n + k + 1 by omega] at h
    refine (kalloc_ample h).mono ?_ fun _ hfalse => hfalse
    rintro r m₁ ⟨f, l, hfree, rfl, rfl, hample⟩
    simp only [ends_bind, ends_modify]
    refine (ih hample).mono ?_ fun _ hfalse => hfalse
    rintro _ s' ⟨m, ks, rfl, hmoves, hmem, hstarved, hample'⟩
    refine ⟨m, ks ++ [f], by simp [System.setVm], ?_, hmem, hstarved, hample'⟩
    refine (kalloc_takes hfree).trans ((hmoves.add {f}).cast (zero_add _) ?_)
    rw [← Multiset.coe_singleton, Multiset.coe_add]

/-- The first process, with its one page. -/
structure FirstProcess (s : System) : Prop where
  runnable : (s.proc 0).state = .runnable
  size : (s.proc 0).sz = PGSIZE
  others : ∀ q, q ≠ 0 → (s.proc q).state = .unused

theorem userinit_spec (hv : Valid L s) (hslots : ∀ q, (s.proc q).state = .unused)
    (h : Ample s.vm (k + 68)) :
    Ends (userinit L) (fun _ s' => Outcome L s s' True ∧ s'.vm.starved = s.vm.starved ∧
      FirstProcess s' ∧ Ample s'.vm k) (fun _ => False) s := by
  have hc := constants
  rw [userinit, ends_bind]
  refine (allocproc_spec s).mono ?_ fun _ hfalse => hfalse
  rintro r s₁ (⟨-, -, hall⟩ | ⟨q, hq, hslot, hfirst, ⟨-, hwhy, -⟩ | ⟨f, l, hfree, rfl, rfl⟩⟩)
  · exact absurd (hslots 0) (hall 0 (by decide))
  · have hlen := h.free
    rcases hwhy with hnil | hluck
    · rw [hnil, List.length_nil] at hlen
      omega
    · rw [h.luck] at hluck
      cases hluck
  obtain rfl : q = 0 := by
    by_contra hne
    exact hfirst 0 (Nat.pos_of_ne_zero hne) (hslots 0)
  have htake := kalloc_takes hfree
  have hgood₁ : Good L ((s.vm.draw.setFree l).heap.total ({f} + s.owners)) :=
    hv.good.of_moves ((htake.add s.owners).cast (zero_add _) rfl)
  have hample₁ : Ample (s.vm.draw.setFree l) (k + 2 + 65) := by
    have hlen := h.free
    rw [hfree, List.length_cons] at hlen
    exact ⟨fun n => h.luck (n + 1), by rw [Machine.setFree_free]; omega⟩
  simp only [ends_bind, ends_onVm]
  refine (setupkvm_ample (hgood₁.mono (add_le_add_right (Multiset.zero_le _) _)) hample₁).mono ?_
    fun _ hfalse => hfalse
  rintro r m ⟨d, rfl, hfresh, hample⟩
  have habsent : ∀ u < kernbase, (view m.mem d u).p = false := fun u hu => by
    rw [hfresh.view u (lt_top_of_lt_kernbase hu), kview_of_lt hu]
    rfl
  have hgood : Good L (m.heap.total (frames m.mem d)) :=
    (hgood₁.mono (add_le_add_right (Multiset.zero_le _) _)).of_moves hfresh.moves
  simp only [ends_bind, ends_onVm]
  refine (inituvm_spec hgood hample habsent).mono ?_ fun _ hfalse => hfalse
  rintro _ m' ⟨hmoves, hview, hstarved, hample'⟩
  set q : Proc := ⟨.runnable, f, d, PGSIZE, (s.proc 0).parent, (s.proc 0).ofile⟩ with hqdef
  have hpages : pages PGSIZE = 1 := by
    have := pages_mul_PGSIZE 1
    rwa [one_mul] at this
  have heffect : Effect s.vm m' 0 ({f} + frames m'.mem d) := by
    refine Effect.of_moves (htake.trans ?_) (hstarved.trans hfresh.starved)
    exact ((hfresh.moves.trans hmoves).add {f}).cast (zero_add _) (add_comm ..)
  have hborn : Outcome L s ((s.setVm m').setProc 0 q) True := by
    refine Outcome.of_born hv hq hslot (Or.inl rfl) rfl heffect ?_ fun _ u hu => ?_
    · change PGSIZE ≤ kernbase * PGSIZE
      rw [PGSIZE]
      omega
    · rw [hqdef, hpages]
      exact hview u hu
  simp only [ends_modify, System.setProc, System.setVm, Function.update_idem,
    Function.update_self] at hborn ⊢
  refine ⟨hborn, hstarved.trans hfresh.starved, ⟨?_, ?_, fun r hr => ?_⟩, hample'⟩
  · simp only [Function.update_self]
  · simp only [Function.update_self]
  · simp only [Function.update_of_ne hr, hslots]

/-- The state in which the first process starts. -/
structure Booted (L : Layout) (s : System) : Prop where
  valid : Valid L s
  total : s.vm.heap.total s.owners = (Ico L.first phystop).val
  starved : s.vm.starved = 0
  sized : s.Sized
  first : FirstProcess s
  ample : Ample s.vm 70

theorem lowEnd_bounds (L : Layout) : L.first + 80 ≤ lowEnd ∧ lowEnd + 200 ≤ phystop := by
  have hc := constants
  have hfirst := L.first_le
  rw [lowEnd]
  omega

/-- The frames below 4 MiB and those above. -/
theorem managed_eq (L : Layout) : (Ico L.first lowEnd).val + (Ico lowEnd phystop).val =
    (Ico L.first phystop).val := by
  obtain ⟨h₁, h₂⟩ := lowEnd_bounds L
  exact Multiset.Ico_add_Ico_eq_Ico (by omega) (by omega)

/-- The kernel before the first process is made. -/
theorem valid_of_empty {ks : List ℕ} (hgood : Good L (m.heap.total (frames m.mem d + ks))) :
    Valid L { System.init with vm := m, kpgdir := d, cpus := ks } ∧
      ({ System.init with vm := m, kpgdir := d, cpus := ks } : System).owners = frames m.mem d + ks := by
  have howners : ({ System.init with vm := m, kpgdir := d, cpus := ks } : System).owners =
      frames m.mem d + ks := by
    have hpipes : pipeFrames System.init.file = ∅ := by
      ext x
      simp [mem_pipeFrames, System.init]
    rw [System.owners, System.spaces]
    simp only [hpipes, empty_val, add_zero]
    exact add_eq_left.mpr (sum_eq_zero fun _ _ => procFrames_unused rfl)
  have hopened : opened System.init.proc = 0 :=
    sum_eq_zero fun _ _ => sum_eq_zero fun _ _ => rfl
  refine ⟨⟨by rwa [howners], ⟨?_, ?_, ?_, ?_, ?_, ?_⟩, fun _ _ _ _ _ => rfl, ?_⟩, howners⟩
  · rw [hopened]
    exact fun _ _ => rfl
  · rw [hopened]
    exact fun f hf => absurd hf (Multiset.notMem_zero f)
  all_goals simp [System.init]

theorem boot_spec (L : Layout) (hn : n < NCPU) :
    Ends (boot L n) (fun _ s => Booted L s) (fun _ => False) System.init := by
  obtain ⟨hlow, hhigh⟩ := lowEnd_bounds L
  have hc := constants
  have hnodup : ((Ico L.first phystop).val).Nodup := (Ico L.first phystop).nodup
  rw [NCPU] at hn
  rw [boot, ends_bind, ends_onVm]
  refine (freerange_spec (k := 0) le_rfl (by omega)).mono ?_ fun _ hfalse => hfalse
  rintro _ m₁ ⟨hmoves₁, hstarved₁, hample₁⟩
  rw [show L.first + (lowEnd - L.first) = lowEnd by omega] at hmoves₁
  have hample₁ : Ample m₁ (15 + 65) := ⟨(hample₁ ⟨fun _ => rfl, Nat.zero_le _⟩).luck, by
    have := (hample₁ ⟨fun _ => rfl, Nat.zero_le _⟩).free
    omega⟩
  have hgood₀ : Good L (System.init.vm.heap.total ((Ico L.first lowEnd).val + (Ico lowEnd phystop).val)) := by
    rw [managed_eq]
    refine ⟨?_, fun f hf => ?_⟩
    · exact (zero_add (Ico L.first phystop).val).symm ▸ hnodup
    · rw [Heap.total] at hf
      exact mem_Ico.mp (by simpa [System.init, Machine.heap] using hf)
  have hstep₁ := hmoves₁.add (Ico lowEnd phystop).val
  rw [ends_bind, kvmalloc, ends_bind, ends_onVm]
  have hgood₁ := hgood₀.of_moves hstep₁
  refine (setupkvm_ample (hgood₁.mono (add_le_add_right (Multiset.zero_le _) _)) hample₁).mono ?_
    fun _ hfalse => hfalse
  rintro r m₂ ⟨d, rfl, hfresh, hample₂⟩
  have hstep₂ := hstep₁.trans (hfresh.moves.add (Ico lowEnd phystop).val)
  simp only [ends_modify, ends_bind]
  have hample₂ : Ample m₂ (n + 8) := ⟨hample₂.luck, le_trans (by omega) hample₂.free⟩
  refine (startothers_spec (k := 8) hample₂).mono ?_ fun _ hfalse => hfalse
  rintro _ s₃ ⟨m₃, ks, rfl, hmoves₃, hmem₃, hstarved₃, hample₃⟩
  have hstep₃ := hstep₂.trans ((hmoves₃.add (frames m₂.mem d + (Ico lowEnd phystop).val)).cast
    (zero_add _) (show _ = (Ico lowEnd phystop).val + (frames m₂.mem d + ks) by abel))
  have hgood₃ := hgood₀.of_moves hstep₃
  rw [ends_onVm]
  refine (freerange_spec (m := m₃) (k := 8) (by omega) (by omega)).mono ?_ fun _ hfalse => hfalse
  rintro _ m₄ ⟨hmoves₄, hstarved₄, hample₄⟩
  rw [show lowEnd + (phystop - lowEnd) = phystop by omega] at hmoves₄
  have hstep₄ := hstep₃.trans ((hmoves₄.add (frames m₂.mem d + ks)).cast rfl (zero_add _))
  have hframes : frames m₄.mem d = frames m₂.mem d := by
    refine frames_congr fun f hf => (hmoves₄.mem_eq hgood₃.nodup ?_).trans (congrFun hmem₃ f)
    exact Multiset.mem_add.mpr (Or.inl (Multiset.mem_add.mpr (Or.inl hf)))
  obtain ⟨hvalid, howners⟩ := valid_of_empty (hframes.symm ▸ hgood₀.of_moves hstep₄)
  have hample : Ample m₄ (70 + 68) := ⟨(hample₄ hample₃).luck, le_trans (by omega) (hample₄ hample₃).free⟩
  change Ends _ _ _ { System.init with vm := m₄, kpgdir := d, cpus := ks ++ [] }
  rw [List.append_nil]
  refine (userinit_spec hvalid (fun _ => rfl) hample).mono ?_ fun _ hfalse => hfalse
  rintro _ s ⟨houtcome, hstarved, hone, hample'⟩
  obtain ⟨lost, hmoves, -, -, hzero⟩ := houtcome.effect
  have htotal := hmoves.total
  rw [hzero hstarved, add_zero, howners, hframes, ← hstep₄.total, managed_eq] at htotal
  refine ⟨houtcome.valid, ?_, ?_, houtcome.sized trivial fun p _ hused => absurd rfl hused, hone,
    hample'⟩
  · rw [← htotal]
    exact zero_add _
  · rw [hstarved, hstarved₄, hstarved₃]
    exact hfresh.starved.trans hstarved₁

end Lainos.Vm
