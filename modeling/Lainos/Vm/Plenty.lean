import Lainos.Vm.Grow

/-!
# Calls that do not run out of memory

If no call of `kalloc` is refused and there are more free frames than page tables that
may be missing, `setupkvm` succeeds. One directory and 64 page tables are enough.
-/

namespace Lainos.Vm

open Library Exec Finset

variable {L : Layout} {s s' : Machine} {d v pa n k : ℕ} {I : Finset ℕ} {lam : ℕ → Bool} {N : ℕ}
  {D : ℕ → Pte}

/-- The page tables with index in `I` that `d` does not have. -/
def missing (mem : Memory) (d : ℕ) (I : Finset ℕ) : Finset ℕ := I.filter fun i => (mem d i).p = false

/-- There is a frame for each missing page table, and `k` more. There were `N` frames at first,
with `lam n` the answer to the call of `kalloc` that finds `N - n` of them. Outside of `I` the
directory is `D`. -/
structure Plenty (lam : ℕ → Bool) (N : ℕ) (D : ℕ → Pte) (s : Machine) (d : ℕ) (I : Finset ℕ)
    (k : ℕ) : Prop where
  luck : ∀ n, s.luck n = lam (n + (N - s.free.length))
  count : (missing s.mem d I).card + k = s.free.length
  le : s.free.length ≤ N
  others : ∀ j ∉ I, s.mem d j = D j

theorem kalloc_granted (hluck : s.luck 0 = true) (hfree : s.free ≠ []) :
    ∃ f l, s.free = f :: l ∧ kalloc s = .ok (some f, s.draw.setFree l) := by
  obtain ⟨f, l, hfl⟩ := List.exists_cons_of_ne_nil hfree
  refine ⟨f, l, hfl, ?_⟩
  rw [kalloc, bind_of_ok get_run, hfl]
  simp only [hluck, if_true]
  rfl

theorem kalloc_refused (h : s.free = [] ∨ s.luck 0 = false) : kalloc s = .ok (none, s.draw) := by
  rw [kalloc, bind_of_ok get_run]
  cases hfree : s.free with
  | nil => rfl
  | cons f l =>
    have hluck := h.resolve_left (by rw [hfree]; exact List.cons_ne_nil f l)
    simp only [hluck, Bool.false_eq_true, if_false]
    rfl

/-- A call of `kalloc` that leaves at least `k` frames is granted. -/
theorem Plenty.kalloc {i : ℕ} (h : Plenty lam N D s d I k) (hlam : ∀ n < N - i, lam n = true)
    (hi : i < s.free.length) : ∃ f l, s.free = f :: l ∧ kalloc s = .ok (some f, s.draw.setFree l) := by
  have hle := h.le
  refine kalloc_granted ?_ (List.ne_nil_of_length_pos (by omega))
  rw [h.luck 0]
  exact hlam _ (by omega)

theorem Plenty.draw_luck {f : ℕ} {l : List ℕ} (h : Plenty lam N D s d I k) (hfree : s.free = f :: l)
    (n : ℕ) : s.draw.luck n = lam (n + (N - l.length)) := by
  have hle := h.le
  rw [hfree, List.length_cons] at hle
  change s.luck (n + 1) = _
  rw [h.luck, hfree, List.length_cons, show n + 1 + (N - (l.length + 1)) = n + (N - l.length) by omega]

theorem missing_withTable {t i : ℕ} {mem : Memory} (htd : t ≠ d) (hi : i ∈ I)
    (hp : (mem d i).p = false) :
    (missing (withTable mem d i t) d I).card + 1 = (missing mem d I).card := by
  have herase : missing (withTable mem d i t) d I = (missing mem d I).erase i := by
    ext j
    simp only [missing, mem_filter, mem_erase]
    rw [withTable_dir htd]
    by_cases hji : j = i
    · simp [hji]
    · simp [hji]
  have hmem : i ∈ missing mem d I := mem_filter.mpr ⟨hi, hp⟩
  rw [herase, card_erase_add_one hmem]

theorem mapPage_plenty {w us : Bool} (h : Plenty lam N D s d I k) (hlam : ∀ n < N - k, lam n = true)
    (hgood : Good L (s.heap.total (skeleton s.mem d))) (hv : v < top) (hi : v / 1024 ∈ I) :
    Ends (mapPage d v pa w us) (fun ok s' => ok = true ∧ Plenty lam N D s' d I k) (fun _ => True) s := by
  have hnodup := hgood.skeleton_nodup
  have hlt := div_lt_of_lt_top hv
  rw [mapPage, ends_bind, walkpgdir, ends_bind, ends_get]
  cases hp : (s.mem d (v / 1024)).p with
  | true =>
    have hne := addr_ne_dir hnodup hlt hp
    simp only [if_true, ends_pure, ends_bind, ends_get, ends_ite, ends_panic, ends_set]
    have hdir : (s.setPte (s.mem d (v / 1024)).addr (v % 1024) ⟨pa, true, w, us⟩).mem d = s.mem d :=
      Function.update_of_ne hne.symm ..
    refine ⟨fun _ => trivial, fun _ => ⟨trivial, h.luck, ?_, h.le, ?_⟩⟩
    · rw [missing, hdir]
      exact h.count
    · rw [hdir]
      exact h.others
  | false =>
    have hcount := h.count
    have hmem : v / 1024 ∈ missing s.mem d I := mem_filter.mpr ⟨hi, hp⟩
    have hpos := card_pos.mpr ⟨_, hmem⟩
    obtain ⟨t, l, hfl, hkalloc⟩ := h.kalloc hlam (by omega)
    have htd : t ≠ d := fun heq =>
      hgood.free_not_mem hfl (heq ▸ self_mem_skeleton s.mem d)
    have hcard := missing_withTable htd hi hp
    have hlen : s.free.length = l.length + 1 := by rw [hfl, List.length_cons]
    have hle := h.le
    simp only [Bool.false_eq_true, if_false, if_true, ends_bind]
    rw [Ends, hkalloc]
    simp only [ends_bind, ends_modify, ends_pure, ends_get, ends_ite, ends_panic, ends_set]
    have hdir : withPte (withTable s.mem d (v / 1024) t) t (v % 1024) ⟨pa, true, w, us⟩ d =
        withTable s.mem d (v / 1024) t d := Function.update_of_ne htd.symm ..
    refine ⟨fun _ => trivial, fun _ => ⟨trivial, h.draw_luck hfl, ?_, ?_, fun j hj => ?_⟩⟩
    · change (missing (withPte (withTable s.mem d (v / 1024) t) t (v % 1024) ⟨pa, true, w, us⟩) d
        I).card + k = l.length
      rw [missing, hdir, ← missing]
      omega
    · change l.length ≤ N
      omega
    · change withPte (withTable s.mem d (v / 1024) t) t (v % 1024) ⟨pa, true, w, us⟩ d j = D j
      rw [hdir, withTable_dir htd, if_neg (fun heq : j = v / 1024 => hj (heq ▸ hi))]
      exact h.others j hj

theorem mappages_plenty {w us : Bool} (h : Plenty lam N D s d I k) (hlam : ∀ n < N - k, lam n = true)
    (hgood : Good L (s.heap.total (skeleton s.mem d))) (hv : v + n ≤ top)
    (hi : ∀ u, v ≤ u → u < v + n → u / 1024 ∈ I) :
    Ends (mappages d w us n v pa) (fun ok s' => ok = true ∧ Plenty lam N D s' d I k) (fun _ => True) s := by
  induction n generalizing s v pa with
  | zero => exact ⟨rfl, h⟩
  | succ n ih =>
    rw [mappages, ends_bind]
    refine ((mapPage_spec hgood (by omega)).and
      (mapPage_plenty h hlam hgood (by omega) (hi v le_rfl (by omega)))).mono ?_ fun _ _ => trivial
    rintro ok s₁ ⟨hspec, rfl, hplenty⟩
    obtain ⟨-, -, hmaps⟩ | ⟨hfalse, -⟩ := hspec
    · exact ih hplenty (hgood.of_moves hmaps.moves) (by omega) fun u hu hlt =>
        hi u (by omega) (by omega)
    · cases hfalse

/-- The places of the kernel's page tables in a directory. -/
def kernelTables : Finset ℕ := Ico 512 568 ∪ Ico 1016 1024

theorem card_kernelTables : kernelTables.card = 64 := by
  have hdisjoint : Disjoint (Ico 512 568) (Ico 1016 1024) := by
    refine disjoint_left.mpr fun i hi hi' => ?_
    rw [mem_Ico] at hi hi'
    omega
  rw [kernelTables, card_union_of_disjoint hdisjoint, Nat.card_Ico, Nat.card_Ico]

theorem mem_kernelTables {u : ℕ} (h : (kernbase ≤ u ∧ u < kernbase + phystop) ∨
    (devspace ≤ u ∧ u < top)) : u / 1024 ∈ kernelTables := by
  have hc := constants
  simp only [kernelTables, mem_union, mem_Ico]
  omega

theorem kmap_bounds (L : Layout) : ∀ x ∈ kmap L, ∀ u, x.virt ≤ u → u < x.virt + x.count →
    (kernbase ≤ u ∧ u < kernbase + phystop) ∨ (devspace ≤ u ∧ u < top) := by
  have hL := L.bounds
  have hc := constants
  have hcounts := kmap_counts L
  simp only [kmap, List.map_cons, List.map_nil, List.cons.injEq, and_true] at hcounts
  obtain ⟨h₁, h₂, h₃, h₄⟩ := hcounts
  intro x hx u hlo hhi
  simp only [kmap, List.mem_cons, List.not_mem_nil, or_false] at hx
  rcases hx with rfl | rfl | rfl | rfl
  · rw [h₁] at hhi
    simp only at *
    omega
  · rw [h₂] at hhi
    simp only at *
    omega
  · rw [h₃] at hhi
    simp only at *
    omega
  · rw [h₄] at hhi
    simp only at *
    omega

theorem mapKernel_plenty {l : List Kmap} {f : ℕ → Pte} (h : Plenty lam N D s d I k) (hlam : ∀ n < N - k, lam n = true)
    (hgood : Good L (s.heap.total (skeleton s.mem d))) (hf : ∀ u < top, Vm.view s.mem d u = f u)
    (hapart : Apart f l)
    (hi : ∀ x ∈ l, ∀ u, x.virt ≤ u → u < x.virt + x.count → u / 1024 ∈ I) :
    Ends (mapKernel d l) (fun ok s' => ok = true ∧ Plenty lam N D s' d I k) (fun _ => True) s := by
  induction l generalizing s f with
  | nil => exact ⟨rfl, h⟩
  | cons x l ih =>
    obtain ⟨htop, habsent, hrest⟩ := hapart
    rw [mapKernel, ends_bind]
    refine ((mappages_spec hgood htop).and
      (mappages_plenty h hlam hgood htop (hi x List.mem_cons_self))).mono ?_ fun _ _ => trivial
    rintro ok s₁ ⟨hspec, rfl, hplenty⟩
    obtain ⟨-, hmaps⟩ | ⟨hfalse, -⟩ := hspec
    · have hview : ∀ u < top, Vm.view s₁.mem d u =
          remapRange f x.count x.virt x.physStart x.w false u := fun u hu => by
        rw [hmaps.view u hu, remapRange, remapRange, hf u hu]
      exact ih hplenty (hgood.of_moves hmaps.moves) hview hrest fun y hy =>
        hi y (List.mem_cons_of_mem _ hy)
    · cases hfalse

theorem missing_of_kview (h : ∀ u < top, Vm.view s.mem d u = kview L u) :
    missing s.mem d kernelTables = ∅ := by
  have hc := constants
  refine filter_eq_empty_iff.mpr fun i hi habsent => ?_
  have hp : (kview L (i * 1024)).p = true := by
    simp only [kernelTables, mem_union, mem_Ico] at hi
    rw [kview]
    split_ifs
    · rfl
    · rfl
    · omega
  have htop : i * 1024 < top := by
    simp only [kernelTables, mem_union, mem_Ico] at hi
    omega
  have htable := table_of_present (by rw [h _ htop]; exact hp)
  rw [Nat.mul_div_cancel _ (by omega), habsent] at htable
  cases htable

/-- The calls of `kalloc` in `setupkvm`: one for the directory and 64 for page tables. -/
theorem setupkvm_exact (hgood : Good L (s.heap.total 0)) (hluck : ∀ n < 65, s.luck n = true)
    (hfree : 65 ≤ s.free.length) :
    ∃ d s', setupkvm L s = .ok (some d, s') ∧ Fresh L s s' d ∧ (∀ n, s'.luck n = s.luck (n + 65)) ∧
      s'.free.length + 65 = s.free.length ∧ ∀ j ∉ kernelTables, s'.mem d j = .zero := by
  have hplenty : Ends (setupkvm L) (fun r s' => ∃ d, r = some d ∧
      Plenty s.luck s.free.length (fun _ => .zero) s' d kernelTables (s.free.length - 65))
      (fun _ => True) s := by
    have hlow : ¬ kernbase + phystop > devspace := by
      have := constants
      omega
    obtain ⟨d, l, hfl, hkalloc⟩ := kalloc_granted (hluck 0 (by omega))
      (List.ne_nil_of_length_pos (by omega))
    have hlen : s.free.length = l.length + 1 := by rw [hfl, List.length_cons]
    have hmoves := kalloc_moves hfl fun _ => Pte.zero
    have hempty : ((s.draw.setFree l).setPage d fun _ => Pte.zero).mem d = fun _ => .zero :=
      Function.update_self ..
    have hmissing : missing ((s.draw.setFree l).setPage d fun _ => Pte.zero).mem d kernelTables =
        kernelTables := filter_true_of_mem fun i _ => by rw [hempty]; rfl
    rw [← skeleton_of_empty hempty] at hmoves
    rw [setupkvm, ends_bind, Ends, hkalloc]
    simp only [ends_bind, ends_modify, if_neg hlow]
    have hplenty : Plenty s.luck s.free.length (fun _ => .zero)
        ((s.draw.setFree l).setPage d fun _ => Pte.zero) d kernelTables (s.free.length - 65) := by
      refine ⟨fun n => ?_, ?_, ?_, fun j _ => by rw [hempty]⟩
      · change s.luck (n + 1) = s.luck (n + (s.free.length - l.length))
        rw [hlen, Nat.add_sub_cancel_left]
      · rw [hmissing, card_kernelTables]
        change 64 + (s.free.length - 65) = l.length
        omega
      · change l.length ≤ s.free.length
        omega
    refine (mapKernel_plenty hplenty (fun n hn => hluck n (by omega)) (hgood.of_moves hmoves)
      (fun u _ => view_of_empty hempty u) (apart_kmap L)
      fun x hx u hlo hhi => mem_kernelTables (kmap_bounds L x hx u hlo hhi)).mono ?_
      fun _ htrue => htrue
    rintro ok s₁ ⟨rfl, hplenty₁⟩
    exact ⟨d, rfl, hplenty₁⟩
  have hboth := ends_iff.mp ((setupkvm_spec hgood).and hplenty)
  cases hrun : setupkvm L s with
  | error e => exact (hboth.2 e hrun).1.elim
  | ok p =>
    obtain ⟨r, s'⟩ := p
    obtain ⟨⟨d, rfl, hfresh⟩ | ⟨rfl, -⟩, d', heq, hplenty'⟩ := hboth.1 r s' hrun
    swap
    · cases heq
    obtain rfl := Option.some.inj heq
    have hcount := hplenty'.count
    rw [missing_of_kview hfresh.view, card_empty, Nat.zero_add] at hcount
    refine ⟨d, s', rfl, hfresh, fun n => ?_, by omega, hplenty'.others⟩
    rw [hplenty'.luck, ← hcount, show s.free.length - (s.free.length - 65) = 65 by omega]

theorem setupkvm_granted (hgood : Good L (s.heap.total 0)) (hluck : ∀ n, s.luck n = true)
    (hfree : k + 65 ≤ s.free.length) :
    ∃ d s', setupkvm L s = .ok (some d, s') ∧ Fresh L s s' d ∧ (∀ n, s'.luck n = true) ∧
      k ≤ s'.free.length := by
  obtain ⟨d, s', hrun, hfresh, hluck', hlen, -⟩ := setupkvm_exact hgood (fun n _ => hluck n) (by omega)
  exact ⟨d, s', hrun, hfresh, fun n => by rw [hluck', hluck], by omega⟩

/-- With a frame for each page as well, `allocuvm` gets all its pages. -/
theorem allocFrom_plenty {a : ℕ} (h : Plenty lam N D s d I (k + n)) (hlam : ∀ i < N - k, lam i = true)
    (hgood : Good L (s.heap.total (frames s.mem d))) (ha : a + n ≤ kernbase)
    (hi : ∀ u, a ≤ u → u < a + n → u / 1024 ∈ I) :
    Ends (allocFrom d n a) (fun ok s' => ok = true ∧ s'.starved = s.starved ∧ Plenty lam N D s' d I k)
      (fun _ => True) s := by
  induction n generalizing s a with
  | zero => exact ⟨rfl, rfl, h⟩
  | succ n ih =>
    have hcount := h.count
    have hle := h.le
    obtain ⟨m, l, hfl, hkalloc⟩ := h.kalloc hlam (by omega)
    have hlen : s.free.length = l.length + 1 := by rw [hfl, List.length_cons]
    rw [allocFrom, ends_bind, Ends, hkalloc]
    simp only [ends_bind, ends_modify]
    set s₁ := (s.draw.setFree l).setPage m fun _ => Pte.zero with hs₁
    have hskeleton := hgood.skeleton_of_frames
    have hm : m ∉ skeleton s.mem d := hskeleton.free_not_mem hfl
    have hsame : ∀ f ∈ skeleton s.mem d, s₁.mem f = s.mem f := fun f hf =>
      Function.update_of_ne (fun heq : f = m => hm (heq ▸ hf)) ..
    have hdir : s₁.mem d = s.mem d := hsame d (self_mem_skeleton s.mem d)
    have hplenty : Plenty lam N D s₁ d I (k + n) := by
      refine ⟨h.draw_luck hfl, ?_, ?_, fun j hj => by rw [hdir]; exact h.others j hj⟩
      · rw [missing, hdir, ← missing]
        change _ = l.length
        omega
      · change l.length ≤ N
        omega
    have hgood₁ : Good L (s₁.heap.total (skeleton s₁.mem d)) := by
      have hmoves := ((kalloc_moves hfl fun _ => Pte.zero).add (skeleton s.mem d)).cast (zero_add _) rfl
      rw [skeleton_congr hsame]
      refine (hskeleton.of_moves hmoves).mono (add_le_add_right ?_ _)
      exact Multiset.le_add_left ..
    refine ((give_spec hgood (by omega) hfl).and (mappages_plenty hplenty (fun i hi' => hlam i (by omega))
      hgood₁ (by have := constants; omega) fun u hu hlt => hi u hu (by omega))).mono ?_ fun _ _ => trivial
    rintro ok s₂ ⟨hgiven, rfl, hplenty₂⟩
    refine (ih hplenty₂ (hgiven.effect.good hgood) (by omega) fun u hu hlt => hi u (by omega) (by omega)).mono
      ?_ fun _ he => he
    rintro ok s₃ ⟨rfl, hstarved, hplenty₃⟩
    exact ⟨rfl, by rw [hstarved, hgiven.starved, if_pos rfl, add_zero], hplenty₃⟩

end Lainos.Vm
