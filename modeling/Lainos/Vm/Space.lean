import Lainos.Vm.Tables

/-!
# Operations on address spaces

What the functions of `kalloc.c` and `vm.c` do to the frames of an address space and to
its mapping. No function makes a frame appear twice. A call of `walkpgdir` that gets no
memory is counted in `starved`.
-/

namespace Lainos.Vm

open Library Exec Finset

variable {L : Layout} {s s' : Machine} {d v pa : ℕ} {X X' R : Multiset ℕ}

def Machine.heap (s : Machine) : Heap ℕ (ℕ → Pte) := ⟨s.free, s.mem⟩

/-- All frames are different and are frames that `kinit1` and `kinit2` put into the free
list. -/
structure Good (L : Layout) (T : Multiset ℕ) : Prop where
  nodup : T.Nodup
  managed : ∀ f ∈ T, L.first ≤ f ∧ f < phystop

theorem Good.of_moves (h : Good L (s.heap.total X)) (hm : Moves s.heap s'.heap X X') :
    Good L (s'.heap.total X') :=
  hm.total ▸ h

theorem Good.mono {T T' : Multiset ℕ} (h : Good L T) (hle : T' ≤ T) : Good L T' :=
  ⟨Multiset.nodup_of_le hle h.nodup, fun f hf => h.managed f (Multiset.mem_of_le hle hf)⟩

theorem Good.skeleton_nodup (h : Good L (s.heap.total (skeleton s.mem d))) :
    (skeleton s.mem d).Nodup :=
  (Multiset.nodup_add.mp h.nodup).2.1

/-! ## Frames -/

@[simp] theorem ends_panic {α : Type} {Q : α → Machine → Prop} {E : Halt → Prop} {why : String} :
    Ends (panic why : VAct α) Q E s ↔ E ⟨why, s.stores⟩ := Iff.rfl

theorem kalloc_spec (s : Machine) :
    Ends kalloc (fun r s' => (r = none ∧ s' = s.draw ∧ (s.free = [] ∨ s.luck 0 = false)) ∨
      ∃ f l, s.free = f :: l ∧ r = some f ∧ s' = s.draw.setFree l) (fun _ => False) s := by
  rw [kalloc, ends_bind, ends_get]
  cases hfree : s.free with
  | nil => simp
  | cons f l =>
    cases hluck : s.luck 0 with
    | true => simp
    | false => simp

theorem kfree_spec {f : ℕ} (hf : L.first ≤ f ∧ f < phystop) :
    Ends (kfree L f) (fun _ s' => s' = (s.setPage f fun _ => .junk).setFree (f :: s.free))
      (fun _ => False) s := by
  rw [kfree]
  simp [show ¬ (f < L.first ∨ phystop ≤ f) by omega]

/-! ## Page tables -/

theorem walkpgdir_eq (s : Machine) (d v : ℕ) : walkpgdir d v false s =
    .ok (if (s.mem d (v / 1024)).p then some ((s.mem d (v / 1024)).addr, v % 1024) else none, s) := by
  rw [walkpgdir, bind_of_ok get_run]
  cases hp : (s.mem d (v / 1024)).p <;> rfl

/-- The state after `walkpgdir` took the frame `t`. -/
def Machine.withTable (s : Machine) (d i t : ℕ) (l : List ℕ) : Machine :=
  ((s.draw.setFree l).setPage t fun _ => .zero).setPte d i ⟨t, true, true, true⟩

theorem walkpgdir_spec (s : Machine) (d v : ℕ) :
    Ends (walkpgdir d v true) (fun r s' =>
      ((s.mem d (v / 1024)).p = true ∧ r = some ((s.mem d (v / 1024)).addr, v % 1024) ∧ s' = s) ∨
      ((s.mem d (v / 1024)).p = false ∧
        ((r = none ∧ s' = s.draw.starve) ∨
        ∃ t l, s.free = t :: l ∧ r = some (t, v % 1024) ∧ s' = s.withTable d (v / 1024) t l)))
      (fun _ => False) s := by
  rw [walkpgdir, ends_bind, ends_get]
  cases hp : (s.mem d (v / 1024)).p with
  | true => simp
  | false =>
    simp only [Bool.false_eq_true, if_false, if_true, ends_bind]
    refine (kalloc_spec s).mono ?_ fun _ h => h
    rintro r s' (⟨rfl, rfl, -⟩ | ⟨t, l, hfree, rfl, rfl⟩)
    · simp
    · simp [hfree, Machine.withTable]

theorem Machine.withTable_mem (s : Machine) (d i t : ℕ) (l : List ℕ) :
    (s.withTable d i t l).mem = Vm.withTable s.mem d i t := rfl

theorem Good.withTable {t : ℕ} {l : List ℕ} (h : Good L (s.heap.total (skeleton s.mem d)))
    (hfree : s.free = t :: l) (hi : v / 1024 < NPDENTRIES) (hp : (s.mem d (v / 1024)).p = false) :
    t ∉ skeleton s.mem d ∧ Moves s.heap (s.withTable d (v / 1024) t l).heap (skeleton s.mem d)
      (skeleton (s.withTable d (v / 1024) t l).mem d) := by
  have hnodup := (Multiset.nodup_add.mp h.nodup).2.2
  have htfree : t ∈ s.free := by rw [hfree]; exact List.mem_cons_self
  have ht : t ∉ skeleton s.mem d := fun hmem => Multiset.disjoint_left.mp hnodup htfree hmem
  refine ⟨ht, ?_, fun x hx => ?_⟩
  · rw [Machine.withTable_mem, skeleton_withTable hi hp ht]
    simp only [Heap.total, Machine.heap, hfree, Machine.withTable, Machine.setPte_free,
      Machine.setPage_free, Machine.setFree_free]
    rw [← Multiset.cons_coe, ← Multiset.singleton_add]
    abel
  · rw [Heap.total, Multiset.mem_add, not_or] at hx
    refine withTable_of_ne (fun hxd => hx.2 (hxd ▸ self_mem_skeleton s.mem d)) fun hxt => hx.1 ?_
    exact hxt ▸ htfree

/-- The mapping of `d` has become `f`, and page tables may have been added. -/
structure Maps (s s' : Machine) (d : ℕ) (f : ℕ → Pte) : Prop where
  moves : Moves s.heap s'.heap (skeleton s.mem d) (skeleton s'.mem d)
  view : ∀ u < top, view s'.mem d u = f u
  starved : s'.starved = s.starved
  stores : s'.stores = s.stores

/-- A call that got no page table and changed nothing. -/
structure Refused (s s' : Machine) : Prop where
  mem : s'.mem = s.mem
  free : s'.free = s.free
  starved : s'.starved = s.starved + 1
  stores : s'.stores = s.stores

theorem setPte_maps {x : Pte} (h : Good L (s.heap.total (skeleton s.mem d))) (hv : v < top)
    (hp : (s.mem d (v / 1024)).p = true) :
    Maps s (s.setPte (s.mem d (v / 1024)).addr (v % 1024) x) d
      fun u => if u = v then x else Vm.view s.mem d u := by
  have hnodup := h.skeleton_nodup
  have hmem : (s.setPte (s.mem d (v / 1024)).addr (v % 1024) x).mem =
      withPte s.mem (s.mem d (v / 1024)).addr (v % 1024) x := rfl
  refine ⟨⟨?_, fun f hf => ?_⟩, fun u hu => ?_, rfl, rfl⟩
  · rw [hmem, skeleton_withPte hnodup hv hp]
    rfl
  · refine Function.update_of_ne (fun heq => hf ?_) ..
    rw [Heap.total, Multiset.mem_add, heq]
    exact Or.inr (table_mem_skeleton (div_lt_of_lt_top hv) hp)
  · rw [hmem, view_withPte hnodup hv hp hu]

theorem Maps.trans {s'' : Machine} {f g : ℕ → Pte} (h₁ : Maps s s' d f) (h₂ : Maps s' s'' d g) :
    Maps s s'' d g :=
  ⟨h₁.moves.trans h₂.moves, h₂.view, h₂.starved.trans h₁.starved, h₂.stores.trans h₁.stores⟩

/-- The mapping after `pte` was put in place `v`. -/
def remap (f : ℕ → Pte) (v : ℕ) (x : Pte) (u : ℕ) : Pte := if u = v then x else f u

theorem mapPage_spec {w us : Bool} (h : Good L (s.heap.total (skeleton s.mem d))) (hv : v < top) :
    Ends (mapPage d v pa w us) (fun ok s' =>
      (ok = true ∧ (Vm.view s.mem d v).p = false ∧
        Maps s s' d (remap (Vm.view s.mem d) v ⟨pa, true, w, us⟩)) ∨
      (ok = false ∧ Refused s s'))
      (fun e => e = ⟨"remap", s.stores⟩ ∧ (Vm.view s.mem d v).p = true) s := by
  have hi := div_lt_of_lt_top hv
  rw [mapPage, ends_bind]
  refine (walkpgdir_spec s d v).mono ?_ fun _ hfalse => hfalse.elim
  rintro r s' (⟨hp, rfl, rfl⟩ | ⟨hp, ⟨rfl, rfl⟩ | ⟨t, l, hfree, rfl, rfl⟩⟩)
  · -- The page table is there.
    simp only [ends_bind, ends_get, ends_ite, ends_panic, ends_set, ends_pure]
    rw [← view_of_table hp]
    refine ⟨fun hpres => ⟨trivial, hpres⟩, fun hpres => Or.inl ⟨trivial, by simpa using hpres, ?_⟩⟩
    exact setPte_maps h hv hp
  · exact Or.inr ⟨rfl, rfl, rfl, rfl, rfl⟩
  · -- The page table is new.
    obtain ⟨ht, hmoves⟩ := h.withTable hfree hi hp
    have htd : t ≠ d := fun heq => ht (heq ▸ self_mem_skeleton s.mem d)
    have hdir : (s.withTable d (v / 1024) t l).mem d (v / 1024) = ⟨t, true, true, true⟩ := by
      rw [Machine.withTable_mem, withTable_dir htd, if_pos rfl]
    have hview : ∀ u < top, Vm.view (s.withTable d (v / 1024) t l).mem d u = Vm.view s.mem d u :=
      fun u hu => view_withTable hp ht h.skeleton_nodup hu
    have hzero : (s.withTable d (v / 1024) t l).mem t = fun _ => .zero := withTable_table htd
    simp only [ends_bind, ends_get, ends_ite, ends_panic, ends_set, ends_pure, hzero]
    refine ⟨fun hpres => absurd hpres Bool.false_ne_true, fun _ => Or.inl ⟨trivial, ?_, ?_⟩⟩
    · rw [view_of_no_table hp]
      rfl
    · have hset := setPte_maps (x := ⟨pa, true, w, us⟩) (h.of_moves hmoves) hv (by rw [hdir])
      rw [hdir] at hset
      refine ⟨hmoves.trans hset.moves, fun u hu => ?_, hset.starved, hset.stores⟩
      rw [hset.view u hu, remap, hview u hu]

/-- The mapping after `n` pages from `v` on were mapped to the frames from `pa` on. -/
def remapRange (f : ℕ → Pte) (n v pa : ℕ) (w us : Bool) (u : ℕ) : Pte :=
  if v ≤ u ∧ u < v + n then ⟨pa + (u - v), true, w, us⟩ else f u

theorem remapRange_of_mem {f : ℕ → Pte} {n u : ℕ} {w us : Bool} (hv : v ≤ u) (hu : u < v + n) :
    remapRange f n v pa w us u = ⟨pa + (u - v), true, w, us⟩ := if_pos ⟨hv, hu⟩

theorem remapRange_of_not_mem {f : ℕ → Pte} {n u : ℕ} {w us : Bool} (h : ¬ (v ≤ u ∧ u < v + n)) :
    remapRange f n v pa w us u = f u := if_neg h

/-- A call that ran out of memory on the way; page tables it made stay. -/
structure Stuck (s s' : Machine) (d : ℕ) : Prop where
  moves : Moves s.heap s'.heap (skeleton s.mem d) (skeleton s'.mem d)
  starved : s'.starved = s.starved + 1
  stores : s'.stores = s.stores

theorem Refused.stuck (h : Refused s s') : Stuck s s' d := by
  refine ⟨?_, h.starved, h.stores⟩
  have hheap : s'.heap = s.heap := by rw [Machine.heap, h.free, h.mem, Machine.heap]
  rw [hheap, h.mem]
  exact Moves.refl ..

theorem mappages_spec {w us : Bool} {n : ℕ} (h : Good L (s.heap.total (skeleton s.mem d)))
    (hv : v + n ≤ top) :
    Ends (mappages d w us n v pa) (fun ok s' =>
      (ok = true ∧ Maps s s' d (remapRange (Vm.view s.mem d) n v pa w us)) ∨
      (ok = false ∧ Stuck s s' d))
      (fun e => e = ⟨"remap", s.stores⟩ ∧
        ∃ u, v ≤ u ∧ u < v + n ∧ (Vm.view s.mem d u).p = true) s := by
  induction n generalizing s v pa with
  | zero =>
    refine Or.inl ⟨rfl, Moves.refl .., fun u _ => ?_, rfl, rfl⟩
    rw [remapRange, if_neg (by omega)]
  | succ n ih =>
    rw [mappages, ends_bind]
    refine (mapPage_spec h (by omega)).mono ?_ fun e he => ⟨he.1, v, le_rfl, by omega, he.2⟩
    rintro ok s₁ (⟨rfl, habsent, hmaps⟩ | ⟨rfl, hrefused⟩)
    · refine (ih (h.of_moves hmaps.moves) (by omega)).mono ?_ ?_
      · rintro ok s₂ (⟨rfl, hmaps₂⟩ | ⟨rfl, hstuck⟩)
        · refine Or.inl ⟨rfl, hmaps.moves.trans hmaps₂.moves, fun u hu => ?_,
            hmaps₂.starved.trans hmaps.starved, hmaps₂.stores.trans hmaps.stores⟩
          rw [hmaps₂.view u hu, remapRange, remapRange, hmaps.view u hu, remap]
          by_cases huv : u = v
          · subst huv
            rw [if_neg (by omega), if_pos rfl, if_pos (by omega), Nat.sub_self, add_zero]
          · rw [if_neg huv]
            by_cases hrange : v ≤ u ∧ u < v + (n + 1)
            · rw [if_pos hrange, if_pos (by omega), show pa + 1 + (u - (v + 1)) = pa + (u - v) by omega]
            · rw [if_neg hrange, if_neg (by omega)]
        · exact Or.inr ⟨rfl, hmaps.moves.trans hstuck.moves,
            by rw [hstuck.starved, hmaps.starved], hstuck.stores.trans hmaps.stores⟩
      · rintro e ⟨rfl, u, hvu, hun, hpres⟩
        rw [hmaps.view u (by omega), remap, if_neg (by omega)] at hpres
        exact ⟨by rw [hmaps.stores], u, by omega, by omega, hpres⟩
    · exact Or.inr ⟨rfl, hrefused.stuck⟩

/-! ## The kernel's part -/

/-- The mapping `setupkvm` makes. -/
def kview (L : Layout) (u : ℕ) : Pte :=
  if kernbase ≤ u ∧ u < kernbase + phystop then
    ⟨u - kernbase, true, decide (u < kernbase + extmem ∨ kernbase + L.data ≤ u), false⟩
  else if devspace ≤ u ∧ u < top then ⟨u, true, true, false⟩
  else .zero

theorem kview_of_lt {u : ℕ} (hu : u < kernbase) : kview L u = .zero := by
  rw [kview, if_neg (by omega), if_neg]
  simp only [kernbase, devspace] at *
  omega

/-- The mapping after the entries of the table `kmap`, one after the other. -/
def kmapView : (ℕ → Pte) → List Kmap → ℕ → Pte
  | f, [] => f
  | f, k :: l => kmapView (remapRange f k.count k.virt k.physStart k.w false) l

/-- Every entry maps pages that are not mapped before it. -/
def Apart : (ℕ → Pte) → List Kmap → Prop
  | _, [] => True
  | f, k :: l => k.virt + k.count ≤ top ∧ (∀ u, k.virt ≤ u → u < k.virt + k.count → (f u).p = false) ∧
      Apart (remapRange f k.count k.virt k.physStart k.w false) l

theorem mapKernel_spec {l : List Kmap} {f : ℕ → Pte}
    (h : Good L (s.heap.total (skeleton s.mem d))) (hf : ∀ u < top, Vm.view s.mem d u = f u)
    (hapart : Apart f l) :
    Ends (mapKernel d l) (fun ok s' => (ok = true ∧ Maps s s' d (kmapView f l)) ∨
      (ok = false ∧ Stuck s s' d)) (fun _ => False) s := by
  induction l generalizing s f with
  | nil => exact Or.inl ⟨rfl, Moves.refl .., hf, rfl, rfl⟩
  | cons k l ih =>
    obtain ⟨htop, habsent, hrest⟩ := hapart
    rw [mapKernel, ends_bind]
    refine (mappages_spec h htop).mono ?_ ?_
    · rintro ok s₁ (⟨rfl, hmaps⟩ | ⟨rfl, hstuck⟩)
      · have hview : ∀ u < top, Vm.view s₁.mem d u =
            remapRange f k.count k.virt k.physStart k.w false u := fun u hu => by
          rw [hmaps.view u hu, remapRange, remapRange, hf u hu]
        refine (ih (h.of_moves hmaps.moves) hview hrest).mono ?_ fun _ hfalse => hfalse
        rintro ok s₂ (⟨rfl, hmaps₂⟩ | ⟨rfl, hstuck⟩)
        · exact Or.inl ⟨rfl, hmaps.trans hmaps₂⟩
        · exact Or.inr ⟨rfl, hmaps.moves.trans hstuck.moves,
            by rw [hstuck.starved, hmaps.starved], hstuck.stores.trans hmaps.stores⟩
      · exact Or.inr ⟨rfl, hstuck⟩
    · rintro e ⟨-, u, hu, hlt, hpres⟩
      rw [hf u (by omega), habsent u hu hlt] at hpres
      cases hpres

theorem Layout.bounds (L : Layout) : extmem < L.data ∧ L.data < 0x400 ∧ L.data ≤ L.first ∧
    L.first + 80 ≤ 0x400 := by
  have h₁ := L.text_lt
  have h₂ := L.data_le
  have h₃ := L.first_le
  omega

theorem constants : extmem = 0x100 ∧ kernbase = 0x80000 ∧ phystop = 0xE000 ∧ devspace = 0xFE000 ∧
    top = 0x100000 := by
  simp only [extmem, kernbase, phystop, devspace, top, and_self]

/-- The entries of `kmap` with their numbers of pages. -/
theorem kmap_counts (L : Layout) : (kmap L).map Kmap.count =
    [extmem, L.data - extmem, phystop - L.data, top - devspace] := by
  have hL := L.bounds
  obtain ⟨hextmem, -, hphystop, hdevspace, htop⟩ := constants
  simp only [kmap, Kmap.count, List.map_cons, List.map_nil, List.cons.injEq, and_true, htop,
    hphystop, hdevspace, hextmem]
  rw [hextmem] at hL
  refine ⟨trivial, ?_, ?_⟩
  · omega
  · omega

theorem apart_kmap (L : Layout) : Apart (fun _ => .zero) (kmap L) := by
  have hL := L.bounds
  have hcounts := kmap_counts L
  simp only [kmap, List.map_cons, List.map_nil, List.cons.injEq, and_true] at hcounts
  obtain ⟨h₁, h₂, h₃, h₄⟩ := hcounts
  have hc := constants
  simp only [kmap, Apart, h₁, h₂, h₃, h₄]
  refine ⟨by omega, fun _ _ _ => rfl, by omega, fun u hu hlt => ?_, by omega, fun u hu hlt => ?_,
    by omega, fun u hu hlt => ?_, trivial⟩
  · rw [remapRange_of_not_mem (by omega)]
    rfl
  · rw [remapRange_of_not_mem (by omega), remapRange_of_not_mem (by omega)]
    rfl
  · rw [remapRange_of_not_mem (by omega), remapRange_of_not_mem (by omega),
      remapRange_of_not_mem (by omega)]
    rfl

theorem kmapView_kmap (L : Layout) (u : ℕ) (hu : u < top) :
    kmapView (fun _ => .zero) (kmap L) u = kview L u := by
  have hL := L.bounds
  have hcounts := kmap_counts L
  simp only [kmap, List.map_cons, List.map_nil, List.cons.injEq, and_true] at hcounts
  obtain ⟨h₁, h₂, h₃, h₄⟩ := hcounts
  have hc := constants
  simp only [kmap, kmapView, h₁, h₂, h₃, h₄]
  by_cases hdev : devspace ≤ u
  · rw [remapRange_of_mem hdev (by omega), kview, if_neg (by omega), if_pos ⟨hdev, hu⟩]
    simp only [Pte.mk.injEq, and_self, and_true]
    omega
  rw [remapRange_of_not_mem (by omega)]
  by_cases hram : kernbase ≤ u ∧ u < kernbase + phystop
  · rw [kview, if_pos hram]
    by_cases hdata : kernbase + L.data ≤ u
    · rw [remapRange_of_mem hdata (by omega)]
      simp only [Pte.mk.injEq, true_and, and_true, eq_comm (a := true), decide_eq_true_eq]
      omega
    · rw [remapRange_of_not_mem (by omega)]
      by_cases htext : kernbase + extmem ≤ u
      · rw [remapRange_of_mem htext (by omega)]
        simp only [Pte.mk.injEq, true_and, and_true, eq_comm (a := false), decide_eq_false_iff_not]
        omega
      · rw [remapRange_of_not_mem (by omega), remapRange_of_mem hram.1 (by omega)]
        simp only [Pte.mk.injEq, true_and, and_true, eq_comm (a := true), decide_eq_true_eq]
        omega
  · rw [kview, if_neg hram, if_neg (by omega), remapRange_of_not_mem (by omega),
      remapRange_of_not_mem (by omega), remapRange_of_not_mem (by omega)]

/-! ## What a call takes and gives back -/

/-- A call that starts with the frames `X` in hand and ends with `X'`. Frames that are
then neither free nor in hand are lost, one at least for each page table `walkpgdir`
could not get, and none if there was no such page table. -/
def Effect (s s' : Machine) (X X' : Multiset ℕ) : Prop :=
  ∃ lost : Multiset ℕ, Moves s.heap s'.heap X (X' + lost) ∧ s.starved ≤ s'.starved ∧
    s'.starved ≤ s.starved + lost.card ∧ (s'.starved = s.starved → lost = 0)

theorem Effect.of_moves (h : Moves s.heap s'.heap X X') (hs : s'.starved = s.starved) :
    Effect s s' X X' :=
  ⟨0, by rwa [add_zero], hs.ge, by simp [hs], fun _ => rfl⟩

theorem Effect.starved_le (h : Effect s s' X X') : s.starved ≤ s'.starved := by
  obtain ⟨_, _, hle, _⟩ := h
  exact hle

theorem Effect.refl (s : Machine) (X : Multiset ℕ) : Effect s s X X :=
  Effect.of_moves (Moves.refl ..) rfl

theorem Effect.trans {s'' : Machine} {X'' : Multiset ℕ} (h₁ : Effect s s' X X')
    (h₂ : Effect s' s'' X' X'') : Effect s s'' X X'' := by
  obtain ⟨l₁, hm₁, hle₁, hlost₁, hzero₁⟩ := h₁
  obtain ⟨l₂, hm₂, hle₂, hlost₂, hzero₂⟩ := h₂
  refine ⟨l₂ + l₁, ?_, hle₁.trans hle₂, ?_, fun heq => ?_⟩
  · exact hm₁.trans ((hm₂.add l₁).cast rfl (add_assoc ..))
  · rw [Multiset.card_add]
    omega
  · rw [hzero₁ (by omega), hzero₂ (by omega), add_zero]

theorem Effect.add (h : Effect s s' X X') (R : Multiset ℕ) : Effect s s' (X + R) (X' + R) := by
  obtain ⟨lost, hm, hle, hlost, hzero⟩ := h
  exact ⟨lost, (hm.add R).cast rfl (add_right_comm ..), hle, hlost, hzero⟩

theorem Effect.cast {Y Y' : Multiset ℕ} (h : Effect s s' X X') (hX : X = Y) (hX' : X' = Y') :
    Effect s s' Y Y' :=
  hX ▸ hX' ▸ h

/-- After a starved call the frames `Z` are dropped. -/
theorem Effect.drop {Z : Multiset ℕ} (h : Moves s.heap s'.heap X (X' + Z))
    (hs : s'.starved = s.starved + 1) (hZ : 1 ≤ Z.card) : Effect s s' X X' :=
  ⟨Z, h, by omega, by omega, fun heq => by omega⟩

/-- What is held elsewhere stays as it is. -/
theorem Effect.mem_eq {f : ℕ} (h : Effect s s' X X') (hgood : Good L (s.heap.total (X + R)))
    (hf : f ∈ R) : s'.mem f = s.mem f := by
  obtain ⟨lost, hm, -⟩ := h
  exact hm.mem_eq hgood.nodup hf

/-- An address space held elsewhere stays as it is. -/
theorem Effect.frames_eq (h : Effect s s' X X') (hgood : Good L (s.heap.total (X + frames s.mem d))) :
    frames s'.mem d = frames s.mem d :=
  frames_congr fun f hf => h.mem_eq hgood (by rw [frames, Multiset.mem_add]; exact Or.inl hf)

theorem Effect.good (h : Effect s s' X X') (hgood : Good L (s.heap.total X)) :
    Good L (s'.heap.total X') := by
  obtain ⟨lost, hm, -⟩ := h
  refine (hgood.of_moves hm).mono ?_
  rw [Heap.total, Heap.total, ← add_assoc]
  exact Multiset.le_add_right ..

theorem Effect.good_other (h : Effect s s' 0 X') (hgood : Good L (s.heap.total (frames s.mem d))) :
    Good L (s'.heap.total (frames s'.mem d)) := by
  rw [h.frames_eq (by rwa [zero_add])]
  refine ((h.add (frames s.mem d)).good (by rwa [zero_add])).mono ?_
  rw [Heap.total, Heap.total, add_comm X', ← add_assoc]
  exact Multiset.le_add_right ..

/-! ## Making an address space -/

/-- `kalloc` puts a frame into the caller's hand. -/
theorem kalloc_moves {f : ℕ} {l : List ℕ} (hfree : s.free = f :: l) (x : ℕ → Pte) :
    Moves s.heap ((s.draw.setFree l).setPage f x).heap 0 {f} := by
  refine ⟨?_, fun g hg => Function.update_of_ne (fun heq => hg ?_) ..⟩
  · simp only [Heap.total, Machine.heap, hfree, Machine.setPage_free, Machine.setFree_free]
    rw [← Multiset.cons_coe, add_zero, ← Multiset.singleton_add, add_comm]
  · rw [Heap.total, add_zero, heq]
    exact Multiset.mem_coe.mpr (by rw [Machine.heap, hfree]; exact List.mem_cons_self)

theorem tables_of_empty {mem : Memory} (h : mem d = fun _ => .zero) : tables mem d = 0 := by
  rw [tables, h]
  exact sum_eq_zero fun _ _ => Pte.frames_zero

theorem skeleton_of_empty {mem : Memory} (h : mem d = fun _ => .zero) : skeleton mem d = {d} := by
  rw [skeleton, tables_of_empty h, add_zero]

theorem view_of_empty {mem : Memory} (h : mem d = fun _ => .zero) (u : ℕ) :
    Vm.view mem d u = .zero :=
  view_of_no_table (by rw [h]; rfl)

/-- An address space with the kernel's mappings only. -/
structure Fresh (L : Layout) (s s' : Machine) (d : ℕ) : Prop where
  moves : Moves s.heap s'.heap 0 (frames s'.mem d)
  view : ∀ u < top, Vm.view s'.mem d u = kview L u
  starved : s'.starved = s.starved
  stores : s'.stores = s.stores

theorem frames_of_kview {mem : Memory} (h : ∀ u < top, Vm.view mem d u = kview L u) :
    frames mem d = skeleton mem d := by
  rw [frames, userFrames_of_view_zero, add_zero]
  intro u hu
  rw [h u (lt_top_of_lt_kernbase hu), kview_of_lt hu]
  rfl

theorem setupkvm_spec (h : Good L (s.heap.total 0)) :
    Ends (setupkvm L) (fun r s' => (∃ d, r = some d ∧ Fresh L s s' d) ∨
      (r = none ∧ Effect s s' 0 0 ∧ s'.stores = s.stores)) (fun _ => False) s := by
  have hlow : ¬ kernbase + phystop > devspace := by
    have := constants
    omega
  rw [setupkvm, ends_bind]
  refine (kalloc_spec s).mono ?_ fun _ hfalse => hfalse
  rintro r s' (⟨rfl, rfl, -⟩ | ⟨d, l, hfree, rfl, rfl⟩)
  · exact Or.inr ⟨rfl, Effect.of_moves (Moves.refl ..) rfl, rfl⟩
  · simp only [ends_bind, ends_modify, if_neg hlow, ends_pure]
    have hmoves := kalloc_moves hfree fun _ => Pte.zero
    have hempty : ((s.draw.setFree l).setPage d fun _ => Pte.zero).mem d = fun _ => .zero :=
      Function.update_self ..
    rw [← skeleton_of_empty hempty] at hmoves
    refine (mapKernel_spec (h.of_moves hmoves) (fun u _ => view_of_empty hempty u)
      (apart_kmap L)).mono ?_ fun _ hfalse => hfalse
    rintro ok s₁ (⟨rfl, hmaps⟩ | ⟨rfl, hstuck⟩)
    · have hview : ∀ u < top, Vm.view s₁.mem d u = kview L u := fun u hu => by
        rw [hmaps.view u hu, kmapView_kmap L u hu]
      refine Or.inl ⟨d, rfl, ?_, hview, hmaps.starved, hmaps.stores⟩
      rw [frames_of_kview hview]
      exact hmoves.trans hmaps.moves
    · refine Or.inr ⟨rfl, ?_, hstuck.stores⟩
      refine Effect.drop (Z := skeleton s₁.mem d) ?_ hstuck.starved ?_
      · rw [zero_add]
        exact hmoves.trans hstuck.moves
      · exact Multiset.card_pos_iff_exists_mem.mpr ⟨d, self_mem_skeleton ..⟩

/-! ## Giving user memory back -/

/-- The state after the frame of page `v` was freed and its entry cleared. -/
def Machine.freed (s : Machine) (d v : ℕ) : Machine :=
  ((s.setPage (Vm.view s.mem d v).addr fun _ => .junk).setFree
    ((Vm.view s.mem d v).addr :: s.free)).setPte (s.mem d (v / 1024)).addr (v % 1024) .zero

theorem kfree_moves (s : Machine) (f : ℕ) :
    Moves s.heap ((s.setPage f fun _ => .junk).setFree (f :: s.free)).heap {f} 0 := by
  refine ⟨?_, fun g hg => Function.update_of_ne (fun heq => hg ?_) ..⟩
  · simp only [Heap.total, Machine.heap, Machine.setPage_mem, Machine.setFree_free]
    rw [← Multiset.cons_coe, add_zero, ← Multiset.singleton_add, add_comm]
  · rw [Heap.total, Multiset.mem_add, heq]
    exact Or.inr (Multiset.mem_singleton_self f)

theorem Good.skeleton_of_frames (h : Good L (s.heap.total (frames s.mem d))) :
    Good L (s.heap.total (skeleton s.mem d)) := by
  refine h.mono ?_
  rw [Heap.total, Heap.total, frames, ← add_assoc]
  exact Multiset.le_add_right ..

theorem Good.freed (h : Good L (s.heap.total (frames s.mem d))) (hv : v < kernbase)
    (hp : (Vm.view s.mem d v).p = true) :
    Moves s.heap (s.freed d v).heap (frames s.mem d) (frames (s.freed d v).mem d) ∧
      (∀ u < top, Vm.view (s.freed d v).mem d u = if u = v then .zero else Vm.view s.mem d u) ∧
      (s.freed d v).mem d = s.mem d := by
  have htop := lt_top_of_lt_kernbase hv
  have htable := table_of_present hp
  have hnodup := (Multiset.nodup_add.mp h.nodup).2.1
  rw [frames, Multiset.nodup_add] at hnodup
  have hpa := mem_userFrames hv hp
  set f := (Vm.view s.mem d v).addr with hf
  have hout : f ∉ skeleton s.mem d := fun hmem =>
    Multiset.disjoint_left.mp hnodup.2.2 hmem hpa
  set s₁ := (s.setPage f fun _ => .junk).setFree (f :: s.free) with hs₁
  have hsame : ∀ g ∈ skeleton s.mem d, s₁.mem g = s.mem g := fun g hg =>
    Function.update_of_ne (fun heq : g = f => hout (heq ▸ hg)) ..
  have hdir : s₁.mem d = s.mem d := hsame d (self_mem_skeleton ..)
  have hskel := skeleton_congr hsame
  have hmoves₁ := (kfree_moves s f).add (skeleton s.mem d)
  have hgood₁ : Good L (s₁.heap.total (skeleton s₁.mem d)) := by
    rw [hskel]
    rw [zero_add] at hmoves₁
    refine (h.mono ?_).of_moves hmoves₁
    refine add_le_add_right ?_ _
    rw [frames, add_comm]
    exact add_le_add_right (Multiset.singleton_le.mpr hpa) _
  have htable₁ : (s₁.mem d (v / 1024)).p = true := by rw [hdir]; exact htable
  have hmaps := setPte_maps (x := .zero) hgood₁ htop htable₁
  have hfreed : s.freed d v = s₁.setPte (s₁.mem d (v / 1024)).addr (v % 1024) .zero := by
    rw [hdir]
    rfl
  rw [← hfreed] at hmaps
  have hview : ∀ u < top, Vm.view (s.freed d v).mem d u =
      if u = v then .zero else Vm.view s.mem d u := fun u hu => by
    rw [hmaps.view u hu, view_congr hsame hu]
  refine ⟨?_, hview, ?_⟩
  · have huser := userFrames_of_view hv fun u hu => hview u (lt_top_of_lt_kernbase hu)
    rw [Pte.frames_of_present hp, Pte.frames_zero, add_zero, ← hf] at huser
    rw [frames, frames, ← huser]
    have hmoves₂ := hmaps.moves.add (userFrames (s.freed d v).mem d)
    refine ((hmoves₁.add (userFrames (s.freed d v).mem d)).cast ?_ ?_).trans hmoves₂
    · abel
    · rw [zero_add, hskel]
  · rw [hfreed]
    exact (withPte_dir hgood₁.skeleton_nodup htop htable₁).trans hdir

/-- From page `a` on no page below `last` can be missed: the loop is at the start of a
page table, or in one that exists, or there is nothing to find. -/
def Swept (mem : Memory) (d last a : ℕ) : Prop :=
  a % 1024 = 0 ∨ (mem d (a / 1024)).p = true ∨
    ∀ u, a ≤ u → u < last → (Vm.view mem d u).p = false

structure Deallocated (s s' : Machine) (d last a : ℕ) : Prop where
  moves : Moves s.heap s'.heap (frames s.mem d) (frames s'.mem d)
  starved : s'.starved = s.starved
  stores : s'.stores = s.stores
  kept : ∀ u < top, Vm.view s'.mem d u = Vm.view s.mem d u ∨
    (a ≤ u ∧ u < last ∧ Vm.view s'.mem d u = .zero)
  swept : Swept s.mem d last a → ∀ u, a ≤ u → u < last → (Vm.view s'.mem d u).p = false

theorem Deallocated.refl {last a : ℕ} (ha : last ≤ a) : Deallocated s s d last a :=
  ⟨Moves.refl .., rfl, rfl, fun _ _ => Or.inl rfl, fun _ u hau hul => by omega⟩

theorem deallocFrom_spec {last fuel a : ℕ} (h : Good L (s.heap.total (frames s.mem d)))
    (hlast : last ≤ kernbase) (hfuel : last ≤ a + fuel) :
    Ends (deallocFrom L d last fuel a) (fun _ s' => Deallocated s s' d last a)
      (fun _ => False) s := by
  have htop : last ≤ top := by
    have := constants
    omega
  induction fuel generalizing s a with
  | zero => exact Deallocated.refl (by omega)
  | succ fuel ih =>
    rw [deallocFrom]
    by_cases ha : a < last
    swap
    · rw [if_neg ha]
      exact Deallocated.refl (by omega)
    rw [if_pos ha, ends_bind, Ends, walkpgdir_eq]
    cases htable : (s.mem d (a / 1024)).p with
    | false =>
      -- The whole page table is missing, and with it the pages up to its end.
      refine (ih h (by omega)).mono ?_ fun _ hfalse => hfalse
      intro _ s' hs'
      have hzero : ∀ u, u / 1024 = a / 1024 → (Vm.view s.mem d u).p = false := fun u hu => by
        rw [view_of_no_table (by rw [hu]; exact htable)]
        rfl
      refine ⟨hs'.moves, hs'.starved, hs'.stores, fun u hu => ?_, fun hswept u hau hul => ?_⟩
      · obtain hkept | ⟨h₁, h₂, h₃⟩ := hs'.kept u hu
        · exact Or.inl hkept
        · exact Or.inr ⟨by omega, h₂, h₃⟩
      · have hrest : Swept s.mem d last (a + 1024) := by
          rcases hswept with halign | hp | hnone
          · exact Or.inl (by omega)
          · rw [htable] at hp
            cases hp
          · exact Or.inr (Or.inr fun u hu hul => hnone u (by omega) hul)
        by_cases hu : a + 1024 ≤ u
        · exact hs'.swept hrest u hu hul
        · have hsame : (Vm.view s.mem d u).p = false := by
            rcases hswept with halign | hp | hnone
            · exact hzero u (by omega)
            · rw [htable] at hp
              cases hp
            · exact hnone u hau hul
          obtain hkept | ⟨-, -, hz⟩ := hs'.kept u (by omega)
          · rw [hkept]
            exact hsame
          · rw [hz]
            rfl
    | true =>
      have hnext : ∀ s₁ : Machine, s₁.mem d = s.mem d → Swept s₁.mem d last (a + 1) := by
        intro s₁ hdir
        by_cases halign : (a + 1) % 1024 = 0
        · exact Or.inl halign
        · refine Or.inr (Or.inl ?_)
          rw [hdir, show (a + 1) / 1024 = a / 1024 by omega]
          exact htable
      simp only [if_true, ends_bind, ends_get]
      rw [← view_of_table htable]
      by_cases hp : (Vm.view s.mem d a).p = true
      · obtain ⟨hmoves, hview, hdir⟩ := h.freed (by omega) hp
        have hmanaged : L.first ≤ (Vm.view s.mem d a).addr ∧ (Vm.view s.mem d a).addr < phystop := by
          refine h.managed _ (Multiset.mem_add.mpr (Or.inr ?_))
          rw [frames, Multiset.mem_add]
          exact Or.inr (mem_userFrames (by omega) hp)
        have hL := L.bounds
        rw [if_pos hp, if_neg (by omega), ends_bind]
        refine (kfree_spec hmanaged).mono ?_ fun _ hfalse => hfalse
        rintro _ s₁ rfl
        rw [ends_bind, ends_modify]
        refine (ih (h.of_moves hmoves) (by omega)).mono ?_ fun _ hfalse => hfalse
        intro _ s' hs'
        refine ⟨hmoves.trans hs'.moves, hs'.starved, hs'.stores, fun u hu => ?_,
          fun _ u hau hul => ?_⟩
        · obtain hkept | ⟨h₁, h₂, h₃⟩ := hs'.kept u hu
          · by_cases hua : u = a
            · rw [hkept, hview u hu, if_pos hua]
              exact Or.inr ⟨by omega, by omega, rfl⟩
            · rw [hkept, hview u hu, if_neg hua]
              exact Or.inl rfl
          · exact Or.inr ⟨by omega, h₂, h₃⟩
        · by_cases hua : u = a
          · obtain hkept | ⟨h₁, -, -⟩ := hs'.kept u (by omega)
            · rw [hkept, hview u (by omega), if_pos hua]
              rfl
            · omega
          · exact hs'.swept (hnext _ hdir) u (by omega) hul
      · rw [if_neg hp]
        refine (ih h (by omega)).mono ?_ fun _ hfalse => hfalse
        intro _ s' hs'
        refine ⟨hs'.moves, hs'.starved, hs'.stores, fun u hu => ?_, fun _ u hau hul => ?_⟩
        · obtain hkept | ⟨h₁, h₂, h₃⟩ := hs'.kept u hu
          · exact Or.inl hkept
          · exact Or.inr ⟨by omega, h₂, h₃⟩
        · by_cases hua : u = a
          · obtain hkept | ⟨h₁, -, -⟩ := hs'.kept u (by omega)
            · rw [hkept, hua]
              simpa using hp
            · omega
          · exact hs'.swept (hnext s rfl) u (by omega) hul

theorem pages_le_of_le {m n : ℕ} (h : m ≤ n) : pages m ≤ pages n := by
  rw [pages, pages]
  omega

theorem pages_mul_PGSIZE (n : ℕ) : pages (n * PGSIZE) = n := by
  rw [pages, PGSIZE]
  omega

theorem pages_le_kernbase {n : ℕ} (h : n ≤ kernbase * PGSIZE) : pages n ≤ kernbase :=
  (pages_le_of_le h).trans (pages_mul_PGSIZE kernbase).le

theorem deallocuvm_spec {oldsz newsz : ℕ} (h : Good L (s.heap.total (frames s.mem d)))
    (hold : oldsz ≤ kernbase * PGSIZE) :
    Ends (deallocuvm L d oldsz newsz) (fun r s' =>
      (oldsz ≤ newsz ∧ r = oldsz ∧ s' = s) ∨
      (newsz < oldsz ∧ r = newsz ∧ Deallocated s s' d (pages oldsz) (pages newsz)))
      (fun _ => False) s := by
  rw [deallocuvm]
  by_cases hle : newsz ≥ oldsz
  · rw [if_pos hle, ends_pure]
    exact Or.inl ⟨hle, rfl, rfl⟩
  · have hmono := pages_le_of_le (Nat.le_of_not_ge hle)
    rw [if_neg hle, ends_bind]
    refine (deallocFrom_spec h (pages_le_kernbase hold) (by omega)).mono ?_ fun _ hfalse => hfalse
    exact fun _ s' hs' => Or.inr ⟨by omega, rfl, hs'⟩

theorem freeTables_spec {n i : ℕ}
    (h : Good L (s.heap.total ({d} + ∑ j ∈ Ico i (i + n), (s.mem d j).frames))) :
    Ends (freeTables L d n i) (fun _ s' =>
      Moves s.heap s'.heap (∑ j ∈ Ico i (i + n), (s.mem d j).frames) 0 ∧
        s'.starved = s.starved ∧ s'.stores = s.stores) (fun _ => False) s := by
  induction n generalizing s i with
  | zero =>
    rw [add_zero, Ico_self, sum_empty]
    exact ⟨Moves.refl .., rfl, rfl⟩
  | succ n ih =>
    rw [sum_eq_sum_Ico_succ_bot (by omega), show i + (n + 1) = i + 1 + n by omega] at h ⊢
    rw [freeTables, ends_bind, ends_get]
    cases hp : (s.mem d i).p with
    | false =>
      rw [Pte.frames_of_absent hp, zero_add] at h ⊢
      exact ih h
    | true =>
      rw [Pte.frames_of_present hp] at h ⊢
      set f := (s.mem d i).addr with hf
      set rest := ∑ j ∈ Ico (i + 1) (i + 1 + n), (s.mem d j).frames with hrest
      have hmanaged : L.first ≤ f ∧ f < phystop := by
        refine h.managed f (Multiset.mem_add.mpr (Or.inr ?_))
        simp only [Multiset.mem_add, Multiset.mem_singleton, true_or, or_true]
      have hfd : f ≠ d := by
        have hnodup := (Multiset.nodup_add.mp h.nodup).2.1
        rw [Multiset.singleton_add, Multiset.nodup_cons] at hnodup
        rintro heq
        exact hnodup.1 (by simp [heq])
      simp only [if_true, ends_bind]
      refine (kfree_spec hmanaged).mono ?_ fun _ hfalse => hfalse
      rintro _ s₁ rfl
      have hmoves := kfree_moves s f
      have hdir : ((s.setPage f fun _ => Pte.junk).setFree (f :: s.free)).mem d = s.mem d :=
        Function.update_of_ne hfd.symm ..
      have hmoves' := (hmoves.add ({d} + rest)).cast
        (show {f} + ({d} + rest) = {d} + ({f} + rest) by abel) (zero_add _)
      have hgood := h.of_moves hmoves'
      rw [hrest, ← hdir] at hgood
      refine (ih hgood).mono ?_ fun _ hfalse => hfalse
      rintro _ s' ⟨hm, hstarved, hstores⟩
      refine ⟨?_, hstarved, hstores⟩
      rw [hdir, ← hrest] at hm
      exact ((hmoves.add rest).cast rfl (zero_add _)).trans hm

theorem freevm_spec (h : Good L (s.heap.total (frames s.mem d))) :
    Ends (freevm L d) (fun _ s' => Moves s.heap s'.heap (frames s.mem d) 0 ∧
      s'.starved = s.starved ∧ s'.stores = s.stores) (fun _ => False) s := by
  rw [freevm, ends_bind]
  refine (deallocuvm_spec h le_rfl).mono ?_ fun _ hfalse => hfalse
  have hpos : 0 < kernbase * PGSIZE := by
    have := constants
    rw [PGSIZE]
    omega
  rintro _ s₁ (⟨hzero, -⟩ | ⟨-, -, hdealloc⟩)
  · omega
  rw [pages_mul_PGSIZE] at hdealloc
  -- All user pages are gone, so the rest is the directory and its page tables.
  have huser : userFrames s₁.mem d = 0 :=
    userFrames_of_view_zero fun u hu => hdealloc.swept (Or.inl rfl) u (by rw [pages]; omega) hu
  have hframes : frames s₁.mem d = {d} + ∑ j ∈ Ico 0 (0 + NPDENTRIES), (s₁.mem d j).frames := by
    rw [frames, huser, add_zero, skeleton, tables, zero_add, range_eq_Ico]
  have hgood := h.of_moves hdealloc.moves
  rw [hframes] at hgood
  rw [ends_bind]
  refine (freeTables_spec hgood).mono ?_ fun _ hfalse => hfalse
  rintro _ s₂ ⟨hmoves, hstarved, hstores⟩
  have hd : L.first ≤ d ∧ d < phystop := by
    refine hgood.managed d (Multiset.mem_add.mpr (Or.inr ?_))
    simp only [Multiset.mem_add, Multiset.mem_singleton, true_or]
  refine (kfree_spec hd).mono ?_ fun _ hfalse => hfalse
  rintro _ s₃ rfl
  refine ⟨?_, hstarved.trans hdealloc.starved, hstores.trans hdealloc.stores⟩
  refine hdealloc.moves.trans (Moves.trans ?_ (kfree_moves s₂ d))
  rw [hframes]
  exact (hmoves.add {d}).cast (add_comm ..) (zero_add _)

end Lainos.Vm
