import Lainos.Vm.Space

/-!
# Growing and copying address spaces

`allocuvm` and `copyuvm`, on top of what is known of `mappages` and `freevm`. The first
takes no notice of a `mappages` that fails, the second gives the new address space up
but not the frame it was about to map.
-/

namespace Lainos.Vm

open Library Exec Finset

variable {L : Layout} {s s' : Machine} {d a n : ℕ} {R : Multiset ℕ}

/-- The frame that `kalloc` returns belongs to nobody. -/
theorem Good.free_not_mem {f : ℕ} {l : List ℕ} {X : Multiset ℕ} (h : Good L (s.heap.total X))
    (hfree : s.free = f :: l) : f ∉ X := by
  intro hmem
  have hf : f ∈ (s.heap.free : Multiset ℕ) :=
    Multiset.mem_coe.mpr (by rw [Machine.heap, hfree]; exact List.mem_cons_self)
  exact Multiset.disjoint_left.mp (Multiset.nodup_add.mp h.nodup).2.2 hf hmem

theorem mappages_one {w us : Bool} {v pa : ℕ} {Q : Bool → Machine → Prop} {E : Halt → Prop}
    (h : Ends (mapPage d v pa w us) Q E s) : Ends (mappages d w us 1 v pa) Q E s := by
  rw [mappages, ends_bind]
  refine h.mono (fun ok s' hQ => ?_) fun _ hE => hE
  cases ok with
  | true => exact hQ
  | false => exact hQ

/-- One page `v` of `d` was given the frame `m`, or there was no page table for it and
`m` is lost. -/
structure Given (s s' : Machine) (d v m : ℕ) (ok w us : Bool) : Prop where
  moves : Moves s.heap s'.heap (frames s.mem d) (frames s'.mem d + if ok then 0 else {m})
  view : ∀ u < top, Vm.view s'.mem d u =
    if ok then remap (Vm.view s.mem d) v ⟨m, true, w, us⟩ u else Vm.view s.mem d u
  starved : s'.starved = s.starved + if ok then 0 else 1
  stores : s'.stores = s.stores

theorem Given.effect {v m : ℕ} {ok w us : Bool} (h : Given s s' d v m ok w us) :
    Effect s s' (frames s.mem d) (frames s'.mem d) := by
  have hmoves := h.moves
  have hstarved := h.starved
  cases ok with
  | true => exact Effect.of_moves (by rwa [if_pos rfl, add_zero] at hmoves) hstarved
  | false =>
    exact Effect.drop (by rwa [if_neg Bool.false_ne_true] at hmoves) hstarved
      (Multiset.card_singleton m).ge

theorem Given.view_of_ne {v m u : ℕ} {ok w us : Bool} (h : Given s s' d v m ok w us) (hu : u < top)
    (hne : u ≠ v) : Vm.view s'.mem d u = Vm.view s.mem d u := by
  rw [h.view u hu]
  cases ok with
  | true => exact if_neg hne
  | false => rfl

/-- Mapping the frame `m` just taken from the free list at page `v`. -/
theorem give_spec {v m : ℕ} {l : List ℕ} {w us : Bool} {x : ℕ → Pte}
    (h : Good L (s.heap.total (frames s.mem d))) (hv : v < kernbase) (hfree : s.free = m :: l) :
    Ends (mappages d w us 1 v m) (fun ok s' => Given s s' d v m ok w us)
      (fun e => e = ⟨"remap", s.stores⟩ ∧ (Vm.view s.mem d v).p = true) ((s.draw.setFree l).setPage m x) := by
  have htop := lt_top_of_lt_kernbase hv
  have hm : m ∉ skeleton s.mem d := h.skeleton_of_frames.free_not_mem hfree
  have hmoves := kalloc_moves hfree x
  set s₁ := (s.draw.setFree l).setPage m x with hs₁
  have hsame : ∀ f ∈ skeleton s.mem d, s₁.mem f = s.mem f := fun f hf =>
    Function.update_of_ne (fun heq : f = m => hm (heq ▸ hf)) ..
  have hskel := skeleton_congr hsame
  have huser := userFrames_congr hsame
  have hview : ∀ u < top, Vm.view s₁.mem d u = Vm.view s.mem d u := fun u hu => view_congr hsame hu
  have hmoves₁ : Moves s.heap s₁.heap (frames s.mem d) (skeleton s₁.mem d + (userFrames s.mem d + {m})) := by
    refine (hmoves.add (frames s.mem d)).cast (zero_add _) ?_
    rw [hskel, frames]
    abel
  have hgood : Good L (s₁.heap.total (skeleton s₁.mem d)) := by
    refine (h.of_moves hmoves₁).mono ?_
    rw [Heap.total, Heap.total, ← add_assoc]
    exact Multiset.le_add_right ..
  refine mappages_one ((mapPage_spec hgood htop).mono ?_ fun e he => ?_)
  swap
  · rwa [hview v htop] at he
  rintro ok s₂ (⟨rfl, habsent, hmaps⟩ | ⟨rfl, hrefused⟩)
  · rw [hview v htop] at habsent
    have hview₂ : ∀ u < top, Vm.view s₂.mem d u = remap (Vm.view s.mem d) v ⟨m, true, w, us⟩ u :=
      fun u hu => by rw [hmaps.view u hu, remap, remap, hview u hu]
    refine ⟨?_, fun u hu => by rw [if_pos rfl, hview₂ u hu], by rw [hmaps.starved]; rfl,
      hmaps.stores⟩
    have huser₂ := userFrames_of_view hv fun u hu => hview₂ u (lt_top_of_lt_kernbase hu)
    rw [Pte.frames_of_absent habsent, add_zero, Pte.frames_of_present rfl] at huser₂
    have hframes : frames s₂.mem d = skeleton s₂.mem d + (userFrames s.mem d + {m}) := by
      rw [frames, huser₂]
    rw [if_pos rfl, add_zero, hframes]
    exact hmoves₁.trans (hmaps.moves.add _)
  · refine ⟨?_, fun u hu => ?_, by rw [hrefused.starved]; rfl, hrefused.stores⟩
    · have hheap : s₂.heap = s₁.heap := by
        rw [Machine.heap, hrefused.free, hrefused.mem, Machine.heap]
      have hframes : frames s₂.mem d + {m} = skeleton s₁.mem d + (userFrames s.mem d + {m}) := by
        rw [frames, hrefused.mem, huser, add_assoc]
      rw [if_neg Bool.false_ne_true, hheap, hframes]
      exact hmoves₁
    · rw [if_neg Bool.false_ne_true, hrefused.mem, hview u hu]

/-! ## Growing -/

/-- The pages from `a` up to `a + k` were tried. Those that got no page table are as they
were. -/
structure Grown (s s' : Machine) (d a k : ℕ) : Prop where
  effect : Effect s s' (frames s.mem d) (frames s'.mem d)
  outside : ∀ u < top, u < a ∨ a + k ≤ u → Vm.view s'.mem d u = Vm.view s.mem d u
  inside : ∀ u < top, Vm.view s'.mem d u = Vm.view s.mem d u ∨
    ∃ f, Vm.view s'.mem d u = ⟨f, true, true, true⟩
  fed : s'.starved = s.starved → ∀ u < top, a ≤ u → u < a + k →
    ∃ f, Vm.view s'.mem d u = ⟨f, true, true, true⟩
  stores : s'.stores = s.stores

theorem Grown.zero (s : Machine) (d a : ℕ) : Grown s s d a 0 where
  effect := Effect.refl ..
  outside _ _ _ := rfl
  inside _ _ := Or.inl rfl
  fed _ u _ _ _ := by omega
  stores := rfl

theorem Grown.draw (s : Machine) (d a : ℕ) : Grown s s.draw d a 0 where
  effect := Effect.of_moves (Moves.refl ..) rfl
  outside _ _ _ := rfl
  inside _ _ := Or.inl rfl
  fed _ u _ _ _ := by omega
  stores := rfl

theorem Grown.cons {s₁ s₂ : Machine} {m k : ℕ} {ok : Bool} (h₁ : Given s s₁ d a m ok true true)
    (h₂ : Grown s₁ s₂ d (a + 1) k) : Grown s s₂ d a (k + 1) where
  effect := h₁.effect.trans h₂.effect
  outside u hu hout := by
    rw [h₂.outside u hu (by omega), h₁.view_of_ne hu (by omega)]
  inside u hu := by
    obtain hsame | hf := h₂.inside u hu
    · rw [hsame]
      by_cases hua : u = a
      · rw [h₁.view u hu]
        cases ok with
        | true => exact Or.inr ⟨m, if_pos hua⟩
        | false => exact Or.inl rfl
      · exact Or.inl (h₁.view_of_ne hu hua)
    · exact Or.inr hf
  fed hs u hu hau huk := by
    obtain ⟨_, _, hle, _⟩ := h₂.effect
    have hstarved := h₁.starved
    have hok : ok = true := by
      by_contra hne
      rw [if_neg hne] at hstarved
      omega
    rw [if_pos hok] at hstarved
    by_cases hua : u = a
    · refine ⟨m, ?_⟩
      rw [h₂.outside u hu (by omega), h₁.view u hu, if_pos hok, remap, if_pos hua]
    · exact h₂.fed (by omega) u hu (by omega) (by omega)
  stores := h₂.stores.trans h₁.stores

theorem allocFrom_spec (h : Good L (s.heap.total (frames s.mem d))) (ha : a + n ≤ kernbase) :
    Ends (allocFrom d n a) (fun ok s' => ∃ k, k ≤ n ∧ (ok = true → k = n) ∧ Grown s s' d a k)
      (fun e => e = ⟨"remap", s.stores⟩ ∧
        ∃ u, a ≤ u ∧ u < a + n ∧ (Vm.view s.mem d u).p = true) s := by
  induction n generalizing s a with
  | zero =>
    exact ⟨0, le_rfl, fun _ => rfl, Grown.zero ..⟩
  | succ n ih =>
    rw [allocFrom, ends_bind]
    refine (kalloc_spec s).mono ?_ fun _ hfalse => hfalse.elim
    rintro r s₁ (⟨rfl, rfl, -⟩ | ⟨m, l, hfree, rfl, rfl⟩)
    · exact ⟨0, Nat.zero_le _, fun hfalse => (by cases hfalse), Grown.draw s d a⟩
    · simp only [ends_bind, ends_modify]
      refine (give_spec h (by omega) hfree).mono ?_ fun e he => ⟨he.1, a, le_rfl, by omega, he.2⟩
      intro ok s₂ hgiven
      have htop : a + (n + 1) ≤ top := by
        have := constants
        omega
      refine (ih (hgiven.effect.good h) (by omega)).mono ?_ ?_
      · rintro ok' s₃ ⟨k, hk, hall, hgrown⟩
        exact ⟨k + 1, by omega, fun htrue => by rw [hall htrue], Grown.cons hgiven hgrown⟩
      · rintro e ⟨rfl, u, hau, hun, hp⟩
        rw [hgiven.view_of_ne (by omega) (by omega)] at hp
        exact ⟨by rw [hgiven.stores], u, by omega, by omega, hp⟩

/-- A call of `allocuvm` that failed for want of memory. -/
structure Undone (s s' : Machine) (d oldsz newsz : ℕ) : Prop where
  effect : Effect s s' (frames s.mem d) (frames s'.mem d)
  outside : ∀ u < top, u < pages oldsz ∨ pages newsz ≤ u → Vm.view s'.mem d u = Vm.view s.mem d u
  fed : s'.starved = s.starved →
    (∀ u, pages oldsz ≤ u → u < pages newsz → (Vm.view s.mem d u).p = false) →
    ∀ u, pages oldsz ≤ u → u < pages newsz → (Vm.view s'.mem d u).p = false
  stores : s'.stores = s.stores

theorem Grown.undone {s₁ : Machine} {oldsz newsz k : ℕ} (hsize : oldsz ≤ newsz)
    (hnew : newsz < kernbase * PGSIZE) (hk : k ≤ pages newsz - pages oldsz)
    (h₁ : Grown s s₁ d (pages oldsz) k)
    (h₂ : Deallocated s₁ s' d (pages newsz) (pages oldsz)) : Undone s s' d oldsz newsz where
  effect := h₁.effect.trans (Effect.of_moves h₂.moves h₂.starved)
  outside u hu hout := by
    have hmono := pages_le_of_le hsize
    obtain hkept | ⟨hle, hlt, -⟩ := h₂.kept u hu
    · rw [hkept, h₁.outside u hu (by omega)]
    · omega
  fed hs habsent u hlo hhi := by
    have hmono := pages_le_of_le hsize
    have hlast := pages_le_kernbase hnew.le
    have htop : kernbase ≤ top := by
      have := constants
      omega
    obtain ⟨_, _, hle, _⟩ := h₁.effect
    have hstarved := h₂.starved
    refine h₂.swept ?_ u hlo hhi
    by_cases hk0 : k = 0
    · refine Or.inr (Or.inr fun u hlo hhi => ?_)
      rw [h₁.outside u (by omega) (by omega)]
      exact habsent u hlo hhi
    · obtain ⟨f, hf⟩ := h₁.fed (by omega) (pages oldsz) (by omega) le_rfl (by omega)
      exact Or.inr (Or.inl (table_of_present (by rw [hf])))
  stores := h₂.stores.trans h₁.stores

theorem allocuvm_spec {oldsz newsz : ℕ} (h : Good L (s.heap.total (frames s.mem d))) :
    Ends (allocuvm L d oldsz newsz) (fun r s' =>
      ((kernbase * PGSIZE ≤ newsz ∧ r = 0 ∧ s' = s) ∨
        (newsz < kernbase * PGSIZE ∧ newsz < oldsz ∧ r = oldsz ∧ s' = s)) ∨
      (newsz < kernbase * PGSIZE ∧ oldsz ≤ newsz ∧
        ((r = newsz ∧ Grown s s' d (pages oldsz) (pages newsz - pages oldsz)) ∨
          (r = 0 ∧ Undone s s' d oldsz newsz))))
      (fun e => e = ⟨"remap", s.stores⟩ ∧ newsz < kernbase * PGSIZE ∧ ∃ u, pages oldsz ≤ u ∧ u < pages newsz ∧
        (Vm.view s.mem d u).p = true) s := by
  rw [allocuvm]
  by_cases hnew : newsz ≥ kernbase * PGSIZE
  · rw [if_pos hnew, ends_pure]
    exact Or.inl (Or.inl ⟨hnew, rfl, rfl⟩)
  rw [if_neg hnew]
  by_cases hsize : newsz < oldsz
  · rw [if_pos hsize, ends_pure]
    exact Or.inl (Or.inr ⟨by omega, hsize, rfl, rfl⟩)
  have hmono := pages_le_of_le (Nat.le_of_not_lt hsize)
  have hlast := pages_le_kernbase (Nat.le_of_not_ge hnew)
  rw [if_neg hsize, ends_bind]
  refine (allocFrom_spec h (by omega)).mono ?_ ?_
  · rintro ok s₁ ⟨k, hk, hall, hgrown⟩
    cases ok with
    | true =>
      rw [hall rfl] at hgrown
      exact Or.inr ⟨by omega, by omega, Or.inl ⟨rfl, hgrown⟩⟩
    | false =>
      simp only [Bool.false_eq_true, if_false, ends_bind]
      refine (deallocuvm_spec (hgrown.effect.good h) (Nat.le_of_not_ge hnew)).mono ?_
        fun _ hfalse => hfalse.elim
      rintro r s₂ (⟨hle, -, rfl⟩ | ⟨hlt, -, hdealloc⟩)
      · have hk0 : k = 0 := by
          have : newsz = oldsz := by omega
          rw [this, Nat.sub_self] at hk
          omega
        refine Or.inr ⟨by omega, by omega, Or.inr ⟨rfl, hgrown.effect, fun u hu _ => ?_, ?_,
          hgrown.stores⟩⟩
        · exact hgrown.outside u hu (by omega)
        · intro _ _ u hlo hhi
          have := pages_le_of_le hle
          omega
      · exact Or.inr ⟨by omega, by omega,
          Or.inr ⟨rfl, hgrown.undone (by omega) (by omega) hk hdealloc⟩⟩
  · rintro e ⟨rfl, u, hlo, hhi, hp⟩
    exact ⟨rfl, by omega, u, hlo, by omega, hp⟩

/-! ## Taking a page from user code -/

/-- Page `v` is no longer for user code. -/
structure Closed (s s' : Machine) (d v : ℕ) : Prop where
  table : (s.mem d (v / 1024)).p = true
  dir : s'.mem d = s.mem d
  moves : Moves s.heap s'.heap (frames s.mem d) (frames s'.mem d)
  view : ∀ u < top, Vm.view s'.mem d u =
    if u = v then { Vm.view s.mem d v with u := false } else Vm.view s.mem d u
  starved : s'.starved = s.starved
  stores : s'.stores = s.stores

theorem Closed.view_of_ne {v u : ℕ} (h : Closed s s' d v) (hu : u < top) (hne : u ≠ v) :
    Vm.view s'.mem d u = Vm.view s.mem d u := by
  rw [h.view u hu, if_neg hne]

theorem clearpteu_spec {v : ℕ} (h : Good L (s.heap.total (frames s.mem d))) (hv : v < kernbase) :
    Ends (clearpteu d v) (fun _ s' => Closed s s' d v)
      (fun e => e = ⟨"clearpteu", s.stores⟩ ∧ (s.mem d (v / 1024)).p = false) s := by
  have htop := lt_top_of_lt_kernbase hv
  rw [clearpteu, ends_bind, Ends, walkpgdir_eq]
  cases htable : (s.mem d (v / 1024)).p with
  | false => exact ends_panic.mpr ⟨rfl, rfl⟩
  | true =>
    simp only [if_true, ends_modify]
    rw [← view_of_table htable]
    have hskel := h.skeleton_of_frames
    have hmaps := setPte_maps (x := { Vm.view s.mem d v with u := false }) hskel htop htable
    have huser := userFrames_of_view hv fun u hu => hmaps.view u (lt_top_of_lt_kernbase hu)
    have hsame : ({ Vm.view s.mem d v with u := false } : Pte).frames = (Vm.view s.mem d v).frames :=
      rfl
    rw [hsame, add_left_inj] at huser
    refine ⟨htable, withPte_dir hskel.skeleton_nodup htop htable, ?_, hmaps.view, rfl, rfl⟩
    rw [frames, frames, huser]
    exact hmaps.moves.add _

/-! ## Copying -/

/-- The pages from `a` up to `a + n` of `d'` were filled. -/
structure Copied (s s' : Machine) (d' a n : ℕ) : Prop where
  moves : Moves s.heap s'.heap (frames s.mem d') (frames s'.mem d')
  outside : ∀ u < top, u < a ∨ a + n ≤ u → Vm.view s'.mem d' u = Vm.view s.mem d' u
  inside : ∀ u < top, a ≤ u → u < a + n → (Vm.view s'.mem d' u).p = true
  starved : s'.starved = s.starved
  stores : s'.stores = s.stores

theorem Copied.zero (s : Machine) (d' a : ℕ) : Copied s s d' a 0 where
  moves := Moves.refl ..
  outside _ _ _ := rfl
  inside _ _ hlo hhi := by omega
  starved := rfl
  stores := rfl

theorem Copied.cons {s₁ s₂ : Machine} {d' m : ℕ} {w us : Bool} (h₁ : Given s s₁ d' a m true w us)
    (h₂ : Copied s₁ s₂ d' (a + 1) n) : Copied s s₂ d' a (n + 1) where
  moves := (h₁.moves.cast rfl (add_zero _)).trans h₂.moves
  outside u hu hout := by
    rw [h₂.outside u hu (by omega), h₁.view_of_ne hu (by omega)]
  inside u hu hlo hhi := by
    by_cases hua : u = a
    · rw [h₂.outside u hu (by omega), h₁.view u hu, if_pos rfl, remap, if_pos hua]
    · exact h₂.inside u hu (by omega) (by omega)
  starved := h₂.starved.trans h₁.starved
  stores := h₂.stores.trans h₁.stores

theorem copyFrom_spec {d' : ℕ} (h : Good L (s.heap.total (frames s.mem d' + frames s.mem d)))
    (ha : a + n ≤ kernbase) :
    Ends (copyFrom d d' n a) (fun ok s' =>
      (ok = true ∧ Copied s s' d' a n) ∨
      (ok = false ∧ Effect s s' (frames s.mem d') (frames s'.mem d') ∧ s'.stores = s.stores))
      (fun e => (e.why ≠ "remap" ∧ ∃ u, a ≤ u ∧ u < a + n ∧ (Vm.view s.mem d u).p = false) ∨
        ∃ u, a ≤ u ∧ u < a + n ∧ (Vm.view s.mem d' u).p = true) s := by
  have htop : kernbase ≤ top := by
    have := constants
    omega
  induction n generalizing s a with
  | zero =>
    exact Or.inl ⟨rfl, Copied.zero ..⟩
  | succ n ih =>
    rw [copyFrom, ends_bind, Ends, walkpgdir_eq]
    cases htable : (s.mem d (a / 1024)).p with
    | false =>
      refine Or.inl ⟨by simp, a, le_rfl, by omega, ?_⟩
      rw [view_of_no_table htable]
      rfl
    | true =>
      simp only [if_true, ends_bind, ends_get]
      rw [← view_of_table htable]
      cases hp : (Vm.view s.mem d a).p with
      | false => exact Or.inl ⟨by simp, a, le_rfl, by omega, hp⟩
      | true =>
        have hchild : Good L (s.heap.total (frames s.mem d')) := by
          refine h.mono ?_
          rw [Heap.total, Heap.total, ← add_assoc]
          exact Multiset.le_add_right ..
        simp only [Bool.not_true, Bool.false_eq_true, if_false, ends_bind]
        refine (kalloc_spec s).mono ?_ fun _ hfalse => hfalse.elim
        rintro r s₁ (⟨rfl, rfl, -⟩ | ⟨m, l, hfree, rfl, rfl⟩)
        · exact Or.inr ⟨rfl, Effect.of_moves (Moves.refl ..) rfl, rfl⟩
        · simp only [ends_bind, ends_modify]
          refine (give_spec hchild (by omega) hfree).mono ?_ fun e he =>
            Or.inr ⟨a, le_rfl, by omega, he.2⟩
          intro ok s₂ hgiven
          cases ok with
          | false => exact Or.inr ⟨rfl, hgiven.effect, hgiven.stores⟩
          | true =>
            have hsame : ∀ f ∈ frames s.mem d, s₂.mem f = s.mem f := fun f hf =>
              hgiven.moves.mem_eq h.nodup hf
            have hsame' : ∀ f ∈ skeleton s.mem d, s₂.mem f = s.mem f := fun f hf =>
              hsame f (Multiset.mem_add.mpr (Or.inl hf))
            have hgood : Good L (s₂.heap.total (frames s₂.mem d' + frames s₂.mem d)) := by
              rw [frames_congr hsame']
              exact h.of_moves ((hgiven.moves.cast rfl (add_zero _)).add _)
            refine (ih hgood (by omega)).mono ?_ ?_
            · rintro ok s₃ (⟨rfl, hcopied⟩ | ⟨rfl, heffect, hstores⟩)
              · exact Or.inl ⟨rfl, Copied.cons hgiven hcopied⟩
              · exact Or.inr ⟨rfl, hgiven.effect.trans heffect, hstores.trans hgiven.stores⟩
            · rintro e (⟨hne, u, hlo, hhi, habsent⟩ | ⟨u, hlo, hhi, hpres⟩)
              · rw [view_congr hsame' (by omega)] at habsent
                exact Or.inl ⟨hne, u, by omega, by omega, habsent⟩
              · rw [hgiven.view_of_ne (by omega) (by omega)] at hpres
                exact Or.inr ⟨u, by omega, by omega, hpres⟩

theorem copyuvm_spec {sz : ℕ} (h : Good L (s.heap.total (frames s.mem d)))
    (hsz : sz ≤ kernbase * PGSIZE) :
    Ends (copyuvm L d sz) (fun r s' =>
      (∃ d', r = some d' ∧ Moves s.heap s'.heap 0 (frames s'.mem d') ∧
        (∀ u < kernbase, (Vm.view s'.mem d' u).p = decide (u < pages sz)) ∧
        s'.starved = s.starved ∧ s'.stores = s.stores) ∨
      (r = none ∧ Effect s s' 0 0 ∧ s'.stores = s.stores))
      (fun e => e.why ≠ "remap" ∧ ∃ u < pages sz, (Vm.view s.mem d u).p = false) s := by
  have hpages := pages_le_kernbase hsz
  have hgood₀ : Good L (s.heap.total 0) := by
    refine h.mono ?_
    rw [Heap.total, Heap.total, add_zero]
    exact Multiset.le_add_right ..
  rw [copyuvm, ends_bind]
  refine (setupkvm_spec hgood₀).mono ?_ fun _ hfalse => hfalse.elim
  rintro r s₁ (⟨d', rfl, hfresh⟩ | ⟨rfl, heffect, hstores⟩)
  swap
  · exact Or.inr ⟨rfl, heffect, hstores⟩
  have hsame : ∀ f ∈ frames s.mem d, s₁.mem f = s.mem f := fun f hf =>
    hfresh.moves.mem_eq (by rw [zero_add]; exact h.nodup) hf
  have hsame' : ∀ f ∈ skeleton s.mem d, s₁.mem f = s.mem f := fun f hf =>
    hsame f (Multiset.mem_add.mpr (Or.inl hf))
  have hgood : Good L (s₁.heap.total (frames s₁.mem d' + frames s₁.mem d)) := by
    rw [frames_congr hsame']
    exact h.of_moves ((hfresh.moves.add _).cast (zero_add _) rfl)
  have habsent : ∀ u < kernbase, (Vm.view s₁.mem d' u).p = false := fun u hu => by
    rw [hfresh.view u (lt_top_of_lt_kernbase hu), kview_of_lt hu]
    rfl
  rw [ends_bind]
  refine (copyFrom_spec hgood (by omega)).mono ?_ ?_
  · rintro ok s₂ (⟨rfl, hcopied⟩ | ⟨rfl, heffect, hstores⟩)
    · refine Or.inl ⟨d', rfl, hfresh.moves.trans hcopied.moves, fun u hu => ?_,
        hcopied.starved.trans hfresh.starved, hcopied.stores.trans hfresh.stores⟩
      have hutop := lt_top_of_lt_kernbase hu
      by_cases hlt : u < pages sz
      · rw [hcopied.inside u hutop (Nat.zero_le _) (by omega), decide_eq_true hlt]
      · rw [hcopied.outside u hutop (by omega), habsent u hu, decide_eq_false hlt]
    · have hgood₂ : Good L (s₂.heap.total (frames s₂.mem d')) := by
        refine heffect.good (hgood.mono ?_)
        rw [Heap.total, Heap.total, ← add_assoc]
        exact Multiset.le_add_right ..
      simp only [Bool.false_eq_true, if_false, ends_bind]
      refine (freevm_spec hgood₂).mono ?_ fun _ hfalse => hfalse.elim
      rintro _ s₃ ⟨hmoves, hstarved, hstores₃⟩
      refine Or.inr ⟨rfl, ?_, (hstores₃.trans hstores).trans hfresh.stores⟩
      exact ((Effect.of_moves hfresh.moves hfresh.starved).trans heffect).trans
        (Effect.of_moves hmoves hstarved)
  · rintro e (⟨hne, u, -, hhi, hp⟩ | ⟨u, -, hhi, hp⟩)
    · rw [view_congr hsame' (lt_top_of_lt_kernbase (by omega))] at hp
      exact ⟨hne, u, by omega, hp⟩
    · rw [habsent u (by omega)] at hp
      cases hp

end Lainos.Vm
