import Lainos.Vm.Copyout

/-!
# New pages are zero

What `allocuvm` does to the bytes of user memory. Only frames from the free list are
written to, and a page that was mapped by the call holds zeros.
-/

namespace Lainos.Vm

open Library Exec

/-! ## Taking frames -/

/-- Frames were taken from the free list at most. -/
def Takes (s s' : Machine) : Prop := ∀ f ∈ s'.free, f ∈ s.free

theorem Takes.refl (s : Machine) : Takes s s := fun _ hf => hf

theorem Takes.trans {s s' s'' : Machine} (h₁ : Takes s s') (h₂ : Takes s' s'') : Takes s s'' :=
  fun f hf => h₁ f (h₂ f hf)

theorem takes_kalloc : Within Takes (fun _ => False) kalloc := by
  intro s
  refine (kalloc_spec s).mono ?_ fun _ he => he
  rintro r s' (⟨-, rfl, -⟩ | ⟨f, l, hfree, -, rfl⟩)
  · exact fun _ hf => hf
  · intro g hg
    rw [hfree]
    exact List.mem_cons_of_mem f hg

theorem takes_walkpgdir (d v : ℕ) (alloc : Bool) :
    Within Takes (fun _ => False) (walkpgdir d v alloc) := by
  refine Within.bind (fun _ _ _ => Takes.trans) (Within.get Takes.refl) fun s => ?_
  refine Within.ite (fun _ => Within.pure Takes.refl _) fun _ => ?_
  refine Within.ite (fun _ => ?_) fun _ => Within.pure Takes.refl _
  refine Within.bind (fun _ _ _ => Takes.trans) takes_kalloc fun r => ?_
  cases r with
  | none =>
    exact Within.bind (fun _ _ _ => Takes.trans) (Within.modify fun s => Takes.refl s) fun _ =>
      Within.pure Takes.refl _
  | some t =>
    exact Within.bind (fun _ _ _ => Takes.trans) (Within.modify fun s => Takes.refl s) fun _ =>
      Within.pure Takes.refl _

theorem takes_mapPage (d v pa : ℕ) (w us : Bool) :
    Within Takes (fun _ => True) (mapPage d v pa w us) := by
  intro s
  rw [mapPage, ends_bind]
  refine (takes_walkpgdir d v true s).mono (fun r s₁ hs₁ => ?_) fun _ _ => trivial
  cases r with
  | none => exact hs₁
  | some x =>
    rw [ends_bind, ends_get, ends_ite]
    exact ⟨fun _ => trivial, fun _ => hs₁⟩

theorem takes_mappages (d : ℕ) (w us : Bool) (n v pa : ℕ) :
    Within Takes (fun _ => True) (mappages d w us n v pa) := by
  induction n generalizing v pa with
  | zero => exact Within.pure Takes.refl _
  | succ n ih =>
    refine Within.bind (fun _ _ _ => Takes.trans) (takes_mapPage d v pa w us) fun ok => ?_
    exact Within.ite (fun _ => ih _ _) fun _ => Within.pure Takes.refl _

/-- A frame that is in use is not free. -/
theorem Good.not_free {L : Layout} {s : Machine} {X : Multiset ℕ} {f : ℕ}
    (h : Good L (s.heap.total X)) (hf : f ∈ X) : f ∉ s.free := fun hmem =>
  Multiset.disjoint_left.mp (Multiset.nodup_add.mp h.nodup).2.2 (Multiset.mem_coe.mpr hmem) hf

namespace Ram

variable {L : Layout} {r t u : Ram} {d a n k : ℕ}

/-! ## Growing -/

/-- The pages from `a` up to `a + k` were tried, and those that were given a frame hold
zeros. -/
structure Grown (r t : Ram) (d a k : ℕ) : Prop where
  grown : Vm.Grown r.1 t.1 d a k
  takes : Takes r.1 t.1
  kept : ∀ f ∉ r.1.free, t.2 f = r.2 f
  zeros : ∀ u < kernbase, (view r.1.mem d u).p = false → (view t.1.mem d u).p = true →
    t.2 (view t.1.mem d u).addr = fun _ => 0
  hole : t.1.starved ≠ r.1.starved →
    ∃ u, a ≤ u ∧ u < a + k ∧ view t.1.mem d u = view r.1.mem d u

theorem Grown.cons {s₁ : Machine} {m : ℕ} {l : List ℕ} {ok : Bool} (hfree : r.1.free = m :: l)
    (h₁ : Given r.1 s₁ d a m ok true true) (htakes : ∀ f ∈ s₁.free, f ∈ l)
    (hgood : Good L (s₁.heap.total (frames s₁.mem d))) (ha : a + (k + 1) ≤ top)
    (h₂ : Grown (s₁, Function.update r.2 m fun _ => 0) t d (a + 1) k) : Grown r t d a (k + 1) where
  grown := Vm.Grown.cons h₁ h₂.grown
  takes f hf := by
    rw [hfree]
    exact List.mem_cons_of_mem m (htakes f (h₂.takes f hf))
  kept f hf := by
    rw [hfree, List.mem_cons, not_or] at hf
    rw [h₂.kept f fun hmem => hf.2 (htakes f hmem)]
    exact Function.update_of_ne hf.1 ..
  zeros u hu habsent hp := by
    have htop := lt_top_of_lt_kernbase hu
    by_cases hua : u = a
    · have hsame := h₂.grown.outside u htop (Or.inl (by omega))
      rw [hsame] at hp ⊢
      -- A page without a page table would still be absent.
      have hok : ok = true := by
        by_contra hne
        rw [h₁.view u htop, if_neg hne, habsent] at hp
        cases hp
      have hview : view s₁.mem d u = ⟨m, true, true, true⟩ := by
        rw [h₁.view u htop, if_pos hok, remap, if_pos hua]
      have hm : m ∉ s₁.free := hgood.not_free (by
        rw [frames, Multiset.mem_add]
        exact Or.inr (by simpa only [hview] using mem_userFrames hu hp))
      change t.2 (view s₁.mem d u).addr = _
      rw [hview, h₂.kept m hm]
      exact Function.update_self ..
    · exact h₂.zeros u hu (by rw [h₁.view_of_ne htop hua]; exact habsent) hp
  hole hne := by
    have hstarved := h₁.starved
    cases ok with
    | true =>
      rw [if_pos rfl, add_zero] at hstarved
      obtain ⟨u, hlo, hhi, hsame⟩ := h₂.hole (by rwa [hstarved])
      rw [h₁.view_of_ne (by omega) (by omega)] at hsame
      exact ⟨u, by omega, by omega, hsame⟩
    | false =>
      refine ⟨a, le_rfl, by omega, ?_⟩
      rw [h₂.grown.outside a (by omega) (Or.inl (by omega)), h₁.view a (by omega),
        if_neg Bool.false_ne_true]

theorem allocFrom_zeros (h : Good L (r.1.heap.total (frames r.1.mem d))) (ha : a + n ≤ kernbase) :
    Ends (allocFrom d n a) (fun ok t => ∃ k, k ≤ n ∧ (ok = true → k = n) ∧ Grown r t d a k)
      (fun e => e = ⟨"remap", r.1.stores⟩ ∧
        ∃ u, a ≤ u ∧ u < a + n ∧ (view r.1.mem d u).p = true) r := by
  induction n generalizing r a with
  | zero =>
    refine ⟨0, le_rfl, fun _ => rfl, Vm.Grown.zero .., Takes.refl _, fun _ _ => rfl, ?_, ?_⟩
    · intro u _ habsent hp
      rw [habsent] at hp
      cases hp
    · exact fun hne => (hne rfl).elim
  | succ n ih =>
    rw [allocFrom, ends_bind, ends_first]
    refine (kalloc_spec r.1).mono ?_ fun _ hfalse => hfalse.elim
    rintro x s₁ (⟨rfl, rfl, -⟩ | ⟨m, l, hfree, rfl, rfl⟩)
    · refine ⟨0, Nat.zero_le _, fun hfalse => (by cases hfalse), Vm.Grown.draw .., Takes.refl _,
        fun _ _ => rfl, ?_, fun hne => (hne rfl).elim⟩
      intro u _ habsent hp
      change (view r.1.mem d u).p = true at hp
      rw [habsent] at hp
      cases hp
    · simp only [ends_bind, ends_modify, ends_first, put]
      have hmapped := (give_spec h (by omega) hfree).and (takes_mappages d true true 1 a m
        ((r.1.draw.setFree l).setPage m fun _ => .zero))
      refine hmapped.mono ?_ fun e he => ⟨he.1.1, a, le_rfl, by omega, he.1.2⟩
      rintro ok s₂ ⟨hgiven, htakes⟩
      have htop : a + (n + 1) ≤ top := by
        have := constants
        omega
      have hgood := hgiven.effect.good h
      refine (ih hgood (by omega)).mono ?_ ?_
      · rintro ok' t ⟨k, hk, hall, hgrown⟩
        exact ⟨k + 1, by omega, fun htrue => by rw [hall htrue],
          Grown.cons hfree hgiven htakes hgood (by omega) hgrown⟩
      · rintro e ⟨rfl, u, hau, hun, hp⟩
        rw [hgiven.view_of_ne (by omega) (by omega)] at hp
        exact ⟨by rw [hgiven.stores], u, by omega, by omega, hp⟩

/-- What a call of `allocuvm` comes to. -/
inductive Allocated (r : Ram) (d oldsz newsz : ℕ) : ℕ → Ram → Prop
  | tooBig : kernbase * PGSIZE ≤ newsz → Allocated r d oldsz newsz 0 r
  | smaller : newsz < kernbase * PGSIZE → newsz < oldsz → Allocated r d oldsz newsz oldsz r
  | grown {t : Ram} : newsz < kernbase * PGSIZE → oldsz ≤ newsz →
      Grown r t d (pages oldsz) (pages newsz - pages oldsz) → Allocated r d oldsz newsz newsz t
  /-- There were frames for the first `k` pages only, and they were taken back. -/
  | undone {t u : Ram} {k : ℕ} : newsz < kernbase * PGSIZE → oldsz ≤ newsz →
      k ≤ pages newsz - pages oldsz → Grown r t d (pages oldsz) k → u.2 = t.2 →
      Cleared t.1 u.1 d (pages newsz) (pages oldsz) → Allocated r d oldsz newsz 0 u

theorem allocuvm_zeros {oldsz newsz : ℕ} (h : Good L (r.1.heap.total (frames r.1.mem d))) :
    Ends (allocuvm L d oldsz newsz) (Allocated r d oldsz newsz)
      (fun e => e = ⟨"remap", r.1.stores⟩ ∧ newsz < kernbase * PGSIZE ∧
        ∃ u, pages oldsz ≤ u ∧ u < pages newsz ∧ (view r.1.mem d u).p = true) r := by
  rw [allocuvm]
  by_cases hnew : newsz ≥ kernbase * PGSIZE
  · rw [if_pos hnew]
    exact Allocated.tooBig hnew
  rw [if_neg hnew]
  by_cases hsize : newsz < oldsz
  · rw [if_pos hsize]
    exact Allocated.smaller (Nat.lt_of_not_ge hnew) hsize
  have hmono := pages_le_of_le (Nat.le_of_not_lt hsize)
  have hlast := pages_le_kernbase (Nat.le_of_not_ge hnew)
  rw [if_neg hsize, ends_bind]
  refine (allocFrom_zeros h (by omega)).mono ?_ ?_
  · rintro ok t ⟨k, hk, hall, hgrown⟩
    cases ok with
    | true =>
      rw [hall rfl] at hgrown
      exact Allocated.grown (by omega) (by omega) hgrown
    | false =>
      simp only [Bool.false_eq_true, if_false, ends_bind, ends_first]
      refine (deallocuvm_cleared (hgrown.grown.effect.good h) (Nat.le_of_not_ge hnew)).mono ?_
        fun _ hfalse => hfalse.elim
      intro _ s' hcleared
      exact Allocated.undone (by omega) (by omega) hk hgrown rfl hcleared
  · rintro e ⟨rfl, u, hlo, hhi, hp⟩
    exact ⟨rfl, by omega, u, hlo, by omega, hp⟩

/-! ## The last page -/

/-- A page that was not mapped has no page table, if no page was mapped after it. -/
theorem mapPage_no_table (s : Machine) (d v pa : ℕ) (w us : Bool) :
    Ends (mapPage d v pa w us) (fun ok s' => ok = false → (s'.mem d (v / 1024)).p = false)
      (fun _ => True) s := by
  rw [mapPage, ends_bind]
  refine (walkpgdir_spec s d v).mono ?_ fun _ hfalse => hfalse.elim
  rintro x s' (⟨-, rfl, rfl⟩ | ⟨hp, ⟨rfl, rfl⟩ | ⟨f, l, -, rfl, rfl⟩⟩)
  · simp only [ends_bind, ends_get, ends_ite, ends_panic, ends_set, ends_pure]
    exact ⟨fun _ => trivial, fun _ hfalse => (by cases hfalse)⟩
  · exact fun _ => hp
  · simp only [ends_bind, ends_get, ends_ite, ends_panic, ends_set, ends_pure]
    exact ⟨fun _ => trivial, fun _ hfalse => (by cases hfalse)⟩

/-- If the last page has a page table then it is mapped. -/
def Tied (mem : Memory) (d v : ℕ) : Prop := (mem d (v / 1024)).p = true → (view mem d v).p = true

theorem allocFrom_tied (h : Good L (r.1.heap.total (frames r.1.mem d))) (ha : a + (n + 1) ≤ kernbase) :
    Ends (allocFrom d (n + 1) a) (fun ok t => ok = true → Tied t.1.mem d (a + n)) (fun _ => True) r := by
  induction n generalizing r a with
  | zero =>
    rw [allocFrom, ends_bind, ends_first]
    refine (kalloc_spec r.1).mono ?_ fun _ hfalse => hfalse.elim
    rintro x s₁ (⟨rfl, rfl, -⟩ | ⟨m, l, hfree, rfl, rfl⟩)
    · exact fun hfalse => by cases hfalse
    simp only [ends_bind, ends_modify, ends_first, put]
    refine ((give_spec h (by omega) hfree).and (mappages_one (mapPage_no_table _ d a m true true))).mono
      ?_ fun _ _ => trivial
    rintro ok s₂ ⟨hgiven, hnone⟩ - htable
    cases ok with
    | true => rw [Nat.add_zero, hgiven.view a (lt_top_of_lt_kernbase (by omega)), if_pos rfl, remap, if_pos rfl]
    | false =>
      change (s₂.mem d (a / 1024)).p = true at htable
      rw [hnone rfl] at htable
      cases htable
  | succ n ih =>
    rw [allocFrom, ends_bind, ends_first]
    refine (kalloc_spec r.1).mono ?_ fun _ hfalse => hfalse.elim
    rintro x s₁ (⟨rfl, rfl, -⟩ | ⟨m, l, hfree, rfl, rfl⟩)
    · exact fun hfalse => by cases hfalse
    simp only [ends_bind, ends_modify, ends_first, put]
    refine (give_spec h (by omega) hfree).mono (fun ok s₂ hgiven => ?_) fun _ _ => trivial
    refine (ih (hgiven.effect.good h) (by omega)).mono (fun ok t ht hok => ?_) fun _ _ => trivial
    rw [Nat.add_assoc, Nat.add_comm 1 n] at ht
    exact ht hok

theorem allocuvm_tied {oldsz newsz : ℕ} (h : Good L (r.1.heap.total (frames r.1.mem d)))
    (hlt : pages oldsz < pages newsz) :
    Ends (allocuvm L d oldsz newsz) (fun x t => x ≠ 0 → Tied t.1.mem d (pages newsz - 1))
      (fun _ => True) r := by
  rw [allocuvm]
  by_cases hnew : newsz ≥ kernbase * PGSIZE
  · rw [if_pos hnew]
    exact fun hne => (hne rfl).elim
  have hlast := pages_le_kernbase (Nat.le_of_not_ge hnew)
  have hsize : ¬ newsz < oldsz := fun hle => by
    have := pages_le_of_le hle.le
    omega
  rw [if_neg hnew, if_neg hsize, ends_bind]
  obtain ⟨n, hn⟩ : ∃ n, pages newsz - pages oldsz = n + 1 := ⟨pages newsz - pages oldsz - 1, by omega⟩
  rw [hn]
  refine (allocFrom_tied h (by omega)).mono (fun ok t ht => ?_) fun _ _ => trivial
  cases ok with
  | true =>
    rw [show pages oldsz + n = pages newsz - 1 by omega] at ht
    exact fun _ => ht rfl
  | false =>
    simp only [Bool.false_eq_true, if_false, ends_bind, ends_first]
    refine Ends.mono (Q := fun _ _ => True) (E := fun _ => True) ?_ (fun _ _ _ hne => (hne rfl).elim)
      fun _ _ => trivial
    exact ends_iff.mpr ⟨fun _ _ _ => trivial, fun _ _ => trivial⟩

end Ram

end Lainos.Vm
