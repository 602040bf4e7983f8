import Lainos.Vm.Zeroed

/-!
# The size of a process

`growproc` for a process whose pages are exactly those below its size. It takes the size 0
for an error, and `deallocuvm` does nothing if it is told to grow, so a process may shrink
neither to nothing nor, visibly, below it. A page that found no page table is not noticed,
and the undoing of a growth has the fault of `deallocuvm`.
-/

namespace Lainos.Vm

open Library Exec

/-- Exactly the pages below `sz` are mapped for user code. -/
def MapsBelow (mem : Memory) (d sz : ℕ) : Prop :=
  ∀ u < kernbase, (view mem d u).p = decide (u < pages sz)

theorem MapsBelow.absent {mem : Memory} {d sz u : ℕ} (h : MapsBelow mem d sz) (hu : u < kernbase)
    (hle : pages sz ≤ u) : (view mem d u).p = false := by
  rw [h u hu, decide_eq_false (Nat.not_lt.mpr hle)]

theorem MapsBelow.present {mem : Memory} {d sz u : ℕ} (h : MapsBelow mem d sz) (hu : u < kernbase)
    (hlt : u < pages sz) : (view mem d u).p = true := by
  rw [h u hu, decide_eq_true hlt]

namespace Ram

variable {L : Layout} {r t : Ram} {d sz sz' : ℕ} {n : ℤ}

/-- User memory is as it was. -/
structure Unchanged (r t : Ram) (d : ℕ) : Prop where
  present : ∀ u < kernbase, (view t.1.mem d u).p = (view r.1.mem d u).p
  kept : ∀ u < kernbase, (view r.1.mem d u).p = true → view t.1.mem d u = view r.1.mem d u ∧
    t.2 (view r.1.mem d u).addr = r.2 (view r.1.mem d u).addr

/-- User memory of `sz` bytes was brought to `sz'` bytes. -/
structure Resized (r t : Ram) (d sz sz' : ℕ) : Prop where
  mapped : MapsBelow t.1.mem d sz'
  kept : ∀ u < pages sz, u < pages sz' → view t.1.mem d u = view r.1.mem d u ∧
    t.2 (view r.1.mem d u).addr = r.2 (view r.1.mem d u).addr
  zero : ∀ u, pages sz ≤ u → u < pages sz' → User t.1.mem d u ∧ (view t.1.mem d u).w = true ∧
    t.2 (view t.1.mem d u).addr = fun _ => 0

/-- What `growproc` should do. -/
def Exact (r : Ram) (d sz : ℕ) (n : ℤ) (res : Option ℕ) (t : Ram) : Prop :=
  match res with
  | some sz' => sz' = sz + n ∧ Resized r t d sz sz'
  | none => Unchanged r t d

/-- A process does not shrink to nothing or below, no page that was asked for went without a
page table, and no page is jumped over when a growth is undone. -/
structure Orderly (r : Ram) (d sz : ℕ) (n : ℤ) (res : Option ℕ) (t : Ram) : Prop where
  shrink : n < 0 → sz = 0 ∨ 0 < sz + n
  fed : 0 < n → res ≠ none → t.1.starved = r.1.starved
  undo : 0 < n → ∀ u < kernbase, pages sz ≤ u → (view t.1.mem d u).p = true →
    ¬ Jumped t.1.mem d (pages sz) u

/-- The frame of a page is not free. -/
theorem frame_not_free {u : ℕ} (h : Good L (r.1.heap.total (frames r.1.mem d))) (hu : u < kernbase)
    (hp : (view r.1.mem d u).p = true) : (view r.1.mem d u).addr ∉ r.1.free := by
  refine h.not_free ?_
  rw [frames, Multiset.mem_add]
  exact Or.inr (mem_userFrames hu hp)

theorem Grown.resized_iff (hgood : Good L (r.1.heap.total (frames r.1.mem d)))
    (hmap : MapsBelow r.1.mem d sz) (hle : pages sz ≤ pages sz') (hlast : pages sz' ≤ kernbase)
    (h : Grown r t d (pages sz) (pages sz' - pages sz)) :
    Resized r t d sz sz' ↔ t.1.starved = r.1.starved := by
  constructor
  · intro hresized
    by_contra hne
    obtain ⟨u, hlo, hhi, hsame⟩ := h.hole hne
    have hp := hresized.mapped.present (u := u) (by omega) (by omega)
    rw [hsame, hmap.absent (by omega) hlo] at hp
    cases hp
  · intro hstarved
    have hfed : ∀ u, pages sz ≤ u → u < pages sz' → ∃ f, view t.1.mem d u = ⟨f, true, true, true⟩ :=
      fun u hlo hhi => h.grown.fed hstarved u (lt_top_of_lt_kernbase (by omega)) hlo (by omega)
    refine ⟨fun u hu => ?_, fun u hu _ => ⟨?_, ?_⟩, fun u hlo hhi => ?_⟩
    · have htop := lt_top_of_lt_kernbase hu
      by_cases hlo : u < pages sz
      · rw [h.grown.outside u htop (Or.inl hlo), hmap.present hu hlo, decide_eq_true (by omega)]
      by_cases hhi : u < pages sz'
      · obtain ⟨f, hf⟩ := hfed u (by omega) hhi
        rw [hf, decide_eq_true hhi]
      · rw [h.grown.outside u htop (Or.inr (by omega)), hmap.absent hu (by omega), decide_eq_false hhi]
    · exact h.grown.outside u (lt_top_of_lt_kernbase (by omega)) (Or.inl hu)
    · exact h.kept _ (frame_not_free hgood (by omega) (hmap.present (by omega) hu))
    · obtain ⟨f, hf⟩ := hfed u hlo hhi
      refine ⟨⟨by rw [hf], by rw [hf]⟩, by rw [hf], ?_⟩
      exact h.zeros u (by omega) (hmap.absent (by omega) hlo) (by rw [hf])

theorem unchanged_iff_of_undone {u : Ram} {k : ℕ} (hgood : Good L (r.1.heap.total (frames r.1.mem d)))
    (hmap : MapsBelow r.1.mem d sz) (hlast : pages sz' ≤ kernbase) (hk : k ≤ pages sz' - pages sz)
    (h : Grown r t d (pages sz) k) (hbytes : u.2 = t.2)
    (hcleared : Cleared t.1 u.1 d (pages sz') (pages sz)) :
    Unchanged r u d ↔ ∀ v < kernbase, pages sz ≤ v → (view u.1.mem d v).p = true →
      ¬ Jumped u.1.mem d (pages sz) v := by
  constructor
  · intro hsame v hv hlo hp
    rw [hsame.present v hv, hmap.absent hv hlo] at hp
    cases hp
  · intro hnone
    have hbelow : ∀ v < kernbase, v < pages sz → view u.1.mem d v = view r.1.mem d v := by
      intro v hv hlo
      have htop := lt_top_of_lt_kernbase hv
      rw [hcleared.left v htop (.inl hlo), h.grown.outside v htop (Or.inl hlo)]
    have habove : ∀ v < kernbase, pages sz ≤ v → (view u.1.mem d v).p = false := by
      intro v hv hlo
      by_cases hhi : v < pages sz'
      · by_cases hj : Jumped t.1.mem d (pages sz) v
        · have hj' : Jumped u.1.mem d (pages sz) v := by rwa [Jumped, hcleared.dir]
          by_contra hp
          exact hnone v hv hlo (by simpa using hp) hj'
        · exact hcleared.gone v hlo hhi hj
      · have htop := lt_top_of_lt_kernbase hv
        rw [hcleared.left v htop (.inr (.inl (by omega))), h.grown.outside v htop (Or.inr (by omega))]
        exact hmap.absent hv hlo
    refine ⟨fun v hv => ?_, fun v hv hp => ?_⟩
    · by_cases hlo : v < pages sz
      · rw [hbelow v hv hlo]
      · rw [habove v hv (by omega), hmap.absent hv (by omega)]
    · have hlo : v < pages sz := by
        by_contra hge
        rw [hmap.absent hv (by omega)] at hp
        cases hp
      exact ⟨hbelow v hv hlo, by rw [hbytes, h.kept _ (frame_not_free hgood hv hp)]⟩

/-! ## The three cases -/

theorem Unchanged.refl (r : Ram) (d : ℕ) : Unchanged r r d :=
  ⟨fun _ _ => rfl, fun _ _ _ => ⟨rfl, rfl⟩⟩

theorem Resized.refl (h : MapsBelow r.1.mem d sz) : Resized r r d sz sz :=
  ⟨h, fun _ _ _ => ⟨rfl, rfl⟩, fun u hlo hhi => by omega⟩

theorem allocuvm_exact {newsz : ℕ} (hgood : Good L (r.1.heap.total (frames r.1.mem d)))
    (hmap : MapsBelow r.1.mem d sz) (hn : 0 < n) (hnew : (newsz : ℤ) = sz + n) :
    Ends (allocuvm L d sz newsz) (fun x t =>
      Exact r d sz n (if x = 0 then none else some x) t ↔
        Orderly r d sz n (if x = 0 then none else some x) t) (fun _ => False) r := by
  refine (allocuvm_zeros hgood).mono (fun x t ht => ?_) ?_
  · cases ht with
    | tooBig hbig =>
      refine iff_of_true (Unchanged.refl r d) ⟨fun hneg => by omega, fun _ hne => (hne rfl).elim, ?_⟩
      intro _ u hu hlo hp
      rw [hmap.absent hu hlo] at hp
      cases hp
    | smaller _ hlt => omega
    | grown hlt hle hgrown =>
      have hmono := pages_le_of_le hle
      have hlast := pages_le_kernbase hlt.le
      have hiff := hgrown.resized_iff hgood hmap hmono hlast
      rw [if_neg (by omega)]
      constructor
      · rintro ⟨-, hresized⟩
        refine ⟨fun hneg => by omega, fun _ _ => hiff.mp hresized, fun _ u hu hlo hp => ?_⟩
        -- The first new page is there, so its page table is, and nothing is jumped over.
        have hhi : u < pages newsz := by
          by_contra hge
          rw [hresized.mapped.absent hu (by omega)] at hp
          cases hp
        exact not_jumped_of_table (table_of_present (hresized.mapped.present (by omega) (by omega)))
      · intro horderly
        exact ⟨hnew, hiff.mpr (horderly.fed hn (by simp))⟩
    | undone hlt hle hk hgrown hbytes hcleared =>
      have hlast := pages_le_kernbase hlt.le
      have hiff := unchanged_iff_of_undone hgood hmap hlast hk hgrown hbytes hcleared
      rw [if_pos rfl]
      constructor
      · intro hsame
        exact ⟨fun hneg => by omega, fun _ hne => (hne rfl).elim, fun _ => hiff.mp hsame⟩
      · intro horderly
        exact hiff.mpr (horderly.undo hn)
  · rintro e ⟨-, hlt, u, hlo, hhi, hp⟩
    have hlast := pages_le_kernbase hlt.le
    rw [hmap.absent (by omega) hlo] at hp
    cases hp

theorem Cleared.resized (hmap : MapsBelow r.1.mem d sz) (hle : pages sz' ≤ pages sz)
    (hlast : pages sz ≤ kernbase) {s' : Machine}
    (h : Cleared r.1 s' d (pages sz) (pages sz')) : Resized r (s', r.2) d sz sz' := by
  have hkept : ∀ u < top, u < pages sz' ∨ pages sz ≤ u → view s'.mem d u = view r.1.mem d u :=
    fun u hu hcase => h.left u hu (hcase.imp_right .inl)
  refine ⟨fun u hu => ?_, fun u hu hu' => ⟨?_, rfl⟩, fun u hlo hhi => by omega⟩
  · have htop := lt_top_of_lt_kernbase hu
    by_cases hlo : u < pages sz'
    · rw [decide_eq_true hlo]
      exact (congrArg Pte.p (hkept u htop (Or.inl hlo))).trans (hmap.present hu (by omega))
    rw [decide_eq_false hlo]
    by_cases hhi : u < pages sz
    · have htable := table_of_present (hmap.present (u := pages sz') (by omega) (by omega))
      exact h.gone u (by omega) hhi (not_jumped_of_table htable)
    · exact (congrArg Pte.p (hkept u htop (Or.inr (by omega)))).trans (hmap.absent hu (by omega))
  · exact hkept u (lt_top_of_lt_kernbase (by omega)) (Or.inl hu')

theorem deallocuvm_exact {newsz : ℕ} (hgood : Good L (r.1.heap.total (frames r.1.mem d)))
    (hmap : MapsBelow r.1.mem d sz) (hsz : sz ≤ kernbase * PGSIZE) (hn : n < 0)
    (hnew : (newsz : ℤ) = sz + n ∨ ((sz : ℤ) + n < 0 ∧ sz ≤ newsz)) :
    Ends (deallocuvm L d sz newsz) (fun x s' =>
      Exact r d sz n (if x = 0 then none else some x) (s', r.2) ↔
        Orderly r d sz n (if x = 0 then none else some x) (s', r.2)) (fun _ => False) r.1 := by
  have hlast := pages_le_kernbase hsz
  have hpos : ¬ 0 < n := by omega
  rw [deallocuvm]
  by_cases hle : newsz ≥ sz
  · rw [if_pos hle, ends_pure]
    obtain hnew | ⟨hneg, -⟩ := hnew
    · omega
    by_cases hzero : sz = 0
    · rw [if_pos hzero]
      exact iff_of_true (Unchanged.refl r d) ⟨fun _ => Or.inl hzero, fun h => (hpos h).elim,
        fun h => (hpos h).elim⟩
    · rw [if_neg hzero]
      refine iff_of_false (fun h => ?_) fun h => ?_
      · have := h.1
        omega
      · have := h.shrink hn
        omega
  · rw [if_neg hle, ends_bind]
    obtain hnew | ⟨-, hge⟩ := hnew
    swap
    · omega
    have hmono := pages_le_of_le (Nat.le_of_not_ge hle)
    refine (deallocFrom_cleared hgood hlast (by omega)).mono (fun _ s' hcleared => ?_) fun _ he => he
    rw [ends_pure]
    by_cases hzero : newsz = 0
    · rw [if_pos hzero]
      refine iff_of_false (fun h => ?_) fun h => ?_
      · have hfirst : 0 < pages sz := by
          rw [pages]
          omega
        have hpages : pages newsz = 0 := by
          rw [hzero]
          rfl
        rw [hpages] at hcleared
        have hgone := hcleared.gone 0 le_rfl hfirst (not_jumped_of_aligned rfl)
        have hsame := h.present 0 (by omega)
        rw [hmap.present (by omega) hfirst] at hsame
        rw [hsame] at hgone
        cases hgone
      · have := h.shrink hn
        omega
    · rw [if_neg hzero]
      refine iff_of_true ⟨hnew, Cleared.resized hmap hmono hlast hcleared⟩
        ⟨fun _ => Or.inr (by omega), fun h => (hpos h).elim, fun h => (hpos h).elim⟩

theorem mapsBelow_singleMachine (k : ℕ) : MapsBelow (singleMachine 0 k).mem 0x1FF 4096 := by
  intro u _
  rw [singleMachine_view]
  by_cases hu : u = 0
  · rw [if_pos (by omega), hu]
    rfl
  · rw [if_neg (by omega), decide_eq_false (by rw [pages]; omega)]
    rfl

end Ram

end Lainos.Vm
