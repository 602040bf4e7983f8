import Lainos.Vm.Sbrk

/-!
# An equal and separate copy

`copyuvm` gives a child the pages of its parent, with their flags and bytes, in frames of
its own. Since the frames of the two are different, neither sees what the other writes.
-/

namespace Lainos.Vm

open Library Exec

namespace Ram

variable {L : Layout} {r t : Ram} {d d' a n : ℕ} {R : Multiset ℕ}

/-! ## User writes -/

/-- User code of `d` writes a byte to an address. A page that may not be written to stops it. -/
def poke (d : ℕ) (r : Ram) (x : ℕ × UInt8) : Ram :=
  if User r.1.mem d (x.1 / PGSIZE) ∧ (view r.1.mem d (x.1 / PGSIZE)).w = true then
    (r.1, Function.update r.2 (view r.1.mem d (x.1 / PGSIZE)).addr
      (Function.update (r.2 (view r.1.mem d (x.1 / PGSIZE)).addr) (x.1 % PGSIZE) x.2))
  else r

/-- A sequence of writes. -/
def pokes (d : ℕ) (r : Ram) (l : List (ℕ × UInt8)) : Ram := l.foldl (poke d) r

theorem poke_machine (d : ℕ) (r : Ram) (x : ℕ × UInt8) : (poke d r x).1 = r.1 := by
  rw [poke]
  split_ifs <;> rfl

/-- A write does not reach a frame that is no user page of `d`. -/
theorem poke_other {x : ℕ × UInt8} {f : ℕ} (hx : x.1 < kernbase * PGSIZE)
    (hf : f ∉ userFrames r.1.mem d) : (poke d r x).2 f = r.2 f := by
  rw [poke]
  split_ifs with h
  · refine Function.update_of_ne (fun heq => hf ?_) ..
    rw [heq]
    exact mem_userFrames (Nat.div_lt_of_lt_mul (by rwa [Nat.mul_comm])) h.1.1
  · rfl

theorem pokes_other {l : List (ℕ × UInt8)} {f : ℕ} (hl : ∀ x ∈ l, x.1 < kernbase * PGSIZE)
    (hf : f ∉ userFrames r.1.mem d) : (pokes d r l).1 = r.1 ∧ (pokes d r l).2 f = r.2 f := by
  induction l generalizing r with
  | nil => exact ⟨rfl, rfl⟩
  | cons x l ih =>
    have hmachine := poke_machine d r x
    obtain ⟨h₁, h₂⟩ := ih (r := poke d r x) (fun y hy => hl y (List.mem_cons_of_mem x hy))
      (by rwa [hmachine])
    refine ⟨h₁.trans hmachine, h₂.trans (poke_other (hl x List.mem_cons_self) hf)⟩

/-! ## Copying -/

/-- The pages from `a` up to `a + n` of `d` were copied to `d'`. -/
structure Copied (r t : Ram) (d d' a n : ℕ) : Prop where
  copied : Vm.Copied r.1 t.1 d' a n
  takes : Takes r.1 t.1
  kept : ∀ f ∉ r.1.free, t.2 f = r.2 f
  same : ∀ u, a ≤ u → u < a + n → (view r.1.mem d u).p = true →
    (view t.1.mem d' u).w = (view r.1.mem d u).w ∧ (view t.1.mem d' u).u = (view r.1.mem d u).u ∧
      t.2 (view t.1.mem d' u).addr = r.2 (view r.1.mem d u).addr

theorem Copied.cons {s₁ : Machine} {m : ℕ} {l : List ℕ}
    (h : Good L (r.1.heap.total (frames r.1.mem d' + frames r.1.mem d))) (hfree : r.1.free = m :: l)
    (hgiven : Given r.1 s₁ d' a m true (view r.1.mem d a).w (view r.1.mem d a).u)
    (htakes : ∀ f ∈ s₁.free, f ∈ l)
    (hgood : Good L (s₁.heap.total (frames s₁.mem d' + frames s₁.mem d)))
    (hview : ∀ u < top, view s₁.mem d u = view r.1.mem d u) (ha : a + (n + 1) ≤ kernbase)
    (h₂ : Copied (s₁, Function.update r.2 m (r.2 (view r.1.mem d a).addr)) t d d' (a + 1) n) :
    Copied r t d d' a (n + 1) where
  copied := Vm.Copied.cons hgiven h₂.copied
  takes f hf := by
    rw [hfree]
    exact List.mem_cons_of_mem m (htakes f (h₂.takes f hf))
  kept f hf := by
    rw [hfree, List.mem_cons, not_or] at hf
    rw [h₂.kept f fun hmem => hf.2 (htakes f hmem)]
    exact Function.update_of_ne hf.1 ..
  same u hlo hhi hp := by
    have hu : u < kernbase := by omega
    have htop := lt_top_of_lt_kernbase hu
    by_cases hua : u = a
    · have hnew : view s₁.mem d' u = ⟨m, true, (view r.1.mem d a).w, (view r.1.mem d a).u⟩ := by
        rw [hgiven.view u htop, if_pos rfl, remap, if_pos hua]
      have hm : m ∉ s₁.free := hgood.not_free (by
        have hmem : (view s₁.mem d' u).addr ∈ userFrames s₁.mem d' := mem_userFrames hu (by rw [hnew])
        rw [hnew] at hmem
        rw [frames, Multiset.mem_add, Multiset.mem_add]
        exact Or.inl (Or.inr hmem))
      rw [h₂.copied.outside u htop (Or.inl (by omega))]
      refine ⟨by rw [hnew, hua], by rw [hnew, hua], ?_⟩
      rw [hnew, h₂.kept m hm, hua]
      exact Function.update_self ..
    · obtain ⟨hw, hus, hbytes⟩ := h₂.same u (by omega) (by omega) (by rw [hview u htop]; exact hp)
      rw [hview u htop] at hw hus hbytes
      refine ⟨hw, hus, hbytes.trans (Function.update_of_ne (fun heq => ?_) ..)⟩
      have hused : (view r.1.mem d u).addr ∉ r.1.free := h.not_free (by
        rw [Multiset.mem_add, frames, frames, Multiset.mem_add, Multiset.mem_add]
        exact Or.inr (Or.inr (mem_userFrames hu hp)))
      rw [heq, hfree] at hused
      exact hused List.mem_cons_self

theorem copyFrom_same (h : Good L (r.1.heap.total (frames r.1.mem d' + frames r.1.mem d)))
    (ha : a + n ≤ kernbase) :
    Ends (copyFrom d d' n a) (fun ok t => ok = true → Copied r t d d' a n) (fun _ => True) r := by
  induction n generalizing r a with
  | zero =>
    exact fun _ => ⟨Vm.Copied.zero .., Takes.refl _, fun _ _ => rfl, fun u hlo hhi => by omega⟩
  | succ n ih =>
    rw [copyFrom, ends_bind, ends_first, ends_of_ok (walkpgdir_eq r.1 d a)]
    cases htable : (r.1.mem d (a / 1024)).p with
    | false => trivial
    | true =>
      simp only [if_true, ends_bind, ends_get]
      rw [← view_of_table htable]
      cases hp : (view r.1.mem d a).p with
      | false => trivial
      | true =>
        have hchild : Good L (r.1.heap.total (frames r.1.mem d')) := by
          refine h.mono ?_
          rw [Heap.total, Heap.total, ← add_assoc]
          exact Multiset.le_add_right ..
        simp only [Bool.not_true, Bool.false_eq_true, if_false, ends_bind, ends_first]
        refine (kalloc_spec r.1).mono ?_ fun _ _ => trivial
        rintro x s₁ (⟨rfl, rfl, -⟩ | ⟨m, l, hfree, rfl, rfl⟩)
        · exact fun hfalse => by cases hfalse
        simp only [ends_bind, ends_modify, ends_first, put]
        have hmapped := (give_spec hchild (by omega) hfree).and (takes_mappages d' (view r.1.mem d a).w
          (view r.1.mem d a).u 1 a m ((r.1.draw.setFree l).setPage m (r.1.mem (view r.1.mem d a).addr)))
        refine hmapped.mono ?_ fun _ _ => trivial
        rintro ok s₂ ⟨hgiven, htakes⟩
        cases ok with
        | false => exact fun hfalse => by cases hfalse
        | true =>
          have hsame : ∀ f ∈ skeleton r.1.mem d, s₂.mem f = r.1.mem f := fun f hf =>
            hgiven.moves.mem_eq h.nodup (Multiset.mem_add.mpr (Or.inl hf))
          have hgood : Good L (s₂.heap.total (frames s₂.mem d' + frames s₂.mem d)) := by
            rw [frames_congr hsame]
            exact h.of_moves ((hgiven.moves.cast rfl (add_zero _)).add _)
          refine (ih hgood (by omega)).mono (fun ok t ht hok => ?_) fun _ _ => trivial
          exact Copied.cons h hfree hgiven htakes hgood (fun u hu => view_congr hsame hu) ha (ht hok)

/-- The child `d'` is an equal copy of the parent `d`, apart from it and from the frames `R` of
everybody else. -/
structure Forked (L : Layout) (r t : Ram) (d d' : ℕ) (R : Multiset ℕ) : Prop where
  present : ∀ u < kernbase, (view t.1.mem d' u).p = (view r.1.mem d u).p
  same : ∀ u < kernbase, (view r.1.mem d u).p = true →
    (view t.1.mem d' u).w = (view r.1.mem d u).w ∧ (view t.1.mem d' u).u = (view r.1.mem d u).u ∧
      t.2 (view t.1.mem d' u).addr = r.2 (view r.1.mem d u).addr
  kernel : ∀ u < top, kernbase ≤ u → view t.1.mem d' u = kview L u
  apart : Disjoint (userFrames t.1.mem d') (frames r.1.mem d + R)
  untouched : ∀ f ∈ frames r.1.mem d + R, t.1.mem f = r.1.mem f ∧ t.2 f = r.2 f

theorem Forked.userFrames_eq (h : Forked L r t d d' R) : userFrames t.1.mem d = userFrames r.1.mem d :=
  userFrames_congr fun f hf => (h.untouched f (by
    rw [frames, Multiset.mem_add, Multiset.mem_add]
    exact Or.inl (Or.inl hf))).1

/-- What the parent writes is not seen by the child. -/
theorem Forked.pokes_parent (h : Forked L r t d d' R) {l : List (ℕ × UInt8)}
    (hl : ∀ x ∈ l, x.1 < kernbase * PGSIZE) {x : ℕ} (hx : x < kernbase * PGSIZE)
    (hp : (view t.1.mem d' (x / PGSIZE)).p = true) : (pokes d t l).byte d' x = t.byte d' x := by
  have hmem := mem_userFrames (Nat.div_lt_of_lt_mul (by rwa [Nat.mul_comm])) hp
  obtain ⟨hmachine, hbytes⟩ := pokes_other (r := t) (d := d) hl (fun hd => by
    rw [h.userFrames_eq] at hd
    refine Multiset.disjoint_left.mp h.apart hmem ?_
    rw [frames, Multiset.mem_add, Multiset.mem_add]
    exact Or.inl (Or.inr hd))
  rw [byte, byte, hmachine, hbytes]

/-- What the child writes is not seen by the parent. -/
theorem Forked.pokes_child (h : Forked L r t d d' R) {l : List (ℕ × UInt8)}
    (hl : ∀ x ∈ l, x.1 < kernbase * PGSIZE) {x : ℕ} (hx : x < kernbase * PGSIZE)
    (hp : (view t.1.mem d (x / PGSIZE)).p = true) : (pokes d' t l).byte d x = t.byte d x := by
  have hmem := mem_userFrames (Nat.div_lt_of_lt_mul (by rwa [Nat.mul_comm])) hp
  rw [h.userFrames_eq] at hmem
  obtain ⟨hmachine, hbytes⟩ := pokes_other (r := t) (d := d') hl (fun hd => by
    refine Multiset.disjoint_left.mp h.apart hd ?_
    rw [frames, Multiset.mem_add, Multiset.mem_add]
    exact Or.inl (Or.inr hmem))
  rw [byte, byte, hmachine, hbytes]

theorem Copied.forked {s₁ : Machine} {sz : ℕ} (hgood : Good L (r.1.heap.total (frames r.1.mem d + R)))
    (hmap : MapsBelow r.1.mem d sz) (hpages : pages sz ≤ kernbase) (hfresh : Fresh L r.1 s₁ d')
    (hview : ∀ u < top, view s₁.mem d u = view r.1.mem d u)
    (h : Copied (s₁, r.2) t d d' 0 (pages sz)) : Forked L r t d d' R := by
  have hmoves : Moves r.1.heap s₁.heap (frames r.1.mem d + R) (frames s₁.mem d' + (frames r.1.mem d + R)) :=
    (hfresh.moves.add _).cast (zero_add _) rfl
  have hall : Moves r.1.heap t.1.heap (frames r.1.mem d + R) (frames t.1.mem d' + (frames r.1.mem d + R)) :=
    hmoves.trans (h.copied.moves.add _)
  have hbelow : ∀ u < kernbase, (view r.1.mem d u).p = true → u < pages sz := fun u hu hp => by
    by_contra hge
    rw [hmap.absent hu (by omega)] at hp
    cases hp
  refine ⟨fun u hu => ?_, fun u hu hp => ?_, fun u hu hk => ?_, ?_, fun f hf => ⟨?_, ?_⟩⟩
  · have htop := lt_top_of_lt_kernbase hu
    by_cases hlt : u < pages sz
    · rw [h.copied.inside u htop (Nat.zero_le _) (by omega), hmap.present hu hlt]
    · rw [h.copied.outside u htop (Or.inr (by omega)), hfresh.view u htop, kview_of_lt hu,
        hmap.absent hu (by omega)]
      rfl
  · have hsame := h.same u (Nat.zero_le _) (by rw [zero_add]; exact hbelow u hu hp)
    rw [hview u (lt_top_of_lt_kernbase hu)] at hsame
    exact hsame hp
  · rw [h.copied.outside u hu (Or.inr (by omega)), hfresh.view u hu]
  · have hnodup := Multiset.nodup_add.mp ((hgood.of_moves hall).nodup)
    refine (Multiset.nodup_add.mp hnodup.2.1).2.2.mono_left ?_
    rw [frames]
    exact Multiset.le_add_left ..
  · exact (hfresh.moves.trans h.copied.moves).mem_eq (by rw [zero_add]; exact hgood.nodup) hf
  · exact h.kept f ((hgood.of_moves hmoves).not_free (Multiset.mem_add.mpr (Or.inr hf)))

/-- A child that `copyuvm` makes is equal to its parent and separate from everybody, and
neither of the two sees what the other writes. -/
theorem copyuvm_forks {sz : ℕ} (hgood : Good L (r.1.heap.total (frames r.1.mem d + R)))
    (hmap : MapsBelow r.1.mem d sz) (hsz : sz ≤ kernbase * PGSIZE) :
    Ends (copyuvm L d sz) (fun res t => ∀ d', res = some d' → Forked L r t d d' R ∧
      ∀ l : List (ℕ × UInt8), (∀ x ∈ l, x.1 < kernbase * PGSIZE) → ∀ x < kernbase * PGSIZE,
        ((view t.1.mem d' (x / PGSIZE)).p = true → (pokes d t l).byte d' x = t.byte d' x) ∧
        ((view t.1.mem d (x / PGSIZE)).p = true → (pokes d' t l).byte d x = t.byte d x))
      (fun _ => False) r := by
  have hpages := pages_le_kernbase hsz
  have hparent : Good L (r.1.heap.total (frames r.1.mem d)) := by
    refine hgood.mono ?_
    rw [Heap.total, Heap.total, ← add_assoc]
    exact Multiset.le_add_right ..
  have hgood₀ : Good L (r.1.heap.total 0) := by
    refine hgood.mono ?_
    rw [Heap.total, Heap.total, add_zero]
    exact Multiset.le_add_right ..
  have hforked : Ends (copyuvm L d sz) (fun res t => ∀ d', res = some d' → Forked L r t d d' R)
      (fun _ => True) r := by
    rw [copyuvm, ends_bind, ends_first]
    refine (setupkvm_spec hgood₀).mono ?_ fun _ _ => trivial
    rintro x s₁ (⟨d', rfl, hfresh⟩ | ⟨rfl, -, -⟩)
    swap
    · exact fun d' hfalse => by cases hfalse
    have hsame : ∀ f ∈ skeleton r.1.mem d, s₁.mem f = r.1.mem f := fun f hf =>
      hfresh.moves.mem_eq (by rw [zero_add]; exact hparent.nodup) (Multiset.mem_add.mpr (Or.inl hf))
    have hgood₁ : Good L (s₁.heap.total (frames s₁.mem d' + frames s₁.mem d)) := by
      rw [frames_congr hsame]
      exact hparent.of_moves ((hfresh.moves.add _).cast (zero_add _) rfl)
    rw [ends_bind]
    refine (copyFrom_same hgood₁ (by omega)).mono (fun ok t ht => ?_) fun _ _ => trivial
    cases ok with
    | true =>
      rintro d'' ⟨⟩
      exact Copied.forked hgood hmap hpages hfresh (fun u hu => view_congr hsame hu) (ht rfl)
    | false =>
      simp only [Bool.false_eq_true, if_false, ends_bind, ends_first]
      refine ends_iff.mpr ⟨fun _ _ _ d'' hfalse => (by cases hfalse), fun _ _ => trivial⟩
  refine (hforked.and ((projects_copyuvm L d sz).ends.mpr (copyuvm_spec hparent hsz))).mono ?_ ?_
  · rintro res t ⟨h, -⟩ d' hd'
    exact ⟨h d' hd', fun l hl x hx => ⟨(h d' hd').pokes_parent hl hx, (h d' hd').pokes_child hl hx⟩⟩
  · rintro e ⟨-, -, u, hu, hp⟩
    rw [hmap.present (by omega) hu] at hp
    cases hp

/-- A process of one page, with a hundred free frames and no other process. -/
theorem copyuvm_forks_single :
    Ends (copyuvm smallLayout 0x1FF 4096) (fun res t => ∀ d', res = some d' →
      Forked smallLayout (singleMachine 0 100, fun _ _ => 0) t 0x1FF d' 0 ∧
      ∀ l : List (ℕ × UInt8), (∀ x ∈ l, x.1 < kernbase * PGSIZE) → ∀ x < kernbase * PGSIZE,
        ((view t.1.mem d' (x / PGSIZE)).p = true → (pokes 0x1FF t l).byte d' x = t.byte d' x) ∧
        ((view t.1.mem 0x1FF (x / PGSIZE)).p = true → (pokes d' t l).byte 0x1FF x = t.byte 0x1FF x))
      (fun _ => False) (singleMachine 0 100, fun _ _ => 0) :=
  copyuvm_forks (by rw [add_zero]; exact good_singleMachine (by omega) (by omega))
    (mapsBelow_singleMachine 100) (by rw [kernbase, PGSIZE]; omega)

end Ram

end Lainos.Vm
