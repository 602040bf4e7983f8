import Lainos.Libc.Heap

/-!
# Sequences of calls

Programs call `malloc` and `free` in any order and write to the memory they were given. The
heap stays sound in every state this leads to; the pointers are aligned as long as `sbrk`
answers with aligned ones.
-/

namespace Lainos.Libc

open Library

variable {base : ℕ} {s : Arena} {fs blocks : List Block} {live : List (ℕ × ℕ)} {rets : List ℕ}

/-- The states of the heap, with the pointers in use and the numbers of bytes they were
asked for, and all pointers that were returned. -/
inductive Reach (base : ℕ) : Arena → List (ℕ × ℕ) → List ℕ → Prop
  | init {s : Arena} : 0 < base → base + unit ≤ s.top → s.freep = 0 → s.regions = [] →
      Reach base s [] []
  | malloc {s s' : Arena} {live rets} {fuel nbytes p : ℕ} : Reach base s live rets →
      nbytes < 2 ^ 31 - 2 ^ 16 → malloc base fuel nbytes s = .ok (some p, s') →
      Reach base s' ((p, nbytes) :: live) (p :: rets)
  | refused {s s' : Arena} {live rets} {fuel nbytes : ℕ} : Reach base s live rets →
      nbytes < 2 ^ 31 - 2 ^ 16 → Libc.malloc base fuel nbytes s = .ok (none, s') →
      Reach base s' live rets
  | free {s s' : Arena} {live rets} {fuel : ℕ} {p : ℕ × ℕ} : Reach base s live rets → p ∈ live →
      free fuel p.1 s = .ok (⟨⟩, s') → Reach base s' (live.erase p) rets
  | store {s : Arena} {live rets} {mem : ℕ → Header} : Reach base s live rets →
      (∀ a, mem a ≠ s.mem a → ∃ p ∈ live, p.1 < a + unit ∧ a < p.1 + p.2) →
      Reach base ⟨mem, s.freep, s.top, s.gaps, s.regions, s.calls⟩ live rets

/-- A pointer and the number of bytes it was asked for, and the block that it points to. -/
def Usable (p : ℕ × ℕ) (b : Block) : Prop := p.1 = b.1 + unit ∧ p.1 + p.2 ≤ b.1 + unit * b.2

/-- The free blocks are one circular list through `base`, increasing in address except for
the wrap at its end, and with the blocks in use they make up the memory obtained. -/
structure Partition (base : ℕ) (s : Arena) (fs blocks : List Block) : Prop where
  ring : Circular (fun a => (s.mem a).ptr) (base :: fs.map Prod.fst)
  sorted : (base :: fs.map Prod.fst).Pairwise (· < ·)
  apart : fs.Pairwise fun b c => b.1 + unit * b.2 < c.1
  size : ∀ b ∈ fs ++ blocks, (s.mem b.1).size = b.2
  disjoint : (fs ++ blocks).Pairwise Disjoint
  exhaust : ∀ x, (∃ b ∈ fs ++ blocks, b.1 ≤ x ∧ x < b.1 + unit * b.2) ↔
    ∃ q ∈ s.regions, q.1 ≤ x ∧ x < q.1 + q.2

/-- There is no list before the first call of `malloc`. -/
def Sound (base : ℕ) (s : Arena) (live : List (ℕ × ℕ)) : Prop :=
  (s.freep = 0 ∧ s.regions = [] ∧ live = []) ∨
    ∃ fs blocks, Partition base s fs blocks ∧ List.Forall₂ Usable live blocks

/-- The loops of the next call come to an end. -/
def Terminates (base : ℕ) (s : Arena) (live : List (ℕ × ℕ)) : Prop :=
  (∀ nbytes < 2 ^ 31 - 2 ^ 16, ∃ fuel r s', malloc base fuel nbytes s = .ok (r, s')) ∧
    ∀ p ∈ live, ∃ fuel s', free fuel p.1 s = .ok (⟨⟩, s')

theorem pairwise_disjoint_of_covers {l : List Block} (hpos : ∀ b ∈ l, 0 < b.2)
    (h : ∀ x, covers l x ≤ 1) : l.Pairwise Disjoint := by
  induction l with
  | nil => exact .nil
  | cons b l ih =>
    simp only [covers_cons] at h
    refine List.pairwise_cons.mpr ⟨fun c hc => ?_, ih (fun c hc => hpos c (List.mem_cons_of_mem _ hc))
      fun x => (Nat.le_add_left ..).trans (h x)⟩
    refine disjoint_of_inside (hpos b List.mem_cons_self) (hpos c (List.mem_cons_of_mem _ hc))
      fun x => ?_
    exact (Nat.add_le_add_left (inside_le_covers hc x) _).trans (h x)

theorem sum_inside_pos {l : List (ℕ × ℕ)} {f : ℕ × ℕ → ℕ} {x : ℕ} :
    0 < (l.map fun b => inside b.1 (f b) x).sum ↔ ∃ b ∈ l, b.1 ≤ x ∧ x < b.1 + f b := by
  rw [Nat.pos_iff_ne_zero, ne_eq, List.sum_eq_zero_iff]
  simp [inside]

theorem Consistent.partition (h : Consistent base s fs blocks) : Partition base s fs blocks := by
  have hcovers : ∀ x, covers (fs ++ blocks) x = obtained s.regions x := by
    intro x
    rw [covers_append, h.tiles]
  refine ⟨h.ring, h.sorted, h.apart, fun b hb => (h.size b hb).1,
    pairwise_disjoint_of_covers (fun b hb => (h.size b hb).2) fun x => ?_, fun x => ?_⟩
  · rw [hcovers]
    exact h.stacked.obtained_le_one x
  · rw [← sum_inside_pos (f := fun b => unit * b.2), ← sum_inside_pos (f := Prod.snd)]
    exact iff_of_eq (congrArg (0 < ·) (hcovers x))

/-- A block begins where a region does or where another block ends. -/
theorem Consistent.aligned (h : Consistent base s fs blocks) (hregions : ∀ q ∈ s.regions, unit ∣ q.1)
    {b : Block} (hb : b ∈ fs ++ blocks) : unit ∣ b.1 := by
  have hpart := h.partition
  obtain ⟨a, ha⟩ : ∃ a, a = b.1 := ⟨_, rfl⟩
  induction a using Nat.strong_induction_on generalizing b with
  | h a ih =>
    have hfirst : b.1 < b.1 + unit * b.2 := by
      have := (h.size b hb).2
      rw [unit]
      omega
    obtain ⟨q, hq, hle, hlt⟩ := (hpart.exhaust b.1).mp ⟨b, hb, le_rfl, hfirst⟩
    obtain heq | hlow := hle.eq_or_lt
    · exact heq ▸ hregions q hq
    · obtain ⟨d, hd, hdle, hdlt⟩ := (hpart.exhaust (b.1 - 1)).mpr ⟨q, hq, by omega, by omega⟩
      have hne : d ≠ b := by
        rintro rfl
        omega
      have hdisj : Disjoint d b := hpart.disjoint.forall hd hb hne
      have hend : b.1 = d.1 + unit * d.2 := by
        rw [Disjoint] at hdisj
        omega
      rw [hend]
      exact (ih d.1 (by omega) hd rfl).add (Nat.dvd_mul_right ..)

/-! ## More rounds of the loops -/

theorem findGap_mono {bp p fuel k : ℕ} {r : ℕ × Arena} (hk : fuel ≤ k)
    (h : findGap bp fuel p s = .ok r) : findGap bp k p s = .ok r := by
  induction fuel generalizing p k with
  | zero => cases h
  | succ fuel ih =>
    obtain ⟨k, rfl⟩ : ∃ m, k = m + 1 := ⟨k - 1, by omega⟩
    rw [findGap_succ] at h ⊢
    split_ifs at h ⊢
    · exact h
    · exact h
    · exact ih (by omega) h

theorem free_mono {ap fuel k : ℕ} {r : Unit × Arena} (hk : fuel ≤ k) (h : free fuel ap s = .ok r) :
    free k ap s = .ok r := by
  rw [free, Exec.bind_of_ok Exec.get_run] at h ⊢
  obtain ⟨p, t, hfind, hrest⟩ := Exec.bind_eq_ok.mp h
  rw [Exec.bind_of_ok (findGap_mono hk hfind)]
  exact hrest

theorem morecore_mono {nu fuel k : ℕ} {r : Option ℕ × Arena} (hk : fuel ≤ k)
    (h : morecore fuel nu s = .ok r) : morecore k nu s = .ok r := by
  rw [morecore, Exec.bind_of_ok (Exec.modify_run _)] at h ⊢
  obtain ⟨a, t, hsbrk, hrest⟩ := Exec.bind_eq_ok.mp h
  rw [Exec.bind_of_ok hsbrk]
  cases a with
  | none => exact hrest
  | some p =>
    dsimp only at hrest ⊢
    rw [Exec.bind_of_ok (Exec.modify_run _)] at hrest ⊢
    obtain ⟨_, u, hfree, hrest⟩ := Exec.bind_eq_ok.mp hrest
    rw [Exec.bind_of_ok (free_mono hk hfree)]
    exact hrest

theorem search_mono {n fuel k prevp p : ℕ} {r : Option ℕ × Arena} (hk : fuel ≤ k)
    (h : search n fuel prevp p s = .ok r) : search n k prevp p s = .ok r := by
  induction fuel generalizing prevp p k s with
  | zero => cases h
  | succ fuel ih =>
    obtain ⟨k, rfl⟩ : ∃ m, k = m + 1 := ⟨k - 1, by omega⟩
    have hk : fuel ≤ k := by omega
    rw [search, Exec.bind_of_ok Exec.get_run] at h ⊢
    dsimp only at h ⊢
    split_ifs at h ⊢
    · exact h
    · exact h
    · obtain ⟨a, t, hmore, hrest⟩ := Exec.bind_eq_ok.mp h
      rw [Exec.bind_of_ok (morecore_mono hk hmore)]
      cases a with
      | none => exact hrest
      | some p =>
        dsimp only at hrest ⊢
        rw [Exec.bind_of_ok Exec.get_run] at hrest ⊢
        exact ih hk hrest
    · exact ih hk h

theorem malloc_mono {nbytes fuel k : ℕ} {r : Option ℕ × Arena} (hk : fuel ≤ k)
    (h : malloc base fuel nbytes s = .ok r) : malloc base k nbytes s = .ok r := by
  rw [malloc, Exec.bind_of_ok (Exec.modify_run _), Exec.bind_of_ok Exec.get_run] at h ⊢
  exact search_mono hk h

/-! ## What the calls keep -/

/-- What every call keeps, with the free blocks and the blocks in use. Each region was
obtained for a request, whose pointer is aligned if the region is. -/
structure Kept (base : ℕ) (s : Arena) (live : List (ℕ × ℕ)) (rets : List ℕ)
    (fs blocks : List Block) : Prop where
  wellformed : Wellformed base s fs blocks
  usable : List.Forall₂ Usable live blocks
  origin : ∀ q ∈ s.regions, ∃ p ∈ rets, (unit ∣ p ↔ unit ∣ q.1)
  aligned : (∀ q ∈ s.regions, unit ∣ q.1) → ∀ p ∈ rets, unit ∣ p

theorem unitsFor_lt {nbytes : ℕ} (h : nbytes < 2 ^ 31 - 2 ^ 16) : unitsFor nbytes < 2 ^ 28 := by
  simp only [unitsFor, unit]
  omega

theorem usable_unitsFor {nbytes : ℕ} (h : nbytes < 2 ^ 31 - 2 ^ 16) (q : ℕ) :
    Usable (q + unit, nbytes) (q, unitsFor nbytes) := by
  refine ⟨rfl, ?_⟩
  simp only [unitsFor, unit]
  omega

theorem exists_erase_of_forall₂ {α β : Type} [BEq α] [LawfulBEq α] [BEq β] [LawfulBEq β]
    {R : α → β → Prop} {a : α} {l : List α} {l' : List β} (h : List.Forall₂ R l l') (ha : a ∈ l) :
    ∃ b ∈ l', R a b ∧ ∃ m, m.Perm (l'.erase b) ∧ List.Forall₂ R (l.erase a) m := by
  induction h with
  | nil => cases ha
  | @cons x y l l' hxy h ih =>
    by_cases hx : x = a
    · subst hx
      exact ⟨y, List.mem_cons_self, hxy, l', by simp, by simpa using h⟩
    · obtain ⟨b, hb, hab, m, hm, hrest⟩ := ih ((List.mem_cons.mp ha).resolve_left (Ne.symm hx))
      refine ⟨b, List.mem_cons_of_mem _ hb, hab, y :: m, ?_, ?_⟩
      · by_cases hy : y = b
        · subst hy
          rw [List.erase_cons_head]
          exact (hm.cons y).trans (List.perm_cons_erase hb).symm
        · rw [List.erase_cons_tail (by simpa using hy)]
          exact hm.cons y
      · rw [List.erase_cons_tail (by simpa using hx)]
        exact .cons hxy hrest

theorem Consistent.perm {blocks' : List Block} (h : Consistent base s fs blocks)
    (hperm : blocks.Perm blocks') : Consistent base s fs blocks' := by
  refine ⟨h.base_pos, h.freep, h.ring, h.base_size, fun b hb => ?_, h.apart, h.top, h.stacked,
    fun x => ?_⟩
  · exact h.size b ((hperm.append_left fs).mem_iff.mpr hb)
  · rw [← h.tiles x, covers, covers, covers, (hperm.map _).sum_eq]

/-- What a program writes is not where a header is. -/
theorem Consistent.store {mem : ℕ → Header} (hs : Consistent base s fs blocks)
    (hmem : ∀ a, mem a ≠ s.mem a → ∃ d ∈ blocks, d.1 < a ∧ a < d.1 + unit * d.2) :
    Consistent base ⟨mem, s.freep, s.top, s.gaps, s.regions, s.calls⟩ fs blocks := by
  have hkeep : ∀ a, (∀ d ∈ blocks, a ≤ d.1 ∨ d.1 + unit * d.2 ≤ a) → mem a = s.mem a := by
    intro a ha
    by_contra hne
    obtain ⟨d, hd, hlow, hhigh⟩ := hmem a hne
    have := ha d hd
    omega
  have hbase : mem base = s.mem base := by
    refine hkeep base fun d hd => .inl ?_
    have := (hs.bounds (List.mem_append_right fs hd)).1
    omega
  have hblock : ∀ b ∈ fs ++ blocks, mem b.1 = s.mem b.1 := by
    intro b hb
    refine hkeep b.1 fun d hd => ?_
    by_cases heq : b = d
    · exact .inl (by rw [heq])
    · have hdisj : Disjoint b d :=
        hs.partition.disjoint.forall hb (List.mem_append_right fs hd) heq
      have := (hs.size b hb).2
      rw [Disjoint, unit] at *
      omega
  refine ⟨hs.base_pos, hs.freep, hs.ring.congr fun y hy => ?_, ?_, fun b hb => ?_, hs.apart, hs.top,
    hs.stacked, hs.tiles⟩
  · obtain rfl | hy := List.mem_cons.mp hy
    · exact congrArg Header.ptr hbase
    · obtain ⟨b, hb, rfl⟩ := List.mem_map.mp hy
      exact congrArg Header.ptr (hblock b (List.mem_append_left blocks hb))
  · exact (congrArg Header.size hbase).trans hs.base_size
  · simpa only [hblock b hb] using hs.size b hb

namespace Kept

/-- The block that `malloc` returns. -/
theorem malloc_block {s' : Arena} {fuel nbytes p : ℕ} (h : Kept base s live rets fs blocks)
    (hn : nbytes < 2 ^ 31 - 2 ^ 16) (hrun : malloc base fuel nbytes s = .ok (some p, s')) :
    ∃ q fs', p = q + unit ∧ Consistent base s' fs' ((q, unitsFor nbytes) :: blocks) ∧
      (s'.regions = s.regions ∨ ∃ start len, s'.regions = (start, len) :: s.regions ∧
        (unit ∣ q ↔ unit ∣ start)) := by
  have hspec := malloc_spec h.wellformed (unitsFor_lt hn)
    (show 2 * fs.length + 2 < max fuel (2 * fs.length + 3) by omega)
  rw [malloc_mono (le_max_left ..) hrun] at hspec
  generalize hout : (Except.ok (some p, s') : Except Stop (Option ℕ × Arena)) = out at hspec
  cases hspec with
  | refused => cases hout
  | @taken q _ fs' hs' hregions =>
    cases hout
    exact ⟨q, fs', rfl, hs', .inl hregions⟩
  | @extended q _ fs' start len hs' hregions _ hiff =>
    cases hout
    exact ⟨q, fs', rfl, hs', .inr ⟨start, len, hregions, hiff⟩⟩

theorem malloc {s' : Arena} {fuel nbytes p : ℕ} (h : Kept base s live rets fs blocks)
    (hn : nbytes < 2 ^ 31 - 2 ^ 16) (hrun : malloc base fuel nbytes s = .ok (some p, s')) :
    ∃ fs' blocks', Kept base s' ((p, nbytes) :: live) (p :: rets) fs' blocks' := by
  obtain ⟨q, fs', rfl, hs', hregions⟩ := h.malloc_block hn hrun
  refine ⟨fs', _, .inr hs', .cons (usable_unitsFor hn q) h.usable, fun g hg => ?_, fun hall p hp => ?_⟩
  · have hold : ∀ g ∈ s.regions, ∃ p ∈ (q + unit) :: rets, (unit ∣ p ↔ unit ∣ g.1) := by
      intro g hg
      obtain ⟨p, hp, hiff⟩ := h.origin g hg
      exact ⟨p, List.mem_cons_of_mem _ hp, hiff⟩
    obtain hregions | ⟨start, len, hregions, hiff⟩ := hregions
    · exact hold g (hregions ▸ hg)
    · rw [hregions] at hg
      obtain rfl | hg := List.mem_cons.mp hg
      · exact ⟨q + unit, List.mem_cons_self, by rw [← hiff, Nat.dvd_add_left dvd_rfl]⟩
      · exact hold g hg
  · have hsub : ∀ g ∈ s.regions, g ∈ s'.regions := by
      intro g hg
      obtain hregions | ⟨start, len, hregions, -⟩ := hregions
      · rwa [hregions]
      · rw [hregions]
        exact List.mem_cons_of_mem _ hg
    obtain rfl | hp := List.mem_cons.mp hp
    · exact (hs'.aligned hall (b := (q, unitsFor nbytes)) (by simp)).add dvd_rfl
    · exact h.aligned (fun g hg => hall g (hsub g hg)) p hp

theorem refused {s' : Arena} {fuel nbytes : ℕ} (h : Kept base s live rets fs blocks)
    (hn : nbytes < 2 ^ 31 - 2 ^ 16) (hrun : Libc.malloc base fuel nbytes s = .ok (none, s')) :
    Kept base s' live rets fs blocks := by
  have hspec := malloc_spec h.wellformed (unitsFor_lt hn)
    (show 2 * fs.length + 2 < max fuel (2 * fs.length + 3) by omega)
  rw [malloc_mono (le_max_left ..) hrun] at hspec
  cases hspec with
  | refused hs' hregions =>
    exact ⟨.inr hs', h.usable, hregions ▸ h.origin, hregions ▸ h.aligned⟩

theorem consistent (h : Kept base s live rets fs blocks) {p : ℕ × ℕ} (hp : p ∈ live) :
    Consistent base s fs blocks := by
  obtain ⟨-, -, -, -, -, rfl⟩ | hs := h.wellformed
  · rw [List.forall₂_nil_right_iff.mp h.usable] at hp
    cases hp
  · exact hs

theorem free {s' : Arena} {fuel : ℕ} {p : ℕ × ℕ} (h : Kept base s live rets fs blocks)
    (hp : p ∈ live) (hrun : free fuel p.1 s = .ok (⟨⟩, s')) :
    ∃ fs' blocks', Kept base s' (live.erase p) rets fs' blocks' := by
  obtain ⟨b, hb, hpb, m, hm, husable⟩ := exists_erase_of_forall₂ h.usable hp
  obtain ⟨t, fs', hfree, ht, hregions, -⟩ := free_spec (h.consistent hp) hb
    (show fs.length + 1 < max fuel (fs.length + 2) by omega)
  rw [← hpb.1, free_mono (le_max_left ..) hrun] at hfree
  cases hfree
  exact ⟨fs', m, .inr (ht.perm hm.symm), husable, hregions ▸ h.origin, hregions ▸ h.aligned⟩

theorem store {mem : ℕ → Header} (h : Kept base s live rets fs blocks)
    (hmem : ∀ a, mem a ≠ s.mem a → ∃ p ∈ live, p.1 < a + unit ∧ a < p.1 + p.2) :
    Kept base ⟨mem, s.freep, s.top, s.gaps, s.regions, s.calls⟩ live rets fs blocks := by
  refine ⟨h.wellformed.imp_right fun hs => hs.store fun a ha => ?_, h.usable, h.origin, h.aligned⟩
  obtain ⟨p, hp, hlow, hhigh⟩ := hmem a ha
  obtain ⟨d, hd, hpd, -⟩ := exists_erase_of_forall₂ h.usable hp
  rw [Usable] at hpd
  exact ⟨d, hd, by omega, by omega⟩

end Kept

theorem Reach.kept (h : Reach base s live rets) : ∃ fs blocks, Kept base s live rets fs blocks := by
  induction h with
  | init hbase htop hfreep hregions =>
    exact ⟨[], [], .inl ⟨hbase, htop, hfreep, hregions, rfl, rfl⟩, .nil, by simp [hregions], by simp⟩
  | malloc _ hn hrun ih =>
    obtain ⟨fs, blocks, h⟩ := ih
    exact h.malloc hn hrun
  | refused _ hn hrun ih =>
    obtain ⟨fs, blocks, h⟩ := ih
    exact ⟨fs, blocks, h.refused hn hrun⟩
  | free _ hp hrun ih =>
    obtain ⟨fs, blocks, h⟩ := ih
    exact h.free hp hrun
  | store _ hmem ih =>
    obtain ⟨fs, blocks, h⟩ := ih
    exact ⟨fs, blocks, h.store hmem⟩

theorem Kept.sound (h : Kept base s live rets fs blocks) : Sound base s live := by
  obtain ⟨-, -, hfreep, hregions, -, rfl⟩ | hs := h.wellformed
  · exact .inl ⟨hfreep, hregions, List.forall₂_nil_right_iff.mp h.usable⟩
  · exact .inr ⟨fs, blocks, hs.partition, h.usable⟩

theorem Kept.terminates (h : Kept base s live rets fs blocks) : Terminates base s live := by
  refine ⟨fun nbytes hn => ?_, fun p hp => ?_⟩
  · have hspec := malloc_spec h.wellformed (unitsFor_lt hn)
      (show 2 * fs.length + 2 < 2 * fs.length + 3 by omega)
    generalize hout : Libc.malloc base (2 * fs.length + 3) nbytes s = out at hspec
    cases hspec with
    | refused => exact ⟨_, _, _, hout⟩
    | taken => exact ⟨_, _, _, hout⟩
    | extended => exact ⟨_, _, _, hout⟩
  · obtain ⟨b, hb, hpb, -⟩ := exists_erase_of_forall₂ h.usable hp
    obtain ⟨t, _, hfree, -⟩ := free_spec (h.consistent hp) hb (Nat.lt_succ_self _)
    exact ⟨_, t, by rw [hpb.1, hfree]⟩

/-- The memory of a program that ends at `top`, with all that follows to be had. -/
def fresh (top : ℕ) : Arena := ⟨fun _ => ⟨0, 0⟩, 0, top, fun _ => some 0, [], []⟩

theorem malloc_fresh {top p : ℕ} {s : Arena} (htop : 16 ≤ top)
    (hrun : malloc 8 5 1 (fresh top) = .ok (some p, s)) : Reach 8 s [(p, 1)] [p] :=
  .malloc (Reach.init (s := fresh top) (by decide) htop rfl rfl) (by decide) hrun

end Lainos.Libc
