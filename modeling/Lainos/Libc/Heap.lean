import Lainos.Libc.FreeList

/-!
# The heap over all calls

`malloc` takes a free block, or the tail of one, and asks for more memory when none is
large enough. In every state that calls of `malloc` and `free` lead to, free blocks and
blocks in use tile the memory.
-/

namespace Lainos.Libc

open Library

variable {base n x prevp : ℕ} {s s' : Arena} {fs live l r : List Block} {b c : Block}

namespace Consistent

/-- The free block that `prevp` is linked to. -/
theorem exists_next (h : Consistent base s fs live) (hprev : prevp ∈ base :: fs.map Prod.fst)
    (hne : (s.mem prevp).ptr ≠ base) : ∃ l c r X, fs = l ++ c :: r ∧ c.1 = (s.mem prevp).ptr ∧
      base :: l.map Prod.fst = X ++ [prevp] := by
  obtain ⟨X, Y, hXY⟩ := List.append_of_mem hprev
  have hring := h.ring
  rw [hXY] at hring
  have hpath : Path (fun a => (s.mem a).ptr) prevp (Y ++ X) prevp := hring.rotate
  cases Y with
  | nil =>
    -- the last block is linked to base
    exfalso
    cases X with
    | nil =>
      have hlink : (s.mem prevp).ptr = prevp := by simpa using hpath
      have hbase : base = prevp := (List.cons.inj hXY).1
      exact hne (by rw [hlink, hbase])
    | cons z X =>
      have hlink : (s.mem prevp).ptr = z := (path_cons.mp hpath).1
      have hbase : base = z := (List.cons.inj hXY).1
      exact hne (by rw [hlink, hbase])
  | cons y Y =>
    have hlink : (s.mem prevp).ptr = y := (path_cons.mp hpath).1
    obtain ⟨T, hT⟩ : ∃ T, X ++ [prevp] = base :: T := by
      cases X with
      | nil => exact ⟨[], by rw [(List.cons.inj hXY).1]; rfl⟩
      | cons z X => exact ⟨X ++ [prevp], by rw [(List.cons.inj hXY).1]; rfl⟩
    have hmap : fs.map Prod.fst = T ++ y :: Y := by
      have : base :: fs.map Prod.fst = (X ++ [prevp]) ++ y :: Y := by simpa using hXY
      rw [hT, List.cons_append] at this
      exact (List.cons.inj this).2
    obtain ⟨l, m, rfl, rfl, hm⟩ := List.map_eq_append_iff.mp hmap
    obtain ⟨c, r, rfl, hc, -⟩ := List.map_eq_cons_iff.mp hm
    exact ⟨l, c, r, X, rfl, hc.trans hlink.symm, hT.symm⟩

/-- A free block of the size wanted is taken out of the list. -/
theorem unlink {X : List ℕ} (h : Consistent base s (l ++ c :: r) live)
    (hX : base :: l.map Prod.fst = X ++ [prevp]) :
    Consistent base ((s.setPtr prevp (s.mem c.1).ptr).setFreep prevp) (l ++ r) (c :: live) := by
  have hmap : base :: (l ++ c :: r).map Prod.fst = X ++ prevp :: c.1 :: r.map Prod.fst := by
    rw [List.map_append, ← List.cons_append, hX]
    simp
  have hmap' : base :: (l ++ r).map Prod.fst = X ++ prevp :: r.map Prod.fst := by
    rw [List.map_append, ← List.cons_append, hX]
    simp
  have hsize : ∀ y, (((s.setPtr prevp (s.mem c.1).ptr).setFreep prevp).mem y).size =
      (s.mem y).size := by
    intro y
    by_cases hy : y = prevp <;> simp [hy]
  have hnodup : (X ++ prevp :: c.1 :: r.map Prod.fst).Nodup := by
    rw [← hmap]
    exact h.sorted.imp fun hlt => hlt.ne
  refine ⟨h.base_pos, ?_, ?_, ?_, fun d hd => ?_, ?_, h.top, h.stacked, fun x => ?_⟩
  · rw [hmap']
    simp
  · have hring := h.ring
    rw [hmap] at hring
    rw [hmap']
    refine Circular.unrotate (Circular.remove hring.rotate (by simp) fun y hy => ?_)
    have hyp : y ≠ prevp := by
      rintro rfl
      simp only [List.nodup_append, List.nodup_cons, List.mem_cons] at hnodup
      obtain ⟨-, ⟨hnot, -⟩, hdisj⟩ := hnodup
      obtain hy | hy := List.mem_append.mp hy
      · exact hnot (.inr hy)
      · exact hdisj y hy y (.inl rfl) rfl
    simp [hyp]
  · rw [hsize, h.base_size]
  · rw [hsize]
    refine h.size d ?_
    simp only [List.mem_append, List.mem_cons] at hd ⊢
    tauto
  · exact h.apart.sublist (List.Sublist.append_left (List.sublist_cons_self c r) l)
  · have := h.tiles x
    simp only [covers_append, covers_cons, Arena.setFreep_regions, Arena.setPtr_regions] at this ⊢
    omega

/-- The last units of a larger free block are taken. -/
theorem cut (h : Consistent base s (l ++ c :: r) live)
    (hprev : prevp ∈ base :: (l ++ c :: r).map Prod.fst) (hn : 0 < n) (hlt : n < c.2) :
    Consistent base (((s.setSize c.1 (c.2 - n)).setSize (c.1 + unit * (c.2 - n)) n).setFreep prevp)
      (l ++ (c.1, c.2 - n) :: r) ((c.1 + unit * (c.2 - n), n) :: live) := by
  obtain ⟨q, hq⟩ : ∃ q, q = c.1 + unit * (c.2 - n) := ⟨_, rfl⟩
  have hqc : q ≠ c.1 := by
    rw [hq, unit]
    omega
  have hapart := List.pairwise_append.mp h.apart
  have hright := List.pairwise_cons.mp hapart.2.1
  have hcbase := (h.bounds (b := c) (by simp)).1
  have hother : ∀ d ∈ l ++ r ++ live, d.1 ≠ c.1 ∧ d.1 ≠ q := by
    intro d hd
    have hd0 : 0 < d.2 := by
      refine (h.size d ?_).2
      simp only [List.mem_append, List.mem_cons] at hd ⊢
      tauto
    have hdisj : d.1 + unit * d.2 ≤ c.1 ∨ c.1 + unit * c.2 ≤ d.1 := by
      simp only [List.mem_append] at hd
      obtain (hd | hd) | hd := hd
      · exact .inl (hapart.2.2 d hd c List.mem_cons_self).le
      · exact .inr (hright.1 d hd).le
      · exact (h.disjoint (b := c) (by simp) hd).symm
    rw [unit] at *
    omega
  rw [← hq]
  have hsame : ∀ y, y ≠ c.1 → y ≠ q → (((s.setSize c.1 (c.2 - n)).setSize q n).mem y).size =
      (s.mem y).size := fun y hyc hyq => by simp [hyc, hyq]
  have hptr : ∀ y, (((s.setSize c.1 (c.2 - n)).setSize q n).mem y).ptr = (s.mem y).ptr := by
    intro y
    by_cases hyq : y = q
    · simp [hyq, hqc]
    · by_cases hyc : y = c.1 <;> simp [hyc, hyq, hqc.symm]
  have hmap : base :: (l ++ (c.1, c.2 - n) :: r).map Prod.fst =
      base :: (l ++ c :: r).map Prod.fst := by simp
  refine ⟨h.base_pos, ?_, ?_, ?_, fun d hd => ?_, ?_, h.top, h.stacked, fun x => ?_⟩
  · rw [hmap]
    exact hprev
  · rw [hmap]
    exact h.ring.congr fun y _ => hptr y
  · refine (hsame base ?_ ?_).trans h.base_size <;> rw [unit] at * <;> omega
  · have hcases : d = (c.1, c.2 - n) ∨ d = (q, n) ∨ d ∈ l ++ r ++ live := by
      simp only [List.mem_append, List.mem_cons] at hd ⊢
      tauto
    obtain rfl | rfl | hd := hcases
    · exact ⟨by simp [hqc.symm], by simp; omega⟩
    · exact ⟨by simp, hn⟩
    · rw [Arena.setFreep_mem, hsame d.1 (hother d hd).1 (hother d hd).2]
      refine h.size d ?_
      simp only [List.mem_append, List.mem_cons] at hd ⊢
      tauto
  · refine List.pairwise_append.mpr ⟨hapart.1, List.pairwise_cons.mpr ⟨fun d hd => ?_, hright.2⟩,
      fun d hd e he => ?_⟩
    · have := hright.1 d hd
      rw [unit] at *
      simp only
      omega
    · obtain rfl | he := List.mem_cons.mp he
      · exact hapart.2.2 d hd c List.mem_cons_self
      · exact hapart.2.2 d hd e (List.mem_cons_of_mem _ he)
  · have htile := h.tiles x
    have hsplit := inside_add c.1 (unit * (c.2 - n)) (unit * n) x
    rw [← Nat.mul_add, Nat.sub_add_cancel hlt.le, ← hq] at hsplit
    simp only [covers_append, covers_cons, Arena.setFreep_regions, Arena.setSize_regions]
      at htile ⊢
    omega

end Consistent

/-! ## More memory -/

/-- A fresh region as a block in use. -/
theorem Consistent.grant {start nu : ℕ} (h : Consistent base s fs live) (hstart : s.top ≤ start)
    (hnu : 0 < nu) : Consistent base ((s.granted start (nu * unit)).setSize start nu) fs
      ((start, nu) :: live) := by
  have hbelow : ∀ b ∈ fs ++ live, b.1 ≠ start := by
    intro b hb
    have hb0 := (h.size b hb).2
    have := (h.bounds hb).2
    rw [unit] at this
    omega
  have htop := h.top
  have hptr : ∀ y, (((s.granted start (nu * unit)).setSize start nu).mem y).ptr = (s.mem y).ptr := by
    intro y
    by_cases hy : y = start <;> simp [hy]
  refine ⟨h.base_pos, h.freep, h.ring.congr fun y _ => hptr y, ?_, fun b hb => ?_, h.apart, ?_, ?_,
    fun x => ?_⟩
  · have hne : base ≠ start := by
      rw [unit] at htop
      omega
    simpa [hne] using h.base_size
  · have hcases : b = (start, nu) ∨ b ∈ fs ++ live := by
      simp only [List.mem_append, List.mem_cons] at hb ⊢
      tauto
    obtain rfl | hb := hcases
    · exact ⟨by simp, hnu⟩
    · simpa [hbelow b hb] using h.size b hb
  · simp only [Arena.setSize_top, Arena.granted_top]
    omega
  · obtain ⟨hbounds, hpair⟩ := h.stacked
    simp only [Stacked, Arena.setSize_top, Arena.granted_top, Arena.setSize_regions,
      Arena.granted_regions, List.forall_mem_cons, List.pairwise_cons]
    refine ⟨⟨⟨by omega, le_rfl⟩, fun q hq => ?_⟩, fun q hq => ?_, hpair⟩
    · have := hbounds q hq
      omega
    · have := hbounds q hq
      omega
  · have := h.tiles x
    simp only [covers_cons, Arena.setSize_regions, Arena.granted_regions, obtained, List.map_cons,
      List.sum_cons, Nat.mul_comm nu unit] at this ⊢
    omega

theorem Consistent.refuse (h : Consistent base s fs live) : Consistent base s.refused fs live :=
  ⟨h.base_pos, h.freep, h.ring, h.base_size, h.size, h.apart, h.top, h.stacked, h.tiles⟩

theorem Consistent.called (h : Consistent base s fs live) (i : ℤ) (n : ℕ) :
    Consistent base (s.called i n) fs live :=
  ⟨h.base_pos, h.freep, h.ring, h.base_size, h.size, h.apart, h.top, h.stacked, h.tiles⟩

theorem sbrk_cases (s : Arena) (hn : n < 2 ^ 31) : sbrk n s = .ok (none, s.refused) ∨
    ∃ start ≥ s.top, sbrk n s = .ok (some start, s.granted start n) := by
  rw [sbrk, Exec.bind_of_ok Exec.get_run]
  cases s.gaps 0 with
  | none => exact .inl rfl
  | some gap =>
    dsimp only
    rw [if_pos hn]
    by_cases hfits : s.top + gap + n < KERNBASE
    · exact .inr ⟨s.top + gap, Nat.le_add_right .., by rw [if_pos hfits]; rfl⟩
    · exact .inl (by rw [if_neg hfits]; rfl)

/-- Every block that was not free before ends where the new region does. -/
theorem morecore_spec {fuel : ℕ} (h : Consistent base s fs live) (hn : n < 2 ^ 28)
    (hfuel : fs.length + 1 < fuel) :
    (∃ s', morecore fuel n s = .ok (none, s') ∧ Consistent base s' fs live ∧
      s'.regions = s.regions) ∨
    ∃ s' fs' q, morecore fuel n s = .ok (some s'.freep, s') ∧ Consistent base s' fs' live ∧
      s'.regions = q :: s.regions ∧ unit ∣ q.2 ∧ fs'.length ≤ fs.length + 1 ∧ (∃ c ∈ fs', n ≤ c.2) ∧
      ∀ c ∈ fs', c ∈ fs ∨ c.1 + unit * c.2 = q.1 + q.2 := by
  obtain ⟨nu, hnu⟩ : ∃ nu, nu = if n < 4096 then 4096 else n := ⟨_, rfl⟩
  have hsize : n ≤ nu ∧ 0 < nu ∧ nu * unit < 2 ^ 31 := by
    rw [hnu, unit]
    split_ifs <;> omega
  have hmod : nu * unit % 2 ^ 32 = nu * unit := Nat.mod_eq_of_lt (by omega)
  rw [morecore, ← hnu, hmod, Exec.bind_of_ok (Exec.modify_run _)]
  have h := h.called (toInt (nu * unit)) (nu * unit)
  obtain hno | ⟨start, hstart, hyes⟩ := sbrk_cases (s.called (toInt (nu * unit)) (nu * unit)) hsize.2.2
  · exact .inl ⟨_, by rw [Exec.bind_of_ok hno]; rfl, h.refuse, rfl⟩
  · have hgrant := h.grant hstart hsize.2.1
    obtain ⟨s', fs', hfree, hcons, hregions, htop, hlen, ⟨c, hc, hfits⟩, hends⟩ :=
      free_spec hgrant List.mem_cons_self hfuel
    rw [List.erase_cons_head] at hcons
    refine .inr ⟨s', fs', (start, nu * unit), ?_, hcons, hregions, Nat.dvd_mul_left .., hlen,
      ⟨c, hc, hsize.1.trans hfits⟩, fun d hd => (hends d hd).imp_right fun hend => ?_⟩
    · rw [Exec.bind_of_ok hyes]
      simp only
      rw [Exec.bind_of_ok (Exec.modify_run _), Exec.bind_of_ok hfree, Exec.bind_of_ok Exec.get_run]
      rfl
    · have hbound := (hcons.bounds (List.mem_append_left live hd)).2
      rw [htop, Arena.setSize_top, Arena.granted_top] at hbound
      rw [Nat.mul_comm] at hend
      exact le_antisymm hbound hend

/-! ## The search for a block -/

/-- `n` units are taken from the end of a free block. -/
def Takes (base n : ℕ) (s : Arena) (fs live : List Block) (out : Except Stop (Option ℕ × Arena)) :
    Prop :=
  ∃ q s' fs', out = .ok (some (q + unit), s') ∧ Consistent base s' fs' ((q, n) :: live) ∧
    s'.regions = s.regions ∧ ∃ c ∈ fs, n ≤ c.2 ∧ q + unit * n = c.1 + unit * c.2

theorem search_takes (fuel : ℕ) (h : Consistent base s fs live)
    (hprev : prevp ∈ base :: fs.map Prod.fst) (hn : 0 < n)
    (hfits : n ≤ (s.mem (s.mem prevp).ptr).size) :
    Takes base n s fs live (search n (fuel + 1) prevp (s.mem prevp).ptr s) := by
  have hne : (s.mem prevp).ptr ≠ base := by
    intro heq
    rw [heq, h.base_size] at hfits
    omega
  obtain ⟨l, c, r, X, rfl, hc, hX⟩ := h.exists_next hprev hne
  have hsize : (s.mem c.1).size = c.2 := (h.size c (by simp)).1
  rw [← hc, hsize] at hfits
  rw [search, Exec.bind_of_ok Exec.get_run, ← hc, hsize, if_pos hfits]
  by_cases heq : c.2 = n
  · subst heq
    rw [if_pos rfl]
    exact ⟨c.1, _, l ++ r, rfl, h.unlink hX, rfl, c, by simp, le_rfl, rfl⟩
  · rw [if_neg heq]
    refine ⟨c.1 + unit * (c.2 - n), _, _, rfl, h.cut hprev hn (by omega), rfl, c, by simp, hfits, ?_⟩
    rw [unit]
    omega

/-- What the loop does when no block was large enough. -/
def extend (n fuel : ℕ) : HAct (Option ℕ) := do
  match ← morecore fuel n with
  | none => return none
  | some p => do
    let s ← get
    search n fuel p (s.mem p).ptr

/-- The loop looks at the blocks one after the other, at the one that `freep` points to
last. -/
theorem search_scan {Z : List ℕ} {fuel : ℕ} (h : Consistent base s fs live) (hn : 0 < n)
    (hpath : Path (fun a => (s.mem a).ptr) prevp Z s.freep)
    (hmem : ∀ y ∈ prevp :: Z, y ∈ base :: fs.map Prod.fst) (hfreep : s.freep ∉ Z)
    (hfuel : Z.length < fuel) :
    Takes base n s fs live (search n fuel prevp (s.mem prevp).ptr s) ∨
    ((∀ y ∈ Z ++ [s.freep], (s.mem y).size < n) ∧
      search n fuel prevp (s.mem prevp).ptr s = extend n (fuel - Z.length - 1) s) := by
  obtain ⟨fuel, rfl⟩ : ∃ k, fuel = k + 1 := ⟨fuel - 1, by omega⟩
  induction Z generalizing prevp fuel with
  | nil =>
    have hlink : (s.mem prevp).ptr = s.freep := path_nil.mp hpath
    by_cases hfits : n ≤ (s.mem (s.mem prevp).ptr).size
    · exact .inl (search_takes fuel h (hmem prevp (by simp)) hn hfits)
    · refine .inr ⟨by simpa [hlink] using hfits, ?_⟩
      rw [search, Exec.bind_of_ok Exec.get_run, if_neg hfits, if_pos hlink]
      rfl
  | cons z Z ih =>
    obtain ⟨hlink, hpath⟩ := path_cons.mp hpath
    by_cases hfits : n ≤ (s.mem (s.mem prevp).ptr).size
    · exact .inl (search_takes fuel h (hmem prevp (by simp)) hn hfits)
    · obtain ⟨fuel, rfl⟩ : ∃ k, fuel = k + 1 := ⟨fuel - 1, by simp at hfuel; omega⟩
      have hlink : (s.mem prevp).ptr = z := hlink
      have hz : z ≠ s.freep := fun heq => hfreep (by simp [heq])
      have hstep : search n (fuel + 1 + 1) prevp (s.mem prevp).ptr s =
          search n (fuel + 1) z (s.mem z).ptr s := by
        rw [search, Exec.bind_of_ok Exec.get_run, if_neg hfits, hlink, if_neg hz]
      rw [hstep]
      refine (ih hpath (fun y hy => hmem y (List.mem_cons_of_mem _ hy))
        (fun hz' => hfreep (List.mem_cons_of_mem _ hz')) fuel (by simpa using hfuel)).imp_right ?_
      rintro ⟨hsmall, hrun⟩
      refine ⟨fun y hy => ?_, ?_⟩
      · obtain rfl | hy := List.mem_cons.mp hy
        · rw [hlink] at hfits
          omega
        · exact hsmall y hy
      · rw [hrun, List.length_cons]
        congr 1
        omega

theorem search_freep {fuel : ℕ} (h : Consistent base s fs live) (hn : 0 < n)
    (hfuel : fs.length < fuel) :
    Takes base n s fs live (search n fuel s.freep (s.mem s.freep).ptr s) ∨
    ((∀ c ∈ fs, c.2 < n) ∧
      search n fuel s.freep (s.mem s.freep).ptr s = extend n (fuel - fs.length - 1) s) := by
  obtain ⟨X, Y, hXY⟩ := List.append_of_mem h.freep
  have hperm : (base :: fs.map Prod.fst).Perm (s.freep :: (Y ++ X)) := by
    rw [hXY]
    exact List.perm_append_comm
  have hlen : (Y ++ X).length = fs.length := by simpa using hperm.length_eq.symm
  have hring := h.ring
  rw [hXY] at hring
  have hnodup : (s.freep :: (Y ++ X)).Nodup :=
    hperm.nodup (h.sorted.imp fun hlt => hlt.ne)
  refine (search_scan h hn hring.rotate (fun y hy => hperm.mem_iff.mpr hy)
    (List.nodup_cons.mp hnodup).1 (hlen.trans_lt hfuel)).imp_right ?_
  rintro ⟨hsmall, hrun⟩
  rw [hlen] at hrun
  refine ⟨fun c hc => ?_, hrun⟩
  have hmem : c.1 ∈ s.freep :: (Y ++ X) :=
    hperm.mem_iff.mp (List.mem_cons_of_mem _ (List.mem_map_of_mem hc))
  rw [← (h.size c (List.mem_append_left live hc)).1]
  refine hsmall c.1 ?_
  simp only [List.mem_cons, List.mem_append] at hmem ⊢
  tauto

/-- What a call of `malloc` for `n` units comes to. -/
inductive Result (base n : ℕ) (s : Arena) (fs live : List Block) :
    Except Stop (Option ℕ × Arena) → Prop
  | refused {s' : Arena} : Consistent base s' fs live → s'.regions = s.regions →
      Result base n s fs live (.ok (none, s'))
  | taken {q : ℕ} {s' : Arena} {fs' : List Block} : Consistent base s' fs' ((q, n) :: live) →
      s'.regions = s.regions → Result base n s fs live (.ok (some (q + unit), s'))
  | extended {q : ℕ} {s' : Arena} {fs' : List Block} {start len : ℕ} :
      Consistent base s' fs' ((q, n) :: live) → s'.regions = (start, len) :: s.regions →
      unit ∣ len → (unit ∣ q ↔ unit ∣ start) →
      Result base n s fs live (.ok (some (q + unit), s'))

theorem Result.of_regions {out : Except Stop (Option ℕ × Arena)} (h : Result base n s fs live out)
    (hregions : s.regions = s'.regions) : Result base n s' fs live out := by
  cases h with
  | refused h hr => exact .refused h (hr.trans hregions)
  | taken h hr => exact .taken h (hr.trans hregions)
  | extended h hr hdvd hiff => exact .extended h (hregions ▸ hr) hdvd hiff

theorem extend_spec {fuel : ℕ} (h : Consistent base s fs live) (hn : 0 < n) (hn' : n < 2 ^ 28)
    (hsmall : ∀ c ∈ fs, c.2 < n) (hfuel : fs.length + 1 < fuel) :
    Result base n s fs live (extend n fuel s) := by
  obtain ⟨s', hrun, hs', hregions⟩ | ⟨s', fs', q, hrun, hs', hregions, hdvd, hlen, ⟨c, hc, hfits⟩,
    hends⟩ := morecore_spec h hn' hfuel
  · rw [extend, Exec.bind_of_ok hrun]
    exact .refused hs' hregions
  · rw [extend, Exec.bind_of_ok hrun]
    dsimp only
    rw [Exec.bind_of_ok Exec.get_run]
    obtain ⟨p, s'', fs'', hrun', hs'', hregions', d, hd, hdfits, hp⟩ | ⟨hno, -⟩ :=
      search_freep hs' hn (show fs'.length < fuel by omega)
    · rw [hrun']
      refine .extended hs'' (hregions'.trans hregions) hdvd ?_
      -- only the block with the new region was large enough
      have hend : d.1 + unit * d.2 = q.1 + q.2 := by
        obtain hold | hend := hends d hd
        · exact absurd hdfits (not_le.mpr (hsmall d hold))
        · exact hend
      rw [← Nat.dvd_add_left (Nat.dvd_mul_right unit n), hp, hend, Nat.dvd_add_left hdvd]
    · exact absurd hfits (not_le.mpr (hno c hc))

/-- Before the first call, or with a free list. -/
def Wellformed (base : ℕ) (s : Arena) (fs live : List Block) : Prop :=
  (0 < base ∧ base + unit ≤ s.top ∧ s.freep = 0 ∧ s.regions = [] ∧ fs = [] ∧ live = []) ∨
    Consistent base s fs live

theorem Consistent.freep_pos (h : Consistent base s fs live) : 0 < s.freep := by
  obtain heq | hmem := List.mem_cons.mp h.freep
  · rw [heq]
    exact h.base_pos
  · exact h.base_pos.trans (List.rel_of_pairwise_cons h.sorted hmem)

theorem Consistent.init (hbase : 0 < base) (htop : base + unit ≤ s.top) (hregions : s.regions = []) :
    Consistent base (((s.setPtr base base).setSize base 0).setFreep base) [] [] := by
  refine ⟨hbase, by simp, by simp [Circular], by simp, by simp, .nil, htop, ?_, fun x => ?_⟩
  · simp [Stacked, hregions]
  · simp [obtained, hregions]

/-- The state in which the loop of `malloc` starts. -/
theorem Wellformed.start (h : Wellformed base s fs live) (fuel nbytes : ℕ) :
    ∃ t, Consistent base t fs live ∧ t.top = s.top ∧ t.regions = s.regions ∧ t.calls = s.calls ∧
      malloc base fuel nbytes s = search (unitsFor nbytes) fuel t.freep (t.mem t.freep).ptr t := by
  obtain ⟨hbase, htop, hfreep, hregions, rfl, rfl⟩ | h := h
  · refine ⟨_, Consistent.init hbase htop hregions, rfl, rfl, rfl, ?_⟩
    rw [malloc, Exec.bind_of_ok (Exec.modify_run _), Exec.bind_of_ok Exec.get_run, if_pos hfreep]
  · refine ⟨s, h, rfl, rfl, rfl, ?_⟩
    rw [malloc, Exec.bind_of_ok (Exec.modify_run _), Exec.bind_of_ok Exec.get_run,
      if_neg h.freep_pos.ne']

theorem malloc_spec {fuel nbytes : ℕ} (h : Wellformed base s fs live) (hn : unitsFor nbytes < 2 ^ 28)
    (hfuel : 2 * fs.length + 2 < fuel) :
    Result base (unitsFor nbytes) s fs live (malloc base fuel nbytes s) := by
  have hpos : 0 < unitsFor nbytes := Nat.succ_pos _
  obtain ⟨t, ht, -, hregions, -, hstart⟩ := h.start fuel nbytes
  rw [hstart]
  obtain ⟨q, s', fs', hrun, hs', hregions', -⟩ | ⟨hsmall, hrun⟩ :=
    search_freep ht hpos (show fs.length < fuel by omega)
  · rw [hrun]
    exact .taken hs' (hregions'.trans hregions)
  · rw [hrun]
    exact (extend_spec ht hpos hn hsmall (by omega)).of_regions hregions

end Lainos.Libc
