import Lainos.Libc.Malloc
import Lainos.Library.Circular

/-!
# The free list

A block is the address of its header and its size in units. The free blocks are a circular
list through `base` in order of addresses, and together with the blocks in use they tile
the memory obtained from `sbrk`: each byte of it lies in one of them.
-/

namespace Lainos.Libc

open Library

abbrev Block := ℕ × ℕ

/-- Whether `x` is one of the `n` bytes from `a` on. -/
def inside (a n x : ℕ) : ℕ := if a ≤ x ∧ x < a + n then 1 else 0

/-- In how many of the blocks a byte lies. -/
def covers (l : List Block) (x : ℕ) : ℕ := (l.map fun b => inside b.1 (unit * b.2) x).sum

/-- In how many of the regions a byte lies. -/
def obtained (l : List (ℕ × ℕ)) (x : ℕ) : ℕ := (l.map fun r => inside r.1 r.2 x).sum

variable {base bp n x : ℕ} {s s' : Arena} {fs live l r : List Block} {b c : Block}

theorem inside_eq_one {a n x : ℕ} (h : a ≤ x) (h' : x < a + n) : inside a n x = 1 := if_pos ⟨h, h'⟩

theorem inside_le_one (a n x : ℕ) : inside a n x ≤ 1 := by
  rw [inside]
  split_ifs <;> omega

theorem inside_add (a m n x : ℕ) : inside a (m + n) x = inside a m x + inside (a + m) n x := by
  simp only [inside]
  split_ifs <;> omega

@[simp] theorem covers_nil (x : ℕ) : covers [] x = 0 := rfl

@[simp] theorem covers_cons (b : Block) (l : List Block) (x : ℕ) :
    covers (b :: l) x = inside b.1 (unit * b.2) x + covers l x := by
  simp [covers]

@[simp] theorem covers_append (l l' : List Block) (x : ℕ) :
    covers (l ++ l') x = covers l x + covers l' x := by
  simp [covers]

theorem inside_le_covers (hb : b ∈ l) (x : ℕ) : inside b.1 (unit * b.2) x ≤ covers l x :=
  List.single_le_sum (fun _ _ => Nat.zero_le _) _ (List.mem_map.mpr ⟨b, hb, rfl⟩)

theorem covers_erase (hb : b ∈ l) (x : ℕ) :
    covers l x = inside b.1 (unit * b.2) x + covers (l.erase b) x := by
  rw [← covers_cons, covers, covers]
  exact ((List.perm_cons_erase hb).map _).sum_eq

/-- No byte lies in both blocks. -/
def Disjoint (b c : Block) : Prop := b.1 + unit * b.2 ≤ c.1 ∨ c.1 + unit * c.2 ≤ b.1

instance : Std.Symm Disjoint := ⟨fun _ _ => Or.symm⟩

theorem disjoint_of_inside (hb : 0 < b.2) (hc : 0 < c.2)
    (h : ∀ x, inside b.1 (unit * b.2) x + inside c.1 (unit * c.2) x ≤ 1) : Disjoint b c := by
  rw [Disjoint]
  by_contra hout
  have hone := h (max b.1 c.1)
  rw [inside_eq_one (by omega) (by rw [unit] at *; omega),
    inside_eq_one (by omega) (by rw [unit] at *; omega)] at hone
  omega

/-- The regions lie between `low` and `top`, the last one highest. -/
def Stacked (low top : ℕ) (regions : List (ℕ × ℕ)) : Prop :=
  (∀ q ∈ regions, low ≤ q.1 ∧ q.1 + q.2 ≤ top) ∧ regions.Pairwise fun q q' => q'.1 + q'.2 ≤ q.1

theorem Stacked.obtained_le_one {low top : ℕ} {regions : List (ℕ × ℕ)} (h : Stacked low top regions)
    (x : ℕ) : obtained regions x ≤ 1 := by
  obtain ⟨-, hpair⟩ := h
  induction regions with
  | nil => simp [obtained]
  | cons q regions ih =>
    rw [List.pairwise_cons] at hpair
    have hrest := ih hpair.2
    have hzero : q.1 ≤ x → obtained regions x = 0 := by
      intro hx
      refine List.sum_eq_zero fun y hy => ?_
      obtain ⟨q', hq', rfl⟩ := List.mem_map.mp hy
      have := hpair.1 q' hq'
      exact if_neg (by omega)
    have hcons : obtained (q :: regions) x = inside q.1 q.2 x + obtained regions x := by
      simp [obtained]
    rw [hcons, inside]
    split_ifs with hx
    · rw [hzero hx.1]
    · omega

theorem Stacked.bounds {low top : ℕ} {regions : List (ℕ × ℕ)} (h : Stacked low top regions)
    (hx : 0 < obtained regions x) : low ≤ x ∧ x < top := by
  by_contra hout
  have hzero : obtained regions x = 0 := by
    refine List.sum_eq_zero fun y hy => ?_
    obtain ⟨q, hq, rfl⟩ := List.mem_map.mp hy
    have := h.1 q hq
    exact if_neg (by omega)
  omega

/-- The state of the allocator, with the free blocks `fs` and the blocks in use `live`. -/
structure Consistent (base : ℕ) (s : Arena) (fs live : List Block) : Prop where
  base_pos : 0 < base
  freep : s.freep ∈ base :: fs.map Prod.fst
  ring : Circular (fun a => (s.mem a).ptr) (base :: fs.map Prod.fst)
  base_size : (s.mem base).size = 0
  size : ∀ b ∈ fs ++ live, (s.mem b.1).size = b.2 ∧ 0 < b.2
  apart : fs.Pairwise fun b c => b.1 + unit * b.2 < c.1
  top : base + unit ≤ s.top
  stacked : Stacked (base + unit) s.top s.regions
  tiles : ∀ x, covers fs x + covers live x = obtained s.regions x

namespace Consistent

theorem bounds (h : Consistent base s fs live) (hb : b ∈ fs ++ live) :
    base + unit ≤ b.1 ∧ b.1 + unit * b.2 ≤ s.top := by
  have hpos := (h.size b hb).2
  have hmem : ∀ x, b.1 ≤ x → x < b.1 + unit * b.2 → base + unit ≤ x ∧ x < s.top := by
    intro x hx hx'
    refine h.stacked.bounds ?_
    have hcovers := inside_le_covers hb x
    rw [inside_eq_one hx hx', covers_append, h.tiles] at hcovers
    exact hcovers
  have hfirst := hmem b.1 le_rfl (by rw [unit]; omega)
  have hlast := hmem (b.1 + unit * b.2 - 1) (by rw [unit]; omega) (by rw [unit]; omega)
  rw [unit] at *
  omega

theorem covers_le_one (h : Consistent base s fs live) (x : ℕ) : covers fs x + covers live x ≤ 1 :=
  (h.tiles x).trans_le (h.stacked.obtained_le_one x)

theorem disjoint (h : Consistent base s fs live) (hb : b ∈ fs) (hc : c ∈ live) : Disjoint b c := by
  refine disjoint_of_inside (h.size b (List.mem_append_left _ hb)).2
    (h.size c (List.mem_append_right _ hc)).2 fun x => ?_
  exact (Nat.add_le_add (inside_le_covers hb x) (inside_le_covers hc x)).trans (h.covers_le_one x)

/-- The free blocks below and above a block in use. -/
theorem exists_split (h : Consistent base s fs live) (hc : c ∈ live) : ∃ l r, fs = l ++ r ∧
    (∀ b ∈ l, b.1 + unit * b.2 ≤ c.1) ∧ ∀ b ∈ r, c.1 + unit * c.2 ≤ b.1 := by
  have hdisj : ∀ b ∈ fs, Disjoint b c := fun b hb => h.disjoint hb hc
  have hapart := h.apart
  clear h
  induction fs with
  | nil => exact ⟨[], [], rfl, by simp, by simp⟩
  | cons b fs ih =>
    rw [List.pairwise_cons] at hapart
    obtain hb | hb := hdisj b List.mem_cons_self
    · obtain ⟨l, r, rfl, hl, hr⟩ := ih (fun b' hb' => hdisj b' (List.mem_cons_of_mem _ hb')) hapart.2
      refine ⟨b :: l, r, rfl, fun b' hb' => ?_, hr⟩
      obtain rfl | hb' := List.mem_cons.mp hb'
      · exact hb
      · exact hl b' hb'
    · refine ⟨[], b :: fs, rfl, by simp, fun b' hb' => ?_⟩
      obtain rfl | hb' := List.mem_cons.mp hb'
      · exact hb
      · have := hapart.1 b' hb'
        omega

end Consistent

/-! ## Finding the place of a block -/

theorem getLastD_append_cons {α : Type} (l l' : List α) (a b : α) :
    (l ++ b :: l').getLastD a = l'.getLastD b := by
  induction l generalizing a with
  | nil => exact List.getLastD_cons
  | cons c l ih => rw [List.cons_append, List.getLastD_cons, ih]

section Find

variable {a fuel : ℕ} {ls rs : List ℕ}

theorem findGap_succ (fuel p : ℕ) : findGap bp (fuel + 1) p s =
    if p < bp ∧ bp < (s.mem p).ptr then .ok (p, s)
    else if (s.mem p).ptr ≤ p ∧ (p < bp ∨ bp < (s.mem p).ptr) then .ok (p, s)
    else findGap bp fuel (s.mem p).ptr s := by
  rw [findGap, Exec.bind_of_ok Exec.get_run]
  split_ifs <;> rfl

/-- From a block below `bp` the loop goes up to the last one below it. -/
theorem findGap_below (hpath : Path (fun a => (s.mem a).ptr) a (ls ++ rs) base)
    (hsorted : (a :: ls).Pairwise (· < ·)) (hls : ∀ x ∈ a :: ls, base ≤ x ∧ x < bp)
    (hrs : ∀ x ∈ rs, bp < x) (hfuel : ls.length < fuel) :
    findGap bp fuel a s = .ok (ls.getLastD a, s) := by
  obtain ⟨fuel, rfl⟩ : ∃ k, fuel = k + 1 := ⟨fuel - 1, by omega⟩
  have ha := hls a List.mem_cons_self
  rw [findGap_succ]
  induction ls generalizing a fuel with
  | nil =>
    cases rs with
    | nil =>
      have hnext : (s.mem a).ptr = base := by simpa using hpath
      rw [if_neg (by omega), if_pos (by omega)]
      rfl
    | cons q rs =>
      have hnext : (s.mem a).ptr = q := (path_cons.mp hpath).1
      have hq := hrs q List.mem_cons_self
      rw [if_pos (by omega)]
      rfl
  | cons b ls ih =>
    obtain ⟨hnext, hpath⟩ := path_cons.mp hpath
    rw [List.pairwise_cons] at hsorted
    have hab := hsorted.1 b List.mem_cons_self
    have hb := hls b (by simp)
    obtain ⟨fuel, rfl⟩ : ∃ k, fuel = k + 1 := ⟨fuel - 1, by simp at hfuel; omega⟩
    rw [if_neg (by omega), if_neg (by omega), hnext, findGap_succ, List.getLastD_cons]
    refine ih hpath hsorted.2 (fun x hx => hls x (List.mem_cons_of_mem _ hx)) fuel ?_ hb
    simpa using hfuel

/-- From a block above `bp` the loop goes up to the last block, to `base`, and up again. -/
theorem findGap_above (hpath : Path (fun a => (s.mem a).ptr) a rs base)
    (hsorted : (a :: rs).Pairwise (· < ·)) (hbase : base < bp) (hrs : ∀ x ∈ a :: rs, bp < x)
    (hfuel : rs.length < fuel) {k p : ℕ} (hfind : ∀ m ≥ k, findGap bp m base s = .ok (p, s)) :
    findGap bp (fuel + k) a s = .ok (p, s) := by
  obtain ⟨fuel, rfl⟩ : ∃ k, fuel = k + 1 := ⟨fuel - 1, by omega⟩
  have ha := hrs a List.mem_cons_self
  rw [Nat.add_right_comm, findGap_succ, if_neg (by omega)]
  induction rs generalizing a fuel with
  | nil =>
    have hnext : (s.mem a).ptr = base := by simpa using hpath
    rw [if_neg (by omega), hnext]
    exact hfind _ (by omega)
  | cons b rs ih =>
    obtain ⟨hnext, hpath⟩ := path_cons.mp hpath
    rw [List.pairwise_cons] at hsorted
    have hab := hsorted.1 b List.mem_cons_self
    have hb := hrs b (by simp)
    obtain ⟨fuel, rfl⟩ : ∃ k, fuel = k + 1 := ⟨fuel - 1, by simp at hfuel; omega⟩
    rw [if_neg (by omega), hnext, Nat.add_right_comm, findGap_succ, if_neg (by omega)]
    refine ih hpath hsorted.2 (fun x hx => hrs x (List.mem_cons_of_mem _ hx)) fuel ?_ hb
    simpa using hfuel

/-- Wherever it starts, the loop ends at the last block below `bp`. -/
theorem findGap_spec (hring : Circular (fun a => (s.mem a).ptr) (base :: (ls ++ rs)))
    (hsorted : (base :: (ls ++ rs)).Pairwise (· < ·)) (hbase : base < bp)
    (hls : ∀ x ∈ ls, x < bp) (hrs : ∀ x ∈ rs, bp < x) (ha : a ∈ base :: (ls ++ rs))
    (hfuel : (ls ++ rs).length + 1 < fuel) : findGap bp fuel a s = .ok (ls.getLastD base, s) := by
  have hleft : (base :: ls).Pairwise (· < ·) := by
    rw [← List.cons_append, List.pairwise_append] at hsorted
    exact hsorted.1
  have hlow : ∀ x ∈ base :: ls, base ≤ x ∧ x < bp := by
    intro x hx
    obtain rfl | hx := List.mem_cons.mp hx
    · exact ⟨le_rfl, hbase⟩
    · exact ⟨(List.rel_of_pairwise_cons hleft hx).le, hls x hx⟩
  have hfirst : ∀ m ≥ ls.length + 1, findGap bp m base s = .ok (ls.getLastD base, s) :=
    fun m hm => findGap_below hring hleft hlow hrs hm
  rw [List.length_append] at hfuel
  obtain rfl | ha := List.mem_cons.mp ha
  · exact hfirst fuel (by omega)
  obtain ha | ha := List.mem_append.mp ha
  · obtain ⟨l₁, l₂, rfl⟩ := List.append_of_mem ha
    rw [Circular, List.append_assoc, List.cons_append, path_append] at hring
    have hsub : (a :: l₂).Sublist (base :: (l₁ ++ a :: l₂)) :=
      (List.sublist_append_right l₁ _).cons base
    rw [findGap_below hring.2 (hleft.sublist hsub) (fun x hx => hlow x (hsub.mem hx)) hrs
      (by simp at hfuel; omega), getLastD_append_cons]
  · obtain ⟨r₁, r₂, rfl⟩ := List.append_of_mem ha
    rw [Circular, ← List.append_assoc, path_append] at hring
    have hsub : (a :: r₂).Sublist (base :: (ls ++ (r₁ ++ a :: r₂))) :=
      ((List.sublist_append_right r₁ _).trans (List.sublist_append_right ls _)).cons base
    have hfound := findGap_above hring.2 (hsorted.sublist hsub) hbase
      (fun x hx => hrs x (List.mem_append_right _ hx))
      (show r₂.length < fuel - (ls.length + 1) by simp at hfuel; omega) hfirst
    rwa [Nat.sub_add_cancel (by omega)] at hfound

end Find

/-! ## Joining a block to its neighbours -/

namespace Consistent

theorem sorted (h : Consistent base s fs live) : (base :: fs.map Prod.fst).Pairwise (· < ·) := by
  rw [List.pairwise_cons, List.pairwise_map]
  refine ⟨fun a ha => ?_, h.apart.imp fun hbc => by omega⟩
  obtain ⟨b, hb, rfl⟩ := List.mem_map.mp ha
  have := (h.bounds (List.mem_append_left live hb)).1
  rw [unit] at this
  omega

theorem disjoint_of_mem_erase (h : Consistent base s fs live) (hb : b ∈ live)
    (hc : c ∈ live.erase b) : Disjoint b c := by
  refine disjoint_of_inside (h.size b (List.mem_append_right _ hb)).2
    (h.size c (List.mem_append_right _ (List.mem_of_mem_erase hc))).2 fun x => ?_
  have hone := h.covers_le_one x
  have hle := inside_le_covers hc x
  rw [covers_erase hb] at hone
  omega

/-- The block `b` becomes free as part of the block `m`, which replaces its neighbours. -/
theorem replace {l' r' : List Block} {m : Block} (h : Consistent base s (l ++ r) live)
    (hb : b ∈ live) (hl : ∀ c ∈ l, c.1 + unit * c.2 ≤ b.1) (hr : ∀ c ∈ r, b.1 + unit * b.2 ≤ c.1)
    (hl' : l'.Sublist l) (hr' : r'.Sublist r) (hm : m.1 = b.1 ∨ ∃ c ∈ l, c.1 = m.1) (hm0 : 0 < m.2)
    (hbelow : ∀ c ∈ l', c.1 + unit * c.2 < m.1) (habove : ∀ c ∈ r', m.1 + unit * m.2 < c.1)
    (htop : s'.top = s.top) (hregions : s'.regions = s.regions)
    (hsame : ∀ y, y ≠ b.1 → y ≠ m.1 → (s'.mem y).size = (s.mem y).size)
    (hmsize : (s'.mem m.1).size = m.2)
    (htiles : ∀ x, covers (l' ++ m :: r') x = inside b.1 (unit * b.2) x + covers (l ++ r) x)
    (hfreep : s'.freep ∈ base :: (l' ++ m :: r').map Prod.fst)
    (hring : Circular (fun a => (s'.mem a).ptr) (base :: (l' ++ m :: r').map Prod.fst)) :
    Consistent base s' (l' ++ m :: r') (live.erase b) := by
  have hb0 := (h.size b (List.mem_append_right _ hb)).2
  have hbbase := (h.bounds (List.mem_append_right _ hb)).1
  have hother : ∀ c ∈ l' ++ r' ++ live.erase b, c.1 ≠ b.1 ∧ c.1 ≠ m.1 ∧ c ∈ l ++ r ++ live := by
    intro c hc
    simp only [List.mem_append] at hc
    obtain (hc | hc) | hc := hc
    · have hmem : c ∈ l ++ r ++ live := by simp [hl'.mem hc]
      have hc0 := (h.size c hmem).2
      have := hl c (hl'.mem hc)
      have := hbelow c hc
      rw [unit] at *
      exact ⟨by omega, by omega, hmem⟩
    · have hmem : c ∈ l ++ r ++ live := by simp [hr'.mem hc]
      have := hr c (hr'.mem hc)
      have := habove c hc
      rw [unit] at *
      exact ⟨by omega, by omega, hmem⟩
    · have hlive := List.mem_of_mem_erase hc
      have hmem : c ∈ l ++ r ++ live := List.mem_append_right _ hlive
      have hc0 := (h.size c hmem).2
      have hne : c.1 ≠ b.1 := by
        have := h.disjoint_of_mem_erase hb hc
        rw [Disjoint, unit] at *
        omega
      refine ⟨hne, ?_, hmem⟩
      obtain hm | ⟨y, hy, hm⟩ := hm
      · rwa [hm]
      · have hyl : y ∈ l ++ r := List.mem_append_left r hy
        have hy0 := (h.size y (List.mem_append_left live hyl)).2
        have := h.disjoint hyl hlive
        rw [Disjoint, unit] at *
        omega
  refine ⟨h.base_pos, hfreep, hring, ?_, fun c hc => ?_, ?_, htop ▸ h.top, ?_, fun x => ?_⟩
  · have hmbase : base ≠ m.1 := by
      obtain hm | ⟨y, hy, hm⟩ := hm
      · rw [unit] at hbbase
        omega
      · have := (h.bounds (List.mem_append_left live (List.mem_append_left r hy))).1
        rw [unit] at this
        omega
    rw [hsame base (by rw [unit] at hbbase; omega) hmbase, h.base_size]
  · have hcases : c = m ∨ c ∈ l' ++ r' ++ live.erase b := by
      simp only [List.mem_append, List.mem_cons] at hc ⊢
      tauto
    obtain rfl | hc := hcases
    · exact ⟨hmsize, hm0⟩
    · obtain ⟨hcb, hcm, hmem⟩ := hother c hc
      rw [hsame c.1 hcb hcm]
      exact h.size c hmem
  · have hlr := List.pairwise_append.mp h.apart
    refine List.pairwise_append.mpr ⟨hlr.1.sublist hl', ?_, fun c hc d hd => ?_⟩
    · exact List.pairwise_cons.mpr ⟨habove, hlr.2.1.sublist hr'⟩
    · obtain rfl | hd := List.mem_cons.mp hd
      · exact hbelow c hc
      · exact hlr.2.2 c (hl'.mem hc) d (hr'.mem hd)
  · rw [htop, hregions]
    exact h.stacked
  · have htile := h.tiles x
    rw [htiles, hregions, ← htile, covers_erase hb x]
    omega

end Consistent

@[simps -fullyApplied] def Arena.setHeader (s : Arena) (a : ℕ) (h : Header) : Arena :=
  ⟨Function.update s.mem a h, s.freep, s.top, s.gaps, s.regions, s.calls⟩

theorem Arena.setSize_setPtr (s : Arena) (a size ptr : ℕ) :
    (s.setSize a size).setPtr a ptr = s.setHeader a ⟨ptr, size⟩ := by
  simp [setSize, setPtr, setHeader]

/-- The blocks `r` above `bp` become `r'` once `bp`, now of `n'` units, has taken in the one
that touches it. It is linked to what followed `a`. -/
structure Joined (next : ℕ → ℕ) (bp n : ℕ) (r : List Block) (p : ℕ) (Z : List ℕ)
    (a n' : ℕ) (r' : List Block) : Prop where
  sublist : r'.Sublist r
  apart : ∀ c ∈ r', bp + unit * n' < c.1
  tiles : ∀ x, inside bp (unit * n') x + covers r' x = inside bp (unit * n) x + covers r x
  grows : n ≤ n'
  path : Path next a (r'.map Prod.fst ++ Z) p

theorem joinNext_spec {p : ℕ} {Z : List ℕ} (hn : (s.mem bp).size = n)
    (hsize : ∀ c ∈ r, (s.mem c.1).size = c.2) (habove : ∀ c ∈ r, bp + unit * n ≤ c.1)
    (hapart : r.Pairwise fun b c => b.1 + unit * b.2 < c.1) (hZ : ∀ z ∈ Z ++ [p], z < bp)
    (hpath : Path (fun a => (s.mem a).ptr) p (r.map Prod.fst ++ Z) p) : ∃ a n' r',
      joinNext p bp s = .ok (⟨⟩, s.setHeader bp ⟨(s.mem a).ptr, n'⟩) ∧
      Joined (fun a => (s.mem a).ptr) bp n r p Z a n' r' := by
  have hkeep : bp + unit * n ≠ (s.mem p).ptr → (∀ c ∈ r, bp + unit * n < c.1) → ∃ a n' r',
      joinNext p bp s = .ok (⟨⟩, s.setHeader bp ⟨(s.mem a).ptr, n'⟩) ∧
      Joined (fun a => (s.mem a).ptr) bp n r p Z a n' r' := by
    intro hne hlt
    refine ⟨p, n, r, ?_, .refl r, hlt, fun _ => rfl, le_rfl, hpath⟩
    rw [joinNext, Exec.modify_run, hn, if_neg hne, ← Arena.setSize_setPtr, ← hn]
    simp [Arena.setSize, Arena.setPtr]
  cases r with
  | nil =>
    refine hkeep ?_ (by simp)
    have hq : (s.mem p).ptr ∈ Z ++ [p] := by
      cases Z with
      | nil => simpa using hpath
      | cons z Z => simp [(path_cons.mp hpath).1]
    have := hZ _ hq
    omega
  | cons y r =>
    obtain ⟨hnext, hrest⟩ := path_cons.mp hpath
    have hnext : (s.mem p).ptr = y.1 := hnext
    rw [List.pairwise_cons] at hapart
    have hy := habove y List.mem_cons_self
    by_cases hup : bp + unit * n = y.1
    · refine ⟨y.1, n + y.2, r, ?_, List.sublist_cons_self y r, fun c hc => ?_, fun x => ?_,
        Nat.le_add_right .., hrest⟩
      · rw [joinNext, Exec.modify_run, hn, hnext, if_pos hup, hsize y List.mem_cons_self,
          Arena.setSize_setPtr]
      · have := hapart.1 c hc
        rw [Nat.mul_add]
        omega
      · rw [Nat.mul_add, inside_add, covers_cons, hup]
        omega
    · refine hkeep (by rwa [hnext]) fun c hc => ?_
      obtain rfl | hc := List.mem_cons.mp hc
      · omega
      · have := hapart.1 c hc
        omega

theorem exists_concat_getLastD {α : Type} (a : α) (l : List α) :
    ∃ X, a :: l = X ++ [l.getLastD a] := by
  induction l generalizing a with
  | nil => exact ⟨[], rfl⟩
  | cons b l ih =>
    obtain ⟨X, hX⟩ := ih b
    exact ⟨a :: X, by rw [List.getLastD_cons, hX, List.cons_append]⟩

/-- The other blocks of the list are neither `bp` nor the one before it. -/
theorem Consistent.ne_of_mem_rest {p y : ℕ} {X : List ℕ} {r' : List Block}
    (h : Consistent base s (l ++ r) live) (hb : b ∈ live)
    (hl : ∀ c ∈ l, c.1 + unit * c.2 ≤ b.1) (hr : ∀ c ∈ r, b.1 + unit * b.2 ≤ c.1)
    (hX : base :: l.map Prod.fst = X ++ [p]) (hr' : r'.Sublist r)
    (hy : y ∈ r'.map Prod.fst ++ X) : y ≠ p ∧ y ≠ b.1 := by
  have hb0 := (h.size b (List.mem_append_right _ hb)).2
  have hbbase := (h.bounds (List.mem_append_right _ hb)).1
  have hsorted := h.sorted
  rw [List.map_append, ← List.cons_append, hX, List.pairwise_append, List.pairwise_append] at hsorted
  obtain ⟨⟨-, -, hXp⟩, -, hpr⟩ := hsorted
  obtain hy | hy := List.mem_append.mp hy
  · obtain ⟨c, hc, rfl⟩ := List.mem_map.mp hy
    have hpc := hpr p (by simp) c.1 (List.mem_map_of_mem (hr'.mem hc))
    have hbc := hr c (hr'.mem hc)
    rw [unit] at *
    omega
  · have hyp := hXp y hy p (by simp)
    have hyl : y ∈ base :: l.map Prod.fst := by simp [hX, hy]
    refine ⟨hyp.ne, ?_⟩
    obtain rfl | hyl := List.mem_cons.mp hyl
    · rw [unit] at hbbase
      omega
    · obtain ⟨c, hc, rfl⟩ := List.mem_map.mp hyl
      have hc0 := (h.size c (by simp [hc])).2
      have := hl c hc
      rw [unit] at *
      omega

/-- `p`, the last block below `bp`, does not touch it: `bp` is put behind it. -/
theorem Consistent.link {p a n' : ℕ} {X : List ℕ} {r' : List Block}
    (h : Consistent base s (l ++ r) live) (hb : b ∈ live)
    (hl : ∀ c ∈ l, c.1 + unit * c.2 ≤ b.1) (hr : ∀ c ∈ r, b.1 + unit * b.2 ≤ c.1)
    (hX : base :: l.map Prod.fst = X ++ [p]) (hpb : p ≠ b.1)
    (hj : Joined (fun a => (s.mem a).ptr) b.1 b.2 r p X a n' r')
    (hfar : ∀ c ∈ l, c.1 + unit * c.2 ≠ b.1) :
    Consistent base (((s.setHeader b.1 ⟨(s.mem a).ptr, n'⟩).setPtr p b.1).setFreep p)
      (l ++ (b.1, n') :: r') (live.erase b) := by
  have hb0 := (h.size b (List.mem_append_right _ hb)).2
  have hmap : base :: (l ++ (b.1, n') :: r').map Prod.fst =
      X ++ p :: (b.1 :: r'.map Prod.fst) := by
    rw [List.map_append, ← List.cons_append, hX]
    simp
  refine h.replace hb hl hr (.refl l) hj.sublist (.inl rfl) (hb0.trans_le hj.grows)
    (fun c hc => lt_of_le_of_ne (hl c hc) (hfar c hc)) hj.apart rfl rfl (fun y hy _ => ?_) ?_
    (fun x => ?_) ?_ ?_
  · by_cases hyp : y = p <;> simp [hyp, hy, hpb]
  · simp [hpb.symm]
  · have := hj.tiles x
    simp only [covers_append, covers_cons]
    omega
  · rw [hmap]
    simp
  · rw [hmap]
    refine Circular.unrotate ?_
    rw [List.cons_append, Circular, path_cons]
    refine ⟨by simp, hj.path.relink (by simp [hpb.symm]) fun y hy => ?_⟩
    obtain ⟨hyp, hyb⟩ := h.ne_of_mem_rest hb hl hr hX hj.sublist hy
    simp [hyp, hyb]

/-- The block `c` below `bp` touches it and takes it in. -/
theorem Consistent.join {a n' : ℕ} {X : List ℕ} {r' : List Block}
    (h : Consistent base s (l ++ [c] ++ r) live) (hb : b ∈ live)
    (hl : ∀ c' ∈ l ++ [c], c'.1 + unit * c'.2 ≤ b.1) (hr : ∀ c ∈ r, b.1 + unit * b.2 ≤ c.1)
    (hX : base :: (l ++ [c]).map Prod.fst = X ++ [c.1])
    (hj : Joined (fun a => (s.mem a).ptr) b.1 b.2 r c.1 X a n' r')
    (hnear : c.1 + unit * c.2 = b.1) :
    Consistent base (((s.setHeader b.1 ⟨(s.mem a).ptr, n'⟩).setHeader c.1
      ⟨(s.mem a).ptr, c.2 + n'⟩).setFreep c.1) (l ++ (c.1, c.2 + n') :: r') (live.erase b) := by
  have hc0 := (h.size c (by simp)).2
  have hmap : base :: (l ++ (c.1, c.2 + n') :: r').map Prod.fst =
      X ++ c.1 :: r'.map Prod.fst := by
    rw [List.map_append, List.map_cons, List.map_nil, ← List.cons_append] at hX
    rw [List.map_append, ← List.cons_append, (List.append_inj_left' hX rfl)]
    simp
  have hapart := List.pairwise_append.mp (List.pairwise_append.mp h.apart).1
  refine h.replace hb hl hr (List.sublist_append_left l _) hj.sublist
    (.inr ⟨c, by simp, rfl⟩) (by simp; omega) (fun c' hc' => ?_) (fun c' hc' => ?_) rfl rfl
    (fun y hyb hyc => ?_) ?_ (fun x => ?_) ?_ ?_
  · exact hapart.2.2 c' hc' c (by simp)
  · have := hj.apart c' hc'
    rw [Nat.mul_add]
    omega
  · have hyc : y ≠ c.1 := hyc
    simp [hyb, hyc]
  · simp
  · have := hj.tiles x
    simp only [covers_append, covers_cons, Nat.mul_add, inside_add, covers_nil, hnear]
    omega
  · rw [hmap]
    simp
  · rw [hmap]
    refine Circular.unrotate (hj.path.relink (by simp) fun y hy => ?_)
    obtain ⟨hyc, hyb⟩ := h.ne_of_mem_rest hb hl hr hX hj.sublist hy
    simp [hyc, hyb]

theorem joinPrev_run (s : Arena) (p bp : ℕ) : joinPrev p bp s = .ok (⟨⟩,
    if p + unit * (s.mem p).size = bp then
      s.setHeader p ⟨(s.mem bp).ptr, (s.mem p).size + (s.mem bp).size⟩
    else s.setPtr p bp) := by
  rw [joinPrev, Exec.modify_run, Arena.setSize_setPtr]

/-- `base` and the free blocks below a block in use. -/
theorem Consistent.lt_of_mem_below {y : ℕ} (h : Consistent base s (l ++ r) live) (hb : b ∈ live)
    (hl : ∀ c ∈ l, c.1 + unit * c.2 ≤ b.1) (hy : y ∈ base :: l.map Prod.fst) : y < b.1 := by
  obtain rfl | hy := List.mem_cons.mp hy
  · have := (h.bounds (List.mem_append_right _ hb)).1
    rw [unit] at this
    omega
  · obtain ⟨c, hc, rfl⟩ := List.mem_map.mp hy
    have hc0 := (h.size c (by simp [hc])).2
    have := hl c hc
    rw [unit] at this
    omega

theorem Consistent.findGap_freep {fuel : ℕ} (h : Consistent base s (l ++ r) live) (hb : b ∈ live)
    (hl : ∀ c ∈ l, c.1 + unit * c.2 ≤ b.1) (hr : ∀ c ∈ r, b.1 + unit * b.2 ≤ c.1)
    (hfuel : (l ++ r).length + 1 < fuel) :
    findGap b.1 fuel s.freep s = .ok ((l.map Prod.fst).getLastD base, s) := by
  have hring := h.ring
  have hsorted := h.sorted
  have hfreep := h.freep
  rw [List.map_append] at hring hsorted hfreep
  refine findGap_spec hring hsorted (h.lt_of_mem_below hb hl List.mem_cons_self)
    (fun y hy => h.lt_of_mem_below hb hl (List.mem_cons_of_mem _ hy)) (fun y hy => ?_) hfreep
    (by simpa using hfuel)
  obtain ⟨c, hc, rfl⟩ := List.mem_map.mp hy
  have hb0 := (h.size b (List.mem_append_right _ hb)).2
  have := hr c hc
  rw [unit] at this
  omega

theorem mem_or_of_mem_replace {l' r' : List Block} {m : Block} {q : ℕ} (hl : l'.Sublist l)
    (hr : r'.Sublist r) (hm : q ≤ m.1 + unit * m.2) :
    ∀ c ∈ l' ++ m :: r', c ∈ l ++ r ∨ q ≤ c.1 + unit * c.2 := by
  intro c hc
  obtain hc | hc := List.mem_append.mp hc
  · exact .inl (List.mem_append_left r (hl.mem hc))
  · obtain rfl | hc := List.mem_cons.mp hc
    · exact .inr hm
    · exact .inl (List.mem_append_right l (hr.mem hc))

/-- Freeing a block in use. -/
theorem free_spec {fuel : ℕ} (h : Consistent base s fs live) (hb : b ∈ live)
    (hfuel : fs.length + 1 < fuel) : ∃ s' fs', free fuel (b.1 + unit) s = .ok (⟨⟩, s') ∧
      Consistent base s' fs' (live.erase b) ∧ s'.regions = s.regions ∧
      s'.top = s.top ∧ fs'.length ≤ fs.length + 1 ∧ (∃ c ∈ fs', b.2 ≤ c.2) ∧
      ∀ c ∈ fs', c ∈ fs ∨ b.1 + unit * b.2 ≤ c.1 + unit * c.2 := by
  obtain ⟨l, r, rfl, hl, hr⟩ := h.exists_split hb
  obtain ⟨X, hX⟩ := exists_concat_getLastD base (l.map Prod.fst)
  have hfind := h.findGap_freep hb hl hr hfuel
  obtain ⟨p, hp⟩ : ∃ p, p = (l.map Prod.fst).getLastD base := ⟨_, rfl⟩
  rw [← hp] at hX hfind
  have hbelow : ∀ y ∈ X ++ [p], y < b.1 := fun y hy => h.lt_of_mem_below hb hl (hX ▸ hy)
  have hpb : p < b.1 := hbelow p (by simp)
  have hpath : Path (fun a => (s.mem a).ptr) p (r.map Prod.fst ++ X) p := by
    have hring := h.ring
    rw [List.map_append, ← List.cons_append, hX, List.append_assoc] at hring
    exact hring.rotate
  obtain ⟨a, n', r', hnext, hj⟩ := joinNext_spec (h.size b (List.mem_append_right _ hb)).1
    (fun c hc => (h.size c (by simp [hc])).1) hr (List.pairwise_append.mp h.apart).2.1 hbelow hpath
  have hlen := hj.sublist.length_le
  have hgrows : b.1 + unit * b.2 ≤ b.1 + unit * n' :=
    Nat.add_le_add_left (Nat.mul_le_mul_left unit hj.grows) _
  have hrun : free fuel (b.1 + unit) s = .ok (⟨⟩, Arena.setFreep
      (if p + unit * (s.mem p).size = b.1 then
        (s.setHeader b.1 ⟨(s.mem a).ptr, n'⟩).setHeader p ⟨(s.mem a).ptr, (s.mem p).size + n'⟩
      else (s.setHeader b.1 ⟨(s.mem a).ptr, n'⟩).setPtr p b.1) p) := by
    rw [free, Exec.bind_of_ok Exec.get_run, Nat.add_sub_cancel, Exec.bind_of_ok hfind,
      Exec.bind_of_ok hnext, Exec.bind_of_ok (joinPrev_run ..), Exec.modify_run]
    simp [hpb.ne]
  obtain rfl | ⟨l, c, rfl⟩ := List.eq_nil_or_concat' l
  · -- base has no units, so that nothing touches it
    rw [List.map_nil, List.getLastD_nil] at hp
    rw [if_neg (by rw [hp, h.base_size]; omega)] at hrun
    refine ⟨_, _, hrun, h.link hb hl hr hX hpb.ne hj (by simp), rfl, rfl, ?_,
      ⟨_, List.mem_append_right [] List.mem_cons_self, hj.grows⟩,
      mem_or_of_mem_replace (.refl []) hj.sublist hgrows⟩
    simpa using hlen
  · have hpc : p = c.1 := by
      rw [hp, List.map_append, List.map_cons, getLastD_append_cons]
      rfl
    subst hpc
    rw [(h.size c (by simp)).1] at hrun
    by_cases hnear : c.1 + unit * c.2 = b.1
    · rw [if_pos hnear] at hrun
      refine ⟨_, _, hrun, h.join hb hl hr hX hj hnear, rfl, rfl, ?_,
        ⟨_, List.mem_append_right l List.mem_cons_self, hj.grows.trans (Nat.le_add_left ..)⟩,
        mem_or_of_mem_replace (List.sublist_append_left l _) hj.sublist ?_⟩
      · simp only [List.length_append, List.length_cons]
        omega
      · rw [Nat.mul_add]
        omega
    · rw [if_neg hnear] at hrun
      refine ⟨_, _, hrun, h.link hb hl hr hX hpb.ne hj fun d hd => ?_, rfl, rfl, ?_,
        ⟨_, List.mem_append_right _ List.mem_cons_self, hj.grows⟩,
        mem_or_of_mem_replace (.refl _) hj.sublist hgrows⟩
      · obtain hd | hd := List.mem_append.mp hd
        · have hapart := List.pairwise_append.mp (List.pairwise_append.mp h.apart).1
          have := hapart.2.2 d hd c (by simp)
          omega
        · rwa [List.mem_singleton.mp hd]
      · simp only [List.length_append, List.length_cons]
        omega

end Lainos.Libc
