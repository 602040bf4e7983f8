import Mathlib.Tactic.Ring

/-!
# `bsearch`

The loop halves the number of elements that remain and, on the side behind the pivot, corrects it
by one if it was even. `compar p` stands for `compar(key, p)`; nothing is written, so that it does
not change during the search. Addresses are of 32 bits.
-/

namespace Lainos.Libc

namespace Bsearch

/-- The loop of `bsearch`, with the pointers that were compared so far. The result `none` is
`NULL`. -/
def search (compar : ℕ → ℤ) (size base nmemb : ℕ) (seen : List ℕ) : Option ℕ × List ℕ :=
  if nmemb = 0 then (none, seen)
  else
    let corr := nmemb % 2
    let half := nmemb / 2
    let pivot := (base + half * size) % 2 ^ 32
    let rc := compar pivot
    if 0 < rc then
      search compar size ((pivot + size) % 2 ^ 32) (half - (1 - corr)) (pivot :: seen)
    else if rc = 0 then (some pivot, pivot :: seen)
    else search compar size base half (pivot :: seen)
termination_by nmemb
decreasing_by all_goals omega

def bsearch (compar : ℕ → ℤ) (base nmemb size : ℕ) : Option ℕ × List ℕ :=
  search compar size base nmemb []

/-- The address of the element with number `k`. -/
def element (base size k : ℕ) : ℕ := (base + k * size) % 2 ^ 32

/-- The elements are ordered consistently with the key: first those it comes behind, then those it
is equal to, then those it comes before. -/
def Consistent (compar : ℕ → ℤ) (base nmemb size : ℕ) : Prop :=
  ∃ first last, first ≤ last ∧ last ≤ nmemb ∧
    (∀ k < first, 0 < compar (element base size k)) ∧
    (∀ k, first ≤ k → k < last → compar (element base size k) = 0) ∧
    ∀ k, last ≤ k → k < nmemb → compar (element base size k) < 0

variable {compar : ℕ → ℤ} {base size lo n first last : ℕ}

theorem element_add (base size lo k : ℕ) :
    (element base size lo + k * size) % 2 ^ 32 = element base size (lo + k) := by
  rw [element, element, Nat.mod_add_mod]
  congr 1
  ring

theorem element_succ (base size k : ℕ) :
    (element base size k + size) % 2 ^ 32 = element base size (k + 1) := by
  have h := element_add base size k 1
  rwa [Nat.one_mul] at h

/-- What a search over the elements from `lo` up to `lo + n` finds, when all equal elements lie
there: one of them, or nothing if there are none. It compares elements of that range only. -/
theorem search_spec (hlo : lo ≤ first) (hle : first ≤ last) (hlast : last ≤ lo + n)
    (hgt : ∀ k, lo ≤ k → k < first → 0 < compar (element base size k))
    (heq : ∀ k, first ≤ k → k < last → compar (element base size k) = 0)
    (hlt : ∀ k, last ≤ k → k < lo + n → compar (element base size k) < 0) (seen : List ℕ) :
    (∀ p, (search compar size (element base size lo) n seen).1 = some p →
        ∃ k, first ≤ k ∧ k < last ∧ p = element base size k) ∧
      ((search compar size (element base size lo) n seen).1 = none → first = last) ∧
      ∀ p ∈ (search compar size (element base size lo) n seen).2,
        p ∈ seen ∨ ∃ k, lo ≤ k ∧ k < lo + n ∧ p = element base size k := by
  induction n using Nat.strong_induction_on generalizing lo seen with
  | _ n ih =>
    rw [search]
    by_cases hn : n = 0
    · rw [if_pos hn]
      exact ⟨fun p hp => (by cases hp), fun _ => by omega, fun p hp => Or.inl hp⟩
    rw [if_neg hn]
    dsimp only
    rw [element_add, element_succ]
    have hpivot : ∀ p ∈ element base size (lo + n / 2) :: seen,
        p ∈ seen ∨ ∃ k, lo ≤ k ∧ k < lo + n ∧ p = element base size k := by
      intro p hp
      rcases List.mem_cons.mp hp with rfl | hp
      · exact Or.inr ⟨lo + n / 2, by omega, by omega, rfl⟩
      · exact Or.inl hp
    by_cases hpos : 0 < compar (element base size (lo + n / 2))
    · -- the pivot comes before all equal elements
      have hbefore : lo + n / 2 < first := by
        by_contra hnot
        by_cases hk : lo + n / 2 < last
        · have := heq (lo + n / 2) (by omega) hk
          omega
        · have := hlt (lo + n / 2) (by omega) (by omega)
          omega
      rw [if_pos hpos]
      obtain ⟨hsome, hnone, hseen⟩ := ih (n / 2 - (1 - n % 2)) (by omega)
        (show lo + n / 2 + 1 ≤ first by omega) (by omega) (fun k hk hk' => hgt k (by omega) hk')
        (fun k hk hk' => hlt k hk (by omega)) (element base size (lo + n / 2) :: seen)
      refine ⟨hsome, hnone, fun p hp => ?_⟩
      rcases hseen p hp with hp | ⟨k, hk, hk', rfl⟩
      · exact hpivot p hp
      · exact Or.inr ⟨k, by omega, by omega, rfl⟩
    rw [if_neg hpos]
    by_cases hzero : compar (element base size (lo + n / 2)) = 0
    · rw [if_pos hzero]
      have hin : first ≤ lo + n / 2 ∧ lo + n / 2 < last := by
        refine ⟨?_, ?_⟩
        · by_contra hnot
          have := hgt (lo + n / 2) (by omega) (by omega)
          omega
        · by_contra hnot
          have := hlt (lo + n / 2) (by omega) (by omega)
          omega
      refine ⟨fun p hp => ?_, fun hp => (by cases hp), hpivot⟩
      obtain rfl : element base size (lo + n / 2) = p := Option.some.inj hp
      exact ⟨lo + n / 2, hin.1, hin.2, rfl⟩
    · -- the pivot comes behind all equal elements
      have hbehind : last ≤ lo + n / 2 := by
        by_contra hnot
        by_cases hk : first ≤ lo + n / 2
        · exact hzero (heq (lo + n / 2) hk (by omega))
        · exact hpos (hgt (lo + n / 2) (by omega) (by omega))
      rw [if_neg hzero]
      obtain ⟨hsome, hnone, hseen⟩ := ih (n / 2) (by omega) hlo hbehind hgt
        (fun k hk hk' => hlt k hk (by omega)) (element base size (lo + n / 2) :: seen)
      refine ⟨hsome, hnone, fun p hp => ?_⟩
      rcases hseen p hp with hp | ⟨k, hk, hk', rfl⟩
      · exact hpivot p hp
      · exact Or.inr ⟨k, by omega, by omega, rfl⟩

/-- The search ends with an element that is equal to the key if there is one and with `NULL` if
there is none, and it compares elements of the array only. -/
theorem bsearch_finds (compar : ℕ → ℤ) (base nmemb size : ℕ) (hbase : base < 2 ^ 32)
    (hord : Consistent compar base nmemb size) :
    (∀ p, (bsearch compar base nmemb size).1 = some p →
        ∃ k < nmemb, p = element base size k ∧ compar p = 0) ∧
      ((bsearch compar base nmemb size).1 = none ↔
        ∀ k < nmemb, compar (element base size k) ≠ 0) ∧
      ∀ p ∈ (bsearch compar base nmemb size).2, ∃ k < nmemb, p = element base size k := by
  obtain ⟨first, last, hle, hlast, hgt, heq, hlt⟩ := hord
  have hstart : element base size 0 = base := by
    rw [element, Nat.zero_mul, Nat.add_zero, Nat.mod_eq_of_lt hbase]
  obtain ⟨hsome, hnone, hseen⟩ := search_spec (n := nmemb) (Nat.zero_le first) hle
    (by omega) (fun k _ hk => hgt k hk) heq (fun k hk hk' => hlt k hk (by omega)) []
  rw [hstart] at hsome hnone hseen
  have hfound : ∀ p, (bsearch compar base nmemb size).1 = some p →
      ∃ k < nmemb, p = element base size k ∧ compar p = 0 := by
    intro p hp
    obtain ⟨k, hk, hk', rfl⟩ := hsome p hp
    exact ⟨k, by omega, rfl, heq k hk hk'⟩
  refine ⟨hfound, ⟨fun hp k hk => ?_, fun hall => ?_⟩, fun p hp => ?_⟩
  · have hempty := hnone hp
    by_cases hkf : k < first
    · have := hgt k hkf
      omega
    · have := hlt k (by omega) hk
      omega
  · cases hres : (bsearch compar base nmemb size).1 with
    | none => rfl
    | some p =>
      obtain ⟨k, hk, rfl, hzero⟩ := hfound p hres
      exact absurd hzero (hall k hk)
  · rcases hseen p hp with hp | ⟨k, -, hk, rfl⟩
    · cases hp
    · exact ⟨k, by omega, rfl⟩

theorem bsearch_finds_third : ∃ k < 5, (bsearch (fun p => 4104 - p) 4096 5 4).1 =
    some (element 4096 4 k) := by
  have hord : Consistent (fun p => 4104 - p) 4096 5 4 := by
    refine ⟨2, 3, by decide, by decide, by decide, ?_, ?_⟩
    · intro k hk hk'
      obtain rfl : k = 2 := by omega
      decide
    · intro k hk hk'
      obtain rfl | rfl : k = 3 ∨ k = 4 := by omega
      · decide
      · decide
  obtain ⟨hfound, hnone, -⟩ := bsearch_finds _ 4096 5 4 (by decide) hord
  cases hres : (bsearch (fun p => 4104 - p) 4096 5 4).1 with
  | none => exact absurd (show (4104 : ℤ) - element 4096 4 2 = 0 by decide) (hnone.mp hres 2 (by decide))
  | some p =>
    obtain ⟨k, hk, rfl, -⟩ := hfound p hres
    exact ⟨k, hk, rfl⟩

end Bsearch

end Lainos.Libc
