import Mathlib.Logic.Equiv.Basic
import Mathlib.Data.List.Perm.Lattice
import Mathlib.Data.List.Range

/-!
# Rearranging an array part by part

An array is a function on the numbers of its places. It is put in order by rearranging one part
after another, while any two places that do not lie in one unfinished part are in order already.
-/

namespace Lainos.Library

variable {α : Type*} {a b c : ℕ → α} {lo hi n : ℕ}

/-- `b` is `a` with the places from `lo` up to `hi` rearranged. -/
def Rearranged (lo hi : ℕ) (a b : ℕ → α) : Prop :=
  ∃ σ : Equiv.Perm ℕ, (∀ k, ¬ (lo ≤ k ∧ k < hi) → σ k = k) ∧ ∀ k, b k = a (σ k)

namespace Rearranged

theorem refl (lo hi : ℕ) (a : ℕ → α) : Rearranged lo hi a a :=
  ⟨Equiv.refl ℕ, fun _ _ => rfl, fun _ => rfl⟩

theorem trans (h : Rearranged lo hi a b) (h' : Rearranged lo hi b c) : Rearranged lo hi a c := by
  obtain ⟨σ, hσ, hb⟩ := h
  obtain ⟨τ, hτ, hc⟩ := h'
  refine ⟨τ.trans σ, fun k hk => ?_, fun k => ?_⟩
  · rw [Equiv.trans_apply, hτ k hk, hσ k hk]
  · rw [hc, hb, Equiv.trans_apply]

theorem swap {i j : ℕ} (hi' : lo ≤ i ∧ i < hi) (hj : lo ≤ j ∧ j < hi)
    (hb : ∀ k, b k = a (Equiv.swap i j k)) : Rearranged lo hi a b := by
  refine ⟨Equiv.swap i j, fun k hk => ?_, hb⟩
  apply Equiv.swap_apply_of_ne_of_ne
  · rintro rfl
    exact hk hi'
  · rintro rfl
    exact hk hj

theorem mono {lo' hi' : ℕ} (h : Rearranged lo hi a b) (hlo : lo' ≤ lo) (hhi : hi ≤ hi') :
    Rearranged lo' hi' a b := by
  obtain ⟨σ, hσ, hb⟩ := h
  exact ⟨σ, fun k hk => hσ k fun hk' => hk ⟨by omega, by omega⟩, hb⟩

theorem outside (h : Rearranged lo hi a b) {k : ℕ} (hk : ¬ (lo ≤ k ∧ k < hi)) : b k = a k := by
  obtain ⟨σ, hσ, hb⟩ := h
  rw [hb, hσ k hk]

/-- What holds at all places of the part still holds at all of them. -/
theorem forall_inside (h : Rearranged lo hi a b) {P : α → Prop}
    (hP : ∀ k, lo ≤ k → k < hi → P (a k)) (k : ℕ) (hlo : lo ≤ k) (hhi : k < hi) : P (b k) := by
  obtain ⟨σ, hσ, hb⟩ := h
  have hin : lo ≤ σ k ∧ σ k < hi := by
    by_contra hout
    have hfix := σ.injective (hσ (σ k) hout)
    exact hout (hfix.symm ▸ ⟨hlo, hhi⟩)
  rw [hb]
  exact hP (σ k) hin.1 hin.2

theorem perm (h : Rearranged lo hi a b) (hn : hi ≤ n) :
    ((List.range n).map b).Perm ((List.range n).map a) := by
  obtain ⟨σ, hσ, hb⟩ := h
  have hmap : (List.range n).map b = ((List.range n).map σ).map a := by
    rw [List.map_map]
    exact List.map_congr_left fun k _ => hb k
  rw [hmap]
  refine List.Perm.map a ((List.perm_ext_iff_of_nodup ?_ List.nodup_range).mpr fun k => ?_)
  · exact List.nodup_range.map σ.injective
  · -- a place and its preimage are both below `n`, or the place is fixed
    rw [List.mem_map, List.mem_range]
    constructor
    · rintro ⟨l, hl, rfl⟩
      by_contra hout
      have hfix := σ.injective (hσ (σ l) fun h => by omega)
      rw [hfix] at hout
      exact hout (List.mem_range.mp hl)
    · intro hk
      refine ⟨σ.symm k, List.mem_range.mpr ?_, σ.apply_symm_apply k⟩
      by_contra hout
      have hfix := hσ (σ.symm k) fun h => by omega
      rw [σ.apply_symm_apply] at hfix
      omega

end Rearranged

/-- Any two places below `n` that do not both lie in one of the parts are in order. -/
def Ordered (le : α → α → Prop) (n : ℕ) (parts : List (ℕ × ℕ)) (a : ℕ → α) : Prop :=
  ∀ k l, k < l → l < n → (∀ s ∈ parts, ¬ (s.1 ≤ k ∧ l < s.2)) → le (a k) (a l)

/-- A part is rearranged so that it is in order up to smaller parts. -/
theorem Ordered.refine {le : α → α → Prop} {parts new : List (ℕ × ℕ)}
    (h : Ordered le n ((lo, hi) :: parts) a) (hr : Rearranged lo hi a b) (hn : hi ≤ n)
    (hdisj : ∀ s ∈ parts, s.2 ≤ lo ∨ hi ≤ s.1)
    (hnew : ∀ k l, lo ≤ k → k < l → l < hi → (∀ s ∈ new, ¬ (s.1 ≤ k ∧ l < s.2)) → le (b k) (b l)) :
    Ordered le n (new ++ parts) b := by
  intro k l hkl hl hapart
  by_cases hk : lo ≤ k ∧ k < hi
  · by_cases hl' : l < hi
    · exact hnew k l hk.1 hkl hl' fun s hs => hapart s (List.mem_append_left _ hs)
    · rw [hr.outside (k := l) (by omega)]
      refine hr.forall_inside (P := fun x => le x (a l)) (fun k' hlo' hhi' => ?_) k hk.1 hk.2
      refine h k' l (by omega) hl fun s hs => ?_
      rcases List.mem_cons.mp hs with rfl | hs
      · simp only [not_and, not_lt]
        omega
      · rcases hdisj s hs with h | h <;> omega
  · rw [hr.outside hk]
    by_cases hl' : lo ≤ l ∧ l < hi
    · refine hr.forall_inside (P := fun x => le (a k) x) (fun l' hlo' hhi' => ?_) l hl'.1 hl'.2
      refine h k l' (by omega) (by omega) fun s hs => ?_
      rcases List.mem_cons.mp hs with rfl | hs
      · simp only [not_and, not_lt]
        omega
      · rcases hdisj s hs with h | h <;> omega
    · rw [hr.outside hl']
      refine h k l hkl hl fun s hs => ?_
      rcases List.mem_cons.mp hs with rfl | hs
      · simp only [not_and, not_lt]
        omega
      · exact hapart s (List.mem_append_right _ hs)

end Lainos.Library
