import Mathlib.Tactic

/-!
# Conservation of resources

A heap has a free list and a content for each resource. `Moves h h' X X'` says that a
piece of code that starts with the resources `X` in hand ends with `X'` in hand, that
nothing appears or disappears on the way, and that only resources in hand or from the
free list are written.
-/

namespace Lainos.Library

open Finset

variable {ρ V ι : Type*}

structure Heap (ρ V : Type*) where
  free : List ρ
  mem : ρ → V

/-- Everything in the free list and in `X`. -/
def Heap.total (h : Heap ρ V) (X : Multiset ρ) : Multiset ρ := (h.free : Multiset ρ) + X

structure Moves (h h' : Heap ρ V) (X X' : Multiset ρ) : Prop where
  total : h.total X = h'.total X'
  frame : ∀ x, x ∉ h.total X → h'.mem x = h.mem x

namespace Moves

variable {h h' h'' : Heap ρ V} {X X' X'' R : Multiset ρ} {x : ρ}

theorem refl (h : Heap ρ V) (X : Multiset ρ) : Moves h h X X := ⟨rfl, fun _ _ => rfl⟩

theorem trans (h₁ : Moves h h' X X') (h₂ : Moves h' h'' X' X'') : Moves h h'' X X'' := by
  refine ⟨h₁.total.trans h₂.total, fun x hx => ?_⟩
  rw [h₂.frame x (h₁.total ▸ hx), h₁.frame x hx]

theorem add (hm : Moves h h' X X') (R : Multiset ρ) : Moves h h' (X + R) (X' + R) := by
  refine ⟨?_, fun x hx => hm.frame x ?_⟩
  · rw [Heap.total, Heap.total, ← add_assoc, ← add_assoc]
    exact congrArg (· + R) hm.total
  · intro hmem
    refine hx ?_
    rw [Heap.total, ← add_assoc]
    exact Multiset.mem_add.mpr (Or.inl hmem)

theorem cast {Y Y' : Multiset ρ} (hm : Moves h h' X X') (hX : X = Y) (hX' : X' = Y') :
    Moves h h' Y Y' :=
  hX ▸ hX' ▸ hm

/-- What is held elsewhere keeps its content. -/
theorem mem_eq (hm : Moves h h' X X') (hnodup : (h.total (X + R)).Nodup) (hx : x ∈ R) :
    h'.mem x = h.mem x := by
  refine hm.frame x fun hmem => ?_
  rw [Heap.total, ← add_assoc, Multiset.nodup_add] at hnodup
  exact Multiset.disjoint_left.mp hnodup.2.2 hmem hx

end Moves

/-! ## Sums of resources -/

section Sums

variable [DecidableEq ι] {s : Finset ι} {f g : ι → Multiset ρ} {i j : ι}

/-- Changing one term of a sum. -/
theorem sum_exchange (hi : i ∈ s) (h : ∀ j ∈ s, j ≠ i → g j = f j) :
    (∑ j ∈ s, g j) + f i = (∑ j ∈ s, f j) + g i := by
  have hrest : ∑ j ∈ s.erase i, g j = ∑ j ∈ s.erase i, f j :=
    sum_congr rfl fun j hj => h j (mem_of_mem_erase hj) (ne_of_mem_erase hj)
  rw [← add_sum_erase s g hi, ← add_sum_erase s f hi, hrest]
  abel

theorem mem_sum_of_mem {x : ρ} (hi : i ∈ s) (hx : x ∈ f i) : x ∈ ∑ j ∈ s, f j := by
  rw [← add_sum_erase s f hi]
  exact Multiset.mem_add.mpr (Or.inl hx)

theorem disjoint_of_nodup_sum (h : (∑ i ∈ s, f i).Nodup) (hi : i ∈ s) (hj : j ∈ s) (hij : i ≠ j) :
    Disjoint (f i) (f j) := by
  rw [← add_sum_erase s f hi, Multiset.nodup_add] at h
  refine Multiset.disjoint_left.mpr fun {x} hx hxj => ?_
  exact Multiset.disjoint_left.mp h.2.2 hx (mem_sum_of_mem (mem_erase.mpr ⟨hij.symm, hj⟩) hxj)

end Sums

end Lainos.Library
