import Mathlib.Data.List.Chain

/-!
# Circular linked lists

A list of nodes that `next` leads through, from a first node to a last one or round and
round. What inserting and removing a node does to it.
-/

namespace Lainos.Library

variable {α : Type} {next next' : α → α} {a b z : α} {l l' : List α}

/-- `next` leads from `a` through the nodes of `l` to `z`. -/
def Path (next : α → α) (a : α) (l : List α) (z : α) : Prop :=
  List.IsChain (fun x y => next x = y) (a :: (l ++ [z]))

@[simp] theorem path_nil : Path next a [] z ↔ next a = z := by
  simp [Path]

@[simp] theorem path_cons : Path next a (b :: l) z ↔ next a = b ∧ Path next b l z := by
  simp [Path]

theorem path_append : Path next a (l ++ b :: l') z ↔ Path next a l b ∧ Path next b l' z := by
  induction l generalizing a with
  | nil => simp
  | cons c l ih => simp [ih, and_assoc]

theorem Path.congr (h : Path next a l z) (ha : next' a = next a) (hl : ∀ x ∈ l, next' x = next x) :
    Path next' a l z := by
  induction l generalizing a with
  | nil =>
    rw [path_nil] at h ⊢
    rw [ha, h]
  | cons c l ih =>
    rw [path_cons] at h ⊢
    refine ⟨ha.trans h.1, ih h.2 (hl c List.mem_cons_self) fun x hx => hl x ?_⟩
    exact List.mem_cons_of_mem _ hx

/-- `next` leads round through the nodes of the list. -/
def Circular (next : α → α) : List α → Prop
  | [] => True
  | a :: l => Path next a l a

theorem Circular.rotate (h : Circular next (l ++ a :: l')) : Circular next (a :: (l' ++ l)) := by
  cases l with
  | nil => simpa using h
  | cons b l =>
    rw [List.cons_append, Circular, path_append] at h
    rw [Circular, path_append]
    exact h.symm

theorem Circular.unrotate (h : Circular next (a :: (l' ++ l))) : Circular next (l ++ a :: l') := by
  cases l with
  | nil => simpa using h
  | cons b l =>
    rw [Circular, path_append] at h
    rw [List.cons_append, Circular, path_append]
    exact h.symm

/-- The path behind the first node, if it is left alone. -/
theorem Path.relink (h : Path next a l z) (hb : next' b = next a) (hl : ∀ x ∈ l, next' x = next x) :
    Path next' b l z := by
  cases l with
  | nil =>
    rw [path_nil] at h ⊢
    rw [hb, h]
  | cons c l =>
    rw [path_cons] at h ⊢
    refine ⟨hb.trans h.1, h.2.congr (hl c List.mem_cons_self) fun x hx => hl x ?_⟩
    exact List.mem_cons_of_mem _ hx

theorem Circular.remove (h : Circular next (a :: b :: l)) (ha : next' a = next b)
    (hl : ∀ x ∈ l, next' x = next x) : Circular next' (a :: l) := by
  rw [Circular, path_cons] at h
  exact Path.relink h.2 ha hl

theorem Circular.congr (h : Circular next l) (hl : ∀ x ∈ l, next' x = next x) :
    Circular next' l := by
  cases l with
  | nil => trivial
  | cons a l =>
    exact Path.congr h (hl a List.mem_cons_self) fun x hx => hl x (List.mem_cons_of_mem _ hx)

end Lainos.Library
