import Lainos.Library.Exec

/-!
# Computations on one part of the state

A computation on the first part of a state, and computations that are known when the second
part is left out.
-/

namespace Lainos.Library.Exec

variable {ε σ δ α β : Type}

/-- A computation on the first part of a state. -/
def first (x : Exec ε σ α) : Exec ε (σ × δ) α := fun s =>
  match x s.1 with
  | .ok (a, t) => .ok (a, t, s.2)
  | .error e => .error e

variable {x : Exec ε (σ × δ) α} {y : Exec ε σ α} {E : ε → Prop} {s : σ × δ}

@[simp] theorem ends_first {Q : α → σ × δ → Prop} :
    Ends (first y) Q E s ↔ Ends y (fun a t => Q a (t, s.2)) E s.1 := by
  simp only [Ends, first]
  cases y s.1 <;> rfl

/-- Without the second part of the state, and with `g` applied to its result, `x` is `y`. -/
def Projects {α' : Type} (g : α → α') (x : Exec ε (σ × δ) α) (y : Exec ε σ α') : Prop :=
  ∀ s, (x s).map (fun r => (g r.1, r.2.1)) = y s.1

namespace Projects

variable {α' β' : Type} {g : α → α'} {k : β → β'} {y : Exec ε σ α'}

/-- What is known of `y` is known of `x`. -/
theorem ends {Q : α' → σ → Prop} (h : Projects g x y) :
    Ends x (fun a t => Q (g a) t.1) E s ↔ Ends y Q E s.1 := by
  unfold Ends
  rw [← h s]
  cases x s <;> rfl

theorem pure (a : α) : Projects g (Pure.pure a : Exec ε (σ × δ) α) (Pure.pure (g a)) := fun _ => rfl

theorem first (y : Exec ε σ α) : Projects id (Exec.first y : Exec ε (σ × δ) α) y := by
  intro s
  simp only [Exec.first]
  cases y s.1 <;> rfl

theorem bind {f : α → Exec ε (σ × δ) β} {f' : α' → Exec ε σ β'} (h : Projects g x y)
    (hf : ∀ a, Projects k (f a) (f' (g a))) : Projects k (x >>= f) (y >>= f') := by
  intro s
  have hs := h s
  change Except.map _ (Except.bind (x s) fun p => f p.1 p.2) = Except.bind (y s.1) fun p => f' p.1 p.2
  rw [← hs]
  cases x s with
  | error e => rfl
  | ok r => exact hf r.1 r.2

theorem ite {c : Prop} [Decidable c] {x' : Exec ε (σ × δ) α} {y' : Exec ε σ α'}
    (h : Projects g x y) (h' : Projects g x' y') :
    Projects g (if c then x else x') (if c then y else y') := by
  split_ifs
  · exact h
  · exact h'

/-- A step that is taken in one case only, before the code goes on. -/
theorem guard {c : Prop} [Decidable c] {x : Exec ε (σ × δ) PUnit} {y : Exec ε σ PUnit}
    {f : PUnit → Exec ε (σ × δ) α} {f' : PUnit → Exec ε σ α'} (h : Projects id x y)
    (hf : ∀ a, Projects g (f a) (f' a)) :
    Projects g (if c then x >>= f else f ⟨⟩) (if c then y >>= f' else f' ⟨⟩) :=
  ite (h.bind hf) (hf _)

theorem get {f : σ × δ → Exec ε (σ × δ) α} {f' : σ → Exec ε σ α'}
    (h : ∀ s, Projects g (f s) (f' s.1)) : Projects g (MonadState.get >>= f) (MonadState.get >>= f') :=
  fun s => h s s

/-- A change of the second part only. -/
theorem skip {f : σ × δ → δ} (h : Projects g x y) :
    Projects g (do modify fun s => (s.1, f s); x) y := fun s => h (s.1, f s)

end Projects

end Lainos.Library.Exec
