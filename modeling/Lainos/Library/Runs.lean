import Mathlib.Tactic

/-!
# Runs of a labelled transition system

The labels of a run are listed with the latest first, so that a run grows by `cons`.
-/

namespace Lainos.Library

variable {σ L : Type*} {Step : σ → L → σ → Prop} {s s' t : σ} {l : L} {ls ls' : List L}

/-- `s'` is reached from `s` by steps with the labels `ls`. -/
inductive Leads (Step : σ → L → σ → Prop) (s : σ) : List L → σ → Prop
  | refl : Leads Step s [] s
  | step {s' t : σ} {l : L} {ls : List L} : Leads Step s ls s' → Step s' l t →
    Leads Step s (l :: ls) t

namespace Leads

theorem single (h : Step s l s') : Leads Step s [l] s' := refl.step h

theorem trans (h : Leads Step s ls s') (h' : Leads Step s' ls' t) : Leads Step s (ls' ++ ls) t := by
  induction h' with
  | refl => exact h
  | step _ hstep ih => exact ih.step hstep

/-- A property of a state and the labels that led to it, kept by every step, holds along
a run. -/
theorem invariant {I : List L → σ → Prop} (h : Leads Step s ls s') (h₀ : I [] s)
    (hstep : ∀ {ls s l s'}, I ls s → Step s l s' → I (l :: ls) s') : I ls s' := by
  induction h with
  | refl => exact h₀
  | step _ hs ih => exact hstep ih hs

end Leads

end Lainos.Library
