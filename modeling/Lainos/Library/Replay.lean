import Mathlib.Tactic
import Mathlib.Data.List.Basic

/-!
# Replaying a list of cell writes

A store of cells is a function, a trace is the list of cell writes in the order
they were issued. A crash keeps a prefix of the trace. `Throughout P d ws` says
that `P` holds of every store a crash can leave.
-/

namespace Lainos.Library

variable {β : Type}

def replay (d : ℕ → β) (ws : List (ℕ × β)) : ℕ → β :=
  ws.foldl (fun d w => Function.update d w.1 w.2) d

@[simp] theorem replay_nil (d : ℕ → β) : replay d [] = d := rfl

@[simp] theorem replay_cons (d : ℕ → β) (w : ℕ × β) (ws : List (ℕ × β)) :
    replay d (w :: ws) = replay (Function.update d w.1 w.2) ws := rfl

@[simp] theorem replay_append (d : ℕ → β) (ws vs : List (ℕ × β)) :
    replay d (ws ++ vs) = replay (replay d ws) vs := List.foldl_append

/-- A cell that no write names keeps its contents. -/
theorem replay_untouched {ws : List (ℕ × β)} {s : ℕ} (h : ∀ w ∈ ws, w.1 ≠ s) (d : ℕ → β) :
    replay d ws s = d s := by
  induction ws generalizing d with
  | nil => rfl
  | cons w ws ih =>
    rw [replay_cons, ih (fun v hv => h v (List.mem_cons_of_mem _ hv)),
      Function.update_of_ne (h w List.mem_cons_self).symm]

/-- Replay is local to a set of cells. -/
theorem replay_congr {ws : List (ℕ × β)} {s : ℕ} {d e : ℕ → β} (h : d s = e s) :
    replay d ws s = replay e ws s := by
  induction ws generalizing d e with
  | nil => exact h
  | cons w ws ih =>
    rw [replay_cons, replay_cons]
    apply ih
    by_cases hs : s = w.1
    · rw [hs, Function.update_self, Function.update_self]
    · rw [Function.update_of_ne hs, Function.update_of_ne hs, h]

/-- `P` holds of the store after every number of writes of the trace. -/
def Throughout (P : (ℕ → β) → Prop) (d : ℕ → β) (ws : List (ℕ × β)) : Prop :=
  ∀ k, P (replay d (ws.take k))

theorem Throughout.mono {P Q : (ℕ → β) → Prop} {d : ℕ → β} {ws : List (ℕ × β)}
    (h : Throughout P d ws) (hPQ : ∀ e, P e → Q e) : Throughout Q d ws :=
  fun k => hPQ _ (h k)

theorem throughout_nil {P : (ℕ → β) → Prop} {d : ℕ → β} (h : P d) : Throughout P d [] := by
  intro k
  simpa using h

theorem throughout_cons {P : (ℕ → β) → Prop} {d : ℕ → β} {w : ℕ × β} {ws : List (ℕ × β)}
    (h : P d) (ht : Throughout P (Function.update d w.1 w.2) ws) : Throughout P d (w :: ws) := by
  intro k
  cases k with
  | zero => exact h
  | succ k => exact ht k

theorem Throughout.append {P : (ℕ → β) → Prop} {d : ℕ → β} {ws vs : List (ℕ × β)}
    (hw : Throughout P d ws) (hv : Throughout P (replay d ws) vs) :
    Throughout P d (ws ++ vs) := by
  intro k
  rw [List.take_append, replay_append]
  by_cases hk : k ≤ ws.length
  · rw [Nat.sub_eq_zero_of_le hk]
    simpa using hw k
  · rw [List.take_of_length_le (by omega)]
    exact hv (k - ws.length)

theorem Throughout.start {P : (ℕ → β) → Prop} {d : ℕ → β} {ws : List (ℕ × β)}
    (h : Throughout P d ws) : P d := by
  simpa using h 0

theorem Throughout.finish {P : (ℕ → β) → Prop} {d : ℕ → β} {ws : List (ℕ × β)}
    (h : Throughout P d ws) : P (replay d ws) := by
  simpa using h ws.length

end Lainos.Library
