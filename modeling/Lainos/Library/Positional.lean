import Mathlib.Data.List.Basic
import Mathlib.Tactic.Ring
import Mathlib.Tactic.Linarith

/-!
# Positional numerals

A numeral is read from its first digit on: what has been read so far is multiplied by the base
and the next digit is added.
-/

namespace Lainos.Library

/-- The number read from `digits` when `acc` has been read before them. -/
def accumulate (base : ℕ) : ℕ → List ℕ → ℕ
  | acc, [] => acc
  | acc, d :: digits => accumulate base (acc * base + d) digits

@[simp] theorem accumulate_nil (base acc : ℕ) : accumulate base acc [] = acc := rfl

@[simp] theorem accumulate_cons (base acc d : ℕ) (digits : List ℕ) :
    accumulate base acc (d :: digits) = accumulate base (acc * base + d) digits := rfl

theorem accumulate_append (base : ℕ) (digits more : List ℕ) (acc : ℕ) :
    accumulate base acc (digits ++ more) = accumulate base (accumulate base acc digits) more := by
  induction digits generalizing acc with
  | nil => rfl
  | cons d digits ih => exact ih _

/-- Reading on never makes the number smaller. -/
theorem le_accumulate {base : ℕ} (hbase : 1 ≤ base) (digits : List ℕ) (acc : ℕ) :
    acc ≤ accumulate base acc digits := by
  induction digits generalizing acc with
  | nil => exact le_rfl
  | cons d digits ih =>
    have hmul : acc * 1 ≤ acc * base := Nat.mul_le_mul_left acc hbase
    have hnext := ih (acc * base + d)
    rw [accumulate_cons]
    omega

/-- A digit other than 0 makes the number larger. -/
theorem lt_accumulate {base : ℕ} (hbase : 1 ≤ base) {digits : List ℕ} (acc : ℕ)
    (hd : ∃ d ∈ digits, d ≠ 0) : acc < accumulate base acc digits := by
  induction digits generalizing acc with
  | nil => obtain ⟨d, hmem, -⟩ := hd; cases hmem
  | cons e digits ih =>
    have hmul : acc * 1 ≤ acc * base := Nat.mul_le_mul_left acc hbase
    rw [accumulate_cons]
    by_cases he : e = 0
    · obtain ⟨d, hmem, hne⟩ := hd
      have hrest : d ∈ digits := by
        rcases List.mem_cons.mp hmem with rfl | h
        · exact absurd he hne
        · exact h
      have hnext := ih (acc * base + e) ⟨d, hrest, hne⟩
      omega
    · have hnext := le_accumulate hbase digits (acc * base + e)
      omega

theorem accumulate_eq_zero_iff {base : ℕ} (hbase : 1 ≤ base) (digits : List ℕ) :
    accumulate base 0 digits = 0 ↔ ∀ d ∈ digits, d = 0 := by
  constructor
  · intro h d hd
    by_contra hne
    have hlt := lt_accumulate hbase 0 ⟨d, hd, hne⟩
    omega
  · intro h
    induction digits with
    | nil => rfl
    | cons d digits ih =>
      rw [accumulate_cons, h d (by simp)]
      simpa using ih fun e he => h e (by simp [he])

end Lainos.Library
