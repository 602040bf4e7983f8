import Lainos.Library.ByteLists

/-!
# `strstr`

For each place of `s1` a second pair of pointers runs along both strings. The outer loop ends at
the `NUL` of `s1`, before the inner one has been tried there.
-/

namespace Lainos.Libc

open Library

namespace Strstr

/-- `while (*p2 && (*p1 == *p2))`, with the place where `p2` stops; `none` if `fuel` is used up. -/
def agree (m : Bytes) : ℕ → ℕ → ℕ → Option ℕ
  | 0, _, _ => none
  | fuel + 1, p1, p2 =>
    if m p2 ≠ 0 ∧ m p1 = m p2 then agree m fuel (p1 + 1) (p2 + 1) else some p2

/-- The loop of `strstr` from `s1` on; its result `none` is `NULL`. -/
def strstrFrom (m : Bytes) (fuel s2 : ℕ) : ℕ → ℕ → Option (Option ℕ)
  | 0, _ => none
  | rounds + 1, s1 =>
    if m s1 = 0 then some none
    else
      match agree m fuel s1 s2 with
      | none => none
      | some p2 => if m p2 = 0 then some (some s1) else strstrFrom m fuel s2 rounds (s1 + 1)

def strstr (fuel : ℕ) (m : Bytes) (s1 s2 : ℕ) : Option (Option ℕ) := strstrFrom m fuel s2 fuel s1

/-- `t` begins at place `i` of `s`. -/
def OccursAt (s t : List UInt8) (i : ℕ) : Prop := i ≤ s.length ∧ t <+: s.drop i

/-- The result points at the first occurrence, and is `NULL` exactly if there is none. -/
def FindsFirst (a : ℕ) (s t : List UInt8) (r : Option ℕ) : Prop :=
  (∀ i, OccursAt s t i → (∀ j < i, ¬ OccursAt s t j) → r = some (a + i)) ∧
    (r = none ↔ ∀ i, ¬ OccursAt s t i)

/-- The call ends with the right result. -/
def StrstrRight (m : Bytes) (s1 s2 : ℕ) (s t : List UInt8) : Prop :=
  ∃ fuel r, strstr fuel m s1 s2 = some r ∧ FindsFirst s1 s t r

variable {m : Bytes} {a b : ℕ} {s t : List UInt8}

/-- The inner loop comes to the end of the second string exactly if that begins the first. -/
theorem agree_spec (hs : IsString m a s) (ht : IsString m b t) {fuel : ℕ} (hfuel : t.length < fuel) :
    ∃ p, agree m fuel a b = some p ∧ (m p = 0 ↔ t <+: s) := by
  induction t generalizing a b s fuel with
  | nil =>
    obtain ⟨fuel, rfl⟩ : ∃ k, fuel = k + 1 := ⟨fuel - 1, by omega⟩
    have hb := isString_nil_iff.mp ht
    exact ⟨b, by rw [agree, if_neg fun h => h.1 hb], by simp [hb]⟩
  | cons c t ih =>
    obtain ⟨fuel, rfl⟩ : ∃ k, fuel = k + 1 := ⟨fuel - 1, by omega⟩
    obtain ⟨hb, hc, ht'⟩ := isString_cons_iff.mp ht
    rw [agree]
    cases s with
    | nil =>
      have ha := isString_nil_iff.mp hs
      have hne : ¬ (m b ≠ 0 ∧ m a = m b) := by
        rintro ⟨h0, heq⟩
        exact h0 (heq ▸ ha)
      exact ⟨b, by rw [if_neg hne], by simp [hb, hc]⟩
    | cons d s =>
      obtain ⟨ha, hd, hs'⟩ := isString_cons_iff.mp hs
      by_cases hcd : c = d
      · subst hcd
        obtain ⟨p, hp, hiff⟩ := ih hs' ht' (show t.length < fuel by simpa using hfuel)
        refine ⟨p, by rw [if_pos ⟨by rw [hb]; exact hc, by rw [ha, hb]⟩, hp], ?_⟩
        rw [hiff, List.cons_prefix_cons]
        simp
      · have hne : ¬ (m b ≠ 0 ∧ m a = m b) := by
          rintro ⟨-, heq⟩
          rw [ha, hb] at heq
          exact hcd heq.symm
        exact ⟨b, by rw [if_neg hne], by simp [hb, hc, List.cons_prefix_cons, hcd]⟩

/-- The outer loop finds the first place before the end where the second string begins. -/
theorem strstrFrom_spec (hs : IsString m a s) (ht : IsString m b t) {fuel rounds : ℕ}
    (hfuel : t.length < fuel) (hrounds : s.length < rounds) :
    ∃ r, strstrFrom m fuel b rounds a = some r ∧
      (r = none → ∀ i < s.length, ¬ t <+: s.drop i) ∧
      ∀ p, r = some p → ∃ i < s.length, p = a + i ∧ t <+: s.drop i ∧ ∀ j < i, ¬ t <+: s.drop j := by
  induction s generalizing a rounds with
  | nil =>
    obtain ⟨rounds, rfl⟩ : ∃ k, rounds = k + 1 := ⟨rounds - 1, by omega⟩
    refine ⟨none, by rw [strstrFrom, if_pos (isString_nil_iff.mp hs)], fun _ i hi => ?_,
      fun p hp => (by cases hp)⟩
    simp at hi
  | cons c s ih =>
    obtain ⟨rounds, rfl⟩ : ∃ k, rounds = k + 1 := ⟨rounds - 1, by omega⟩
    obtain ⟨ha, hc, hs'⟩ := isString_cons_iff.mp hs
    obtain ⟨p, hp, hiff⟩ := agree_spec hs ht hfuel
    rw [strstrFrom, if_neg (by rw [ha]; exact hc), hp]
    dsimp only
    by_cases hhere : t <+: c :: s
    · rw [if_pos (hiff.mpr hhere)]
      refine ⟨some a, rfl, fun h => (by cases h), fun q hq => ?_⟩
      obtain rfl : a = q := Option.some.inj hq
      exact ⟨0, by simp, rfl, hhere, fun j hj => by omega⟩
    · rw [if_neg fun h => hhere (hiff.mp h)]
      obtain ⟨r, hr, hnone, hsome⟩ := ih hs' (show s.length < rounds by simpa using hrounds)
      refine ⟨r, hr, fun h i hi => ?_, fun q hq => ?_⟩
      · cases i with
        | zero => exact hhere
        | succ i => exact hnone h i (by simpa using hi)
      · obtain ⟨i, hi, rfl, hpre, hfirst⟩ := hsome q hq
        refine ⟨i + 1, by simpa using hi, by omega, hpre, fun j hj => ?_⟩
        cases j with
        | zero => exact hhere
        | succ j => exact hfirst j (by omega)

/-- Only the empty string occurs at the end. -/
theorem OccursAt.lt_or {i : ℕ} (h : OccursAt s t i) : i < s.length ∨ t = [] := by
  obtain ⟨hi, hpre⟩ := h
  rcases Nat.lt_or_ge i s.length with hlt | hge
  · exact Or.inl hlt
  · rw [List.drop_eq_nil_of_le hge] at hpre
    exact Or.inr (List.prefix_nil.mp hpre)

/-- The result is right exactly if the strings are not both empty: the empty string is found in
every other one. -/
theorem strstr_right_iff (m : Bytes) (a b : ℕ) (s t : List UInt8) (hs : IsString m a s)
    (ht : IsString m b t) : StrstrRight m a b s t ↔ ¬ (s = [] ∧ t = []) := by
  constructor
  · -- in the empty string the loop is not entered
    rintro ⟨fuel, r, hrun, hfirst, -⟩ ⟨rfl, rfl⟩
    have hzero : OccursAt [] [] 0 := ⟨le_rfl, List.nil_prefix⟩
    have hr := hfirst 0 hzero fun j hj => by omega
    cases fuel with
    | zero => cases hrun
    | succ fuel =>
      rw [strstr, strstrFrom, if_pos (isString_nil_iff.mp hs), hr] at hrun
      cases hrun
  · intro hne
    obtain ⟨r, hrun, hnone, hsome⟩ := strstrFrom_spec hs ht
      (show t.length < s.length + t.length + 1 by omega)
      (show s.length < s.length + t.length + 1 by omega)
    refine ⟨s.length + t.length + 1, r, hrun, fun i hi hleast => ?_, fun hr i hi => ?_, fun hno => ?_⟩
    · cases r with
      | none =>
        rcases hi.lt_or with hlt | rfl
        · exact absurd hi.2 (hnone rfl i hlt)
        · have hpos : 0 < s.length := List.length_pos_iff.mpr fun h => hne ⟨h, rfl⟩
          exact absurd List.nil_prefix (hnone rfl 0 hpos)
      | some p =>
        obtain ⟨k, hk, rfl, hpre, hfirst⟩ := hsome p rfl
        have hki : ¬ k < i := fun h => hleast k h ⟨by omega, hpre⟩
        have hik : ¬ i < k := fun h => hfirst i h hi.2
        rw [show k = i by omega]
    · rcases hi.lt_or with hlt | rfl
      · exact hnone hr i hlt hi.2
      · have hpos : 0 < s.length := List.length_pos_iff.mpr fun h => hne ⟨h, rfl⟩
        exact hnone hr 0 hpos List.nil_prefix
    · cases r with
      | none => rfl
      | some p =>
        obtain ⟨k, hk, -, hpre, -⟩ := hsome p rfl
        exact absurd ⟨by omega, hpre⟩ (hno k)

/-- The memory with the string `aab` at 0 and the string `ab` at 8. -/
def sample : Bytes := store (store (fun _ => 0) 0 [97, 97, 98]) 8 [97, 98]

theorem strstr_right_overlap : StrstrRight sample 0 8 [97, 97, 98] [97, 98] := by
  have hs : IsString sample 0 [97, 97, 98] := ⟨⟨rfl, rfl, rfl, rfl, trivial⟩, by decide⟩
  have ht : IsString sample 8 [97, 98] := ⟨⟨rfl, rfl, rfl, trivial⟩, by decide⟩
  exact (strstr_right_iff sample 0 8 _ _ hs ht).mpr (by simp)

/-- The empty string is not found in the empty string. -/
theorem strstr_empty : strstr 1 (fun _ => 0) 0 0 = some none ∧
    ¬ StrstrRight (fun _ => 0) 0 0 [] [] := by
  refine ⟨by decide, ?_⟩
  rintro ⟨fuel, r, hrun, hfirst, -⟩
  have hr := hfirst 0 ⟨le_rfl, List.nil_prefix⟩ fun j hj => by omega
  cases fuel with
  | zero => cases hrun
  | succ fuel =>
    rw [strstr, strstrFrom, if_pos rfl, hr] at hrun
    cases hrun

end Strstr

end Lainos.Libc
