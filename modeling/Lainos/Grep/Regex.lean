import Lainos.Grep.Matcher
import Mathlib.Data.List.Induction

/-!
# What a pattern means

A pattern is read from left to right: `x*` for any number of `x`, a last `$` for the end of
the text, `.` for any byte, and each other byte for itself. The functions of `apps/grep.c`
on strings in memory are compared with this reading.
-/

namespace Lainos.Grep

open Library

/-! ## The reading of a pattern -/

/-- The byte `x` is one that `c` of a pattern stands for. -/
def Stands (c x : UInt8) : Prop := x = c ∨ c = 46

/-- The bytes `s` match the pattern when `rest` follows them in the text. -/
inductive Matches : List UInt8 → List UInt8 → List UInt8 → Prop
  | nil {rest} : Matches [] [] rest
  | star {c re s₁ s₂ rest} : (∀ x ∈ s₁, Stands c x) → Matches re s₂ rest →
      Matches (c :: 42 :: re) (s₁ ++ s₂) rest
  | dollar : Matches [36] [] []
  | one {c re x s rest} : re.head? ≠ some 42 → ¬ (c = 36 ∧ re = []) → Stands c x →
      Matches re s rest → Matches (c :: re) (x :: s) rest

variable {re text : List UInt8} {c : UInt8} {a b n : ℕ} {mem : Bytes}

/-- The text begins with a match. -/
def Begins (re text : List UInt8) : Prop := ∃ s rest, text = s ++ rest ∧ Matches re s rest

theorem begins_nil (text : List UInt8) : Begins [] text := ⟨[], text, rfl, .nil⟩

theorem begins_star_iff :
    Begins (c :: 42 :: re) text ↔ ∃ s t, text = s ++ t ∧ (∀ x ∈ s, Stands c x) ∧ Begins re t := by
  constructor
  · rintro ⟨s, rest, rfl, h⟩
    cases h with
    | star hs h => exact ⟨_, _, List.append_assoc .., hs, _, _, rfl, h⟩
    | one hstar _ _ _ => exact absurd rfl hstar
  · rintro ⟨s₁, t, rfl, hs, s₂, rest, rfl, h⟩
    exact ⟨s₁ ++ s₂, rest, (List.append_assoc ..).symm, .star hs h⟩

theorem begins_dollar_iff : Begins [36] text ↔ text = [] := by
  constructor
  · rintro ⟨s, rest, rfl, h⟩
    cases h with
    | dollar => rfl
    | one _ hend _ _ => exact absurd ⟨rfl, rfl⟩ hend
  · rintro rfl
    exact ⟨[], [], rfl, .dollar⟩

theorem begins_one_iff (hstar : re.head? ≠ some 42) (hend : ¬ (c = 36 ∧ re = [])) :
    Begins (c :: re) text ↔ ∃ x t, text = x :: t ∧ Stands c x ∧ Begins re t := by
  constructor
  · rintro ⟨s, rest, rfl, h⟩
    cases h with
    | star => exact absurd rfl hstar
    | dollar => exact absurd ⟨rfl, rfl⟩ hend
    | one _ _ hx h => exact ⟨_, _, rfl, hx, _, _, rfl, h⟩
  · rintro ⟨x, t, rfl, hx, s, rest, rfl, h⟩
    exact ⟨x :: s, rest, rfl, .one hstar hend hx h⟩

/-! ## The functions on lists -/

theorem matchhere_cons (hstar : re.head? ≠ some 42) (hend : ¬ (c = 36 ∧ re = [])) :
    matchhere (c :: re) text =
      match text with
      | [] => false
      | x :: text => (c == 46 || c == x) && matchhere re text := by
  rw [matchhere.eq_def]
  split
  · contradiction
  · next heq =>
    cases heq
    exact absurd rfl hstar
  · next heq =>
    cases heq
    exact absurd ⟨rfl, rfl⟩ hend
  · next heq =>
    cases heq
    rfl

theorem matchstar_iff {here : List UInt8 → Bool} :
    matchstar here c text = true ↔
      ∃ s t, text = s ++ t ∧ (∀ x ∈ s, Stands c x) ∧ here t = true := by
  induction text with
  | nil =>
    constructor
    · intro h
      exact ⟨[], [], rfl, List.forall_mem_nil _, h⟩
    · rintro ⟨s, t, heq, -, h⟩
      obtain ⟨rfl, rfl⟩ := List.nil_eq_append_iff.mp heq
      exact h
  | cons x text ih =>
    simp only [matchstar, Bool.or_eq_true, Bool.and_eq_true, beq_iff_eq, ih]
    constructor
    · rintro (h | ⟨hx, s, t, rfl, hs, h⟩)
      · exact ⟨[], x :: text, rfl, List.forall_mem_nil _, h⟩
      · exact ⟨x :: s, t, rfl, List.forall_mem_cons.mpr ⟨hx, hs⟩, h⟩
    · rintro ⟨s, t, heq, hs, h⟩
      cases s with
      | nil => exact .inl (heq ▸ h)
      | cons y s =>
        obtain ⟨rfl, rfl⟩ := List.cons.inj heq
        rw [List.forall_mem_cons] at hs
        exact .inr ⟨hs.1, s, t, rfl, hs.2, h⟩

theorem matchhere_one_iff (hstar : re.head? ≠ some 42) (hend : ¬ (c = 36 ∧ re = []))
    (ih : ∀ text, matchhere re text = true ↔ Begins re text) :
    matchhere (c :: re) text = true ↔ Begins (c :: re) text := by
  rw [matchhere_cons hstar hend, begins_one_iff hstar hend]
  cases text with
  | nil => simp
  | cons x text =>
    simp only [Bool.and_eq_true, Bool.or_eq_true, beq_iff_eq, ih, List.cons.injEq]
    constructor
    · rintro ⟨hx, h⟩
      exact ⟨x, text, ⟨rfl, rfl⟩, hx.symm.imp_left Eq.symm, h⟩
    · rintro ⟨_, _, ⟨rfl, rfl⟩, hx, h⟩
      exact ⟨hx.symm.imp_right Eq.symm, h⟩

theorem matchhere_iff (re text : List UInt8) : matchhere re text = true ↔ Begins re text := by
  induction re using List.twoStepInduction generalizing text with
  | nil => exact ⟨fun _ => begins_nil text, fun _ => rfl⟩
  | singleton c =>
    by_cases hc : c = 36
    · subst hc
      rw [begins_dollar_iff, matchhere, List.isEmpty_iff]
    · refine matchhere_one_iff (by simp) (fun h => hc h.1) fun text => ?_
      exact ⟨fun _ => begins_nil text, fun _ => rfl⟩
  | cons_cons c d re ih ih' =>
    by_cases hd : d = 42
    · subst hd
      rw [begins_star_iff, matchhere, matchstar_iff]
      simp only [ih]
    · exact matchhere_one_iff (by simpa using hd) (by simp) (ih' d)

/-- A match somewhere in the text, or at its beginning after `^`. -/
def Found (re text : List UInt8) : Prop :=
  if re.head? = some 94 then Begins re.tail text else ∃ s t, text = s ++ t ∧ Begins re t

theorem matchAnywhere_iff (re text : List UInt8) :
    matchAnywhere re text = true ↔ ∃ s t, text = s ++ t ∧ Begins re t := by
  induction text with
  | nil => simp [matchAnywhere, matchhere_iff]
  | cons x text ih =>
    rw [matchAnywhere, Bool.or_eq_true, matchhere_iff, ih]
    constructor
    · rintro (h | ⟨s, t, rfl, h⟩)
      · exact ⟨[], _, rfl, h⟩
      · exact ⟨x :: s, t, rfl, h⟩
    · rintro ⟨s, t, heq, h⟩
      cases s with
      | nil => exact .inl (heq ▸ h)
      | cons y s => exact .inr ⟨s, t, (List.cons.inj heq).2, h⟩

theorem matchText_iff (re text : List UInt8) : matchText re text = true ↔ Found re text := by
  unfold Found
  split
  · next h =>
    obtain ⟨c, re, rfl⟩ := List.exists_cons_of_ne_nil (l := re) (by rintro rfl; cases h)
    cases h
    exact matchhere_iff re text
  · next h =>
    rw [← matchAnywhere_iff, matchText.eq_def]
    split
    · exact absurd rfl h
    · rfl

/-! ## The functions on strings in memory -/

mutual

/-- `matchhere` of the source at two addresses; `none` when the calls are nested deeper
than the first argument allows. -/
def matchhereAt (mem : Bytes) : ℕ → ℕ → ℕ → Option Bool
  | 0, _, _ => none
  | n + 1, re, text =>
    if mem re = 0 then some true
    else if mem (re + 1) = 42 then matchstarAt mem n (mem re) (re + 2) text
    else if mem re = 36 ∧ mem (re + 1) = 0 then some (mem text == 0)
    else if mem text ≠ 0 ∧ (mem re = 46 ∨ mem re = mem text) then
      matchhereAt mem n (re + 1) (text + 1)
    else some false

/-- `matchstar` of the source; each turn of its loop counts as a call. -/
def matchstarAt (mem : Bytes) : ℕ → UInt8 → ℕ → ℕ → Option Bool
  | 0, _, _, _ => none
  | n + 1, c, re, text =>
    (matchhereAt mem n re text).bind fun found =>
      if found then some true
      else if mem text ≠ 0 ∧ (mem text = c ∨ c = 46) then matchstarAt mem n c re (text + 1)
      else some false

end

/-- The loop of `match`. -/
def matchLoop (mem : Bytes) : ℕ → ℕ → ℕ → Option Bool
  | 0, _, _ => none
  | n + 1, re, text =>
    (matchhereAt mem n re text).bind fun found =>
      if found then some true
      else if mem text ≠ 0 then matchLoop mem n re (text + 1)
      else some false

def matchAt (mem : Bytes) (n re text : ℕ) : Option Bool :=
  if mem re = 94 then matchhereAt mem n (re + 1) text else matchLoop mem n re text

/-- The loop of `matchstar`, by induction on the text; `re` is behind the star. -/
theorem matchstarAt_eq (c : UInt8) (htext : IsString mem b text)
    (hhere : ∀ n b text, IsString mem b text → re.length + text.length < n →
      matchhereAt mem n a b = some (matchhere re text))
    (hn : re.length + text.length + 1 < n) :
    matchstarAt mem n c a b = some (matchstar (matchhere re) c text) := by
  induction text generalizing b n with
  | nil =>
    cases n with
    | zero => cases hn
    | succ n =>
      rw [matchstarAt, hhere n b [] htext (by omega), Option.bind_some, matchstar]
      cases matchhere re [] with
      | true => rfl
      | false =>
        rw [if_neg Bool.false_ne_true]
        exact if_neg fun h => h.1 (isString_nil_iff.mp htext)
  | cons x text ih =>
    cases n with
    | zero => cases hn
    | succ n =>
      rw [matchstarAt, hhere n b _ htext (by omega), Option.bind_some, matchstar]
      obtain ⟨hx, hne, htail⟩ := isString_cons_iff.mp htext
      rw [List.length_cons] at hn
      rw [hx, ih htail (by omega)]
      cases matchhere re (x :: text) with
      | true => rfl
      | false =>
        rw [if_neg Bool.false_ne_true, Bool.false_or]
        by_cases hstand : x = c ∨ c = 46
        · rw [if_pos ⟨hne, hstand⟩]
          have : (x == c || c == 46) = true := by simpa using hstand
          rw [this, Bool.true_and]
        · rw [if_neg (fun h => hstand h.2)]
          have : (x == c || c == 46) = false := by simpa using hstand
          rw [this, Bool.false_and]

theorem matchhereAt_one (hstar : re.head? ≠ some 42) (hend : ¬ (c = 36 ∧ re = []))
    (hre : IsString mem a (c :: re)) (htext : IsString mem b text)
    (hrest : ∀ b text, IsString mem b text → re.length + text.length < n →
      matchhereAt mem n (a + 1) b = some (matchhere re text))
    (hn : re.length + text.length < n + 1) :
    matchhereAt mem (n + 1) a b = some (matchhere (c :: re) text) := by
  obtain ⟨hc, hne, htail⟩ := isString_cons_iff.mp hre
  have hnil : mem (a + 1) = 0 → re = [] := by
    intro h
    cases re with
    | nil => rfl
    | cons d re =>
      obtain ⟨hd, hdne, -⟩ := isString_cons_iff.mp htail
      exact absurd (hd.symm.trans h) hdne
  rw [matchhereAt, if_neg (by rwa [hc]), if_neg (mt (htail.head (by decide)).mp hstar), hc,
    if_neg (fun h => hend ⟨h.1, hnil h.2⟩), matchhere_cons hstar hend]
  cases text with
  | nil => exact if_neg fun h => h.1 (isString_nil_iff.mp htext)
  | cons x text =>
    obtain ⟨hx, hxne, hxs⟩ := isString_cons_iff.mp htext
    rw [List.length_cons] at hn
    rw [hx, hrest _ _ hxs (by omega)]
    by_cases hstand : c = 46 ∨ c = x
    · rw [if_pos ⟨hxne, hstand⟩]
      simp [hstand]
    · rw [if_neg (fun h => hstand h.2)]
      rw [not_or] at hstand
      simp [hstand]

/-- The calls are nested no deeper than the two strings are long. -/
theorem matchhereAt_eq (hre : IsString mem a re) (htext : IsString mem b text)
    (hn : re.length + text.length < n) : matchhereAt mem n a b = some (matchhere re text) := by
  induction re using List.twoStepInduction generalizing a b text n with
  | nil =>
    cases n with
    | zero => cases hn
    | succ n =>
      rw [matchhereAt, if_pos (isString_nil_iff.mp hre)]
      rfl
  | singleton c =>
    cases n with
    | zero => cases hn
    | succ n =>
      rw [List.length_singleton] at hn
      obtain ⟨hc, hne, htail⟩ := isString_cons_iff.mp hre
      have hzero := isString_nil_iff.mp htail
      by_cases hc36 : c = 36
      · subst hc36
        rw [matchhereAt, if_neg (by rwa [hc]), if_neg (by rw [hzero]; decide), if_pos ⟨hc, hzero⟩,
          matchhere]
        cases text with
        | nil => simp [isString_nil_iff.mp htext]
        | cons x text =>
          obtain ⟨hx, hxne, -⟩ := isString_cons_iff.mp htext
          simp [hx, hxne]
      · refine matchhereAt_one (by simp) (fun h => hc36 h.1) hre htext (fun b text _ hlen => ?_)
          (by rw [List.length_nil]; omega)
        cases n with
        | zero => cases hlen
        | succ n =>
          rw [matchhereAt, if_pos hzero]
          rfl
  | cons_cons c d re ih ih' =>
    cases n with
    | zero => cases hn
    | succ n =>
      rw [List.length_cons, List.length_cons] at hn
      by_cases hd : d = 42
      · subst hd
        obtain ⟨hc, hne, htail⟩ := isString_cons_iff.mp hre
        obtain ⟨hd, -, hrest⟩ := isString_cons_iff.mp htail
        rw [matchhereAt, if_neg (by rwa [hc]), if_pos hd, hc, matchhere]
        exact matchstarAt_eq c htext (fun n b text h hlen => ih hrest h hlen) (by omega)
      · refine matchhereAt_one (by simpa using hd) (by simp) hre htext
          (fun b text h hlen => ih' d (isString_cons_iff.mp hre).2.2 h hlen) ?_
        rw [List.length_cons]
        omega

theorem matchLoop_eq (hre : IsString mem a re) (htext : IsString mem b text)
    (hn : re.length + text.length + 1 < n) :
    matchLoop mem n a b = some (matchAnywhere re text) := by
  induction text generalizing b n with
  | nil =>
    cases n with
    | zero => cases hn
    | succ n =>
      rw [matchLoop, matchhereAt_eq hre htext (by omega), Option.bind_some, matchAnywhere]
      cases matchhere re [] with
      | true => rfl
      | false =>
        rw [if_neg Bool.false_ne_true]
        exact if_neg fun h => h (isString_nil_iff.mp htext)
  | cons x text ih =>
    cases n with
    | zero => cases hn
    | succ n =>
      obtain ⟨hx, hne, htail⟩ := isString_cons_iff.mp htext
      rw [matchLoop, matchhereAt_eq hre htext (by omega), Option.bind_some, matchAnywhere]
      rw [List.length_cons] at hn
      rw [hx, if_pos hne, ih htail (by omega)]
      cases matchhere re (x :: text) <;> rfl

/-- `match` of the source returns, and it returns 1 exactly when the pattern is found. -/
theorem match_finds (hre : IsString mem a re) (htext : IsString mem b text) :
    ∃ found, (∀ n, re.length + text.length + 1 < n → matchAt mem n a b = some found) ∧
      (found = true ↔ Found re text) := by
  refine ⟨matchText re text, fun n hn => ?_, matchText_iff re text⟩
  rw [matchAt, matchText.eq_def]
  split
  · next h =>
    obtain ⟨re, rfl⟩ : ∃ re', re = 94 :: re' := by
      have hhead := (hre.head (by decide)).mp h
      cases re with
      | nil => cases hhead
      | cons c re => exact ⟨re, by rw [Option.some.inj hhead]⟩
    rw [List.length_cons] at hn
    exact matchhereAt_eq (isString_cons_iff.mp hre).2.2 htext (by omega)
  · next h =>
    split
    · exact absurd (isString_cons_iff.mp hre).1 h
    · exact matchLoop_eq hre htext hn

/-- The pattern `a*b` at 0 and the text `aab` at 4. -/
def twoStrings : Bytes := fun i => [97, 42, 98, 0, 97, 97, 98, 0].getD i 0

theorem match_finds_star :
    ∃ found, matchAt twoStrings 8 0 4 = some found ∧
      (found = true ↔ Found [97, 42, 98] [97, 97, 98]) := by
  have hre : IsString twoStrings 0 [97, 42, 98] := ⟨⟨rfl, rfl, rfl, rfl, trivial⟩, by decide⟩
  have htext : IsString twoStrings 4 [97, 97, 98] := ⟨⟨rfl, rfl, rfl, rfl, trivial⟩, by decide⟩
  obtain ⟨found, hrun, hfound⟩ := match_finds hre htext
  exact ⟨found, hrun 8 (by decide), hfound⟩

end Lainos.Grep
