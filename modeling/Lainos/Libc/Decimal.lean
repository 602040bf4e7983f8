import Lainos.Libc.Ctype
import Lainos.Library.Positional

/-!
# Decimal text

`atoi` reads a number, `printint` writes one. A string is the list of its bytes, and the end of
the list is its `NUL`, which neither table has as white space or as a digit. Since `tolower` finds
the row of the character before, each digit counts one less than it says and a `0` ends the number.
-/

namespace Lainos.Libc

open Library

/-! ## Reading -/

/-- The loop of `_atomax` over the digits. -/
def atoLoop (k : Ctype) : ℤ → List UInt8 → ℤ
  | rc, [] => rc
  | rc, c :: s =>
    match digitOf k 10 c with
    | none => rc
    | some d => atoLoop k (Int.bmod (rc * 10 + d) (2 ^ 64)) s

/-- `_atomax` behind the white space. -/
def atoSigned (k : Ctype) : List UInt8 → ℤ
  | [] => 0
  | c :: s =>
    if c = 43 then atoLoop k 0 s
    else if c = 45 then Int.bmod (-atoLoop k 0 s) (2 ^ 64)
    else atoLoop k 0 (c :: s)

def atomax (k : Ctype) (s : List UInt8) : ℤ :=
  atoSigned k (s.dropWhile fun c => k.isspace (char c))

def atoi (k : Ctype) (s : List UInt8) : ℤ := Int.bmod (atomax k s) (2 ^ 32)

/-! ## Writing -/

/-- `digits` of `printint`. -/
def printDigits : List UInt8 :=
  [48, 49, 50, 51, 52, 53, 54, 55, 56, 57, 65, 66, 67, 68, 69, 70]

/-- The loop of `printint` that fills `buf`, which has `room` left. -/
def fillBuf (base : ℕ) : ℕ → ℕ → List UInt8
  | 0, _ => []
  | room + 1, x =>
    printDigits.getD (x % base) 0 :: if x / base = 0 then [] else fillBuf base room (x / base)

/-- The bytes `printint` writes; `%d` is `printint` with `base` 10 and `sgn` true. -/
def printint (xx : ℤ) (base : ℕ) (sgn : Bool) : List UInt8 :=
  let neg := sgn ∧ xx < 0
  let x := ((if neg then -xx else xx) % 2 ^ 32).toNat
  (fillBuf base 16 x ++ if neg then [45] else []).reverse

/-! ## Decimal digits -/

/-- The byte is one of `0` to `9`. -/
def IsDecimal (c : UInt8) : Prop := 48 ≤ c.toNat ∧ c.toNat ≤ 57

instance (c : UInt8) : Decidable (IsDecimal c) := inferInstanceAs (Decidable (_ ∧ _))

/-- The number that decimal digits stand for. -/
def decimal (ds : List UInt8) : ℕ := accumulate 10 0 (ds.map fun c => c.toNat - 48)

theorem digitOf_decimal (stray : ℤ → Row) {c : UInt8} (hc : IsDecimal c) (hne : c ≠ 48) :
    digitOf (libcCtype stray) 10 c = some (c.toNat - 49) := by
  obtain ⟨hlo, hhi⟩ := hc
  have hnat : c.toNat ≠ 48 := fun h => hne (UInt8.toNat_inj.mp h)
  have hshift := digitOf_shifted stray (show c.toNat - 49 < 9 by omega)
  rwa [show 49 + (c.toNat - 49) = c.toNat by omega, UInt8.ofNat_toNat] at hshift

theorem bmod_of_small {x : ℤ} (n : ℕ) (hlo : -2 ^ n ≤ x) (hhi : x < 2 ^ n) :
    Int.bmod x (2 ^ (n + 1)) = x := by
  apply Int.bmod_eq_of_le
  · rw [pow_succ]
    push_cast
    omega
  · rw [pow_succ]
    push_cast
    omega

/-- What the loop reads stays below what the digits say, once it is below or a digit that is not
`0` comes. -/
theorem atoLoop_lt (stray : ℤ → Row) {ds : List UInt8} (hds : ∀ c ∈ ds, IsDecimal c)
    {rc acc : ℕ} (hle : rc ≤ acc) (hlt : rc < acc ∨ ∃ c ∈ ds, c ≠ 48)
    (hfits : accumulate 10 acc (ds.map fun c => c.toNat - 48) ≤ 2 ^ 31) :
    ∃ r : ℕ, atoLoop (libcCtype stray) rc ds = r ∧
      r < accumulate 10 acc (ds.map fun c => c.toNat - 48) := by
  induction ds generalizing rc acc with
  | nil =>
    rcases hlt with h | ⟨c, hc, -⟩
    · exact ⟨rc, rfl, h⟩
    · cases hc
  | cons c ds ih =>
    have hc : IsDecimal c := hds c (by simp)
    by_cases hzero : c = 48
    · -- the loop ends at a zero, and the digits go on
      subst hzero
      refine ⟨rc, by rw [atoLoop, digitOf_zero], ?_⟩
      rw [List.map_cons, accumulate_cons]
      have hgrow := le_accumulate (show 1 ≤ 10 by omega) (ds.map fun c => c.toNat - 48)
        (acc * 10 + ((48 : UInt8).toNat - 48))
      rcases Nat.lt_or_ge rc acc with h | h
      · omega
      · obtain ⟨d, hd, hne⟩ := hlt.resolve_left (by omega)
        have hmem : d ∈ ds := by
          rcases List.mem_cons.mp hd with rfl | h
          · exact absurd rfl hne
          · exact h
        have hnat : d.toNat ≠ 48 := fun h => hne (UInt8.toNat_inj.mp h)
        have hdec := hds d hd
        have hval : d.toNat - 48 ∈ ds.map fun c => c.toNat - 48 := List.mem_map_of_mem hmem
        have hmore := lt_accumulate (show 1 ≤ 10 by omega) (acc * 10 + ((48 : UInt8).toNat - 48))
          ⟨d.toNat - 48, hval, by have := hdec.1; omega⟩
        omega
    · have hnat : c.toNat ≠ 48 := fun h => hzero (UInt8.toNat_inj.mp h)
      have hlo := hc.1
      rw [List.map_cons, accumulate_cons] at hfits ⊢
      have hgrow := le_accumulate (show 1 ≤ 10 by omega) (ds.map fun c => c.toNat - 48)
        (acc * 10 + (c.toNat - 48))
      have hstep : Int.bmod ((rc : ℤ) * 10 + ((c.toNat - 49 : ℕ) : ℤ)) (2 ^ 64) =
          ((rc * 10 + (c.toNat - 49) : ℕ) : ℤ) := by
        rw [Nat.cast_add, Nat.cast_mul]
        exact bmod_of_small 63 (by omega) (by omega)
      obtain ⟨r, hr, hrlt⟩ := ih (fun e he => hds e (by simp [he]))
        (show rc * 10 + (c.toNat - 49) ≤ acc * 10 + (c.toNat - 48) by omega)
        (Or.inl (by omega)) hfits
      refine ⟨r, ?_, hrlt⟩
      rw [atoLoop, digitOf_decimal stray hc hzero]
      show atoLoop _ (Int.bmod ((rc : ℤ) * 10 + ((c.toNat - 49 : ℕ) : ℤ)) (2 ^ 64)) ds = r
      rw [hstep, hr]

theorem decimal_eq_zero_iff {ds : List UInt8} (hds : ∀ c ∈ ds, IsDecimal c) :
    decimal ds = 0 ↔ ∀ c ∈ ds, c = 48 := by
  rw [decimal, accumulate_eq_zero_iff (by omega)]
  constructor
  · intro h c hc
    have hzero : c.toNat - 48 = 0 := h _ (List.mem_map_of_mem hc)
    have hlo := (hds c hc).1
    exact UInt8.toNat_inj.mp (show c.toNat = 48 by omega)
  · intro h d hd
    obtain ⟨c, hc, rfl⟩ := List.mem_map.mp hd
    rw [h c hc]
    rfl

/-- No decimal digit and no sign is looked up as white space. -/
theorem isspace_of_mark (stray : ℤ → Row) {c : UInt8} (hc : IsDecimal c ∨ c = 43 ∨ c = 45) :
    (libcCtype stray).isspace (char c) = false := by
  have hrange : c.toNat = 43 ∨ c.toNat = 45 ∨ 48 ≤ c.toNat ∧ c.toNat ≤ 57 := by
    rcases hc with h | rfl | rfl
    · exact Or.inr (Or.inr h)
    · exact Or.inl rfl
    · exact Or.inr (Or.inl rfl)
  rw [isspace_char stray (by omega)]
  generalize c.toNat = n at hrange
  have hcases : n = 43 ∨ n = 45 ∨ n = 48 ∨ n = 49 ∨ n = 50 ∨ n = 51 ∨ n = 52 ∨ n = 53 ∨ n = 54 ∨
      n = 55 ∨ n = 56 ∨ n = 57 := by omega
  rcases hcases with rfl | rfl | rfl | rfl | rfl | rfl | rfl | rfl | rfl | rfl | rfl | rfl <;>
    decide

/-- Digits that are not all `0` are read as less than they say. -/
theorem atoLoop_short (stray : ℤ → Row) {ds : List UInt8} (hds : ∀ c ∈ ds, IsDecimal c)
    (hne : decimal ds ≠ 0) (hfits : decimal ds ≤ 2 ^ 31) :
    ∃ r : ℕ, atoLoop (libcCtype stray) 0 ds = r ∧ r < decimal ds := by
  have hdigit : ∃ c ∈ ds, c ≠ 48 := by
    by_contra hall
    push Not at hall
    exact hne ((decimal_eq_zero_iff hds).mpr hall)
  exact atoLoop_lt stray hds (le_refl 0) (Or.inr hdigit) hfits

theorem atoi_negative_ne (stray : ℤ → Row) {ds : List UInt8} (hds : ∀ c ∈ ds, IsDecimal c)
    (hne : decimal ds ≠ 0) (hfits : decimal ds ≤ 2 ^ 31) :
    atoi (libcCtype stray) (45 :: ds) ≠ -decimal ds := by
  obtain ⟨r, hr, hlt⟩ := atoLoop_short stray hds hne hfits
  have hmax : atomax (libcCtype stray) (45 :: ds) = -(r : ℤ) := by
    rw [atomax, List.dropWhile_cons_of_neg (by simp [isspace_of_mark stray (Or.inr (Or.inr rfl))]),
      atoSigned, if_neg (by decide), if_pos rfl, hr]
    exact bmod_of_small 63 (by omega) (by omega)
  rw [atoi, hmax, bmod_of_small 31 (by omega) (by omega)]
  omega

theorem atoi_positive_ne (stray : ℤ → Row) {ds : List UInt8} (hds : ∀ c ∈ ds, IsDecimal c)
    (hne : decimal ds ≠ 0) (hfits : decimal ds < 2 ^ 31) :
    atoi (libcCtype stray) ds ≠ decimal ds := by
  obtain ⟨r, hr, hlt⟩ := atoLoop_short stray hds hne (by omega)
  cases ds with
  | nil => exact absurd rfl hne
  | cons c ds =>
    have hc := hds c (by simp)
    have hplus : c ≠ 43 := by rintro rfl; exact absurd hc.1 (by decide)
    have hminus : c ≠ 45 := by rintro rfl; exact absurd hc.1 (by decide)
    have hmax : atomax (libcCtype stray) (c :: ds) = (r : ℤ) := by
      rw [atomax, List.dropWhile_cons_of_neg (by simp [isspace_of_mark stray (Or.inl hc)]),
        atoSigned, if_neg hplus, if_neg hminus, hr]
    rw [atoi, hmax, bmod_of_small 31 (by omega) (by omega)]
    omega

/-! ## What is written -/

theorem printDigits_getD {d : ℕ} (hd : d < 10) :
    IsDecimal (printDigits.getD d 0) ∧ (printDigits.getD d 0).toNat - 48 = d := by
  interval_cases d <;> decide

/-- The digits of a number that fits in the buffer, from the last one on. -/
theorem fillBuf_spec (room x : ℕ) (hx : x < 10 ^ (room + 1)) :
    (∀ c ∈ fillBuf 10 (room + 1) x, IsDecimal c) ∧ decimal (fillBuf 10 (room + 1) x).reverse = x := by
  induction room generalizing x with
  | zero =>
    obtain ⟨hdec, hval⟩ := printDigits_getD (show x % 10 < 10 by omega)
    have hdiv : x / 10 = 0 := by omega
    rw [fillBuf, if_pos hdiv]
    refine ⟨by simpa using hdec, ?_⟩
    simp only [decimal, List.reverse_singleton, List.map_cons, List.map_nil, accumulate_cons,
      accumulate_nil, hval]
    omega
  | succ room ih =>
    obtain ⟨hdec, hval⟩ := printDigits_getD (show x % 10 < 10 by omega)
    rw [fillBuf]
    split
    · refine ⟨by simpa using hdec, ?_⟩
      simp only [decimal, List.reverse_singleton, List.map_cons, List.map_nil, accumulate_cons,
        accumulate_nil, hval]
      omega
    · have hpow : (10 : ℕ) ^ (room + 1 + 1) = 10 ^ (room + 1) * 10 := pow_succ 10 (room + 1)
      obtain ⟨hall, hrest⟩ := ih (x / 10) (by omega)
      refine ⟨fun c hc => ?_, ?_⟩
      · rcases List.mem_cons.mp hc with rfl | hc
        · exact hdec
        · exact hall c hc
      · rw [decimal] at hrest
        rw [decimal, List.reverse_cons, List.map_append, accumulate_append, hrest]
        simp only [List.map_cons, List.map_nil, accumulate_cons, accumulate_nil, hval]
        omega

theorem fillBuf_decimal {x : ℕ} (hx : x < 2 ^ 32) :
    (∀ c ∈ (fillBuf 10 16 x).reverse, IsDecimal c) ∧ decimal (fillBuf 10 16 x).reverse = x := by
  obtain ⟨hall, hval⟩ := fillBuf_spec 15 x (by omega)
  exact ⟨fun c hc => hall c (List.mem_reverse.mp hc), hval⟩

/-! ## The round trip -/

/-- The value of an `int`. -/
def IsInt (x : ℤ) : Prop := -2 ^ 31 ≤ x ∧ x < 2 ^ 31

/-- `atoi` reads back what `%d` writes for `x`. -/
def RoundTrips (stray : ℤ → Row) (x : ℤ) : Prop :=
  atoi (libcCtype stray) (printint x 10 true) = x

/-- An optional sign, and what it multiplies the number by. -/
inductive Sign : List UInt8 → ℤ → Prop
  | none : Sign [] 1
  | plus : Sign [43] 1
  | minus : Sign [45] (-1)

/-- White space, by the C locale or by the table. -/
def IsWhite (stray : ℤ → Row) (c : UInt8) : Prop :=
  cLocale.isspace (char c) = true ∨ (libcCtype stray).isspace (char c) = true

/-- `atoi` reads the digits `ds` as their value, whatever white space and sign stand before them
and whatever follows that does not begin with a digit. -/
def ReadsDigits (stray : ℤ → Row) (ds : List UInt8) : Prop :=
  ∀ ws sg m tail, (∀ c ∈ ws, IsWhite stray c) → Sign sg m → IsInt (m * decimal ds) →
    (∀ c ∈ tail.head?, ¬ IsDecimal c) →
    atoi (libcCtype stray) (ws ++ sg ++ ds ++ tail) = m * decimal ds

/-- White space that the table does not know is a tab or a blank, and neither is a digit. -/
theorem atoSigned_unskipped (stray : ℤ → Row) {c : UInt8} (hloc : cLocale.isspace (char c) = true)
    (hskip : ¬ (libcCtype stray).isspace (char c) = true) (s : List UInt8) :
    atoSigned (libcCtype stray) (c :: s) = 0 := by
  have hchar : char c = 32 ∨ 9 ≤ char c ∧ char c ≤ 13 := of_decide_eq_true hloc
  have hsmall : c.toNat < 128 := by
    by_contra hbig
    rw [char, if_neg hbig] at hchar
    have hlt := c.toNat_lt
    omega
  rw [char, if_pos hsmall] at hchar
  rw [isspace_char stray hsmall] at hskip
  have hcases : c.toNat = 9 ∨ c.toNat = 32 := by
    by_contra hother
    have hrange : c.toNat = 10 ∨ c.toNat = 11 ∨ c.toNat = 12 ∨ c.toNat = 13 := by omega
    rcases hrange with h | h | h | h <;> exact hskip (by rw [h]; decide)
  rcases hcases with h | h
  · obtain rfl : c = 9 := UInt8.toNat_inj.mp h
    rfl
  · obtain rfl : c = 32 := UInt8.toNat_inj.mp h
    rfl

/-- Behind white space the reading of `00…` gives zero: either `_atomax` stops at white space that
the table does not know, or at the first digit. -/
theorem atomax_zero (stray : ℤ → Row) {ws : List UInt8} (hws : ∀ c ∈ ws, IsWhite stray c)
    {sg : List UInt8} {m : ℤ} (hsg : Sign sg m) (rest : List UInt8) :
    atomax (libcCtype stray) (ws ++ (sg ++ 48 :: rest)) = 0 := by
  have hzero : atoLoop (libcCtype stray) 0 (48 :: rest) = 0 := by rw [atoLoop, digitOf_zero]
  induction ws with
  | nil =>
    have hmark : ∀ c, IsDecimal c ∨ c = 43 ∨ c = 45 → ∀ l,
        (c :: l).dropWhile (fun c => (libcCtype stray).isspace (char c)) = c :: l :=
      fun c hc l => List.dropWhile_cons_of_neg (by simp [isspace_of_mark stray hc])
    rw [atomax, List.nil_append]
    cases hsg with
    | none =>
      rw [List.nil_append, hmark 48 (Or.inl (by decide)), atoSigned, if_neg (by decide),
        if_neg (by decide), hzero]
    | plus =>
      rw [List.singleton_append, hmark 43 (by decide), atoSigned, if_pos rfl, hzero]
    | minus =>
      rw [List.singleton_append, hmark 45 (by decide), atoSigned, if_neg (by decide), if_pos rfl,
        hzero]
      rfl
  | cons c ws ih =>
    by_cases hskip : (libcCtype stray).isspace (char c) = true
    · rw [atomax, List.cons_append, List.dropWhile_cons, if_pos hskip]
      exact ih fun e he => hws e (by simp [he])
    · have hloc : cLocale.isspace (char c) = true :=
        (hws c (by simp)).resolve_right hskip
      rw [atomax, List.cons_append, List.dropWhile_cons, if_neg hskip]
      exact atoSigned_unskipped stray hloc hskip _

theorem roundTrips_iff (stray : ℤ → Row) {x : ℤ} (hx : IsInt x) : RoundTrips stray x ↔ x = 0 := by
  obtain ⟨hlo, hhi⟩ := hx
  constructor
  · intro htrip
    by_contra hne
    rcases Int.lt_or_le x 0 with hneg | hpos
    · have hmag : (-x % 4294967296).toNat = x.natAbs := by omega
      obtain ⟨hall, hval⟩ := fillBuf_decimal (show x.natAbs < 2 ^ 32 by omega)
      have htext : printint x 10 true = 45 :: (fillBuf 10 16 x.natAbs).reverse := by
        simp [printint, hneg, hmag]
      rw [RoundTrips, htext] at htrip
      exact atoi_negative_ne stray hall (by omega) (by omega) (htrip.trans (by omega))
    · have hmag : (x % 4294967296).toNat = x.natAbs := by omega
      obtain ⟨hall, hval⟩ := fillBuf_decimal (show x.natAbs < 2 ^ 32 by omega)
      have htext : printint x 10 true = (fillBuf 10 16 x.natAbs).reverse := by
        simp [printint, not_lt.mpr hpos, hmag]
      rw [RoundTrips, htext] at htrip
      exact atoi_positive_ne stray hall (by omega) (by omega) (htrip.trans (by omega))
  · rintro rfl
    rw [RoundTrips, atoi, show printint 0 10 true = [] ++ ([] ++ [48]) from rfl,
      atomax_zero stray (by simp) Sign.none]
    rfl

theorem readsDigits_iff (stray : ℤ → Row) {ds : List UInt8} (hne : ds ≠ [])
    (hds : ∀ c ∈ ds, IsDecimal c) (hfits : decimal ds ≤ 2 ^ 31) :
    ReadsDigits stray ds ↔ decimal ds = 0 := by
  constructor
  · intro hreads
    by_contra hpos
    have hread := hreads [] [45] (-1) [] (by simp) Sign.minus ⟨by omega, by omega⟩ (by simp)
    have htext : ([] : List UInt8) ++ [45] ++ ds ++ [] = 45 :: ds := by simp
    rw [htext] at hread
    exact atoi_negative_ne stray hds hpos hfits (by rw [hread]; omega)
  · intro hzero ws sg m tail hws hsg _ _
    obtain ⟨c, rest, rfl⟩ := List.exists_cons_of_ne_nil hne
    obtain rfl : c = 48 := (decimal_eq_zero_iff hds).mp hzero c (by simp)
    have htext : ws ++ sg ++ (48 :: rest) ++ tail = ws ++ (sg ++ 48 :: (rest ++ tail)) := by simp
    rw [atoi, htext, atomax_zero stray hws hsg, hzero]
    simp

/-- The round trip and the reading of digits are right for zero and for nothing else. -/
theorem decimal_text_iff (stray : ℤ → Row) :
    (∀ x, IsInt x → (RoundTrips stray x ↔ x = 0)) ∧
      ∀ ds, ds ≠ [] → (∀ c ∈ ds, IsDecimal c) → decimal ds ≤ 2 ^ 31 →
        (ReadsDigits stray ds ↔ decimal ds = 0) :=
  ⟨fun _ hx => roundTrips_iff stray hx, fun _ hne hds hfits => readsDigits_iff stray hne hds hfits⟩

theorem decimal_text_zero :
    RoundTrips (fun _ => ⟨0, 0⟩) 0 ∧ ReadsDigits (fun _ => ⟨0, 0⟩) [48, 48] := by
  have hdigits : ∀ c ∈ ([48, 48] : List UInt8), IsDecimal c := by
    intro c hc
    obtain rfl : c = 48 := by simpa using hc
    exact ⟨by decide, by decide⟩
  exact ⟨((decimal_text_iff _).1 0 ⟨by decide, by decide⟩).mpr rfl,
    ((decimal_text_iff _).2 [48, 48] (by simp) hdigits (by decide)).mpr rfl⟩

/-- `1` is written as it should be and read as zero. -/
theorem decimal_text_one : IsInt 1 ∧ printint 1 10 true = [49] ∧
    atoi (libcCtype fun _ => ⟨0, 0⟩) [49] = 0 ∧ ¬ RoundTrips (fun _ => ⟨0, 0⟩) 1 := by
  have hone : atoi (libcCtype fun _ => ⟨0, 0⟩) [49] = 0 := by decide
  have htext : printint 1 10 true = [49] := by decide
  refine ⟨⟨by decide, by decide⟩, htext, hone, ?_⟩
  rw [RoundTrips, htext, hone]
  decide

end Lainos.Libc
