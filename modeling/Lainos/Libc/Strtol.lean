import Lainos.Libc.Decimal
import Mathlib.Data.List.TakeWhile

/-!
# The `strtol` family

`_strtox_prelim` skips white space and a sign and finds the base, `_strtox_main` reads the digits,
and the four functions differ in the limits they pass. A pointer into the string is the rest of
the string from there on.
-/

namespace Lainos.Libc

open Library

def ERANGE : ℕ := 1

/-! ## The functions -/

/-- White space at the front is skipped. -/
def skipSpace (k : Ctype) (p : List UInt8) : List UInt8 := p.dropWhile fun c => k.isspace (char c)

/-- The sign, `'+'` if there is none, and what follows it. -/
def takeSign (p : List UInt8) : UInt8 × List UInt8 :=
  if p.headD 0 = 43 ∨ p.headD 0 = 45 then (p.headD 0, p.tail) else (43, p)

/-- The part of `_strtox_prelim` that determines the base and skips what marks it. -/
def takeBase (k : Ctype) (base : ℤ) (p : List UInt8) : List UInt8 × ℤ :=
  if p.headD 0 = 48 then
    let q := p.tail
    if (base = 0 ∨ base = 16) ∧ (q.headD 0 = 120 ∨ q.headD 0 = 88) then
      -- without a digit behind the mark the `0` is read again
      if digitOf k 16 (q.tail.headD 0) = none then (p, 16) else (q.tail, 16)
    else if base = 0 then (q, 8)
    else (p, base)
  else (p, if base = 0 then 10 else base)

/-- What `_strtox_main` leaves: its result, `*p`, `*sign` and `errno`. -/
structure Main where
  rc : ℕ
  p : Option (List UInt8)
  sign : UInt8
  errno : ℕ
deriving DecidableEq, Repr

/-- `_strtox_main` from `*p` on, with `rc` and `digit` as they stand there. -/
def strtoxMain (k : Ctype) (base error limval limdigit : ℕ) (sign : UInt8) (errno : ℕ) :
    ℕ → ℤ → List UInt8 → Main
  | rc, digit, [] => if digit = -1 then ⟨0, none, sign, errno⟩ else ⟨rc, some [], sign, errno⟩
  | rc, digit, c :: p =>
    match digitOf k base c with
    | none => if digit = -1 then ⟨0, none, sign, errno⟩ else ⟨rc, some (c :: p), sign, errno⟩
    | some d =>
      if rc < limval ∨ rc = limval ∧ d ≤ limdigit then
        strtoxMain k base error limval limdigit sign errno ((rc * base + d) % 2 ^ 64) d p
      else ⟨error, some ((c :: p).dropWhile fun c => (digitOf k base c).isSome), 43, ERANGE⟩

/-- The value returned, what is stored through `endptr`, as an offset into the string, and
`errno`. -/
structure Converted where
  value : ℤ
  endptr : Option ℕ
  errno : ℕ
deriving DecidableEq, Repr

/-- The end of all four functions; `cast` converts to the return type. -/
def finish (cast : ℤ → ℤ) (s : List UInt8) (out : Main) : Converted where
  value := if out.sign = 43 then cast out.rc else cast (-cast out.rc)
  endptr := some (s.length - (out.p.getD s).length)
  errno := out.errno

/-- `strtol` and `strtoll`, for a type of `w` bits from `min` to `max`. -/
def strtoSigned (k : Ctype) (w : ℕ) (min max : ℤ) (s : List UInt8) (base : ℤ) (errno : ℕ) :
    Converted :=
  let (sign, p) := takeSign (skipSpace k s)
  let (p, base) := takeBase k base p
  let b := base.toNat
  if base < 2 ∨ 36 < base then ⟨0, none, errno⟩
  else if sign = 43 then
    finish (fun x => Int.bmod x (2 ^ w)) s
      (strtoxMain k b (max % 2 ^ 64).toNat (max.tdiv base).toNat (max.tmod base).toNat sign errno
        0 (-1) p)
  else
    finish (fun x => Int.bmod x (2 ^ w)) s
      (strtoxMain k b (min % 2 ^ 64).toNat (min.tdiv (-base)).toNat (-min.tmod base).toNat sign errno
        0 (-1) p)

/-- `strtoul` and `strtoull`, for a type of `w` bits up to `max`. -/
def strtoUnsigned (k : Ctype) (w max : ℕ) (s : List UInt8) (base : ℤ) (errno : ℕ) : Converted :=
  let (sign, p) := takeSign (skipSpace k s)
  let (p, base) := takeBase k base p
  let b := base.toNat
  if base < 2 ∨ 36 < base then ⟨0, none, errno⟩
  else
    finish (fun x => x % 2 ^ w) s (strtoxMain k b max (max / b) (max % b) sign errno 0 (-1) p)

def longMax : ℤ := 0x7fffffff
def longMin : ℤ := -0x7fffffff - 1
def ulongMax : ℕ := 0xffffffff
def llongMax : ℤ := 0x7fffffffffffffff
def llongMin : ℤ := -0x7fffffffffffffff - 1
def ullongMax : ℕ := 0xffffffffffffffff

def strtol (k : Ctype) : List UInt8 → ℤ → ℕ → Converted := strtoSigned k 32 longMin longMax
def strtoll (k : Ctype) : List UInt8 → ℤ → ℕ → Converted := strtoSigned k 64 llongMin llongMax
def strtoul (k : Ctype) : List UInt8 → ℤ → ℕ → Converted := strtoUnsigned k 32 ulongMax
def strtoull (k : Ctype) : List UInt8 → ℤ → ℕ → Converted := strtoUnsigned k 64 ullongMax

/-! ## What the documentation says -/

/-- What a byte counts as a digit. -/
def digitValue (c : UInt8) : Option ℕ :=
  let n := c.toNat
  if 48 ≤ n ∧ n ≤ 57 then some (n - 48)
  else if 65 ≤ n ∧ n ≤ 90 then some (n - 55)
  else if 97 ≤ n ∧ n ≤ 122 then some (n - 87)
  else none

/-- A digit of the base. -/
def isDigit (b : ℕ) (c : UInt8) : Bool := (digitValue c).any (· < b)

/-- The number that digits stand for. -/
def numeral (b : ℕ) (ds : List UInt8) : ℕ := accumulate b 0 (ds.map fun c => (digitValue c).getD 0)

/-- The base `b` that the digits `ds` behind the mark `mk` are in, when `base` is asked for. -/
inductive Radix (base : ℕ) (ds : List UInt8) : List UInt8 → ℕ → Prop
  | given : base ≠ 0 → Radix base ds [] base
  | marked (x : UInt8) : base = 0 ∨ base = 16 → x = 120 ∨ x = 88 → Radix base ds [48, x] 16
  | octal : base = 0 → ds.head? = some 48 → Radix base ds [] 8
  | ten : base = 0 → ds.head? ≠ some 48 → Radix base ds [] 10

/-- The first `n` bytes of `body` are a number without a sign, and its value is `v`. -/
def Core (base : ℕ) (body : List UInt8) (n v : ℕ) : Prop :=
  ∃ mk ds tail b, body = mk ++ ds ++ tail ∧ n = (mk ++ ds).length ∧ Radix base ds mk b ∧ ds ≠ [] ∧
    (∀ c ∈ ds, isDigit b c = true) ∧ v = numeral b ds

/-- The first `n` bytes of `text` are white space, a sign that multiplies by `m` and a number of
value `v`. -/
def Numeral (base : ℕ) (text : List UInt8) (m : ℤ) (n v : ℕ) : Prop :=
  ∃ ws sg body n', text = ws ++ sg ++ body ∧ (∀ c ∈ ws, cLocale.isspace (char c) = true) ∧
    Sign sg m ∧ Core base body n' v ∧ n = (ws ++ sg).length + n'

/-- No longer beginning of `text` has the form. -/
def Longest (base : ℕ) (text : List UInt8) (m : ℤ) (n v : ℕ) : Prop :=
  Numeral base text m n v ∧ ∀ m' n' v', Numeral base text m' n' v' → n' ≤ n

/-- The result of a signed function of `w` bits and the `errno` it leaves. -/
def signedOutcome (w : ℕ) (m : ℤ) (v errno : ℕ) : ℤ × ℕ :=
  if -2 ^ (w - 1) ≤ m * v ∧ m * v < 2 ^ (w - 1) then (m * v, errno)
  else (if m < 0 then -2 ^ (w - 1) else 2 ^ (w - 1) - 1, ERANGE)

/-- The result of an unsigned function of `w` bits and the `errno` it leaves. -/
def unsignedOutcome (w : ℕ) (m : ℤ) (v errno : ℕ) : ℤ × ℕ :=
  if v < 2 ^ w then ((m * v) % 2 ^ w, errno) else (2 ^ w - 1, ERANGE)

/-- The function `f` does on `text` and `base` what the documentation says. -/
def Follows (f : List UInt8 → ℤ → ℕ → Converted) (outcome : ℤ → ℕ → ℕ → ℤ × ℕ) (text : List UInt8)
    (base : ℕ) : Prop :=
  ∀ errno,
    (∀ m n v, Longest base text m n v →
      ((f text base errno).value, (f text base errno).errno) = outcome m v errno ∧
        (f text base errno).endptr = some n) ∧
    ((∀ m n v, ¬ Numeral base text m n v) → f text base errno = ⟨0, some 0, errno⟩)

/-- Base 0 is asked for, and the number is a `0` before a byte that neither goes on with it in
base 8 nor marks base 16. -/
def LoneZero (text : List UInt8) (base : ℕ) : Prop :=
  ∃ ws sg m tail, base = 0 ∧ text = ws ++ sg ++ 48 :: tail ∧
    (∀ c ∈ ws, cLocale.isspace (char c) = true) ∧ Sign sg m ∧
    isDigit 8 (tail.headD 0) = false ∧ tail.headD 0 ≠ 120 ∧ tail.headD 0 ≠ 88

/-! ## Digits of the C locale -/

theorem findIdx?_take {α : Type*} (f : α → Bool) (l : List α) (n : ℕ) :
    (l.take n).findIdx? f = (l.findIdx? f).filter (· < n) := by
  induction l generalizing n with
  | nil => simp
  | cons a l ih =>
    cases n with
    | zero => cases h : List.findIdx? f (a :: l) <;> simp
    | succ n =>
      rw [List.take_succ_cons, List.findIdx?_cons, List.findIdx?_cons]
      cases f a with
      | true => simp [Option.filter]
      | false =>
        rw [ih]
        cases List.findIdx? f l <;> simp [Option.filter]

theorem digitOf_all : ∀ n < 256, digitOf cLocale 36 (UInt8.ofNat n) = digitValue (UInt8.ofNat n) := by
  decide +kernel

/-- The lookup in `_digits` finds the digits of the base. -/
theorem digitOf_cLocale {b : ℕ} (hb : b ≤ 36) (c : UInt8) :
    digitOf cLocale b c = (digitValue c).filter (· < b) := by
  have hall := digitOf_all c.toNat c.toNat_lt
  rw [UInt8.ofNat_toNat] at hall
  rw [← hall, digitOf, digitOf, memchr, memchr, ← findIdx?_take, List.take_take, Nat.min_eq_left hb]

theorem isDigit_iff {b : ℕ} {c : UInt8} :
    isDigit b c = true ↔ ∃ d, digitValue c = some d ∧ d < b := by
  simp [isDigit, Option.any_eq_true]

theorem digitOf_of_isDigit {b : ℕ} (hb : b ≤ 36) {c : UInt8} (hc : isDigit b c = true) :
    digitOf cLocale b c = some ((digitValue c).getD 0) ∧ (digitValue c).getD 0 < b := by
  obtain ⟨d, hd, hlt⟩ := isDigit_iff.mp hc
  rw [digitOf_cLocale hb, hd]
  exact ⟨by simp [Option.filter, hlt], hlt⟩

theorem digitOf_of_not {b : ℕ} (hb : b ≤ 36) {c : UInt8} (hc : isDigit b c = false) :
    digitOf cLocale b c = none := by
  rw [digitOf_cLocale hb]
  cases hd : digitValue c with
  | none => rfl
  | some d =>
    have hge : ¬ d < b := fun hlt => by simp [isDigit, hd, hlt] at hc
    simp [Option.filter, hge]

theorem digitOf_isSome {b : ℕ} (hb : b ≤ 36) :
    (fun c => (digitOf cLocale b c).isSome) = isDigit b := by
  funext c
  cases hc : isDigit b c with
  | false => rw [digitOf_of_not hb hc]; rfl
  | true => rw [(digitOf_of_isDigit hb hc).1]; rfl

/-! ## The digits that are read -/

/-- The test before a digit is taken: the number stays within the limit. -/
theorem within_limit_iff {b L rc d : ℕ} (hd : d < b) :
    (rc < L / b ∨ rc = L / b ∧ d ≤ L % b) ↔ rc * b + d ≤ L := by
  have hdiv : b * (L / b) + L % b = L := Nat.div_add_mod L b
  have hmod : L % b < b := Nat.mod_lt L (by omega)
  generalize L / b = q at hdiv ⊢
  generalize L % b = r at hdiv hmod ⊢
  constructor
  · rintro (hlt | ⟨rfl, hle⟩)
    · nlinarith
    · nlinarith
  · intro hle
    rcases Nat.lt_trichotomy rc q with h | h | h
    · exact Or.inl h
    · subst h
      exact Or.inr ⟨rfl, by nlinarith⟩
    · nlinarith

/-- `_strtox_main` reads all digits there are; its result is the number they give, or the error
value if that is over the limit. -/
theorem strtoxMain_spec {b L : ℕ} (hb : 1 ≤ b) (hb' : b ≤ 36) (hL : L < 2 ^ 64) (error : ℕ)
    (sign : UInt8) (errno : ℕ) (p : List UInt8) (rc : ℕ) (digit : ℤ) (hrc : rc ≤ L) :
    strtoxMain cLocale b error (L / b) (L % b) sign errno rc digit p =
      if accumulate b rc ((p.takeWhile (isDigit b)).map fun c => (digitValue c).getD 0) ≤ L then
        if digit = -1 ∧ p.takeWhile (isDigit b) = [] then ⟨0, none, sign, errno⟩
        else ⟨accumulate b rc ((p.takeWhile (isDigit b)).map fun c => (digitValue c).getD 0),
          some (p.dropWhile (isDigit b)), sign, errno⟩
      else ⟨error, some (p.dropWhile (isDigit b)), 43, ERANGE⟩ := by
  induction p generalizing rc digit with
  | nil => simp [strtoxMain, hrc]
  | cons c p ih =>
    rw [strtoxMain]
    cases hc : isDigit b c with
    | false =>
      rw [digitOf_of_not hb' hc]
      simp [hc, hrc]
    | true =>
      obtain ⟨hdig, hlt⟩ := digitOf_of_isDigit hb' hc
      rw [hdig, List.takeWhile_cons_of_pos hc, List.dropWhile_cons_of_pos hc, List.map_cons,
        accumulate_cons]
      by_cases hfit : rc * b + (digitValue c).getD 0 ≤ L
      · have hwrap : (rc * b + (digitValue c).getD 0) % 2 ^ 64 = rc * b + (digitValue c).getD 0 :=
          Nat.mod_eq_of_lt (by omega)
        dsimp only
        rw [if_pos ((within_limit_iff hlt).mpr hfit), hwrap, ih _ _ hfit]
        have hdigit : ¬ (((digitValue c).getD 0 : ℕ) : ℤ) = -1 := by omega
        simp [hdigit]
      · have hgrow := le_accumulate hb
          ((p.takeWhile (isDigit b)).map fun c => (digitValue c).getD 0)
          (rc * b + (digitValue c).getD 0)
        dsimp only
        rw [if_neg fun h => hfit ((within_limit_iff hlt).mp h), if_neg (by omega),
          digitOf_isSome hb', List.dropWhile_cons_of_pos hc]

/-! ## White space and sign -/

/-- The sign that `_strtox_prelim` stores for a factor. -/
def signByte (m : ℤ) : UInt8 := if m < 0 then 45 else 43

/-- The byte begins a number: it is neither white space nor a sign. -/
def Begins (c : UInt8) : Prop := cLocale.isspace (char c) = false ∧ c ≠ 43 ∧ c ≠ 45

theorem begins_all : ∀ n < 256, (digitValue (UInt8.ofNat n)).isSome = true →
    cLocale.isspace (char (UInt8.ofNat n)) = false ∧ UInt8.ofNat n ≠ 43 ∧ UInt8.ofNat n ≠ 45 := by
  decide +kernel

theorem Begins.of_digit {b : ℕ} {c : UInt8} (hc : isDigit b c = true) : Begins c := by
  obtain ⟨d, hd, -⟩ := isDigit_iff.mp hc
  have hall := begins_all c.toNat c.toNat_lt
  rw [UInt8.ofNat_toNat] at hall
  exact hall (by rw [hd]; rfl)

theorem Core.begins {base : ℕ} {body : List UInt8} {n v : ℕ} (h : Core base body n v) :
    ∃ c rest, body = c :: rest ∧ Begins c := by
  obtain ⟨mk, ds, tail, b, rfl, -, hradix, hne, hall, -⟩ := h
  obtain ⟨d, ds, rfl⟩ := List.exists_cons_of_ne_nil hne
  have hd : Begins d := Begins.of_digit (hall d (by simp))
  cases hradix with
  | marked x _ _ => exact ⟨48, _, rfl, by decide, by decide, by decide⟩
  | given _ => exact ⟨d, _, rfl, hd⟩
  | octal _ _ => exact ⟨d, _, rfl, hd⟩
  | ten _ _ => exact ⟨d, _, rfl, hd⟩

theorem skipSpace_append {ws rest : List UInt8} (hws : ∀ c ∈ ws, cLocale.isspace (char c) = true)
    (hrest : ∀ c ∈ rest.head?, cLocale.isspace (char c) = false) :
    skipSpace cLocale (ws ++ rest) = rest := by
  rw [skipSpace, List.dropWhile_append_of_pos hws]
  cases rest with
  | nil => rfl
  | cons c rest => exact List.dropWhile_cons_of_neg (by simp [hrest c (by simp)])

/-- White space and a sign before the beginning of a number are what is skipped. -/
theorem takeSign_of_begins {ws sg : List UInt8} {m : ℤ} {c : UInt8} (rest : List UInt8)
    (hws : ∀ c ∈ ws, cLocale.isspace (char c) = true) (hsg : Sign sg m) (hc : Begins c) :
    takeSign (skipSpace cLocale (ws ++ sg ++ c :: rest)) = (signByte m, c :: rest) := by
  rw [List.append_assoc, skipSpace_append hws (by
    intro e he
    cases hsg with
    | none => obtain rfl : c = e := by simpa using he
              exact hc.1
    | plus => obtain rfl : 43 = e := by simpa using he
              rfl
    | minus => obtain rfl : 45 = e := by simpa using he
               rfl)]
  cases hsg with
  | none => simp [takeSign, hc.2.1, hc.2.2, signByte]
  | plus => rfl
  | minus => rfl

/-- Every text is white space, a sign and what `_strtox_prelim` goes on with. -/
theorem exists_takeSign (text : List UInt8) :
    ∃ ws sg m, text = ws ++ sg ++ (takeSign (skipSpace cLocale text)).2 ∧
      (∀ c ∈ ws, cLocale.isspace (char c) = true) ∧ Sign sg m ∧
      (takeSign (skipSpace cLocale text)).1 = signByte m := by
  have hsplit := List.takeWhile_append_dropWhile (p := fun c => cLocale.isspace (char c)) (l := text)
  have hall : ∀ c ∈ text.takeWhile (fun c => cLocale.isspace (char c)),
      cLocale.isspace (char c) = true :=
    fun c hc => List.mem_takeWhile_imp (p := fun c => cLocale.isspace (char c)) hc
  change _ ++ skipSpace cLocale text = text at hsplit
  generalize skipSpace cLocale text = p at hsplit ⊢
  generalize text.takeWhile (fun c => cLocale.isspace (char c)) = ws at hall hsplit
  subst hsplit
  refine ⟨ws, ?_⟩
  cases p with
  | nil => exact ⟨[], 1, by simp [takeSign], hall, Sign.none, rfl⟩
  | cons c p =>
    by_cases hplus : c = 43
    · subst hplus
      exact ⟨[43], 1, by simp [takeSign], hall, Sign.plus, rfl⟩
    by_cases hminus : c = 45
    · subst hminus
      exact ⟨[45], -1, by simp [takeSign], hall, Sign.minus, rfl⟩
    refine ⟨[], 1, ?_, hall, Sign.none, ?_⟩
    · simp [takeSign, hplus, hminus]
    · simp [takeSign, hplus, hminus, signByte]

/-! ## The longest number -/

/-- The text goes on with a mark of base 16. -/
def HasMark (base : ℕ) (body : List UInt8) : Prop :=
  (base = 0 ∨ base = 16) ∧ body.headD 0 = 48 ∧
    (body.tail.headD 0 = 120 ∨ body.tail.headD 0 = 88) ∧ isDigit 16 (body.tail.tail.headD 0) = true

instance (base : ℕ) (body : List UInt8) : Decidable (HasMark base body) :=
  inferInstanceAs (Decidable (_ ∧ _))

/-- The length of the mark. -/
def markLength (base : ℕ) (body : List UInt8) : ℕ := if HasMark base body then 2 else 0

/-- The base of the digits. -/
def radix (base : ℕ) (body : List UInt8) : ℕ :=
  if HasMark base body then 16 else if base ≠ 0 then base else if body.headD 0 = 48 then 8 else 10

/-- The digits. -/
def digitRun (base : ℕ) (body : List UInt8) : List UInt8 :=
  (body.drop (markLength base body)).takeWhile (isDigit (radix base body))

/-- Digits at the front are a part of all the digits there are. -/
theorem run_of_digits {b : ℕ} {ds : List UInt8} (hds : ∀ c ∈ ds, isDigit b c = true)
    (tail : List UInt8) :
    ds.length ≤ ((ds ++ tail).takeWhile (isDigit b)).length ∧
      (ds.length = ((ds ++ tail).takeWhile (isDigit b)).length →
        (ds ++ tail).takeWhile (isDigit b) = ds) := by
  rw [List.takeWhile_append_of_pos hds, List.length_append]
  refine ⟨by omega, fun h => ?_⟩
  have hnil : tail.takeWhile (isDigit b) = [] := List.length_eq_zero_iff.mp (by omega)
  rw [hnil, List.append_nil]

/-- Before a mark there is a `0` alone, in any base that does not have the mark as a digit. -/
theorem takeWhile_mark {base b : ℕ} {body : List UInt8} (hb : 1 ≤ b) (hb' : b ≤ 16)
    (hmark : HasMark base body) : body.takeWhile (isDigit b) = [48] := by
  obtain ⟨-, h0, hx, -⟩ := hmark
  match body, h0, hx with
  | [], h0, _ => exact absurd h0 (by decide)
  | [c], _, hx => exact absurd hx (by simp)
  | c :: x :: rest, h0, hx =>
    obtain rfl : c = 48 := h0
    have hzero : isDigit b 48 = true := isDigit_iff.mpr ⟨0, by decide, hb⟩
    have hstop : isDigit b x = false := by
      have hx' : x = 120 ∨ x = 88 := hx
      have hval : digitValue x = some 33 := by
        rcases hx' with rfl | rfl <;> decide
      simp [isDigit, hval]
      omega
    rw [List.takeWhile_cons_of_pos hzero, List.takeWhile_cons_of_neg (by simp [hstop])]

theorem digitRun_of_mark {base : ℕ} {body : List UInt8} (hmark : HasMark base body) :
    digitRun base body ≠ [] := by
  rw [digitRun, markLength, radix, if_pos hmark, if_pos hmark]
  obtain ⟨-, -, -, hdig⟩ := hmark
  match body, hdig with
  | [], h => cases h
  | [_], h => cases h
  | [_, _], h => cases h
  | _ :: _ :: c :: rest, h =>
    have hc : isDigit 16 c = true := h
    simp [List.takeWhile_cons_of_pos hc]

/-- No number at the front of `body` is longer than the mark and the digits, and one that is as
long has their value. -/
theorem Core.le_run {base : ℕ} {body : List UInt8} {n v : ℕ} (h : Core base body n v) :
    digitRun base body ≠ [] ∧ n ≤ markLength base body + (digitRun base body).length ∧
      (n = markLength base body + (digitRun base body).length →
        v = numeral (radix base body) (digitRun base body)) := by
  obtain ⟨mk, ds, tail, b, rfl, rfl, hradix, hne, hall, rfl⟩ := h
  have hpos : 0 < ds.length := List.length_pos_iff.mpr hne
  -- without a mark in front, the digits are part of the run in their base
  have hplain : ∀ {body : List UInt8}, body = ds ++ tail → ¬ HasMark base body →
      radix base body = b →
      digitRun base body ≠ [] ∧ ds.length ≤ markLength base body + (digitRun base body).length ∧
        (ds.length = markLength base body + (digitRun base body).length →
          numeral b ds = numeral (radix base body) (digitRun base body)) := by
    rintro body rfl hmark hb
    obtain ⟨hle, heq⟩ := run_of_digits hall tail
    rw [digitRun, markLength, if_neg hmark, hb, List.drop_zero, Nat.zero_add]
    refine ⟨fun hnil => ?_, hle, fun h => by rw [heq h]⟩
    rw [hnil, List.length_nil] at hle
    omega
  -- and with one they are the `0` of the mark
  have hmarked : ∀ {body : List UInt8}, body = ds ++ tail → HasMark base body → 1 ≤ b → b ≤ 16 →
      digitRun base body ≠ [] ∧ ds.length ≤ markLength base body + (digitRun base body).length ∧
        (ds.length = markLength base body + (digitRun base body).length →
          numeral b ds = numeral (radix base body) (digitRun base body)) := by
    rintro body rfl hmark hb hb'
    obtain ⟨hle, -⟩ := run_of_digits hall tail
    rw [takeWhile_mark hb hb' hmark] at hle
    have hrun := digitRun_of_mark hmark
    rw [markLength, if_pos hmark]
    have hone : ds.length ≤ 1 := hle
    exact ⟨hrun, by omega, fun h => by omega⟩
  cases hradix with
  | given hbase =>
    by_cases hmark : HasMark base ([] ++ ds ++ tail)
    · have h16 : base = 16 := hmark.1.resolve_left hbase
      exact hmarked rfl hmark (by omega) (by omega)
    · exact hplain rfl hmark (by rw [radix, if_neg hmark, if_pos hbase])
  | octal hbase hhead =>
    by_cases hmark : HasMark base ([] ++ ds ++ tail)
    · exact hmarked rfl hmark (by omega) (by omega)
    · refine hplain rfl hmark ?_
      obtain ⟨d, ds, rfl⟩ := List.exists_cons_of_ne_nil hne
      obtain rfl : d = 48 := by simpa using hhead
      rw [radix, if_neg hmark, if_neg (by simp [hbase])]
      exact if_pos rfl
  | ten hbase hhead =>
    obtain ⟨d, ds, rfl⟩ := List.exists_cons_of_ne_nil hne
    have hd : d ≠ 48 := by simpa using hhead
    have hmark : ¬ HasMark base ([] ++ (d :: ds) ++ tail) := fun hm => hd hm.2.1
    refine hplain rfl hmark ?_
    rw [radix, if_neg hmark, if_neg (by simp [hbase])]
    exact if_neg hd
  | marked x hbase hx =>
    obtain ⟨d, ds, rfl⟩ := List.exists_cons_of_ne_nil hne
    have hmark : HasMark base ([48, x] ++ (d :: ds) ++ tail) :=
      ⟨hbase, rfl, hx, hall d (by simp)⟩
    obtain ⟨hle, heq⟩ := run_of_digits hall tail
    rw [markLength, if_pos hmark, digitRun, markLength, if_pos hmark, radix, if_pos hmark]
    change _ ∧ _ ≤ 2 + ((d :: ds ++ tail).takeWhile (isDigit 16)).length ∧ (_ = 2 +
      ((d :: ds ++ tail).takeWhile (isDigit 16)).length → _ =
        numeral 16 ((d :: ds ++ tail).takeWhile (isDigit 16)))
    have hlen : ([48, x] ++ d :: ds).length = 2 + (d :: ds).length := by
      rw [List.length_append]
      rfl
    refine ⟨fun hnil => ?_, by omega, fun h => by rw [heq (by omega)]⟩
    change (d :: ds ++ tail).takeWhile (isDigit 16) = [] at hnil
    rw [hnil, List.length_nil] at hle
    omega

/-- The mark and the digits are a number. -/
theorem core_run {base : ℕ} {body : List UInt8} (hne : digitRun base body ≠ []) :
    Core base body (markLength base body + (digitRun base body).length)
      (numeral (radix base body) (digitRun base body)) := by
  have hall : ∀ c ∈ digitRun base body, isDigit (radix base body) c = true :=
    fun c hc => List.mem_takeWhile_imp hc
  obtain ⟨rest, hsplit⟩ : ∃ rest, digitRun base body ++ rest = body.drop (markLength base body) :=
    ⟨_, List.takeWhile_append_dropWhile⟩
  refine ⟨body.take (markLength base body), digitRun base body, rest, radix base body, ?_, ?_, ?_, hne,
    hall, rfl⟩
  · rw [List.append_assoc, hsplit, List.take_append_drop]
  · rw [List.length_append, List.length_take]
    have hlen := congrArg List.length hsplit
    have hpos : 0 < (digitRun base body).length := List.length_pos_iff.mpr hne
    rw [List.length_append, List.length_drop] at hlen
    omega
  · by_cases hmark : HasMark base body
    · rw [markLength, radix, if_pos hmark, if_pos hmark]
      obtain ⟨hbase, h0, hx, -⟩ := hmark
      match body, h0, hx with
      | [], h0, _ => exact absurd h0 (by decide)
      | [c], _, hx => exact absurd hx (by simp)
      | c :: x :: rest, h0, hx =>
        obtain rfl : c = 48 := h0
        exact Radix.marked x hbase hx
    · rw [markLength, if_neg hmark, List.take_zero]
      by_cases hbase : base = 0
      · have hhead : (digitRun base body).head? = some (body.headD 0) := by
          obtain ⟨d, ds, hds⟩ := List.exists_cons_of_ne_nil hne
          rw [hds] at hsplit
          rw [markLength, if_neg hmark, List.drop_zero] at hsplit
          rw [hds, ← hsplit]
          rfl
        by_cases h0 : body.headD 0 = 48
        · rw [radix, if_neg hmark, if_neg (by simp [hbase]), if_pos h0]
          exact Radix.octal hbase (by rw [hhead, h0])
        · rw [radix, if_neg hmark, if_neg (by simp [hbase]), if_neg h0]
          exact Radix.ten hbase (by rw [hhead]; simpa using h0)
      · rw [radix, if_neg hmark, if_pos hbase]
        exact Radix.given hbase

/-- The numbers at the front of a text are those at the front of what `_strtox_prelim` goes on
with behind white space and sign. -/
theorem numeral_iff {base : ℕ} {text : List UInt8} {sign : UInt8} {body : List UInt8}
    (hsign : takeSign (skipSpace cLocale text) = (sign, body)) (m : ℤ) (n v : ℕ) :
    Numeral base text m n v ↔
      (m = 1 ∧ sign = 43 ∨ m = -1 ∧ sign = 45) ∧ body.length ≤ text.length ∧
        ∃ n', n = text.length - body.length + n' ∧ Core base body n' v := by
  constructor
  · rintro ⟨ws, sg, body', n', rfl, hws, hsg, hcore, rfl⟩
    obtain ⟨c, rest, rfl, hc⟩ := hcore.begins
    have htake := takeSign_of_begins rest hws hsg hc
    rw [hsign, Prod.mk.injEq] at htake
    obtain ⟨rfl, rfl⟩ := htake
    refine ⟨?_, by simp; omega, n', by simp; omega, hcore⟩
    cases hsg with
    | none => exact Or.inl ⟨rfl, rfl⟩
    | plus => exact Or.inl ⟨rfl, rfl⟩
    | minus => exact Or.inr ⟨rfl, rfl⟩
  · rintro ⟨hm, -, n', rfl, hcore⟩
    obtain ⟨ws, sg, m', htext, hws, hsg, hbyte⟩ := exists_takeSign text
    rw [hsign] at htext hbyte
    dsimp only at htext hbyte
    have hmm : m = m' := by
      cases hsg with
      | none => rcases hm with ⟨rfl, -⟩ | ⟨-, h⟩
                · rfl
                · exact absurd (h.symm.trans hbyte) (by decide)
      | plus => rcases hm with ⟨rfl, -⟩ | ⟨-, h⟩
                · rfl
                · exact absurd (h.symm.trans hbyte) (by decide)
      | minus => rcases hm with ⟨-, h⟩ | ⟨rfl, -⟩
                 · exact absurd (h.symm.trans hbyte) (by decide)
                 · rfl
    refine ⟨ws, sg, body, n', htext, hws, hmm ▸ hsg, hcore, ?_⟩
    have hlen := congrArg List.length htext
    rw [List.length_append] at hlen
    omega

theorem takeSign_cases (text : List UInt8) {sign : UInt8} {body : List UInt8}
    (hsign : takeSign (skipSpace cLocale text) = (sign, body)) :
    (sign = 43 ∨ sign = 45) ∧ body.length ≤ text.length := by
  obtain ⟨ws, sg, m, htext, -, hsg, hbyte⟩ := exists_takeSign text
  rw [hsign] at htext hbyte
  dsimp only at htext hbyte
  refine ⟨?_, by rw [htext]; simp; omega⟩
  cases hsg with
  | none => exact Or.inl hbyte
  | plus => exact Or.inl hbyte
  | minus => exact Or.inr hbyte

/-- The longest number is the run of digits behind the mark. -/
theorem longest_iff {base : ℕ} {text : List UInt8} {sign : UInt8} {body : List UInt8}
    (hsign : takeSign (skipSpace cLocale text) = (sign, body)) (m : ℤ) (n v : ℕ) :
    Longest base text m n v ↔
      digitRun base body ≠ [] ∧ (m = 1 ∧ sign = 43 ∨ m = -1 ∧ sign = 45) ∧
        n = text.length - body.length + (markLength base body + (digitRun base body).length) ∧
        v = numeral (radix base body) (digitRun base body) := by
  constructor
  · rintro ⟨hnum, hmax⟩
    obtain ⟨hm, hlen, n', rfl, hcore⟩ := (numeral_iff hsign m n v).mp hnum
    obtain ⟨hne, hle, hval⟩ := hcore.le_run
    have hfull := hmax m _ _ ((numeral_iff hsign m _ _).mpr ⟨hm, hlen, _, rfl, core_run hne⟩)
    have hn : n' = markLength base body + (digitRun base body).length := by omega
    exact ⟨hne, hm, by rw [hn], hval hn⟩
  · rintro ⟨hne, hm, rfl, rfl⟩
    have hlen := (takeSign_cases text hsign).2
    refine ⟨(numeral_iff hsign m _ _).mpr ⟨hm, hlen, _, rfl, core_run hne⟩, ?_⟩
    intro m' n' v' hnum
    obtain ⟨-, -, n'', rfl, hcore⟩ := (numeral_iff hsign m' n' v').mp hnum
    have hle := hcore.le_run.2.1
    omega

theorem no_numeral_iff {base : ℕ} {text : List UInt8} {sign : UInt8} {body : List UInt8}
    (hsign : takeSign (skipSpace cLocale text) = (sign, body)) :
    (∀ m n v, ¬ Numeral base text m n v) ↔ digitRun base body = [] := by
  constructor
  · intro hnone
    by_contra hne
    obtain ⟨hbyte, hlen⟩ := takeSign_cases text hsign
    rcases hbyte with h | h
    · exact hnone 1 _ _ ((numeral_iff hsign 1 _ _).mpr
        ⟨Or.inl ⟨rfl, h⟩, hlen, _, rfl, core_run hne⟩)
    · exact hnone (-1) _ _ ((numeral_iff hsign (-1) _ _).mpr
        ⟨Or.inr ⟨rfl, h⟩, hlen, _, rfl, core_run hne⟩)
  · intro hnil m n v hnum
    obtain ⟨-, -, n', -, hcore⟩ := (numeral_iff hsign m n v).mp hnum
    exact hcore.le_run.1 hnil

/-! ## The base that is found -/

/-- The `0` at the front is the whole number in base 8. -/
def Lone (body : List UInt8) : Prop :=
  body.headD 0 = 48 ∧ isDigit 8 (body.tail.headD 0) = false ∧ body.tail.headD 0 ≠ 120 ∧
    body.tail.headD 0 ≠ 88

/-- The digits from `p` on in base `b` are those of the longest number at the front of `body`. -/
def ReadsRun (base : ℕ) (body p : List UInt8) (b : ℕ) : Prop :=
  (p.takeWhile (isDigit b) = [] ↔ digitRun base body = []) ∧
    (p.takeWhile (isDigit b) ≠ [] →
      body.length - p.length + (p.takeWhile (isDigit b)).length =
        markLength base body + (digitRun base body).length ∧
      numeral b (p.takeWhile (isDigit b)) = numeral (radix base body) (digitRun base body))

theorem ReadsRun.plain {base : ℕ} {body : List UInt8} (hmark : ¬ HasMark base body) :
    ReadsRun base body body (radix base body) := by
  rw [ReadsRun, digitRun, markLength, if_neg hmark, List.drop_zero]
  exact ⟨Iff.rfl, fun _ => ⟨by omega, rfl⟩⟩

theorem digitValue_zero : digitValue 48 = some 0 := by decide

theorem isDigit_zero {b : ℕ} (hb : 1 ≤ b) : isDigit b 48 = true := isDigit_iff.mpr ⟨0, rfl, hb⟩

theorem digitOf_none_iff {b : ℕ} (hb : b ≤ 36) (c : UInt8) :
    digitOf cLocale b c = none ↔ isDigit b c = false := by
  constructor
  · intro h
    by_contra hc
    rw [(digitOf_of_isDigit hb (by simpa using hc)).1] at h
    cases h
  · exact digitOf_of_not hb

/-- A `0` that a byte follows which is no digit is read alone. -/
theorem takeWhile_zero {b : ℕ} (hb : 1 ≤ b) {rest : List UInt8}
    (hrest : isDigit b (rest.headD 0) = false) : (48 :: rest).takeWhile (isDigit b) = [48] := by
  rw [List.takeWhile_cons_of_pos (isDigit_zero hb)]
  cases rest with
  | nil => rfl
  | cons c rest =>
    have hc : isDigit b c = false := hrest
    rw [List.takeWhile_cons_of_neg (by simp [hc])]

theorem isDigit_mark {b : ℕ} (hb : b ≤ 16) {x : UInt8} (hx : x = 120 ∨ x = 88) :
    isDigit b x = false := by
  have hval : digitValue x = some 33 := by
    rcases hx with rfl | rfl <;> decide
  simp [isDigit, hval]
  omega

theorem radix_bounds {base : ℕ} (hbase : base = 0 ∨ 2 ≤ base ∧ base ≤ 36) (body : List UInt8) :
    2 ≤ radix base body ∧ radix base body ≤ 36 := by
  rw [radix]
  split_ifs <;> omega

theorem takeBase_zero (k : Ctype) (base : ℤ) (rest : List UInt8) :
    takeBase k base (48 :: rest) =
      if (base = 0 ∨ base = 16) ∧ (rest.headD 0 = 120 ∨ rest.headD 0 = 88) then
        if digitOf k 16 (rest.tail.headD 0) = none then (48 :: rest, 16) else (rest.tail, 16)
      else if base = 0 then (rest, 8)
      else (48 :: rest, base) :=
  if_pos rfl

/-- What `_strtox_prelim` finds at a `0` when base 0 or 16 is asked for and an `x` follows. -/
theorem takeBase_marked {base : ℕ} {rest : List UInt8} (hbase : base = 0 ∨ base = 16)
    (hx : rest.headD 0 = 120 ∨ rest.headD 0 = 88) :
    ∃ p, takeBase cLocale base (48 :: rest) = (p, 16) ∧ p.length ≤ rest.length + 1 ∧
      ReadsRun base (48 :: rest) p 16 := by
  have hcast : ((base : ℤ) = 0 ∨ (base : ℤ) = 16) := by omega
  have hcond : (((base : ℤ) = 0 ∨ (base : ℤ) = 16) ∧ (rest.headD 0 = 120 ∨ rest.headD 0 = 88)) :=
    ⟨hcast, hx⟩
  rw [takeBase_zero, if_pos hcond]
  by_cases hdig : isDigit 16 (rest.tail.headD 0) = true
  · have hmark : HasMark base (48 :: rest) := ⟨hbase, rfl, hx, hdig⟩
    have hsome : ¬ digitOf cLocale 16 (rest.tail.headD 0) = none := by
      rw [digitOf_none_iff (by omega), hdig]
      decide
    rw [if_neg hsome]
    refine ⟨rest.tail, rfl, by simp; omega, ?_⟩
    rw [ReadsRun, digitRun, markLength, radix, if_pos hmark, if_pos hmark]
    have hdrop : (48 :: rest).drop 2 = rest.tail := by simp
    rw [hdrop]
    refine ⟨Iff.rfl, fun _ => ⟨?_, rfl⟩⟩
    have hlen : 1 ≤ rest.length := by
      cases rest with
      | nil => exact absurd hx (by decide)
      | cons _ _ => simp
    rw [List.length_tail, List.length_cons]
    omega
  · have hnone : isDigit 16 (rest.tail.headD 0) = false := by simpa using hdig
    have hmark : ¬ HasMark base (48 :: rest) := fun h => hdig h.2.2.2
    rw [if_pos ((digitOf_none_iff (by omega) _).mpr hnone)]
    refine ⟨48 :: rest, rfl, by simp, ?_⟩
    -- both in base 16 and in the base that is meant the `0` stands alone
    have h16 := takeWhile_zero (b := 16) (by omega) (isDigit_mark (by omega) hx)
    have hrad : 1 ≤ radix base (48 :: rest) ∧ radix base (48 :: rest) ≤ 16 := by
      rw [radix, if_neg hmark]
      split_ifs <;> omega
    have hrun : digitRun base (48 :: rest) = [48] := by
      rw [digitRun, markLength, if_neg hmark, List.drop_zero]
      exact takeWhile_zero hrad.1 (isDigit_mark hrad.2 hx)
    rw [ReadsRun, hrun, h16, markLength, if_neg hmark]
    exact ⟨Iff.rfl, fun _ => ⟨by simp, by simp [numeral, digitValue_zero]⟩⟩

/-- `_strtox_prelim` finds the longest number, but for a `0` that stands alone when base 0 is asked
for. -/
theorem takeBase_spec {base : ℕ} (hbase : base = 0 ∨ 2 ≤ base ∧ base ≤ 36) (body : List UInt8) :
    ∃ (p : List UInt8) (b : ℕ), takeBase cLocale base body = (p, (b : ℤ)) ∧ 2 ≤ b ∧ b ≤ 36 ∧
      p.length ≤ body.length ∧
      (¬ (base = 0 ∧ Lone body) → ReadsRun base body p b) ∧
      (base = 0 ∧ Lone body → p.takeWhile (isDigit b) = [] ∧ digitRun base body = [48]) := by
  obtain ⟨hlo, hhi⟩ := radix_bounds hbase body
  by_cases h0 : body.headD 0 = 48
  · obtain ⟨rest, rfl⟩ : ∃ rest, body = 48 :: rest := by
      cases body with
      | nil => exact absurd h0 (by decide)
      | cons c rest => exact ⟨rest, by rw [← h0]; rfl⟩
    by_cases hx : rest.headD 0 = 120 ∨ rest.headD 0 = 88
    · have hlone : ¬ (base = 0 ∧ Lone (48 :: rest)) :=
        fun h => hx.elim h.2.2.2.1 h.2.2.2.2
      by_cases h16 : base = 0 ∨ base = 16
      · obtain ⟨p, htake, hlen, hreads⟩ := takeBase_marked h16 hx
        exact ⟨p, 16, htake, by omega, by omega, hlen, fun _ => hreads, fun h => absurd h hlone⟩
      · have hmark : ¬ HasMark base (48 :: rest) := fun h => h16 h.1
        have hrad : radix base (48 :: rest) = base := by
          rw [radix, if_neg hmark, if_pos (by omega)]
        refine ⟨48 :: rest, base, ?_, by omega, by omega, le_rfl, fun _ => ?_,
          fun h => absurd h hlone⟩
        · rw [takeBase_zero, if_neg (by omega), if_neg (by omega)]
        · have hplain := ReadsRun.plain hmark
          rwa [hrad] at hplain
    · have hmark : ¬ HasMark base (48 :: rest) := fun h => hx h.2.2.1
      have hnot : ¬ (((base : ℤ) = 0 ∨ (base : ℤ) = 16) ∧
          (rest.headD 0 = 120 ∨ rest.headD 0 = 88)) := fun h => hx h.2
      by_cases hzero : base = 0
      · subst hzero
        have hrad : radix 0 (48 :: rest) = 8 := by
          rw [radix, if_neg hmark, if_neg (by simp)]
          exact if_pos rfl
        have hrun : digitRun 0 (48 :: rest) = 48 :: rest.takeWhile (isDigit 8) := by
          rw [digitRun, markLength, if_neg hmark, hrad, List.drop_zero,
            List.takeWhile_cons_of_pos (isDigit_zero (by omega))]
        have hlone : Lone (48 :: rest) ↔ rest.takeWhile (isDigit 8) = [] := by
          constructor
          · intro h
            have h8 := takeWhile_zero (b := 8) (by omega) h.2.1
            rw [List.takeWhile_cons_of_pos (isDigit_zero (by omega))] at h8
            simpa using h8
          · intro h
            refine ⟨rfl, ?_, fun hxx => hx (Or.inl hxx), fun hxx => hx (Or.inr hxx)⟩
            cases rest with
            | nil => rfl
            | cons c rest =>
              by_contra hc
              rw [List.takeWhile_cons_of_pos (by simpa using hc)] at h
              cases h
        refine ⟨rest, 8, ?_, by omega, by omega, by simp, ?_, ?_⟩
        · rw [takeBase_zero, if_neg hnot, if_pos (by simp)]
          rfl
        · intro h
          have hne : rest.takeWhile (isDigit 8) ≠ [] := fun hnil => h ⟨rfl, hlone.mpr hnil⟩
          rw [ReadsRun, hrun, hrad, markLength, if_neg hmark]
          refine ⟨by simp [hne], fun _ => ⟨by simp; omega, ?_⟩⟩
          simp [numeral, digitValue_zero]
        · rintro ⟨-, h⟩
          rw [hrun, hlone.mp h]
          exact ⟨rfl, rfl⟩
      · have hrad : radix base (48 :: rest) = base := by
          rw [radix, if_neg hmark, if_pos hzero]
        refine ⟨48 :: rest, base, ?_, by omega, by omega, le_rfl, fun _ => ?_,
          fun h => absurd h.1 hzero⟩
        · rw [takeBase_zero, if_neg hnot, if_neg (by omega)]
        · have hplain := ReadsRun.plain hmark
          rwa [hrad] at hplain
  · have hmark : ¬ HasMark base body := fun h => h0 h.2.1
    refine ⟨body, radix base body, ?_, hlo, hhi, le_rfl, fun _ => ReadsRun.plain hmark,
      fun h => absurd h.2.1 h0⟩
    rw [takeBase, if_neg h0, radix, if_neg hmark]
    by_cases hzero : base = 0
    · rw [if_pos (by omega), if_neg (by omega), if_neg h0]
      rfl
    · rw [if_neg (by omega), if_pos hzero]

/-! ## The four functions -/

theorem finish_none (cast : ℤ → ℤ) (h0 : cast 0 = 0) (s : List UInt8) (sign : UInt8) (errno : ℕ) :
    finish cast s ⟨0, none, sign, errno⟩ = ⟨0, some 0, errno⟩ := by
  simp [finish, h0]

/-- The end pointer behind the digits of `p`. -/
theorem length_sub_dropWhile {text body p : List UInt8} (b : ℕ) (hbody : body.length ≤ text.length)
    (hp : p.length ≤ body.length) :
    text.length - (p.dropWhile (isDigit b)).length =
      text.length - body.length + (body.length - p.length + (p.takeWhile (isDigit b)).length) := by
  have hsplit := congrArg List.length (List.takeWhile_append_dropWhile (p := isDigit b) (l := p))
  rw [List.length_append] at hsplit
  omega

theorem tdiv_natCast_toNat (a b : ℕ) : ((a : ℤ).tdiv b).toNat = a / b := by
  rw [← Int.ofNat_tdiv, Int.toNat_natCast]

theorem tmod_natCast_toNat (a b : ℕ) : ((a : ℤ).tmod b).toNat = a % b := by
  rw [← Int.ofNat_tmod, Int.toNat_natCast]

/-- A signed function, with the limit of the side that the sign says. -/
theorem strtoSigned_eq {w : ℕ} {min max : ℤ} {text : List UInt8} {base : ℤ} {sign : UInt8}
    {body p : List UInt8} {b : ℕ} (hmin : min = -2 ^ (w - 1)) (hmax : max = 2 ^ (w - 1) - 1)
    (hsign : takeSign (skipSpace cLocale text) = (sign, body))
    (htake : takeBase cLocale base body = (p, (b : ℤ))) (hb : 2 ≤ b) (hb' : b ≤ 36) (errno : ℕ) :
    strtoSigned cLocale w min max text base errno =
      finish (fun x => Int.bmod x (2 ^ w)) text
        (if sign = 43 then
          strtoxMain cLocale b (((2 : ℤ) ^ (w - 1) - 1) % 2 ^ 64).toNat ((2 ^ (w - 1) - 1) / b)
            ((2 ^ (w - 1) - 1) % b) sign errno 0 (-1) p
        else
          strtoxMain cLocale b ((-(2 : ℤ) ^ (w - 1)) % 2 ^ 64).toNat (2 ^ (w - 1) / b)
            (2 ^ (w - 1) % b) sign errno 0 (-1) p) := by
  have hpos : (1 : ℕ) ≤ 2 ^ (w - 1) := Nat.one_le_two_pow
  have hmaxCast : (2 : ℤ) ^ (w - 1) - 1 = ((2 ^ (w - 1) - 1 : ℕ) : ℤ) := by
    rw [Nat.cast_sub hpos]
    push_cast
    rfl
  have hminCast : (2 : ℤ) ^ (w - 1) = ((2 ^ (w - 1) : ℕ) : ℤ) := by push_cast; rfl
  rw [strtoSigned, hsign]
  dsimp only
  rw [htake]
  dsimp only
  rw [if_neg (by omega), hmin, hmax, Int.toNat_natCast]
  split
  · rw [hmaxCast, tdiv_natCast_toNat, tmod_natCast_toNat]
  · rw [hminCast, Int.neg_tdiv, Int.tdiv_neg, neg_neg, tdiv_natCast_toNat, Int.neg_tmod, neg_neg,
      tmod_natCast_toNat]

theorem strtoxMain_run {b L : ℕ} (hb : 1 ≤ b) (hb' : b ≤ 36) (hL : L < 2 ^ 64) (error : ℕ)
    (sign : UInt8) (errno : ℕ) (p : List UInt8) :
    strtoxMain cLocale b error (L / b) (L % b) sign errno 0 (-1) p =
      if p.takeWhile (isDigit b) = [] then ⟨0, none, sign, errno⟩
      else if numeral b (p.takeWhile (isDigit b)) ≤ L then
        ⟨numeral b (p.takeWhile (isDigit b)), some (p.dropWhile (isDigit b)), sign, errno⟩
      else ⟨error, some (p.dropWhile (isDigit b)), 43, ERANGE⟩ := by
  rw [strtoxMain_spec hb hb' hL error sign errno p 0 (-1) (by omega)]
  by_cases hnil : p.takeWhile (isDigit b) = []
  · simp [hnil]
  · have hnot : ¬ ((-1 : ℤ) = -1 ∧ p.takeWhile (isDigit b) = []) := fun h => hnil h.2
    rw [if_neg hnil, if_neg hnot]
    rfl

theorem loneZero_iff {base : ℕ} {text : List UInt8} {sign : UInt8} {body : List UInt8}
    (hsign : takeSign (skipSpace cLocale text) = (sign, body)) :
    LoneZero text base ↔ base = 0 ∧ Lone body := by
  constructor
  · rintro ⟨ws, sg, m, tail, hbase, rfl, hws, hsg, h8, hx, hX⟩
    have htake := takeSign_of_begins tail hws hsg (c := 48) ⟨by decide, by decide, by decide⟩
    rw [hsign, Prod.mk.injEq] at htake
    obtain ⟨-, rfl⟩ := htake
    exact ⟨hbase, rfl, h8, hx, hX⟩
  · rintro ⟨hbase, h0, h8, hx, hX⟩
    obtain ⟨ws, sg, m, htext, hws, hsg, -⟩ := exists_takeSign text
    rw [hsign] at htext
    cases body with
    | nil => exact absurd h0 (by decide)
    | cons c tail =>
      obtain rfl : c = 48 := h0
      exact ⟨ws, sg, m, tail, hbase, htext, hws, hsg, h8, hx, hX⟩

/-- A function that runs `_strtox_main` with the limit `L`, and whose outcome is by the
documentation the number up to that limit and the error value over it, follows the documentation
but for a `0` that stands alone. -/
theorem follows_iff {f : List UInt8 → ℤ → ℕ → Converted} {outcome : ℤ → ℕ → ℕ → ℤ × ℕ}
    (cast : ℤ → ℤ) {text : List UInt8} {base : ℕ} {sign : UInt8} {body p : List UInt8}
    {b L error : ℕ} (hbase : base = 0 ∨ 2 ≤ base ∧ base ≤ 36)
    (hsign : takeSign (skipSpace cLocale text) = (sign, body))
    (htake : takeBase cLocale base body = (p, (b : ℤ))) (hL : L < 2 ^ 64) (h0 : cast 0 = 0)
    (hf : ∀ errno, f text base errno =
      finish cast text (strtoxMain cLocale b error (L / b) (L % b) sign errno 0 (-1) p))
    (hin : ∀ m v errno, (m = 1 ∧ sign = 43 ∨ m = -1 ∧ sign = 45) → v ≤ L →
      outcome m v errno = (if sign = 43 then cast v else cast (-cast v), errno))
    (hout : ∀ m v errno, (m = 1 ∧ sign = 43 ∨ m = -1 ∧ sign = 45) → L < v →
      outcome m v errno = (cast error, ERANGE)) :
    Follows f outcome text base ↔ ¬ LoneZero text base := by
  obtain ⟨p', b', htake', hb, hb', hp, hreads, hlone⟩ := takeBase_spec hbase body
  rw [htake, Prod.mk.injEq, Nat.cast_inj] at htake'
  obtain ⟨rfl, rfl⟩ := htake'
  obtain ⟨hbyte, hbody⟩ := takeSign_cases text hsign
  have hmain := fun errno =>
    strtoxMain_run (L := L) (show 1 ≤ b by omega) hb' hL error sign errno p
  rw [loneZero_iff hsign]
  constructor
  · -- the end pointer of a lone zero is the beginning of the text
    intro hfollows hlon
    obtain ⟨hnil, hrun⟩ := hlone hlon
    obtain ⟨m, hm⟩ : ∃ m : ℤ, m = 1 ∧ sign = 43 ∨ m = -1 ∧ sign = 45 := by
      rcases hbyte with h | h
      · exact ⟨1, Or.inl ⟨rfl, h⟩⟩
      · exact ⟨-1, Or.inr ⟨rfl, h⟩⟩
    have hne : digitRun base body ≠ [] := by
      rw [hrun]
      simp
    have hlong := (longest_iff hsign m _ _).mpr ⟨hne, hm, rfl, rfl⟩
    have hend := ((hfollows 0).1 m _ _ hlong).2
    rw [hf, hmain, if_pos hnil, finish_none cast h0, hrun] at hend
    simp at hend
  · intro hnot errno
    obtain ⟨hiff, hrun⟩ := hreads hnot
    rw [hf, hmain]
    refine ⟨fun m n v hlong => ?_, fun hnone => ?_⟩
    · obtain ⟨hne, hm, rfl, rfl⟩ := (longest_iff hsign m n v).mp hlong
      have hes : p.takeWhile (isDigit b) ≠ [] := fun h => hne (hiff.mp h)
      obtain ⟨hlen, hval⟩ := hrun hes
      have hend := length_sub_dropWhile b hbody hp
      rw [if_neg hes, hval]
      by_cases hle : numeral (radix base body) (digitRun base body) ≤ L
      · rw [if_pos hle, hin m _ errno hm hle]
        exact ⟨rfl, by rw [finish, Option.getD_some, hend, hlen]⟩
      · rw [if_neg hle, hout m _ errno hm (by omega)]
        exact ⟨rfl, by rw [finish, Option.getD_some, hend, hlen]⟩
    · rw [if_pos (hiff.mpr ((no_numeral_iff hsign).mp hnone)), finish_none cast h0]

/-- The signed functions follow the documentation but for a `0` that stands alone. -/
theorem strtoSigned_follows_iff {w : ℕ} {min max : ℤ} (hw : 1 ≤ w) (hw' : w ≤ 64)
    (hmin : min = -2 ^ (w - 1)) (hmax : max = 2 ^ (w - 1) - 1) {text : List UInt8} {base : ℕ}
    (hbase : base = 0 ∨ 2 ≤ base ∧ base ≤ 36) :
    Follows (strtoSigned cLocale w min max) (signedOutcome w) text base ↔ ¬ LoneZero text base := by
  obtain ⟨n, rfl⟩ : ∃ n, w = n + 1 := ⟨w - 1, by omega⟩
  obtain ⟨p, b, htake, hb, hb', -, -, -⟩ :=
    takeBase_spec hbase (takeSign (skipSpace cLocale text)).2
  have hsign : takeSign (skipSpace cLocale text) = (_, _) := Prod.mk.eta.symm
  have hrun := fun errno => strtoSigned_eq hmin hmax hsign htake hb hb' errno
  obtain ⟨hbyte, -⟩ := takeSign_cases text hsign
  generalize (takeSign (skipSpace cLocale text)).1 = sign at hsign hrun hbyte
  rw [Nat.add_sub_cancel] at hrun
  have hpow : (2 : ℕ) ^ n ≤ 2 ^ 63 := Nat.pow_le_pow_right (by omega) (by omega)
  have hpos : (1 : ℕ) ≤ 2 ^ n := Nat.one_le_two_pow
  have hcast : ((2 ^ n : ℕ) : ℤ) = (2 : ℤ) ^ n := by push_cast; rfl
  have hpowZ : (1 : ℤ) ≤ 2 ^ n ∧ (2 : ℤ) ^ n ≤ 2 ^ 63 := by
    rw [← hcast]
    omega
  rcases hbyte with rfl | rfl
  · simp only [if_pos] at hrun
    refine follows_iff (fun x => Int.bmod x (2 ^ (n + 1))) hbase hsign htake (by omega)
      (by simp) hrun ?_ ?_
    · rintro m v errno (⟨rfl, -⟩ | ⟨-, h⟩) hle
      · have hv : (v : ℤ) < 2 ^ n := by omega
        rw [signedOutcome, Nat.add_sub_cancel, if_pos ⟨by omega, by omega⟩, if_pos rfl, one_mul,
          bmod_of_small n (by omega) hv]
      · exact absurd h (by decide)
    · rintro m v errno (⟨rfl, -⟩ | ⟨-, h⟩) hlt
      · have hv : ¬ (v : ℤ) < 2 ^ n := by omega
        have herr : ((((2 : ℤ) ^ n - 1) % 2 ^ 64).toNat : ℤ) = 2 ^ n - 1 := by omega
        rw [signedOutcome, Nat.add_sub_cancel, if_neg (by omega), if_neg (by omega), herr,
          bmod_of_small n (by omega) (by omega)]
      · exact absurd h (by decide)
  · have hne : ¬ (45 : UInt8) = 43 := by decide
    simp only [if_neg hne] at hrun
    refine follows_iff (fun x => Int.bmod x (2 ^ (n + 1))) hbase hsign htake (by omega) (by simp)
      hrun ?_ ?_
    · rintro m v errno (⟨-, h⟩ | ⟨rfl, -⟩) hle
      · exact absurd h (by decide)
      · have hv : (v : ℤ) ≤ 2 ^ n := by omega
        rw [signedOutcome, Nat.add_sub_cancel, if_pos ⟨by omega, by omega⟩, if_neg hne,
          Int.bmod_neg_bmod, bmod_of_small n (by omega) (by omega), neg_one_mul]
    · rintro m v errno (⟨-, h⟩ | ⟨rfl, -⟩) hlt
      · exact absurd h (by decide)
      · have hv : ¬ (v : ℤ) ≤ 2 ^ n := by omega
        have herr : ((-(2 : ℤ) ^ n % 2 ^ 64).toNat : ℤ) = -2 ^ n + 2 ^ 64 := by omega
        have hmul : (2 : ℤ) ^ 64 = 2 ^ (63 - n) * ((2 ^ (n + 1) : ℕ) : ℤ) := by
          rw [Nat.cast_pow, Nat.cast_ofNat, ← pow_add, show 63 - n + (n + 1) = 64 by omega]
        rw [signedOutcome, Nat.add_sub_cancel, if_neg (by omega), if_pos (by decide), herr, hmul,
          Int.add_mul_bmod_self_right, bmod_of_small n (by omega) (by omega)]

/-- The unsigned functions follow the documentation but for a `0` that stands alone. -/
theorem strtoUnsigned_follows_iff {w max : ℕ} (hw : w ≤ 64) (hmax : max = 2 ^ w - 1)
    {text : List UInt8} {base : ℕ} (hbase : base = 0 ∨ 2 ≤ base ∧ base ≤ 36) :
    Follows (strtoUnsigned cLocale w max) (unsignedOutcome w) text base ↔
      ¬ LoneZero text base := by
  obtain ⟨p, b, htake, hb, hb', -, -, -⟩ :=
    takeBase_spec hbase (takeSign (skipSpace cLocale text)).2
  have hsign : takeSign (skipSpace cLocale text) = (_, _) := Prod.mk.eta.symm
  obtain ⟨hbyte, -⟩ := takeSign_cases text hsign
  have hpow : (2 : ℕ) ^ w ≤ 2 ^ 64 := Nat.pow_le_pow_right (by omega) hw
  have hpos : (1 : ℕ) ≤ 2 ^ w := Nat.one_le_two_pow
  have hcast : ((2 ^ w : ℕ) : ℤ) = (2 : ℤ) ^ w := by push_cast; rfl
  have hrun : ∀ errno, strtoUnsigned cLocale w max text base errno =
      finish (fun x => x % 2 ^ w) text (strtoxMain cLocale b max (max / b) (max % b)
        (takeSign (skipSpace cLocale text)).1 errno 0 (-1) p) := by
    intro errno
    rw [strtoUnsigned, hsign]
    dsimp only
    rw [htake]
    dsimp only
    rw [if_neg (by omega), Int.toNat_natCast]
  generalize (takeSign (skipSpace cLocale text)).1 = sign at hsign hrun hbyte
  refine follows_iff (fun x => x % 2 ^ w) hbase hsign htake (by omega) (by simp) hrun ?_ ?_
  · intro m v errno hm hle
    have hv : (v : ℤ) % 2 ^ w = v := Int.emod_eq_of_lt (by omega) (by rw [← hcast]; omega)
    rw [unsignedOutcome, if_pos (by omega)]
    rcases hm with ⟨rfl, rfl⟩ | ⟨rfl, rfl⟩
    · rw [if_pos rfl, one_mul]
    · rw [if_neg (by decide), hv, neg_one_mul]
  · intro m v errno _ hlt
    have herr : (max : ℤ) % 2 ^ w = 2 ^ w - 1 := by
      rw [← hcast, hmax, Nat.cast_sub hpos, Nat.cast_one]
      exact Int.emod_eq_of_lt (by omega) (by omega)
    rw [unsignedOutcome, if_neg (by omega), herr]

/-- Each function follows its documentation on a text and a base exactly if the number is not a `0`
that stands alone when base 0 is asked for. -/
theorem strtol_family_follows_iff (text : List UInt8) (base : ℕ)
    (hbase : base = 0 ∨ 2 ≤ base ∧ base ≤ 36) :
    (Follows (strtol cLocale) (signedOutcome 32) text base ↔ ¬ LoneZero text base) ∧
      (Follows (strtoll cLocale) (signedOutcome 64) text base ↔ ¬ LoneZero text base) ∧
      (Follows (strtoul cLocale) (unsignedOutcome 32) text base ↔ ¬ LoneZero text base) ∧
      (Follows (strtoull cLocale) (unsignedOutcome 64) text base ↔ ¬ LoneZero text base) :=
  ⟨strtoSigned_follows_iff (by omega) (by omega) (by decide) (by decide) hbase,
    strtoSigned_follows_iff (by omega) (by omega) (by decide) (by decide) hbase,
    strtoUnsigned_follows_iff (by omega) (by decide) hbase,
    strtoUnsigned_follows_iff (by omega) (by decide) hbase⟩

theorem strtol_family_follows_ten :
    Follows (strtol cLocale) (signedOutcome 32) [45, 49, 120] 10 ∧
      Follows (strtoull cLocale) (unsignedOutcome 64) [45, 49, 120] 10 := by
  have hlone : ¬ LoneZero [45, 49, 120] 10 := by
    rintro ⟨-, -, -, -, h, -⟩
    cases h
  obtain ⟨hl, -, -, hull⟩ := strtol_family_follows_iff [45, 49, 120] 10 (by omega)
  exact ⟨hl.mpr hlone, hull.mpr hlone⟩

/-- In base 0 the longest number at the front of `0` is that `0`, and the end pointer is left at
the beginning. -/
theorem strtol_lone_zero :
    Longest 0 [48] 1 1 0 ∧ strtol cLocale [48] 0 0 = ⟨0, some 0, 0⟩ ∧
      ¬ Follows (strtol cLocale) (signedOutcome 32) [48] 0 := by
  have hlong : Longest 0 [48] 1 1 0 :=
    (longest_iff (show takeSign (skipSpace cLocale [48]) = (43, [48]) by decide) 1 1 0).mpr
      ⟨by decide, Or.inl ⟨rfl, rfl⟩, by decide, by decide⟩
  have hrun : strtol cLocale [48] 0 0 = ⟨0, some 0, 0⟩ := by decide
  refine ⟨hlong, hrun, fun hfollows => ?_⟩
  have hend := ((hfollows 0).1 1 1 0 hlong).2
  rw [Nat.cast_zero, hrun] at hend
  cases hend

end Lainos.Libc
