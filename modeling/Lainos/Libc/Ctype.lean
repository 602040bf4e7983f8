import Mathlib.Data.Int.Bitwise
import Mathlib.Tactic.IntervalCases

/-!
# Character classes

The table of `ctype.c` begins with a row for `EOF`, and the functions index it with the character
itself: every character finds the row of its predecessor. A `char` is signed, so a byte from 128
on is a negative index and is looked up in the memory before the table.
-/

namespace Lainos.Libc

def ctypeAlpha : ℕ := 1
def ctypeBlank : ℕ := 2
def ctypeCntrl : ℕ := 4
def ctypeGraph : ℕ := 8
def ctypePunct : ℕ := 16
def ctypeSpace : ℕ := 32
def ctypeLower : ℕ := 64
def ctypeUpper : ℕ := 128
def ctypeDigit : ℕ := 256
def ctypeXdigt : ℕ := 512

/-- A row of the table, with the fields that `isspace` and `tolower` read. -/
structure Row where
  flags : ℕ
  lower : ℕ
deriving DecidableEq, Repr

/-- The flags in the row that the table labels with the character `c`. -/
def flagsOf (c : ℕ) : ℕ :=
  if c = 9 then ctypeCntrl ||| ctypeBlank ||| ctypeSpace
  else if 10 ≤ c ∧ c ≤ 13 then ctypeCntrl ||| ctypeSpace
  else if c < 32 ∨ c = 127 then ctypeCntrl
  else if c = 32 then ctypeBlank ||| ctypeSpace
  else if 48 ≤ c ∧ c ≤ 57 then ctypeGraph ||| ctypeDigit ||| ctypeXdigt
  else if 65 ≤ c ∧ c ≤ 70 then ctypeGraph ||| ctypeAlpha ||| ctypeUpper ||| ctypeXdigt
  else if 71 ≤ c ∧ c ≤ 90 then ctypeGraph ||| ctypeAlpha ||| ctypeUpper
  else if 97 ≤ c ∧ c ≤ 102 then ctypeGraph ||| ctypeAlpha ||| ctypeLower ||| ctypeXdigt
  else if 103 ≤ c ∧ c ≤ 122 then ctypeGraph ||| ctypeAlpha ||| ctypeLower
  else if c < 127 then ctypeGraph ||| ctypePunct
  else 0

/-- The row that the table labels with the character `c`. -/
def rowOf (c : ℕ) : Row where
  flags := flagsOf c
  lower := if 65 ≤ c ∧ c ≤ 90 then c + 32 else c

/-- `global_ctype`: the row for `EOF` and then one for each character. -/
def globalCtype : ℕ → Row
  | 0 => ⟨0, 0⟩
  | c + 1 => rowOf c

/-- The functions the number readers call. -/
structure Ctype where
  isspace : ℤ → Bool
  tolower : ℤ → ℤ

/-- `global_ctype[c]`, where `stray` is what lies around the 257 rows. -/
def rowAt (stray : ℤ → Row) (c : ℤ) : Row :=
  if 0 ≤ c ∧ c ≤ 256 then globalCtype c.toNat else stray c

/-- `isspace` and `tolower` of `ctype.c`. -/
def libcCtype (stray : ℤ → Row) : Ctype where
  isspace := fun c => (rowAt stray c).flags &&& ctypeSpace != 0
  tolower := fun c => (rowAt stray c).lower

/-- The functions as the C locale has them. -/
def cLocale : Ctype where
  isspace := fun c => decide (c = 32 ∨ 9 ≤ c ∧ c ≤ 13)
  tolower := fun c => if 65 ≤ c ∧ c ≤ 90 then c + 32 else c

/-- A `char` passed as an `int`. -/
def char (c : UInt8) : ℤ := if c.toNat < 128 then c.toNat else c.toNat - 256

/-- `memchr` over the bytes `s`, as an offset. -/
def memchr (s : List UInt8) (c : ℤ) (n : ℕ) : Option ℕ :=
  (s.take n).findIdx? fun b => (b.toNat : ℤ) == c % 256

/-- `_digits`. -/
def digits : List UInt8 :=
  [48, 49, 50, 51, 52, 53, 54, 55, 56, 57, 97, 98, 99, 100, 101, 102, 103, 104, 105, 106, 107, 108,
    109, 110, 111, 112, 113, 114, 115, 116, 117, 118, 119, 120, 121, 122]

/-- `memchr(_digits, tolower(c), base)`, as an offset into `_digits`. -/
def digitOf (k : Ctype) (base : ℕ) (c : UInt8) : Option ℕ := memchr digits (k.tolower (char c)) base

/-! ## The row of the predecessor -/

theorem char_ofNat {n : ℕ} (hn : n < 128) : char (UInt8.ofNat n) = n := by
  have h : (UInt8.ofNat n).toNat = n := by
    simp only [UInt8.toNat_ofNat']
    omega
  rw [char, h, if_pos hn]

theorem rowAt_char (stray : ℤ → Row) {c : UInt8} (hc : c.toNat < 128) :
    rowAt stray (char c) = globalCtype c.toNat := by
  rw [char, if_pos hc, rowAt, if_pos (by omega), Int.toNat_natCast]

/-- The digit `d + 1` is looked up as the digit `d`. -/
theorem digitOf_shifted (stray : ℤ → Row) {d : ℕ} (hd : d < 9) :
    digitOf (libcCtype stray) 10 (UInt8.ofNat (49 + d)) = some d := by
  have hrow : rowAt stray (char (UInt8.ofNat (49 + d))) = rowOf (48 + d) := by
    rw [char_ofNat (by omega), rowAt, if_pos (by omega), Int.toNat_natCast, Nat.add_comm 49,
      Nat.add_comm 48]
    rfl
  simp only [digitOf, libcCtype, hrow]
  interval_cases d <;> rfl

/-- The digit `0` is looked up as the slash before it. -/
theorem digitOf_zero (stray : ℤ → Row) : digitOf (libcCtype stray) 10 48 = none := by
  have hrow : rowAt stray (char 48) = rowOf 47 := rfl
  simp only [digitOf, libcCtype, hrow]
  rfl

theorem isspace_char (stray : ℤ → Row) {c : UInt8} (hc : c.toNat < 128) :
    (libcCtype stray).isspace (char c) = ((globalCtype c.toNat).flags &&& ctypeSpace != 0) := by
  rw [← rowAt_char stray hc]
  rfl

/-- The exclamation mark is looked up as the blank before it. -/
example (stray : ℤ → Row) : (libcCtype stray).isspace (char 33) = true := by
  rw [isspace_char stray (by decide)]
  decide

end Lainos.Libc
