import Lainos.Libc.Realloc

/-!
# The memory primitives of the kernel and of the library

Both have their own `memmove`, `memset`, `memcmp`, `strncmp` and `strncpy`. Regions do not wrap
around the end of the address space, but one may end there; then the pointer behind it is 0. The
`strncpy` of the kernel takes its length as an `int`.
-/

namespace Lainos

open Library

/-! ## The kernel -/

namespace Kernel.Primitives

def memmove (dst src n : ℕ) (m : Bytes) : Bytes :=
  if src < dst ∧ dst < (src + n) % 2 ^ 32 then copyBack dst src n m else copy dst src n m

/-- `rep stosb`. -/
def stosb (data : UInt8) : ℕ → ℕ → Bytes → Bytes
  | 0, _, m => m
  | cnt + 1, addr, m => stosb data cnt (addr + 1) (Function.update m addr data)

/-- `rep stosl`. -/
def stosl (data : ℕ) : ℕ → ℕ → Bytes → Bytes
  | 0, _, m => m
  | cnt + 1, addr, m => stosl data cnt (addr + 4) (store m addr (wordBytes data))

/-- `(c << 24) | (c << 16) | (c << 8) | c`. -/
def fourfold (c : ℕ) : ℕ := (c <<< 24 ||| c <<< 16 ||| c <<< 8 ||| c) % 2 ^ 32

/-- The fast path is taken for a word-aligned `dst`; `(int)dst % 4` is 0 exactly for those. -/
def memset (dst : ℕ) (c : ℤ) (n : ℕ) (m : Bytes) : Bytes :=
  if dst % 4 = 0 ∧ n % 4 = 0 then
    stosl (fourfold (c % 256).toNat) (n / 4) dst m
  else stosb (UInt8.ofNat (c % 256).toNat) n dst m

def memcmp (m : Bytes) : ℕ → ℕ → ℕ → ℤ
  | 0, _, _ => 0
  | n + 1, s1, s2 => if m s1 ≠ m s2 then (m s1).toNat - (m s2).toNat else memcmp m n (s1 + 1) (s2 + 1)

/-- `while (n > 0 && *p && *p == *q)`, with `n`, `p` and `q` as it leaves them. -/
def agreeing (m : Bytes) : ℕ → ℕ → ℕ → ℕ × ℕ × ℕ
  | 0, p, q => (0, p, q)
  | n + 1, p, q => if m p ≠ 0 ∧ m p = m q then agreeing m n (p + 1) (q + 1) else (n + 1, p, q)

def strncmp (m : Bytes) (p q n : ℕ) : ℤ :=
  let r := agreeing m n p q
  if r.1 = 0 then 0 else (m r.2.1).toNat - (m r.2.2).toNat

/-- `while (n-- > 0 && (*s++ = *t++) != 0)`, with `n` (0 if it has fallen below), `s` and the
memory as it leaves them. -/
def copyString : ℕ → ℕ → ℕ → Bytes → ℕ × ℕ × Bytes
  | 0, s, _, m => (0, s, m)
  | n + 1, s, t, m =>
    if m t ≠ 0 then copyString n (s + 1) (t + 1) (Function.update m s (m t))
    else (n, s + 1, Function.update m s (m t))

/-- The parameter `n` is an `int`: from `2 ^ 31` on it is negative, and both loops end at once. -/
def strncpy (s t n : ℕ) (m : Bytes) : Bytes :=
  let n := if n < 2 ^ 31 then n else 0
  let r := copyString n s t m
  stosb 0 r.1 r.2.1 r.2.2

end Kernel.Primitives

/-! ## The library -/

namespace Libc.Primitives

/-- `while (n--) *p++ = c`. -/
def fill (c : UInt8) : ℕ → ℕ → Bytes → Bytes
  | 0, _, m => m
  | n + 1, p, m => fill c n (p + 1) (Function.update m p c)

def memset (s : ℕ) (c : ℤ) (n : ℕ) (m : Bytes) : Bytes := fill (UInt8.ofNat (c % 256).toNat) n s m

def memcmp (m : Bytes) : ℕ → ℕ → ℕ → ℤ
  | 0, _, _ => 0
  | n + 1, p1, p2 => if m p1 ≠ m p2 then (m p1).toNat - (m p2).toNat else memcmp m n (p1 + 1) (p2 + 1)

/-- `while (*s1 && n && (*s1 == *s2))`, with `n`, `s1` and `s2` as it leaves them. -/
def agreeing (m : Bytes) : ℕ → ℕ → ℕ → ℕ × ℕ × ℕ
  | n, s1, s2 =>
    if m s1 ≠ 0 ∧ n ≠ 0 ∧ m s1 = m s2 then agreeing m (n - 1) (s1 + 1) (s2 + 1) else (n, s1, s2)
termination_by n => n
decreasing_by omega

def strncmp (m : Bytes) (s1 s2 n : ℕ) : ℤ :=
  let r := agreeing m n s1 s2
  if r.1 = 0 then 0 else (m r.2.1).toNat - (m r.2.2).toNat

/-- `while ((n > 0) && (*s1++ = *s2++)) --n`, with `n`, `s1` and the memory as it leaves them: the
byte that ends the copy is still counted in `n`. -/
def copyString : ℕ → ℕ → ℕ → Bytes → ℕ × ℕ × Bytes
  | 0, s1, _, m => (0, s1, m)
  | n + 1, s1, s2, m =>
    if m s2 ≠ 0 then copyString n (s1 + 1) (s2 + 1) (Function.update m s1 (m s2))
    else (n + 1, s1 + 1, Function.update m s1 (m s2))

def strncpy (s1 s2 n : ℕ) (m : Bytes) : Bytes :=
  let r := copyString n s1 s2 m
  fill 0 (r.1 - 1) r.2.1 r.2.2

end Libc.Primitives

/-! ## That they agree -/

namespace Libc.Primitives

variable {m : Bytes}

theorem kernel_memmove_apply {dst src n : ℕ} (hdst : dst + n ≤ 2 ^ 32) (m : Bytes) (x : ℕ) :
    Kernel.Primitives.memmove dst src n m x =
      if dst ≤ x ∧ x < dst + n then m (src + (x - dst)) else m x := by
  rw [Kernel.Primitives.memmove]
  split
  · next h => exact copyBack_apply (by omega)
  · next h =>
    -- a source before the destination ends before the end of the address space
    refine copy_apply ?_
    by_contra hover
    push Not at hover
    exact h ⟨hover.2, by rw [Nat.mod_eq_of_lt (by omega)]; exact hover.1⟩

theorem stosb_eq_fill (c : UInt8) (n p : ℕ) (m : Bytes) :
    Kernel.Primitives.stosb c n p m = fill c n p m := by
  induction n generalizing p m with
  | zero => rfl
  | succ n ih => exact ih (p + 1) _

theorem wordBytes_fourfold : ∀ c < 256, wordBytes (Kernel.Primitives.fourfold c) =
    List.replicate 4 (UInt8.ofNat c) := by
  decide +kernel

/-- A word of four equal bytes fills as much as four bytes do. -/
theorem stosl_eq_fill {c : ℕ} (hc : c < 256) (k p : ℕ) (m : Bytes) :
    Kernel.Primitives.stosl (Kernel.Primitives.fourfold c) k p m =
      fill (UInt8.ofNat c) (4 * k) p m := by
  induction k generalizing p m with
  | zero => rfl
  | succ k ih =>
    rw [Kernel.Primitives.stosl, ih, wordBytes_fourfold c hc]
    rfl

theorem kernel_memset_eq (dst : ℕ) (c : ℤ) (n : ℕ) (m : Bytes) :
    Kernel.Primitives.memset dst c n m = memset dst c n m := by
  rw [Kernel.Primitives.memset, memset]
  split
  · next h =>
    rw [stosl_eq_fill (by omega), show 4 * (n / 4) = n by omega]
  · rw [stosb_eq_fill]

theorem kernel_memcmp_eq (n s1 s2 : ℕ) : Kernel.Primitives.memcmp m n s1 s2 = memcmp m n s1 s2 := by
  induction n generalizing s1 s2 with
  | zero => rfl
  | succ n ih => rw [Kernel.Primitives.memcmp, memcmp, ih]

theorem kernel_agreeing_eq (n p q : ℕ) :
    Kernel.Primitives.agreeing m n p q = agreeing m n p q := by
  induction n generalizing p q with
  | zero =>
    rw [agreeing, if_neg (by simp)]
    rfl
  | succ n ih =>
    rw [Kernel.Primitives.agreeing, agreeing, Nat.add_sub_cancel, ih]
    simp

theorem kernel_strncmp_eq (p q n : ℕ) : Kernel.Primitives.strncmp m p q n = strncmp m p q n := by
  rw [Kernel.Primitives.strncmp, strncmp, kernel_agreeing_eq]

/-- The two copies end at the same place with the same bytes; the one of the library still counts
the byte that ended it. -/
theorem kernel_copyString_eq (n s t : ℕ) (m : Bytes) :
    Kernel.Primitives.copyString n s t m =
      ((copyString n s t m).1 - 1, (copyString n s t m).2) := by
  induction n generalizing s t m with
  | zero => rfl
  | succ n ih =>
    rw [Kernel.Primitives.copyString, copyString]
    split
    · exact ih _ _ _
    · rfl

/-- The `strncpy` of the kernel is that of the library for a length that is an `int`, and does
nothing for one that is not. -/
theorem kernel_strncpy_eq (s t n : ℕ) (m : Bytes) :
    Kernel.Primitives.strncpy s t n m = if n < 2 ^ 31 then strncpy s t n m else m := by
  rw [Kernel.Primitives.strncpy]
  by_cases hint : n < 2 ^ 31
  · rw [if_pos hint, if_pos hint, kernel_copyString_eq, strncpy]
    exact stosb_eq_fill 0 _ _ _
  · rw [if_neg hint, if_neg hint]
    rfl

/-- All bytes of the destination are those the source had, and no others are changed. -/
def Transfers (dst src n : ℕ) (m m' : Bytes) : Prop :=
  ∀ x, m' x = if dst ≤ x ∧ x < dst + n then m (src + (x - dst)) else m x

theorem fill_below (c : UInt8) {n p x : ℕ} (hx : x < p) (m : Bytes) : fill c n p m x = m x := by
  induction n generalizing p m with
  | zero => rfl
  | succ n ih => rw [fill, ih (by omega), Function.update_of_ne (by omega)]

theorem copyString_below {n s t x : ℕ} (hx : x < s) (m : Bytes) :
    (copyString n s t m).2.2 x = m x ∧ x < (copyString n s t m).2.1 := by
  induction n generalizing s t m with
  | zero => exact ⟨rfl, hx⟩
  | succ n ih =>
    rw [copyString]
    split
    · obtain ⟨hsame, hlt⟩ := ih (s := s + 1) (t := t + 1) (by omega) (Function.update m s (m t))
      exact ⟨hsame.trans (Function.update_of_ne (by omega) _ _), hlt⟩
    · exact ⟨Function.update_of_ne (by omega) _ _, Nat.lt_succ_of_lt hx⟩

/-- The first byte is copied. -/
theorem strncpy_first (s t n : ℕ) (m : Bytes) : strncpy s t (n + 1) m s = m t := by
  rw [strncpy, copyString]
  split
  · obtain ⟨hsame, hlt⟩ := copyString_below (n := n) (t := t + 1) (Nat.lt_succ_self s)
      (Function.update m s (m t))
    rw [fill_below 0 hlt, hsame, Function.update_self]
  · exact (fill_below 0 (Nat.lt_succ_self s) _).trans (Function.update_self _ _ _)

end Libc.Primitives

end Lainos
