import Mathlib.Tactic
import Mathlib.Data.Nat.Bitwise

/-!
# Little-endian fields in a byte buffer

A buffer is a function from offsets to bytes, so a read never fails and a write
is a pointwise change. Words are read and written least significant byte first.
The laws say that a field reads back what was put there and that fields which
do not overlap do not see each other.
-/

namespace Lainos.Library

abbrev Bytes := ℕ → UInt8

/-- Replace `n` bytes from offset `o` on by the first `n` bytes of `src`. -/
def splice (b : Bytes) (o n : ℕ) (src : Bytes) : Bytes :=
  fun i => if o ≤ i ∧ i < o + n then src (i - o) else b i

/-- The buffer seen from offset `o` on. -/
def shift (b : Bytes) (o : ℕ) : Bytes := fun i => b (o + i)

theorem shift_shift (b : Bytes) (m n : ℕ) : shift (shift b m) n = shift b (m + n) := by
  funext i
  simp only [shift, Nat.add_assoc]

theorem splice_inside {b src : Bytes} {o n i : ℕ} (h₁ : o ≤ i) (h₂ : i < o + n) :
    splice b o n src i = src (i - o) := if_pos ⟨h₁, h₂⟩

theorem splice_outside {b src : Bytes} {o n i : ℕ} (h : i < o ∨ o + n ≤ i) :
    splice b o n src i = b i := by
  refine if_neg fun hi => ?_
  omega

@[simp] theorem splice_zero (b src : Bytes) (o : ℕ) : splice b o 0 src = b := by
  funext i
  exact splice_outside (by omega)

theorem splice_congr {b f g : Bytes} {o n : ℕ} (h : ∀ i < n, f i = g i) :
    splice b o n f = splice b o n g := by
  funext i
  unfold splice
  split_ifs with hi
  · exact h _ (by omega)
  · rfl

/-! ## Words -/

/-- The `i`th byte of a natural, least significant first. -/
def byteOf (v i : ℕ) : UInt8 := UInt8.ofNat (v / 256 ^ i)

theorem toNat_byteOf (v i : ℕ) : (byteOf v i).toNat = v / 256 ^ i % 256 := by
  simp [byteOf, UInt8.toNat_ofNat']

def get16 (b : Bytes) (o : ℕ) : UInt16 :=
  UInt16.ofNat ((b o).toNat + 256 * (b (o + 1)).toNat)

def get32 (b : Bytes) (o : ℕ) : UInt32 :=
  UInt32.ofNat ((b o).toNat + 256 * (b (o + 1)).toNat +
    65536 * (b (o + 2)).toNat + 16777216 * (b (o + 3)).toNat)

def word16 (v : UInt16) : Bytes := byteOf v.toNat

def word32 (v : UInt32) : Bytes := byteOf v.toNat

def put32 (b : Bytes) (o : ℕ) (v : UInt32) : Bytes := splice b o 4 (word32 v)

theorem get16_congr {a b : Bytes} {o p : ℕ} (h : ∀ i < 2, a (o + i) = b (p + i)) :
    get16 a o = get16 b p := by
  have h₀ := h 0 (by omega)
  have h₁ := h 1 (by omega)
  simp only [Nat.add_zero] at h₀
  rw [get16, get16, h₀, h₁]

theorem get32_congr {a b : Bytes} {o p : ℕ} (h : ∀ i < 4, a (o + i) = b (p + i)) :
    get32 a o = get32 b p := by
  have h₀ := h 0 (by omega)
  have h₁ := h 1 (by omega)
  have h₂ := h 2 (by omega)
  have h₃ := h 3 (by omega)
  simp only [Nat.add_zero] at h₀
  rw [get32, get32, h₀, h₁, h₂, h₃]

@[simp] theorem get16_word16 (v : UInt16) : get16 (word16 v) 0 = v := by
  apply UInt16.toNat_inj.mp
  have hv := v.toNat_lt
  simp only [get16, word16, toNat_byteOf, UInt16.toNat_ofNat']
  omega

@[simp] theorem get32_word32 (v : UInt32) : get32 (word32 v) 0 = v := by
  apply UInt32.toNat_inj.mp
  have hv := v.toNat_lt
  simp only [get32, word32, toNat_byteOf, UInt32.toNat_ofNat']
  omega

@[simp] theorem get32_put32 (b : Bytes) (o : ℕ) (v : UInt32) : get32 (put32 b o v) o = v := by
  calc
    get32 (put32 b o v) o = get32 (word32 v) 0 := by
      apply get32_congr
      intro i hi
      rw [put32, splice_inside (by omega) (by omega), Nat.add_sub_cancel_left, Nat.zero_add]
    _ = v := get32_word32 v

theorem get32_splice_disjoint {b src : Bytes} {o n p : ℕ} (h : p + 4 ≤ o ∨ o + n ≤ p) :
    get32 (splice b o n src) p = get32 b p := by
  apply get32_congr
  intro i hi
  exact splice_outside (by omega)

theorem get32_put32_disjoint {b : Bytes} {o p : ℕ} {v : UInt32} (h : p + 4 ≤ o ∨ o + 4 ≤ p) :
    get32 (put32 b o v) p = get32 b p :=
  get32_splice_disjoint h

@[simp] theorem get32_zero (o : ℕ) : get32 (fun _ => 0) o = 0 := by
  simp [get32]

/-! ## Single bits -/

/-- Bit `i` of the buffer, eight to a byte. -/
def testBit (b : Bytes) (i : ℕ) : Bool := (b (i / 8)).toNat.testBit (i % 8)

def setBit (b : Bytes) (i : ℕ) : Bytes :=
  Function.update b (i / 8) (b (i / 8) ||| UInt8.ofNat (2 ^ (i % 8)))

def clearBit (b : Bytes) (i : ℕ) : Bytes :=
  Function.update b (i / 8) (b (i / 8) &&& ~~~ UInt8.ofNat (2 ^ (i % 8)))

theorem testBit_or_bit (x : UInt8) {k : ℕ} (hk : k < 8) (j : ℕ) :
    (x ||| UInt8.ofNat (2 ^ k)).toNat.testBit j = (x.toNat.testBit j || decide (k = j)) := by
  have hpow : 2 ^ k % 2 ^ 8 = 2 ^ k := Nat.mod_eq_of_lt (Nat.pow_lt_pow_right (by omega) hk)
  rw [UInt8.toNat_or, UInt8.toNat_ofNat', hpow, Nat.testBit_or, Nat.testBit_two_pow]

theorem testBit_setBit (b : Bytes) (i j : ℕ) :
    testBit (setBit b i) j = (testBit b j || decide (i = j)) := by
  unfold testBit setBit
  by_cases h : j / 8 = i / 8
  · rw [h, Function.update_self, testBit_or_bit _ (Nat.mod_lt _ (by omega))]
    congr 2
    apply propext
    omega
  · rw [Function.update_of_ne h]
    have hij : ¬ i = j := by rintro rfl; exact h rfl
    simp [hij]

end Lainos.Library
