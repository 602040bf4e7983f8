import Lainos.Library.Bytes

/-!
# Lists of bytes in memory

What it means that a list of bytes lies at an address, storing such a list and copying bytes
one by one, and tables of words.
-/

namespace Lainos.Library

variable {m m' : Bytes} {a n x w : ℕ} {l l' : List UInt8}

/-- The bytes from `a` on are those of the list. -/
def Holds (m : Bytes) (a : ℕ) : List UInt8 → Prop
  | [] => True
  | b :: l => m a = b ∧ Holds m (a + 1) l

theorem holds_append : Holds m a (l ++ l') ↔ Holds m a l ∧ Holds m (a + l.length) l' := by
  induction l generalizing a with
  | nil => simp [Holds]
  | cons b l ih => simp [Holds, ih, and_assoc, Nat.add_assoc, Nat.add_comm 1]

theorem Holds.congr (h : Holds m a l) (hx : ∀ x, a ≤ x → x < a + l.length → m' x = m x) :
    Holds m' a l := by
  induction l generalizing a with
  | nil => trivial
  | cons b l ih =>
    rw [List.length_cons] at hx
    refine ⟨(hx a le_rfl (by omega)).trans h.1, ih h.2 fun x hle hlt => ?_⟩
    exact hx x (by omega) (by omega)

theorem Holds.apply (h : Holds m a l) {i : ℕ} (hi : i < l.length) : m (a + i) = l[i] := by
  induction l generalizing a i with
  | nil => cases hi
  | cons b l ih =>
    cases i with
    | zero => exact h.1
    | succ i =>
      rw [List.length_cons] at hi
      have := ih h.2 (i := i) (by omega)
      rwa [Nat.add_right_comm] at this

/-- The `n` bytes from `a` on. -/
def load (m : Bytes) (a : ℕ) : ℕ → List UInt8
  | 0 => []
  | n + 1 => m a :: load m (a + 1) n

@[simp] theorem length_load (m : Bytes) (a n : ℕ) : (load m a n).length = n := by
  induction n generalizing a with
  | zero => rfl
  | succ n ih => rw [load, List.length_cons, ih]

theorem holds_load (m : Bytes) (a n : ℕ) : Holds m a (load m a n) := by
  induction n generalizing a with
  | zero => trivial
  | succ n ih => exact ⟨rfl, ih (a + 1)⟩

theorem Holds.load (h : Holds m a l) : load m a l.length = l := by
  induction l generalizing a with
  | nil => rfl
  | cons b l ih => rw [List.length_cons, Library.load, h.1, ih h.2]

/-! ## Strings -/

/-- The string at `a`: its bytes and then the NUL. -/
structure IsString (m : Bytes) (a : ℕ) (l : List UInt8) : Prop where
  holds : Holds m a (l ++ [0])
  clean : 0 ∉ l

theorem isString_nil_iff : IsString m a [] ↔ m a = 0 :=
  ⟨fun h => h.holds.1, fun h => ⟨⟨h, trivial⟩, List.not_mem_nil⟩⟩

theorem isString_cons_iff {c : UInt8} :
    IsString m a (c :: l) ↔ m a = c ∧ c ≠ 0 ∧ IsString m (a + 1) l := by
  constructor
  · rintro ⟨⟨hc, hl⟩, h0⟩
    rw [List.mem_cons, not_or] at h0
    exact ⟨hc, Ne.symm h0.1, hl, h0.2⟩
  · rintro ⟨hc, hne, hl, h0⟩
    refine ⟨⟨hc, hl⟩, ?_⟩
    rw [List.mem_cons, not_or]
    exact ⟨Ne.symm hne, h0⟩

/-- The first byte of a string, as a test on it sees it. -/
theorem IsString.head {c : UInt8} (h : IsString m a l) (hc : c ≠ 0) :
    m a = c ↔ l.head? = some c := by
  cases l with
  | nil =>
    rw [isString_nil_iff.mp h]
    simp [Ne.symm hc]
  | cons d l =>
    rw [(isString_cons_iff.mp h).1]
    simp

/-! ## Storing -/

def store (m : Bytes) (a : ℕ) : List UInt8 → Bytes
  | [] => m
  | b :: l => store (Function.update m a b) (a + 1) l

theorem store_of_outside (h : x < a ∨ a + l.length ≤ x) : store m a l x = m x := by
  induction l generalizing m a with
  | nil => rfl
  | cons b l ih =>
    rw [List.length_cons] at h
    rw [store, ih (by omega), Function.update_of_ne (by omega)]

theorem holds_store (m : Bytes) (a : ℕ) (l : List UInt8) : Holds (store m a l) a l := by
  induction l generalizing m a with
  | nil => trivial
  | cons b l ih =>
    refine ⟨?_, ih _ _⟩
    rw [store, store_of_outside (.inl (Nat.lt_succ_self a)), Function.update_self]

/-- Bytes that are apart from those stored. -/
theorem Holds.store (h : Holds m a l) {b : ℕ} (hb : a + l.length ≤ b ∨ b + l'.length ≤ a) :
    Holds (Library.store m b l') a l :=
  h.congr fun x hle hlt => store_of_outside (by omega)

/-! ## Copying -/

/-- `n` bytes from `src` to `dst`, the first one first. -/
def copy (dst src : ℕ) : ℕ → Bytes → Bytes
  | 0, m => m
  | n + 1, m => copy (dst + 1) (src + 1) n (Function.update m dst (m src))

/-- The last byte first. -/
def copyBack (dst src : ℕ) : ℕ → Bytes → Bytes
  | 0, m => m
  | n + 1, m => copyBack dst src n (Function.update m (dst + n) (m (src + n)))

theorem copy_eq_store {dst src : ℕ} (h : Holds m src l)
    (hapart : src + l.length ≤ dst ∨ dst ≤ src) :
    copy dst src l.length m = store m dst l := by
  induction l generalizing m dst src with
  | nil => rfl
  | cons b l ih =>
    rw [List.length_cons] at hapart ⊢
    rw [copy, store, h.1]
    refine ih (h.2.congr fun x hle hlt => ?_) (by omega)
    exact Function.update_of_ne (by omega) _ _

theorem copy_apply {dst src : ℕ} (h : src + n ≤ dst ∨ dst ≤ src) :
    copy dst src n m x = if dst ≤ x ∧ x < dst + n then m (src + (x - dst)) else m x := by
  induction n generalizing dst src m with
  | zero => exact (if_neg (by omega)).symm
  | succ n ih =>
    rw [copy, ih (by omega)]
    by_cases hx : x = dst
    · subst hx
      rw [if_neg (by omega), if_pos (by omega), Function.update_self, Nat.sub_self, Nat.add_zero]
    · by_cases hin : dst + 1 ≤ x ∧ x < dst + 1 + n
      · rw [if_pos hin, if_pos (by omega), Function.update_of_ne (by omega)]
        congr 1
        omega
      · rw [if_neg hin, if_neg (by omega), Function.update_of_ne hx]

theorem copyBack_apply {dst src : ℕ} (h : src ≤ dst) :
    copyBack dst src n m x = if dst ≤ x ∧ x < dst + n then m (src + (x - dst)) else m x := by
  induction n generalizing m with
  | zero => exact (if_neg (by omega)).symm
  | succ n ih =>
    rw [copyBack, ih]
    by_cases hx : x = dst + n
    · subst hx
      rw [if_neg (by omega), if_pos (by omega), Function.update_self, Nat.add_sub_cancel_left]
    · by_cases hin : dst ≤ x ∧ x < dst + n
      · rw [if_pos hin, if_pos (by omega), Function.update_of_ne (by omega)]
      · rw [if_neg hin, if_neg (by omega), Function.update_of_ne hx]

/-! ## Words -/

def wordBytes (w : ℕ) : List UInt8 := [byteOf w 0, byteOf w 1, byteOf w 2, byteOf w 3]

@[simp] theorem length_wordBytes (w : ℕ) : (wordBytes w).length = 4 := rfl

def word (m : Bytes) (a : ℕ) : ℕ := (get32 m a).toNat

theorem Holds.word (h : Holds m a (wordBytes w)) (hw : w < 2 ^ 32) : word m a = w := by
  obtain ⟨h0, h1, h2, h3, -⟩ := h
  simp only [Library.word, get32, h0, h1, h2, h3, toNat_byteOf, UInt32.toNat_ofNat']
  omega

theorem word_store (m : Bytes) (a : ℕ) (hw : w < 2 ^ 32) : word (store m a (wordBytes w)) a = w :=
  (holds_store m a (wordBytes w)).word hw

/-- A table of words. -/
def words (ws : List ℕ) : List UInt8 := ws.flatMap wordBytes

@[simp] theorem length_words (ws : List ℕ) : (words ws).length = 4 * ws.length := by
  induction ws with
  | nil => rfl
  | cons w ws ih =>
    rw [words, List.flatMap_cons, List.length_append, ← words, ih, length_wordBytes,
      List.length_cons]
    ring

theorem words_append (ws ws' : List ℕ) : words (ws ++ ws') = words ws ++ words ws' :=
  List.flatMap_append

/-! ## Overwriting -/

section Overwrite

variable {α : Type*} {l new new' : List α} {o i : ℕ}

/-- A list with other elements from position `o` on. -/
def overwrite (l : List α) (o : ℕ) (new : List α) : List α :=
  l.take o ++ new ++ l.drop (o + new.length)

theorem length_overwrite (h : o ≤ l.length) :
    (overwrite l o new).length = max l.length (o + new.length) := by
  simp only [overwrite, List.length_append, List.length_take, List.length_drop]
  omega

theorem getElem?_overwrite_inside (h : o ≤ l.length) (hi : i < new.length) :
    (overwrite l o new)[o + i]? = new[i]? := by
  have hlen : (l.take o).length = o := List.length_take_of_le h
  rw [overwrite, List.append_assoc, List.getElem?_append_right (by omega), hlen,
    Nat.add_sub_cancel_left, List.getElem?_append_left hi]

theorem getElem?_overwrite_outside (h : o ≤ l.length) (hi : i < o ∨ o + new.length ≤ i) :
    (overwrite l o new)[i]? = l[i]? := by
  have hlen : (l.take o).length = o := List.length_take_of_le h
  rw [overwrite, List.append_assoc]
  obtain hi | hi := hi
  · rw [List.getElem?_append_left (by omega), List.getElem?_take_of_lt hi]
  · rw [List.getElem?_append_right (by omega), List.getElem?_append_right (by omega), hlen,
      List.getElem?_drop]
    congr 1
    omega

@[simp] theorem overwrite_nil (l : List α) (o : ℕ) : overwrite l o [] = l := by
  simp [overwrite]

end Overwrite

end Lainos.Library
