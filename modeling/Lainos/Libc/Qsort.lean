import Lainos.Library.ByteLists
import Lainos.Library.Rearrange
import Mathlib.Tactic.Ring
import Mathlib.Tactic.Linarith

/-!
# `qsort`

The array lies in memory as bytes, and pointers are addresses of 32 bits. An access to an element
that does not lie in the array and a push over the end of the stack are faults; each loop is given
`fuel`, and a run that would not end uses it up.
-/

namespace Lainos.Libc

open Library

namespace Qsort

inductive Fault
  | access | stack | fuel
deriving DecidableEq, Repr

/-- The arguments of a call. -/
structure Job where
  base : ℕ
  nmemb : ℕ
  size : ℕ
  compar : List UInt8 → List UInt8 → ℤ

def STACKSIZE : ℕ := 64

namespace Job

variable (q : Job)

/-- `T * size`, as a `size_t`. -/
def thresh : ℕ := 7 * q.size % 2 ^ 32

/-- `base_ + nmemb * size`. -/
def limit : ℕ := (q.base + q.nmemb * q.size) % 2 ^ 32

def next (p : ℕ) : ℕ := (p + q.size) % 2 ^ 32

def prev (p : ℕ) : ℕ := (p + 2 ^ 32 - q.size) % 2 ^ 32

/-- The element at `p` lies in the array. -/
def Inside (p : ℕ) : Prop := q.base ≤ p ∧ p + q.size ≤ q.base + q.nmemb * q.size

instance (p : ℕ) : Decidable (q.Inside p) := inferInstanceAs (Decidable (_ ∧ _))

/-- A call of `compar` with pointers to two elements. -/
def compare (m : Bytes) (x y : ℕ) : Except Fault ℤ :=
  if q.Inside x ∧ q.Inside y then pure (q.compar (load m x q.size) (load m y q.size))
  else throw .access

/-- The loop of `memswp`. -/
def swapBytes : ℕ → Bytes → ℕ → ℕ → Bytes
  | 0, m, _, _ => m
  | n + 1, m, i, j =>
    swapBytes n (Function.update (Function.update m i (m j)) j (m i)) (i + 1) (j + 1)

def memswp (m : Bytes) (x y : ℕ) : Except Fault Bytes :=
  if q.Inside x ∧ q.Inside y then pure (swapBytes q.size m x y) else throw .access

/-- `if (compar(x, y) > 0) memswp(x, y, size)`. -/
def swapIfGreater (m : Bytes) (x y : ℕ) : Except Fault Bytes := do
  let c ← q.compare m x y
  if 0 < c then q.memswp m x y else pure m

/-- The median of the middle, the second and the last element becomes the first. -/
def median (m : Bytes) (lo hi : ℕ) : Except Fault Bytes := do
  let i := q.next lo
  let j := q.prev hi
  let count := (hi + 2 ^ 32 - lo) % 2 ^ 32 / q.size
  let m ← q.memswp m ((count / 2 * q.size + lo) % 2 ^ 32) lo
  let m ← q.swapIfGreater m i j
  let m ← q.swapIfGreater m lo j
  q.swapIfGreater m i lo

/-- `do { i += size; } while (compar(i, base_) < 0)`. -/
def scanRight (m : Bytes) (lo : ℕ) : ℕ → ℕ → Except Fault ℕ
  | 0, _ => throw .fuel
  | fuel + 1, i => do
    let i := q.next i
    let c ← q.compare m i lo
    if c < 0 then scanRight m lo fuel i else pure i

/-- `do { j -= size; } while (compar(j, base_) > 0)`. -/
def scanLeft (m : Bytes) (lo : ℕ) : ℕ → ℕ → Except Fault ℕ
  | 0, _ => throw .fuel
  | fuel + 1, j => do
    let j := q.prev j
    let c ← q.compare m j lo
    if 0 < c then scanLeft m lo fuel j else pure j

/-- The main loop of the partition. -/
def cross (fuel lo : ℕ) : ℕ → Bytes → ℕ → ℕ → Except Fault (Bytes × ℕ × ℕ)
  | 0, _, _, _ => throw .fuel
  | rounds + 1, m, i, j => do
    let i ← q.scanRight m lo fuel i
    let j ← q.scanLeft m lo fuel j
    if j < i then pure (m, i, j)
    else do
      let m ← q.memswp m i j
      cross fuel lo rounds m i j

/-- The partition of the elements from `lo` up to `hi`, with the places where the pointers crossed. -/
def partition (fuel : ℕ) (m : Bytes) (lo hi : ℕ) : Except Fault (Bytes × ℕ × ℕ) := do
  let m ← q.median m lo hi
  let (m, i, j) ← q.cross fuel lo fuel m (q.next lo) (q.prev hi)
  let m ← q.memswp m lo j
  pure (m, i, j)

/-- The inner loop of the insertion sort. -/
def sink (lo : ℕ) : ℕ → Bytes → ℕ → Except Fault Bytes
  | 0, _, _ => throw .fuel
  | fuel + 1, m, j => do
    let c ← q.compare m j (q.next j)
    if 0 < c then do
      let m ← q.memswp m j (q.next j)
      if j = lo then pure m else sink lo fuel m (q.prev j)
    else pure m

/-- The outer loop of the insertion sort. -/
def insertion (fuel lo hi : ℕ) : ℕ → Bytes → ℕ → ℕ → Except Fault Bytes
  | 0, _, _, _ => throw .fuel
  | rounds + 1, m, j, i =>
    if i < hi then do
      let m ← q.sink lo fuel m j
      insertion fuel lo hi rounds m i (q.next i)
    else pure m

/-- `PUSH`: two more pointers on the stack. -/
def push (stack : List (ℕ × ℕ)) (part : ℕ × ℕ) : Except Fault (List (ℕ × ℕ)) :=
  if 2 * stack.length + 2 ≤ STACKSIZE then pure (part :: stack) else throw .stack

/-- The loop of `qsort`. -/
def sortParts (fuel : ℕ) : ℕ → Bytes → ℕ → ℕ → List (ℕ × ℕ) → Except Fault Bytes
  | 0, _, _, _, _ => throw .fuel
  | rounds + 1, m, lo, hi, stack =>
    if q.thresh < (hi + 2 ^ 32 - lo) % 2 ^ 32 then do
      let (m, i, j) ← q.partition fuel m lo hi
      if Int.bmod (hi - i) (2 ^ 32) < Int.bmod (j - lo) (2 ^ 32) then do
        let stack ← push stack (lo, j)
        sortParts fuel rounds m i hi stack
      else do
        let stack ← push stack (i, hi)
        sortParts fuel rounds m lo j stack
    else do
      let m ← q.insertion fuel lo hi fuel m lo (q.next lo)
      match stack with
      | [] => pure m
      | (lo, hi) :: stack => sortParts fuel rounds m lo hi stack

def qsort (fuel : ℕ) (m : Bytes) : Except Fault Bytes :=
  q.sortParts fuel fuel m q.base q.limit []

/-! ## Elements -/

/-- The address of the element with number `k`. -/
def place (k : ℕ) : ℕ := q.base + k * q.size

/-- The element with number `k`. -/
def elem (m : Bytes) (k : ℕ) : List UInt8 := load m (q.place k) q.size

/-- The array fits in the address space. -/
structure Fits : Prop where
  size_pos : 1 ≤ q.size
  limit_lt : q.base + q.nmemb * q.size < 2 ^ 32

variable {q} {m m' : Bytes} {i j k : ℕ}

theorem place_succ (k : ℕ) : q.place (k + 1) = q.place k + q.size := by
  rw [place, place]
  ring

theorem place_le (hk : k ≤ q.nmemb) : q.place k ≤ q.base + q.nmemb * q.size := by
  have hmul := Nat.mul_le_mul_right q.size hk
  rw [place]
  omega

theorem inside_place (hk : k < q.nmemb) : q.Inside (q.place k) := by
  have hle := place_le (show k + 1 ≤ q.nmemb from hk)
  rw [place_succ] at hle
  exact ⟨Nat.le_add_right _ _, hle⟩

namespace Fits

variable (h : q.Fits)
include h

theorem next_place (hk : k < q.nmemb) : q.next (q.place k) = q.place (k + 1) := by
  have hle := place_le (show k + 1 ≤ q.nmemb from hk)
  have hlt := h.limit_lt
  rw [next, ← place_succ, Nat.mod_eq_of_lt (by omega)]

theorem prev_place (hk : k < q.nmemb) : q.prev (q.place (k + 1)) = q.place k := by
  have hle := place_le (show k + 1 ≤ q.nmemb from hk)
  have hlt := h.limit_lt
  rw [place_succ] at hle
  rw [prev, place_succ, show q.place k + q.size + 2 ^ 32 - q.size = q.place k + 2 ^ 32 by omega,
    Nat.add_mod_right, Nat.mod_eq_of_lt (by omega)]

theorem place_lt_iff : q.place i < q.place j ↔ i < j := by
  have hpos := h.size_pos
  rw [place, place, Nat.add_lt_add_iff_left]
  exact Nat.mul_lt_mul_right hpos

theorem place_inj : q.place i = q.place j ↔ i = j := by
  have hij := h.place_lt_iff (i := i) (j := j)
  have hji := h.place_lt_iff (i := j) (j := i)
  omega

/-- The number of bytes between two elements. -/
theorem bytes_between (hij : i ≤ j) (hj : j ≤ q.nmemb) :
    (q.place j + 2 ^ 32 - q.place i) % 2 ^ 32 = (j - i) * q.size := by
  have hle := place_le hj
  have hlt := h.limit_lt
  obtain ⟨d, rfl⟩ := Nat.exists_eq_add_of_le hij
  have hsum : q.place (i + d) = q.place i + d * q.size := by
    rw [place, place]
    ring
  rw [hsum] at hle ⊢
  rw [show q.place i + d * q.size + 2 ^ 32 - q.place i = d * q.size + 2 ^ 32 by omega,
    Nat.add_mod_right, Nat.mod_eq_of_lt (by omega), Nat.add_sub_cancel_left]

theorem compare_place (m : Bytes) (hi : i < q.nmemb) (hj : j < q.nmemb) :
    q.compare m (q.place i) (q.place j) = .ok (q.compar (q.elem m i) (q.elem m j)) :=
  if_pos ⟨inside_place hi, inside_place hj⟩

end Fits

/-- Swapping two blocks of bytes that do not overlap. -/
theorem swapBytes_apply {n : ℕ} (hij : i + n ≤ j ∨ j + n ≤ i) (m : Bytes) (x : ℕ) :
    swapBytes n m i j x =
      if i ≤ x ∧ x < i + n then m (j + (x - i))
      else if j ≤ x ∧ x < j + n then m (i + (x - j)) else m x := by
  induction n generalizing i j m with
  | zero =>
    rw [if_neg (by omega), if_neg (by omega)]
    rfl
  | succ n ih =>
    -- the first byte of each block is swapped in this round and not touched again
    rw [swapBytes, ih (by omega)]
    simp only [Function.update_apply]
    split_ifs <;> first | omega | (congr 1 <;> omega)

theorem swapBytes_self (n : ℕ) (m : Bytes) (i : ℕ) : swapBytes n m i i = m := by
  induction n generalizing i with
  | zero => rfl
  | succ n ih =>
    rw [swapBytes, Function.update_eq_self, Function.update_eq_self]
    exact ih (i + 1)

theorem load_eq_load {m m' : Bytes} {x y n : ℕ} (h : ∀ t < n, m' (x + t) = m (y + t)) :
    load m' x n = load m y n := by
  induction n generalizing x y with
  | zero => rfl
  | succ n ih =>
    have hfirst : m' x = m y := h 0 (by omega)
    rw [load, load, hfirst, ih fun t ht => ?_]
    have hstep := h (t + 1) (by omega)
    rwa [show x + 1 + t = x + (t + 1) by omega, show y + 1 + t = y + (t + 1) by omega]

/-- Two memories are the same outside the array. -/
def SameOutside (q : Job) (m m' : Bytes) : Prop :=
  ∀ x, x < q.base ∨ q.base + q.nmemb * q.size ≤ x → m' x = m x

theorem place_add_le (hij : i < j) : q.place i + q.size ≤ q.place j := by
  rw [← place_succ]
  exact Nat.add_le_add_left (Nat.mul_le_mul_right _ hij) _

/-- `memswp` swaps two elements and changes nothing else. -/
theorem Fits.memswp_place (h : q.Fits) (m : Bytes) (hi : i < q.nmemb) (hj : j < q.nmemb) :
    ∃ m', q.memswp m (q.place i) (q.place j) = .ok m' ∧ q.SameOutside m m' ∧
      ∀ k, q.elem m' k = q.elem m (Equiv.swap i j k) := by
  refine ⟨swapBytes q.size m (q.place i) (q.place j), if_pos ⟨inside_place hi, inside_place hj⟩, ?_⟩
  by_cases hij : i = j
  · subst hij
    rw [swapBytes_self, Equiv.swap_self]
    exact ⟨fun _ _ => rfl, fun _ => rfl⟩
  have hdisj : q.place i + q.size ≤ q.place j ∨ q.place j + q.size ≤ q.place i :=
    (Nat.lt_or_gt_of_ne hij).imp place_add_le place_add_le
  refine ⟨fun x hx => ?_, fun k => ?_⟩
  · have hini := inside_place hi
    have hinj := inside_place hj
    rw [Inside] at hini hinj
    rw [swapBytes_apply hdisj, if_neg (by omega), if_neg (by omega)]
  · apply load_eq_load
    intro t ht
    rw [swapBytes_apply hdisj]
    by_cases hki : k = i
    · subst hki
      rw [if_pos (by omega), Equiv.swap_apply_left, Nat.add_sub_cancel_left]
    by_cases hkj : k = j
    · subst hkj
      rw [if_neg (by omega), if_pos (by omega), Equiv.swap_apply_right, Nat.add_sub_cancel_left]
    have hik : q.place i + q.size ≤ q.place k ∨ q.place k + q.size ≤ q.place i :=
      (Nat.lt_or_gt_of_ne (Ne.symm hki)).imp place_add_le place_add_le
    have hjk : q.place j + q.size ≤ q.place k ∨ q.place k + q.size ≤ q.place j :=
      (Nat.lt_or_gt_of_ne (Ne.symm hkj)).imp place_add_le place_add_le
    rw [if_neg (by omega), if_neg (by omega), Equiv.swap_apply_of_ne_of_ne hki hkj]

/-! ## Moving elements -/

/-- The elements from `lo` up to `hi` are rearranged, and nothing else is changed. -/
structure Moved (q : Job) (lo hi : ℕ) (m m' : Bytes) : Prop where
  rearranged : Rearranged lo hi (q.elem m) (q.elem m')
  outside : q.SameOutside m m'

namespace Moved

variable {lo hi : ℕ} {m'' : Bytes}

theorem refl (q : Job) (lo hi : ℕ) (m : Bytes) : q.Moved lo hi m m :=
  ⟨Rearranged.refl lo hi _, fun _ _ => rfl⟩

theorem trans (h : q.Moved lo hi m m') (h' : q.Moved lo hi m' m'') : q.Moved lo hi m m'' :=
  ⟨h.rearranged.trans h'.rearranged, fun x hx => (h'.outside x hx).trans (h.outside x hx)⟩

theorem mono {lo' hi' : ℕ} (h : q.Moved lo hi m m') (hlo : lo' ≤ lo) (hhi : hi ≤ hi') :
    q.Moved lo' hi' m m' :=
  ⟨h.rearranged.mono hlo hhi, h.outside⟩

end Moved

/-- All elements of the array are in `S`. -/
def Among (q : Job) (S : Set (List UInt8)) (m : Bytes) : Prop := ∀ k < q.nmemb, q.elem m k ∈ S

theorem Moved.among {S : Set (List UInt8)} {lo hi : ℕ} (h : q.Moved lo hi m m')
    (hm : q.Among S m) (hhi : hi ≤ q.nmemb) : q.Among S m' := by
  intro k hk
  by_cases hin : lo ≤ k ∧ k < hi
  · exact h.rearranged.forall_inside (P := fun x => x ∈ S) (fun l _ hl => hm l (by omega)) k hin.1
      hin.2
  · rw [h.rearranged.outside hin]
    exact hm k hk

/-- `compar` is a total preorder on `S`. -/
structure TotalPreorder (compar : List UInt8 → List UInt8 → ℤ) (S : Set (List UInt8)) : Prop where
  flip : ∀ x ∈ S, ∀ y ∈ S, (0 < compar x y ↔ compar y x < 0)
  trans : ∀ x ∈ S, ∀ y ∈ S, ∀ z ∈ S, compar x y ≤ 0 → compar y z ≤ 0 → compar x z ≤ 0

/-- The element at `i` does not come after the one at `j`. -/
def Le (q : Job) (m : Bytes) (i j : ℕ) : Prop := q.compar (q.elem m i) (q.elem m j) ≤ 0

namespace Fits

variable {S : Set (List UInt8)} {lo hi l : ℕ}

theorem le_trans (T : TotalPreorder q.compar S) (hm : q.Among S m) (hi' : i < q.nmemb)
    (hj : j < q.nmemb) (hk : k < q.nmemb) (hij : q.Le m i j) (hjk : q.Le m j k) : q.Le m i k :=
  T.trans _ (hm i hi') _ (hm j hj) _ (hm k hk) hij hjk

theorem le_of_not_lt (T : TotalPreorder q.compar S) (hm : q.Among S m) (hi' : i < q.nmemb)
    (hj : j < q.nmemb) (h : ¬ q.compar (q.elem m i) (q.elem m j) < 0) : q.Le m j i := by
  have hflip := T.flip _ (hm j hj) _ (hm i hi')
  rw [Le]
  omega

theorem le_of_gt (T : TotalPreorder q.compar S) (hm : q.Among S m) (hi' : i < q.nmemb)
    (hj : j < q.nmemb) (h : 0 < q.compar (q.elem m i) (q.elem m j)) : q.Le m j i := by
  have hflip := T.flip _ (hm i hi') _ (hm j hj)
  rw [Le]
  omega

theorem le_refl (T : TotalPreorder q.compar S) (hm : q.Among S m) (hi' : i < q.nmemb) :
    q.Le m i i := by
  have hflip := T.flip _ (hm i hi') _ (hm i hi')
  rw [Le]
  omega

/-- The elements of `m'` are those of `m`, with those at `i` and `j` swapped. -/
def Swapped (q : Job) (i j : ℕ) (m m' : Bytes) : Prop :=
  ∀ k, q.elem m' k = q.elem m (Equiv.swap i j k)

theorem memswp_moved (h : q.Fits) (m : Bytes) (hi' : lo ≤ i ∧ i < hi) (hj : lo ≤ j ∧ j < hi)
    (hhi : hi ≤ q.nmemb) : ∃ m', q.memswp m (q.place i) (q.place j) = .ok m' ∧
      q.Moved lo hi m m' ∧ Swapped q i j m m' := by
  obtain ⟨m', hok, hout, hswap⟩ := h.memswp_place m (show i < q.nmemb by omega)
    (show j < q.nmemb by omega)
  exact ⟨m', hok, ⟨Rearranged.swap hi' hj hswap, hout⟩, hswap⟩

/-- After `if (compar(i, j) > 0) memswp(i, j)` the two elements are in order. -/
theorem swapIfGreater_place (h : q.Fits) (T : TotalPreorder q.compar S) (hm : q.Among S m)
    (hi' : lo ≤ i ∧ i < hi) (hj : lo ≤ j ∧ j < hi) (hhi : hi ≤ q.nmemb) :
    ∃ m', q.swapIfGreater m (q.place i) (q.place j) = .ok m' ∧ q.Moved lo hi m m' ∧
      (q.Le m i j ∧ m' = m ∨ q.Le m j i ∧ Swapped q i j m m') := by
  rw [swapIfGreater, h.compare_place m (by omega) (by omega)]
  by_cases hgt : 0 < q.compar (q.elem m i) (q.elem m j)
  · obtain ⟨m', hok, hmoved, hswap⟩ := h.memswp_moved m hi' hj hhi
    have hle := le_of_gt T hm (by omega) (by omega) hgt
    refine ⟨m', ?_, hmoved, Or.inr ⟨hle, hswap⟩⟩
    show (if 0 < q.compar (q.elem m i) (q.elem m j) then _ else _) = _
    rw [if_pos hgt, hok]
  · refine ⟨m, ?_, Moved.refl q lo hi m, Or.inl ⟨by rw [Le]; omega, rfl⟩⟩
    show (if 0 < q.compar (q.elem m i) (q.elem m j) then _ else _) = _
    rw [if_neg hgt]
    rfl

theorem Swapped.le_iff (hs : Swapped q i j m m') (k l : ℕ) :
    q.Le m' k l ↔ q.Le m (Equiv.swap i j k) (Equiv.swap i j l) := by
  rw [Le, Le, hs k, hs l]

/-- The middle element of a part. -/
theorem middle_place (h : q.Fits) (hlo : lo < hi) (hhi : hi ≤ q.nmemb) :
    ((q.place hi + 2 ^ 32 - q.place lo) % 2 ^ 32 / q.size / 2 * q.size + q.place lo) % 2 ^ 32 =
      q.place (lo + (hi - lo) / 2) := by
  have hpos := h.size_pos
  have hsum : (hi - lo) / 2 * q.size + q.place lo = q.place (lo + (hi - lo) / 2) := by
    rw [place, place]
    ring
  have hle := place_le (show lo + (hi - lo) / 2 ≤ q.nmemb by omega)
  have hlt := h.limit_lt
  rw [h.bytes_between (by omega) hhi, Nat.mul_div_cancel _ (by omega), hsum,
    Nat.mod_eq_of_lt (by omega)]

/-- The first element becomes the median of three. -/
theorem median_place (h : q.Fits) (T : TotalPreorder q.compar S) (hm : q.Among S m)
    (hlo : lo + 3 ≤ hi) (hhi : hi ≤ q.nmemb) :
    ∃ m', q.median m (q.place lo) (q.place hi) = .ok m' ∧ q.Moved lo hi m m' ∧
      q.Le m' (lo + 1) lo ∧ q.Le m' lo (hi - 1) := by
  obtain ⟨j, rfl⟩ : ∃ j, hi = j + 1 := ⟨hi - 1, by omega⟩
  rw [Nat.add_sub_cancel]
  obtain ⟨m₀, hok₀, hmoved₀, -⟩ := h.memswp_moved m
    (show lo ≤ lo + (j + 1 - lo) / 2 ∧ lo + (j + 1 - lo) / 2 < j + 1 by omega)
    (show lo ≤ lo ∧ lo < j + 1 by omega) hhi
  have hm₀ := hmoved₀.among hm hhi
  obtain ⟨m₁, hok₁, hmoved₁, hcase₁⟩ := h.swapIfGreater_place T hm₀
    (show lo ≤ lo + 1 ∧ lo + 1 < j + 1 by omega) (show lo ≤ j ∧ j < j + 1 by omega) hhi
  have hm₁ := hmoved₁.among hm₀ hhi
  have hij₁ : q.Le m₁ (lo + 1) j := by
    rcases hcase₁ with ⟨hle, rfl⟩ | ⟨hle, hs⟩
    · exact hle
    · rwa [hs.le_iff, Equiv.swap_apply_left, Equiv.swap_apply_right]
  obtain ⟨m₂, hok₂, hmoved₂, hcase₂⟩ := h.swapIfGreater_place T hm₁
    (show lo ≤ lo ∧ lo < j + 1 by omega) (show lo ≤ j ∧ j < j + 1 by omega) hhi
  have hm₂ := hmoved₂.among hm₁ hhi
  have hij₂ : q.Le m₂ lo j ∧ q.Le m₂ (lo + 1) j := by
    rcases hcase₂ with ⟨hle, rfl⟩ | ⟨hle, hs⟩
    · exact ⟨hle, hij₁⟩
    · rw [hs.le_iff, hs.le_iff, Equiv.swap_apply_left, Equiv.swap_apply_right,
        Equiv.swap_apply_of_ne_of_ne (by omega) (by omega)]
      exact ⟨hle, le_trans T hm₁ (by omega) (by omega) (by omega) hij₁ hle⟩
  obtain ⟨m₃, hok₃, hmoved₃, hcase₃⟩ := h.swapIfGreater_place T hm₂
    (show lo ≤ lo + 1 ∧ lo + 1 < j + 1 by omega) (show lo ≤ lo ∧ lo < j + 1 by omega) hhi
  refine ⟨m₃, ?_, hmoved₀.trans (hmoved₁.trans (hmoved₂.trans hmoved₃)), ?_⟩
  · rw [median, h.middle_place (by omega) hhi, h.next_place (by omega), h.prev_place (by omega),
      hok₀]
    show (q.swapIfGreater m₀ (q.place (lo + 1)) (q.place j) >>= _) = _
    rw [hok₁]
    show (q.swapIfGreater m₁ (q.place lo) (q.place j) >>= _) = _
    rw [hok₂]
    exact hok₃
  · rcases hcase₃ with ⟨hle, rfl⟩ | ⟨hle, hs⟩
    · exact ⟨hle, hij₂.1⟩
    · rw [hs.le_iff, hs.le_iff, Equiv.swap_apply_left, Equiv.swap_apply_right,
        Equiv.swap_apply_of_ne_of_ne (by omega) (by omega)]
      exact ⟨hle, hij₂.2⟩

/-- The scan to the right ends at a sentinel `l` at the latest. -/
theorem scanRight_place (h : q.Fits) (hlo : lo < q.nmemb) {fuel : ℕ} (hil : i < l)
    (hl : l < q.nmemb) (hstop : ¬ q.compar (q.elem m l) (q.elem m lo) < 0) (hfuel : l - i ≤ fuel) :
    ∃ i', q.scanRight m (q.place lo) fuel (q.place i) = .ok (q.place i') ∧ i < i' ∧ i' ≤ l ∧
      ¬ q.compar (q.elem m i') (q.elem m lo) < 0 ∧
      ∀ k, i < k → k < i' → q.compar (q.elem m k) (q.elem m lo) < 0 := by
  induction fuel generalizing i with
  | zero => omega
  | succ fuel ih =>
    rw [scanRight, h.next_place (by omega), h.compare_place m (by omega) hlo]
    show ∃ i', (if _ < 0 then _ else _) = _ ∧ _
    by_cases hneg : q.compar (q.elem m (i + 1)) (q.elem m lo) < 0
    · have hne : i + 1 ≠ l := by
        rintro rfl
        exact hstop hneg
      obtain ⟨i', hok, hlt, hle, hend, hall⟩ := ih (show i + 1 < l by omega) (by omega)
      refine ⟨i', by rw [if_pos hneg, hok], by omega, hle, hend, fun k hk hk' => ?_⟩
      by_cases hkk : k = i + 1
      · rw [hkk]
        exact hneg
      · exact hall k (by omega) hk'
    · exact ⟨i + 1, by rw [if_neg hneg]; rfl, by omega, by omega, hneg, fun k hk hk' => by omega⟩

/-- The scan to the left ends at a sentinel `l` at the latest. -/
theorem scanLeft_place (h : q.Fits) (hlo : lo < q.nmemb) {fuel : ℕ} (hlj : l < j)
    (hj : j ≤ q.nmemb) (hstop : ¬ 0 < q.compar (q.elem m l) (q.elem m lo)) (hfuel : j - l ≤ fuel) :
    ∃ j', q.scanLeft m (q.place lo) fuel (q.place j) = .ok (q.place j') ∧ l ≤ j' ∧ j' < j ∧
      ¬ 0 < q.compar (q.elem m j') (q.elem m lo) ∧
      ∀ k, j' < k → k < j → 0 < q.compar (q.elem m k) (q.elem m lo) := by
  induction fuel generalizing j with
  | zero => omega
  | succ fuel ih =>
    obtain ⟨p, rfl⟩ : ∃ p, j = p + 1 := ⟨j - 1, by omega⟩
    rw [scanLeft, h.prev_place (by omega), h.compare_place m (by omega) hlo]
    show ∃ j', (if 0 < _ then _ else _) = _ ∧ _
    by_cases hpos : 0 < q.compar (q.elem m p) (q.elem m lo)
    · have hne : p ≠ l := by
        rintro rfl
        exact hstop hpos
      obtain ⟨j', hok, hle, hlt, hend, hall⟩ := ih (show l < p by omega) (by omega) (by omega)
      refine ⟨j', by rw [if_pos hpos, hok], hle, by omega, hend, fun k hk hk' => ?_⟩
      by_cases hkk : k = p
      · rw [hkk]
        exact hpos
      · exact hall k hk (by omega)
    · exact ⟨p, by rw [if_neg hpos]; rfl, by omega, by omega, hpos, fun k hk hk' => by omega⟩

/-- The elements behind `lo` and before `i` do not come after the pivot, which is at `lo`. -/
def Below (q : Job) (m : Bytes) (lo i : ℕ) : Prop := ∀ k, lo < k → k < i → q.Le m k lo

/-- The elements behind `j` and before `hi` do not come before the pivot. -/
def Above (q : Job) (m : Bytes) (lo j hi : ℕ) : Prop := ∀ k, j < k → k < hi → q.Le m lo k

/-- The two pointers move towards each other until they cross. -/
theorem cross_place (h : q.Fits) (T : TotalPreorder q.compar S) (hm : q.Among S m)
    (hhi : hi ≤ q.nmemb) {fuel rounds : ℕ} (hfuel : hi - lo ≤ fuel + 1) (hrounds : j - i < rounds)
    (hlo : lo + 1 ≤ i) (hij : i ≤ j) (hj : j + 1 ≤ hi) (hi' : i + 2 ≤ hi) (hj' : lo + 2 ≤ j)
    (hbelow : Below q m lo (i + 1)) (habove : Above q m lo (j - 1) hi) :
    ∃ m' i' j', q.cross fuel (q.place lo) rounds m (q.place i) (q.place j) =
        .ok (m', q.place i', q.place j') ∧ q.Moved (lo + 1) hi m m' ∧
      j' < i' ∧ lo + 1 ≤ j' ∧ i' + 1 ≤ hi ∧ Below q m' lo i' ∧ Above q m' lo j' hi := by
  induction rounds generalizing m i j with
  | zero => omega
  | succ rounds ih =>
    -- an element from `j` on stops the first scan, one up to `i` the second
    obtain ⟨t, hit, htj, hthi⟩ : ∃ t, i < t ∧ j ≤ t ∧ t < hi := ⟨max (i + 1) j, by omega⟩
    obtain ⟨u, huj, hui, hulo⟩ : ∃ u, u < j ∧ u ≤ i ∧ lo < u := ⟨min (j - 1) i, by omega⟩
    have hstopR : ¬ q.compar (q.elem m t) (q.elem m lo) < 0 := by
      have hle := habove t (by omega) hthi
      have hflip := T.flip _ (hm lo (by omega)) _ (hm t (by omega))
      rw [Le] at hle
      omega
    have hstopL : ¬ 0 < q.compar (q.elem m u) (q.elem m lo) := by
      have hle := hbelow u hulo (by omega)
      rw [Le] at hle
      omega
    obtain ⟨i₁, hokR, hi₁, hi₁t, hendR, hallR⟩ :=
      h.scanRight_place (show lo < q.nmemb by omega) hit (by omega) hstopR
        (show t - i ≤ fuel by omega)
    obtain ⟨j₁, hokL, hj₁u, hj₁, hendL, hallL⟩ :=
      h.scanLeft_place (show lo < q.nmemb by omega) huj (by omega) hstopL
        (show j - u ≤ fuel by omega)
    have hbelow₁ : Below q m lo i₁ := by
      intro k hk hk'
      by_cases hki : k < i + 1
      · exact hbelow k hk hki
      · have hneg := hallR k (by omega) hk'
        rw [Le]
        omega
    have habove₁ : Above q m lo j₁ hi := by
      intro k hk hk'
      by_cases hkj : j ≤ k
      · exact habove k (by omega) hk'
      · exact le_of_gt T hm (by omega) (by omega) (hallL k hk (by omega))
    rw [cross, hokR]
    show ∃ m' i' j', (q.scanLeft m (q.place lo) fuel (q.place j) >>= _) = _ ∧ _
    rw [hokL]
    show ∃ m' i' j', (if q.place j₁ < q.place i₁ then _ else _) = _ ∧ _
    by_cases hcross : j₁ < i₁
    · rw [if_pos (h.place_lt_iff.mpr hcross)]
      exact ⟨m, i₁, j₁, rfl, Moved.refl q _ _ m, hcross, by omega, by omega, hbelow₁, habove₁⟩
    · rw [if_neg fun hlt => hcross (h.place_lt_iff.mp hlt)]
      obtain ⟨m₁, hok, hmoved, hs⟩ := h.memswp_moved m
        (show lo + 1 ≤ i₁ ∧ i₁ < hi by omega) (show lo + 1 ≤ j₁ ∧ j₁ < hi by omega) hhi
      rw [hok]
      have hm₁ := hmoved.among hm hhi
      have hpivot : Equiv.swap i₁ j₁ lo = lo :=
        Equiv.swap_apply_of_ne_of_ne (by omega) (by omega)
      have hgeR : q.Le m lo i₁ := le_of_not_lt T hm (by omega) (by omega) hendR
      have hleL : q.Le m j₁ lo := by
        rw [Le]
        omega
      have hbelow₂ : Below q m₁ lo (i₁ + 1) := by
        intro k hk hk'
        rw [hs.le_iff, hpivot]
        by_cases hki : k = i₁
        · rw [hki, Equiv.swap_apply_left]
          exact hleL
        · rw [Equiv.swap_apply_of_ne_of_ne hki (by omega)]
          exact hbelow₁ k hk (by omega)
      have habove₂ : Above q m₁ lo (j₁ - 1) hi := by
        intro k hk hk'
        rw [hs.le_iff, hpivot]
        by_cases hkj : k = j₁
        · rw [hkj, Equiv.swap_apply_right]
          exact hgeR
        · rw [Equiv.swap_apply_of_ne_of_ne (by omega) hkj]
          exact habove₁ k (by omega) hk'
      obtain ⟨m', i', j', hok', hmoved', hrest⟩ := ih hm₁ (by omega) (by omega) (by omega)
        (by omega) (by omega) (by omega) hbelow₂ habove₂
      exact ⟨m', i', j', hok', hmoved.trans hmoved', hrest⟩

/-- The partition leaves two smaller parts, and any two elements that do not lie in one of them
are in order. -/
theorem partition_place (h : q.Fits) (T : TotalPreorder q.compar S) (hm : q.Among S m)
    (hlo : lo + 3 ≤ hi) (hhi : hi ≤ q.nmemb) {fuel : ℕ} (hfuel : hi - lo ≤ fuel + 1) :
    ∃ m' i' j', q.partition fuel m (q.place lo) (q.place hi) = .ok (m', q.place i', q.place j') ∧
      q.Moved lo hi m m' ∧ lo < j' ∧ j' < i' ∧ i' < hi ∧
      ∀ k l, lo ≤ k → k < l → l < hi → (∀ s ∈ [(lo, j'), (i', hi)], ¬ (s.1 ≤ k ∧ l < s.2)) →
        q.Le m' k l := by
  obtain ⟨m₁, hok₁, hmoved₁, hsecond, hlast⟩ := h.median_place T hm (show lo + 3 ≤ hi by omega) hhi
  have hm₁ := hmoved₁.among hm hhi
  have hbelow : Below q m₁ lo (lo + 1 + 1) := by
    intro k hk hk'
    rwa [show k = lo + 1 by omega]
  have habove : Above q m₁ lo (hi - 1 - 1) hi := by
    intro k hk hk'
    rwa [show k = hi - 1 by omega]
  obtain ⟨m₂, i', j', hok₂, hmoved₂, hji, hj', hi', hbelow₂, habove₂⟩ :=
    h.cross_place T hm₁ hhi hfuel (show hi - 1 - (lo + 1) < fuel by omega) (by omega) (by omega)
      (by omega) (by omega) (by omega) hbelow habove
  have hm₂ := hmoved₂.among hm₁ hhi
  obtain ⟨m₃, hok₃, hmoved₃, hs⟩ := h.memswp_moved m₂ (show lo ≤ lo ∧ lo < hi by omega)
    (show lo ≤ j' ∧ j' < hi by omega) hhi
  have hm₃ := hmoved₃.among hm₂ hhi
  have hmoved := hmoved₁.trans ((hmoved₂.mono (by omega) (Nat.le_refl hi)).trans hmoved₃)
  refine ⟨m₃, i', j', ?_, hmoved, by omega, hji, by omega, ?_⟩
  · have hprev : q.prev (q.place hi) = q.place (hi - 1) := by
      have hstep := h.prev_place (show hi - 1 < q.nmemb by omega)
      rwa [show hi - 1 + 1 = hi by omega] at hstep
    rw [partition, hok₁, h.next_place (by omega), hprev]
    show (q.cross fuel (q.place lo) fuel m₁ (q.place (lo + 1)) (q.place (hi - 1)) >>= _) = _
    rw [hok₂]
    show (q.memswp m₂ (q.place lo) (q.place j') >>= _) = _
    rw [hok₃]
    rfl
  · -- the pivot has come to `j'`
    have hleft : ∀ k, lo ≤ k → k < i' → q.Le m₃ k j' := by
      intro k hk hk'
      by_cases hkj : k = j'
      · rw [hkj]
        exact le_refl T hm₃ (by omega)
      rw [hs.le_iff, Equiv.swap_apply_right]
      by_cases hkl : k = lo
      · rw [hkl, Equiv.swap_apply_left]
        exact hbelow₂ j' (by omega) hji
      · rw [Equiv.swap_apply_of_ne_of_ne hkl hkj]
        exact hbelow₂ k (by omega) hk'
    have hright : ∀ k, j' ≤ k → k < hi → q.Le m₃ j' k := by
      intro k hk hk'
      by_cases hkj : k = j'
      · rw [hkj]
        exact le_refl T hm₃ (by omega)
      rw [hs.le_iff, Equiv.swap_apply_right, Equiv.swap_apply_of_ne_of_ne (by omega) hkj]
      exact habove₂ k (by omega) hk'
    intro k l hk hkl hl hapart
    have hL := hapart (lo, j') (by simp)
    have hR := hapart (i', hi) (by simp)
    dsimp only at hL hR
    exact le_trans T hm₃ (by omega) (by omega) (by omega) (hleft k hk (by omega))
      (hright l (by omega) hl)

/-! ## The insertion sort -/

/-- The elements from `lo` to `top` are in order. -/
def Sorted (q : Job) (m : Bytes) (lo top : ℕ) : Prop := ∀ k l, lo ≤ k → k < l → l ≤ top → q.Le m k l

/-- The elements from `lo` to `top` are in order but for the one at `j + 1`, which does not come
after those behind it. -/
structure Sinking (q : Job) (m : Bytes) (lo top j : ℕ) : Prop where
  rest : ∀ k l, lo ≤ k → k < l → l ≤ top → k ≠ j + 1 → l ≠ j + 1 → q.Le m k l
  behind : ∀ l, j + 1 < l → l ≤ top → q.Le m (j + 1) l

/-- The element at `j + 1` sinks to its place. -/
theorem sink_place (h : q.Fits) (T : TotalPreorder q.compar S) (hm : q.Among S m) {top fuel : ℕ}
    (hlo : lo ≤ j) (hj : j + 1 ≤ top) (htop : top < q.nmemb) (hfuel : j - lo < fuel)
    (hsink : Sinking q m lo top j) :
    ∃ m', q.sink (q.place lo) fuel m (q.place j) = .ok m' ∧ q.Moved lo (top + 1) m m' ∧
      Sorted q m' lo top := by
  induction fuel generalizing m j with
  | zero => omega
  | succ fuel ih =>
    rw [sink, h.next_place (by omega), h.compare_place m (by omega) (by omega)]
    show ∃ m', (if 0 < _ then _ else _) = _ ∧ _
    by_cases hgt : 0 < q.compar (q.elem m j) (q.elem m (j + 1))
    · rw [if_pos hgt]
      have hle : q.Le m (j + 1) j := le_of_gt T hm (by omega) (by omega) hgt
      obtain ⟨m₁, hok, hmoved, hs⟩ := h.memswp_moved m (show lo ≤ j ∧ j < top + 1 by omega)
        (show lo ≤ j + 1 ∧ j + 1 < top + 1 by omega) (by omega)
      rw [hok]
      show ∃ m', (if q.place j = q.place lo then _ else _) = _ ∧ _
      -- the element that sank is before all that it passed, and the others stay in order
      have hbehind : ∀ l, j < l → l ≤ top → q.Le m₁ j l := by
        intro l hl hl'
        rw [hs.le_iff, Equiv.swap_apply_left]
        by_cases hlj : l = j + 1
        · rw [hlj, Equiv.swap_apply_right]
          exact hle
        · rw [Equiv.swap_apply_of_ne_of_ne (by omega) hlj]
          exact hsink.behind l (by omega) hl'
      have hrest : ∀ k l, lo ≤ k → k < l → l ≤ top → k ≠ j → l ≠ j → q.Le m₁ k l := by
        intro k l hk hkl hl hkj hlj
        rw [hs.le_iff]
        by_cases hk' : k = j + 1
        · rw [hk', Equiv.swap_apply_right, Equiv.swap_apply_of_ne_of_ne hlj (by omega)]
          exact hsink.rest j l hlo (by omega) hl (by omega) (by omega)
        rw [Equiv.swap_apply_of_ne_of_ne hkj hk']
        by_cases hl' : l = j + 1
        · rw [hl', Equiv.swap_apply_right]
          exact hsink.rest k j hk (by omega) (by omega) hk' (by omega)
        · rw [Equiv.swap_apply_of_ne_of_ne hlj hl']
          exact hsink.rest k l hk hkl hl hk' hl'
      by_cases hjlo : j = lo
      · subst hjlo
        rw [if_pos rfl]
        refine ⟨m₁, rfl, hmoved, fun k l hk hkl hl => ?_⟩
        by_cases hkj : k = j
        · rw [hkj]
          exact hbehind l (by omega) hl
        · exact hrest k l hk hkl hl hkj (by omega)
      · rw [if_neg fun heq => hjlo (h.place_inj.mp heq)]
        obtain ⟨p, rfl⟩ : ∃ p, j = p + 1 := ⟨j - 1, by omega⟩
        rw [h.prev_place (by omega)]
        obtain ⟨m', hok', hmoved', hsorted⟩ := ih (hmoved.among hm (by omega)) (by omega)
          (by omega) (by omega) ⟨hrest, hbehind⟩
        exact ⟨m', hok', hmoved.trans hmoved', hsorted⟩
    · rw [if_neg hgt]
      have hle : q.Le m j (j + 1) := by
        rw [Le]
        omega
      refine ⟨m, rfl, Moved.refl q _ _ m, fun k l hk hkl hl => ?_⟩
      by_cases hkj : k = j + 1
      · rw [hkj]
        exact hsink.behind l (by omega) hl
      by_cases hlj : l = j + 1
      · rw [hlj]
        by_cases hk' : k = j
        · rw [hk']
          exact hle
        · exact le_trans T hm (by omega) (by omega) (by omega)
            (hsink.rest k j hk (by omega) (by omega) hkj (by omega)) hle
      · exact hsink.rest k l hk hkl hl hkj hlj

/-- The insertion sort puts a part in order. -/
theorem insertion_place (h : q.Fits) (T : TotalPreorder q.compar S) (hm : q.Among S m)
    (hhi : hi ≤ q.nmemb) {fuel rounds : ℕ} (hfuel : hi - lo ≤ fuel) (hlo : lo ≤ j) (hj : j < hi)
    (hrounds : hi - (j + 1) < rounds) (hsorted : Sorted q m lo j) :
    ∃ m', q.insertion fuel (q.place lo) (q.place hi) rounds m (q.place j) (q.place (j + 1)) = .ok m' ∧
      q.Moved lo hi m m' ∧ Sorted q m' lo (hi - 1) := by
  induction rounds generalizing m j with
  | zero => omega
  | succ rounds ih =>
    rw [insertion]
    by_cases hend : j + 1 < hi
    · rw [if_pos (h.place_lt_iff.mpr hend)]
      have hsink : Sinking q m lo (j + 1) j :=
        ⟨fun k l hk hkl hl _ hl' => hsorted k l hk hkl (by omega), fun l hl hl' => by omega⟩
      obtain ⟨m₁, hok, hmoved, hsorted₁⟩ := h.sink_place T hm hlo (Nat.le_refl _)
        (by omega) (show j - lo < fuel by omega) hsink
      rw [hok]
      have hm₁ := hmoved.among hm (by omega)
      obtain ⟨m', hok', hmoved', hsorted'⟩ := ih hm₁ (by omega) hend (by omega) hsorted₁
      refine ⟨m', ?_, (hmoved.mono (Nat.le_refl lo) (by omega)).trans hmoved', hsorted'⟩
      show q.insertion fuel _ _ rounds m₁ (q.place (j + 1)) (q.next (q.place (j + 1))) = _
      rw [h.next_place (by omega), hok']
    · rw [if_neg fun hlt => hend (h.place_lt_iff.mp hlt)]
      refine ⟨m, rfl, Moved.refl q _ _ m, ?_⟩
      rwa [show hi - 1 = j by omega]

end Fits

/-! ## The parts on the stack -/

/-- Each part takes at most half of what the one below it took. -/
def Halved (n : ℕ) : List (ℕ × ℕ) → Prop
  | [] => True
  | s :: rest => (s.2 - s.1) * 2 ^ rest.length ≤ n ∧ Halved n rest

/-- The parts are not empty, lie in the array and do not overlap. -/
structure Parts (n : ℕ) (parts : List (ℕ × ℕ)) : Prop where
  bounds : ∀ s ∈ parts, s.1 < s.2 ∧ s.2 ≤ n
  apart : parts.Pairwise fun s t => s.2 ≤ t.1 ∨ t.2 ≤ s.1
  halved : Halved n parts

/-- What is left to do. -/
def work (parts : List (ℕ × ℕ)) : ℕ := (parts.map fun s => 2 * (s.2 - s.1) + 1).sum

theorem Parts.tail {n : ℕ} {s : ℕ × ℕ} {rest : List (ℕ × ℕ)} (h : Parts n (s :: rest)) :
    Parts n rest :=
  ⟨fun t ht => h.bounds t (List.mem_cons_of_mem _ ht), (List.pairwise_cons.mp h.apart).2, h.halved.2⟩

/-- A part is cut in two, and the smaller one comes first. -/
theorem Parts.cut {n lo hi : ℕ} {s t : ℕ × ℕ} {rest : List (ℕ × ℕ)}
    (h : Parts n ((lo, hi) :: rest)) (hs : lo ≤ s.1 ∧ s.1 < s.2 ∧ s.2 ≤ hi)
    (ht : lo ≤ t.1 ∧ t.1 < t.2 ∧ t.2 ≤ hi) (hst : s.2 ≤ t.1 ∨ t.2 ≤ s.1)
    (hsize : s.2 - s.1 ≤ t.2 - t.1) : Parts n (s :: t :: rest) := by
  obtain ⟨hhead, htail⟩ := List.pairwise_cons.mp h.apart
  have hbound := h.bounds (lo, hi) (by simp)
  refine ⟨?_, ?_, ?_, ?_, h.halved.2⟩
  · intro u hu
    rcases List.mem_cons.mp hu with rfl | hu
    · exact ⟨hs.2.1, by dsimp only at hbound; omega⟩
    rcases List.mem_cons.mp hu with rfl | hu
    · exact ⟨ht.2.1, by dsimp only at hbound; omega⟩
    · exact h.bounds u (List.mem_cons_of_mem _ hu)
  · refine List.pairwise_cons.mpr ⟨fun u hu => ?_, List.pairwise_cons.mpr ⟨fun u hu => ?_, htail⟩⟩
    · rcases List.mem_cons.mp hu with rfl | hu
      · exact hst
      · have hu' := hhead u hu
        dsimp only at hu'
        omega
    · have hu' := hhead u hu
      dsimp only at hu'
      omega
  · calc (s.2 - s.1) * 2 ^ (rest.length + 1)
        = 2 * (s.2 - s.1) * 2 ^ rest.length := by ring
      _ ≤ (hi - lo) * 2 ^ rest.length := Nat.mul_le_mul_right _ (by omega)
      _ ≤ n := h.halved.1
  · exact le_trans (Nat.mul_le_mul_right _ (by omega)) h.halved.1

/-- A part of more than seven elements leaves room for a push. -/
theorem Parts.push_ok {n lo hi : ℕ} {rest : List (ℕ × ℕ)} (h : Parts n ((lo, hi) :: rest))
    (hn : n < 2 ^ 31) (hbig : 7 < hi - lo) : 2 * rest.length + 2 ≤ STACKSIZE := by
  by_contra hdeep
  have hlen : 31 ≤ rest.length := by
    rw [STACKSIZE] at hdeep
    omega
  have hpow : 2 ^ 31 ≤ 2 ^ rest.length := Nat.pow_le_pow_right (by omega) hlen
  have hone : 1 * 2 ^ rest.length ≤ (hi - lo) * 2 ^ rest.length :=
    Nat.mul_le_mul_right _ (by omega)
  have hle := h.halved.1
  dsimp only at hle
  omega

theorem work_cons (s : ℕ × ℕ) (rest : List (ℕ × ℕ)) :
    work (s :: rest) = 2 * (s.2 - s.1) + 1 + work rest := by
  rw [work, work, List.map_cons, List.sum_cons]

/-- The signed difference of two pointers into the array. -/
theorem difference (hbytes : q.nmemb * q.size < 2 ^ 31) (hij : i ≤ j)
    (hj : j ≤ q.nmemb) :
    Int.bmod ((q.place j : ℤ) - q.place i) (2 ^ 32) = (((j - i) * q.size : ℕ) : ℤ) := by
  obtain ⟨d, rfl⟩ := Nat.exists_eq_add_of_le hij
  have hmul : d * q.size ≤ q.nmemb * q.size := Nat.mul_le_mul_right _ (by omega)
  have hsub : (q.place (i + d) : ℤ) - q.place i = ((d * q.size : ℕ) : ℤ) := by
    rw [place, place]
    push_cast
    ring
  rw [hsub, Nat.add_sub_cancel_left]
  apply Int.bmod_eq_of_le
  · omega
  · omega

/-- The parts as the code has them, by their addresses. -/
def addresses (q : Job) (parts : List (ℕ × ℕ)) : List (ℕ × ℕ) :=
  parts.map fun s => (q.place s.1, q.place s.2)

/-- The loop of `qsort` puts all parts in order. -/
theorem Fits.sortParts_place (h : q.Fits) {S : Set (List UInt8)} (T : TotalPreorder q.compar S)
    (hbytes : q.nmemb * q.size < 2 ^ 31)
    (hquick : ∀ d ≤ q.nmemb, q.thresh < d * q.size → 7 < d) {fuel rounds lo hi : ℕ}
    {stack : List (ℕ × ℕ)} (hfuel : q.nmemb ≤ fuel) (hm : q.Among S m)
    (hparts : Parts q.nmemb ((lo, hi) :: stack)) (hwork : work ((lo, hi) :: stack) ≤ rounds)
    (hord : Ordered (fun x y => q.compar x y ≤ 0) q.nmemb ((lo, hi) :: stack) (q.elem m)) :
    ∃ m', q.sortParts fuel rounds m (q.place lo) (q.place hi) (q.addresses stack) = .ok m' ∧
      q.Moved 0 q.nmemb m m' ∧
      Ordered (fun x y => q.compar x y ≤ 0) q.nmemb [] (q.elem m') := by
  have hsize := h.size_pos
  have hn : q.nmemb < 2 ^ 31 :=
    Nat.lt_of_le_of_lt (Nat.le_mul_of_pos_right _ hsize) hbytes
  induction rounds generalizing m lo hi stack with
  | zero =>
    rw [work_cons] at hwork
    omega
  | succ rounds ih =>
    obtain ⟨hlt, hhi⟩ := hparts.bounds (lo, hi) (by simp)
    have hdisj := (List.pairwise_cons.mp hparts.apart).1
    dsimp only at hlt hhi hdisj
    rw [work_cons] at hwork
    dsimp only at hwork
    rw [sortParts, h.bytes_between (by omega) hhi]
    by_cases hbig : q.thresh < (hi - lo) * q.size
    · rw [if_pos hbig]
      have hseven := hquick (hi - lo) (by omega) hbig
      obtain ⟨m₁, i', j', hok, hmoved, hj', hji, hi', hlocal⟩ :=
        h.partition_place T hm (show lo + 3 ≤ hi by omega) hhi (show hi - lo ≤ fuel + 1 by omega)
      have hm₁ := hmoved.among hm hhi
      have hpush := hparts.push_ok hn hseven
      have hroom : 2 * (q.addresses stack).length + 2 ≤ STACKSIZE := by
        rwa [addresses, List.length_map]
      rw [hok]
      show ∃ m', (if Int.bmod _ _ < Int.bmod _ _ then _ else _) = _ ∧ _
      rw [difference hbytes (by omega) hhi, difference hbytes (by omega) (by omega)]
      have hcmp : (((hi - i') * q.size : ℕ) : ℤ) < (((j' - lo) * q.size : ℕ) : ℤ) ↔
          hi - i' < j' - lo := by
        rw [Nat.cast_lt, Nat.mul_lt_mul_right hsize]
      have hnew := hord.refine hmoved.rearranged hhi (fun s hs => (hdisj s hs).symm) hlocal
      by_cases hleft : hi - i' < j' - lo
      · rw [if_pos (hcmp.mpr hleft), push, if_pos hroom]
        have hparts' := hparts.cut (s := (i', hi)) (t := (lo, j')) (by dsimp only; omega)
          (by dsimp only; omega) (by dsimp only; omega) (by dsimp only; omega)
        have hord' : Ordered (fun x y => q.compar x y ≤ 0) q.nmemb ((i', hi) :: (lo, j') :: stack)
            (q.elem m₁) := by
          intro k l hkl hl hapart
          refine hnew k l hkl hl fun s hs => hapart s ?_
          simp only [List.cons_append, List.nil_append, List.mem_cons] at hs ⊢
          tauto
        obtain ⟨m', hok', hmoved', hdone⟩ := ih hm₁ hparts'
          (by rw [work_cons, work_cons]; dsimp only; omega) hord'
        exact ⟨m', hok', (hmoved.mono (Nat.zero_le lo) hhi).trans hmoved', hdone⟩
      · rw [if_neg fun hlt => hleft (hcmp.mp hlt), push, if_pos hroom]
        have hparts' := hparts.cut (s := (lo, j')) (t := (i', hi)) (by dsimp only; omega)
          (by dsimp only; omega) (by dsimp only; omega) (by dsimp only; omega)
        obtain ⟨m', hok', hmoved', hdone⟩ := ih hm₁ hparts'
          (by rw [work_cons, work_cons]; dsimp only; omega) hnew
        exact ⟨m', hok', (hmoved.mono (Nat.zero_le lo) hhi).trans hmoved', hdone⟩
    · rw [if_neg hbig, h.next_place (by omega)]
      obtain ⟨m₁, hok, hmoved, hsorted⟩ := h.insertion_place T hm hhi
        (show hi - lo ≤ fuel by omega) (Nat.le_refl lo) hlt (show hi - (lo + 1) < fuel by omega)
        (fun k l hk hkl hl => by omega)
      have hm₁ := hmoved.among hm hhi
      rw [hok]
      have hnew : Ordered (fun x y => q.compar x y ≤ 0) q.nmemb ([] ++ stack) (q.elem m₁) :=
        hord.refine hmoved.rearranged hhi (fun s hs => (hdisj s hs).symm)
          fun k l hk hkl hl _ => hsorted k l hk hkl (by omega)
      rw [List.nil_append] at hnew
      have hmoved₁ := hmoved.mono (Nat.zero_le lo) hhi
      cases stack with
      | nil => exact ⟨m₁, rfl, hmoved₁, hnew⟩
      | cons s stack =>
        obtain ⟨lo', hi'⟩ := s
        obtain ⟨m', hok', hmoved', hdone⟩ := ih hm₁ hparts.tail (by omega) hnew
        exact ⟨m', hok', hmoved₁.trans hmoved', hdone⟩

/-! ## When the threshold is right -/

/-- The call ends, the elements are the same ones in order, every access was to an element of the
array, and the stack was large enough. -/
def Sorts (q : Job) (m : Bytes) : Prop :=
  ∃ fuel m', q.qsort fuel m = .ok m' ∧
    ((List.range q.nmemb).map (q.elem m')).Perm ((List.range q.nmemb).map (q.elem m)) ∧
    (∀ k l, k < l → l < q.nmemb → q.Le m' k l) ∧ q.SameOutside m m'

/-- `T * size` does not wrap around, or the array is small all the same; the address behind an
empty array does not wrap around. -/
def Regular (q : Job) : Prop :=
  if q.nmemb = 0 then q.base + q.size < 2 ^ 32
  else 7 * q.size < 2 ^ 32 ∨ q.nmemb * q.size ≤ q.thresh

theorem Fits.limit_eq (h : q.Fits) : q.limit = q.place q.nmemb := Nat.mod_eq_of_lt h.limit_lt

theorem base_eq (q : Job) : q.base = q.place 0 := by
  rw [place, Nat.zero_mul, Nat.add_zero]

/-- An empty array is left alone. -/
theorem Fits.sorts_empty (h : q.Fits) (hn : q.nmemb = 0) (hbase : q.base + q.size < 2 ^ 32)
    (m : Bytes) : q.Sorts m := by
  have hlimit : q.limit = q.base := by
    rw [h.limit_eq, hn, base_eq]
  have hnext : ¬ q.next q.base < q.base := by
    rw [next, Nat.mod_eq_of_lt hbase]
    omega
  refine ⟨1, m, ?_, List.Perm.refl _, fun k l _ hl => by omega, fun _ _ => rfl⟩
  rw [qsort, hlimit, sortParts, show q.base + 2 ^ 32 - q.base = 2 ^ 32 by omega, Nat.mod_self,
    if_neg (by omega), insertion, if_neg hnext]
  rfl

/-- A regular call sorts. -/
theorem Fits.sorts_of_regular (h : q.Fits) (hbytes : q.nmemb * q.size < 2 ^ 31)
    (T : TotalPreorder q.compar {x | ∃ k < q.nmemb, q.elem m k = x}) (hreg : q.Regular) :
    q.Sorts m := by
  rw [Regular] at hreg
  by_cases hn : q.nmemb = 0
  · rw [if_pos hn] at hreg
    exact h.sorts_empty hn hreg m
  rw [if_neg hn] at hreg
  have hsize := h.size_pos
  have hquick : ∀ d ≤ q.nmemb, q.thresh < d * q.size → 7 < d := by
    intro d hd hlt
    rcases hreg with hwrap | hsmall
    · rw [thresh, Nat.mod_eq_of_lt hwrap] at hlt
      exact Nat.lt_of_mul_lt_mul_right hlt
    · have hmul := Nat.mul_le_mul_right q.size hd
      omega
  have hparts : Parts q.nmemb [(0, q.nmemb)] := by
    refine ⟨fun s hs => ?_, List.pairwise_singleton _ _, ?_, trivial⟩
    · obtain rfl := List.mem_singleton.mp hs
      exact ⟨by dsimp only; omega, Nat.le_refl _⟩
    · simp
  have hord : Ordered (fun x y => q.compar x y ≤ 0) q.nmemb [(0, q.nmemb)] (q.elem m) := by
    intro k l hkl hl hapart
    exact absurd ⟨Nat.zero_le k, hl⟩ (hapart (0, q.nmemb) (by simp))
  obtain ⟨m', hok, hmoved, hdone⟩ := h.sortParts_place T hbytes hquick
    (show q.nmemb ≤ 2 * q.nmemb + 1 by omega) (fun k hk => ⟨k, hk, rfl⟩) hparts
    (show work [(0, q.nmemb)] ≤ 2 * q.nmemb + 1 by simp [work]) hord
  refine ⟨2 * q.nmemb + 1, m', ?_, hmoved.rearranged.perm (Nat.le_refl _),
    fun k l hkl hl => hdone k l hkl hl (by simp), hmoved.outside⟩
  rw [qsort, base_eq, h.limit_eq]
  exact hok

/-- The computation does not give a result. -/
def Fails {α : Type} (x : Except Fault α) : Prop := ∀ a, x ≠ .ok a

theorem Fails.throw {α : Type} (e : Fault) : Fails (Except.error e : Except Fault α) := by
  rintro a ⟨⟩

theorem Fails.bind {α β : Type} {x : Except Fault α} {f : α → Except Fault β}
    (h : ∀ a, x = .ok a → Fails (f a)) : Fails (x >>= f) := by
  cases x with
  | error e => exact Fails.throw e
  | ok a => exact h a rfl

theorem Fails.bind_left {α β : Type} {x : Except Fault α} {f : α → Except Fault β} (h : Fails x) :
    Fails (x >>= f) :=
  Fails.bind fun a ha => absurd ha (h a)

theorem compare_fails {x y : ℕ} (h : ¬ q.Inside x) : Fails (q.compare m x y) := by
  rw [compare, if_neg fun hxy => h hxy.1]
  exact Fails.throw _

/-- Neither of the places next to the array is in it. -/
theorem not_inside_place (hn : q.nmemb ≤ k) (hsize : 1 ≤ q.size) : ¬ q.Inside (q.place k) := by
  rintro ⟨-, hle⟩
  have hmul := Nat.mul_le_mul_right q.size hn
  rw [place] at hle
  omega

theorem Fits.not_inside_prev (h : q.Fits) (hbytes : q.size < 2 ^ 32) : ¬ q.Inside (q.prev q.base) := by
  rintro ⟨hlo, hhi⟩
  have hlt := h.limit_lt
  have hsize := h.size_pos
  have hbase : q.base < 2 ^ 32 := by omega
  rw [prev] at hlo hhi
  omega

/-- The partition of a single element goes over the beginning of the array or behind its end. -/
theorem Fits.partition_one_fails (h : q.Fits) (hbytes : q.size < 2 ^ 32) (hn : 1 ≤ q.nmemb)
    (fuel : ℕ) : Fails (q.partition fuel m (q.place 0) (q.place 1)) := by
  apply Fails.bind
  intro m₁ _
  rw [h.prev_place hn]
  apply Fails.bind_left
  cases fuel with
  | zero => exact Fails.throw _
  | succ fuel =>
    rw [cross]
    apply Fails.bind
    intro i _
    rw [scanLeft, ← base_eq]
    exact Fails.bind_left (Fails.bind_left (compare_fails (h.not_inside_prev hbytes)))

/-- In an array of two elements the scan to the right goes over the end. -/
theorem Fits.partition_two_fails (h : q.Fits) (hn : q.nmemb = 2) (fuel : ℕ) :
    Fails (q.partition fuel m (q.place 0) (q.place 2)) := by
  apply Fails.bind
  intro m₁ _
  rw [h.next_place (by omega)]
  apply Fails.bind_left
  cases fuel with
  | zero => exact Fails.throw _
  | succ fuel =>
    rw [cross, scanRight, h.next_place (by omega)]
    have hout : ¬ q.Inside (q.place (0 + 1 + 1)) := not_inside_place (by omega) h.size_pos
    exact Fails.bind_left (Fails.bind_left (compare_fails hout))

theorem Fits.sortParts_fails (h : q.Fits) {fuel lo hi : ℕ} (hlo : lo ≤ hi) (hhi : hi ≤ q.nmemb)
    (hbig : q.thresh < (hi - lo) * q.size)
    (hpart : Fails (q.partition fuel m (q.place lo) (q.place hi))) (rounds : ℕ)
    (stack : List (ℕ × ℕ)) : Fails (q.sortParts fuel rounds m (q.place lo) (q.place hi) stack) := by
  cases rounds with
  | zero => exact Fails.throw _
  | succ rounds =>
    rw [sortParts, h.bytes_between hlo hhi, if_pos hbig]
    exact Fails.bind_left hpart

/-- With a threshold that has wrapped around, an array of three elements is partitioned once, and
then its first element is. -/
theorem Fits.sortParts_three_fails (h : q.Fits) {S : Set (List UInt8)}
    (T : TotalPreorder q.compar S) (hm : q.Among S m) (hn : q.nmemb = 3)
    (hbytes : q.nmemb * q.size < 2 ^ 31) (hone : q.thresh < q.size) (fuel : ℕ) :
    Fails (q.sortParts fuel fuel m (q.place 0) (q.place 3) []) := by
  obtain hsmall | hfuel := Nat.lt_or_ge fuel 2
  · -- too little for a second round
    have hrest : ∀ m lo hi stack, Fails (q.sortParts fuel (fuel - 1) m lo hi stack) := by
      intro m lo hi stack
      rw [show fuel - 1 = 0 by omega]
      exact Fails.throw _
    cases fuel with
    | zero => exact Fails.throw _
    | succ fuel =>
      rw [sortParts, h.bytes_between (by omega) (by omega), if_pos (by omega)]
      refine Fails.bind fun r _ => ?_
      dsimp only
      split
      · exact Fails.bind fun _ _ => hrest _ _ _ _
      · exact Fails.bind fun _ _ => hrest _ _ _ _
  · obtain ⟨fuel, rfl⟩ : ∃ k, fuel = k + 1 := ⟨fuel - 1, by omega⟩
    obtain ⟨m₁, i', j', hok, -, hj', hji, hi', -⟩ :=
      h.partition_place T hm (show 0 + 3 ≤ 3 by omega) (by omega)
        (show 3 - 0 ≤ fuel + 1 + 1 by omega)
    obtain rfl : j' = 1 := by omega
    obtain rfl : i' = 2 := by omega
    rw [sortParts, h.bytes_between (by omega) (by omega), if_pos (by omega), hok]
    show Fails (if Int.bmod _ _ < Int.bmod _ _ then _ else _)
    rw [difference hbytes (by omega) (by omega), difference hbytes (by omega) (by omega),
      if_neg (by omega)]
    refine Fails.bind fun stack _ => ?_
    have hsize : q.size < 2 ^ 32 := by
      rw [hn] at hbytes
      omega
    exact h.sortParts_fails (by omega) (by omega) (by omega)
      (h.partition_one_fails hsize (by omega) _) _ _

/-- A call that is not regular does not end well. -/
theorem Fits.not_sorts (h : q.Fits) (hbytes : q.nmemb * q.size < 2 ^ 31) (hsize : q.size < 2 ^ 32)
    (T : TotalPreorder q.compar {x | ∃ k < q.nmemb, q.elem m k = x}) (hreg : ¬ q.Regular) :
    ¬ q.Sorts m := by
  rintro ⟨fuel, m', hok, -⟩
  refine (show Fails (q.qsort fuel m) from ?_) m' hok
  have hlt := h.limit_lt
  have hpos := h.size_pos
  rw [Regular] at hreg
  by_cases hn : q.nmemb = 0
  · -- the address behind the empty array is before it
    rw [if_pos hn] at hreg
    have hlimit : q.limit = q.base := by
      rw [h.limit_eq, hn, base_eq]
    have hbase : q.base < 2 ^ 32 := by omega
    have hnext : q.next q.base < q.base := by
      rw [next]
      omega
    have hout : ¬ q.Inside q.base := by
      rintro ⟨-, hle⟩
      rw [hn] at hle
      omega
    rw [qsort, hlimit]
    cases fuel with
    | zero => exact Fails.throw _
    | succ fuel =>
      rw [sortParts, show q.base + 2 ^ 32 - q.base = 2 ^ 32 by omega, Nat.mod_self,
        if_neg (by omega), insertion, if_pos hnext, sink]
      exact Fails.bind_left (Fails.bind_left (Fails.bind_left (compare_fails hout)))
  · rw [if_neg hn] at hreg
    push Not at hreg
    obtain ⟨hwrap, hbig⟩ := hreg
    have hthresh : q.thresh = 7 * q.size % 2 ^ 32 := rfl
    have hle : q.nmemb ≤ 3 := by
      by_contra hmany
      have hmul := Nat.mul_le_mul_right q.size (show 4 ≤ q.nmemb by omega)
      omega
    rw [qsort, base_eq, h.limit_eq]
    obtain hn | hn | hn : q.nmemb = 1 ∨ q.nmemb = 2 ∨ q.nmemb = 3 := by omega
    · rw [hn] at hbig ⊢
      exact h.sortParts_fails (by omega) (by omega) hbig
        (h.partition_one_fails (by omega) (by omega) _) _ _
    · rw [hn] at hbig ⊢
      exact h.sortParts_fails (by omega) (by omega) hbig (h.partition_two_fails hn _) _ _
    · have hone : q.thresh < q.size := by
        rw [hn] at hbytes
        have honce : 7 * q.size / 2 ^ 32 = 1 := by omega
        omega
      rw [hn]
      exact h.sortParts_three_fails T (fun k hk => ⟨k, hk, rfl⟩) hn hbytes hone _

/-- The comparison of two elements by their first bytes. -/
def byFirst (x y : List UInt8) : ℤ := (x.headD 0).toNat - (y.headD 0).toNat

theorem totalPreorder_byFirst (S : Set (List UInt8)) : TotalPreorder byFirst S := by
  refine ⟨fun x _ y _ => ?_, fun x _ y _ z _ hxy hyz => ?_⟩
  · rw [byFirst, byFirst]
    omega
  · rw [byFirst] at hxy hyz ⊢
    omega

end Job

end Qsort

end Lainos.Libc
