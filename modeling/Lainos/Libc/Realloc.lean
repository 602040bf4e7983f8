import Lainos.Libc.EnvironMap

/-!
# realloc

The header of a block holds its size in units of `unit` bytes, and `realloc` copies that
many bytes. What this leaves of the contents, and what becomes of the block when there is no
memory for a new one.
-/

namespace Lainos.Libc

open Library

variable {brk p q n x units old size : ℕ} {s : Space} {junk : Bytes}

theorem memmove_apply (dst src n : ℕ) (m : Bytes) (x : ℕ) :
    memmove dst src n m x = if dst ≤ x ∧ x < dst + n then m (src + (x - dst)) else m x := by
  unfold memmove
  split
  · next h => exact copy_apply (.inr h)
  · next h => exact copyBack_apply (by omega)

/-! ## Memory of blocks -/

/-- The blocks in use have no byte in common, and their headers tell their sizes. -/
structure InOrder (brk : ℕ) (s : Space) : Prop where
  low : ∀ b ∈ s.live, brk + unit ≤ b.1
  pos : ∀ b ∈ s.live, 0 < b.2
  apart : s.live.Pairwise fun b c => b.1 + unit * b.2 ≤ c.1 ∨ c.1 + unit * c.2 ≤ b.1
  header : ∀ b ∈ s.live, word s.mem (b.1 - 4) = b.2

/-- The bytes of a block in use and of its header. -/
theorem held_of_mem (brk : ℕ) {b : ℕ × ℕ} (hb : b ∈ s.live) (hlow : b.1 ≤ x + unit)
    (hhigh : x + unit < b.1 + unit * b.2) : s.held brk x = true := by
  rw [Space.held, Bool.or_eq_true, List.any_eq_true]
  exact .inr ⟨b, hb, by simp [hlow, hhigh]⟩

theorem vacant_apart (hvacant : s.vacant brk q units = true) {b : ℕ × ℕ} (hb : b ∈ s.live) :
    b.1 + unit * b.2 ≤ q ∨ q + unit * units ≤ b.1 := by
  simp only [Space.vacant, Bool.and_eq_true, decide_eq_true_eq, List.all_eq_true,
    Bool.or_eq_true] at hvacant
  exact hvacant.2 b hb

/-- Nothing of a vacant block is in use. -/
theorem held_outside (hvacant : s.vacant brk q units = true) (hx : s.held brk x = true) :
    x + unit < q ∨ q + unit * units ≤ x + unit := by
  simp only [Space.held, Bool.or_eq_true, decide_eq_true_eq, List.any_eq_true,
    Bool.and_eq_true] at hx
  obtain hx | ⟨b, hb, hbx⟩ := hx
  · have := (vacant_bounds hvacant).1
    omega
  · have := vacant_apart hvacant hb
    omega

/-- What is in use stays as it is. -/
theorem allotted_of_held (hvacant : s.vacant brk q units = true) (hunits : 0 < units)
    (hx : s.held brk x = true) : (s.allotted brk q units junk).mem x = s.mem x := by
  have hout := held_outside hvacant hx
  have hlow := (vacant_bounds hvacant).1
  rw [Space.allotted_mem, store_of_outside, Space.scribble, if_pos hx]
  rw [length_wordBytes]
  rw [unit] at hout hlow
  omega

/-- A new block holds what the allocator left there. -/
theorem allotted_inside (hvacant : s.vacant brk q units = true) (hlow : q ≤ x)
    (hhigh : x + unit < q + unit * units) : (s.allotted brk q units junk).mem x = junk x := by
  have hheld : s.held brk x = false := by
    by_contra hheld
    have hout := held_outside hvacant (by simpa using hheld)
    rw [unit] at *
    omega
  have hq := (vacant_bounds hvacant).1
  rw [Space.allotted_mem, store_of_outside, Space.scribble, hheld, if_neg Bool.false_ne_true]
  rw [length_wordBytes]
  rw [unit] at hq
  omega

/-! ## The calls -/

/-- The state that `realloc` leaves when `malloc` answers with `q`. -/
def moved (brk p q size : ℕ) (s : Space) : Space :=
  let t := s.allotted brk q (unitsFor size) (s.answers 0).2
  let u := t.setMem (memmove q p (min size (word t.mem (p - 4))) t.mem)
  (u.released p).refused brk (u.answers 0).2

theorem allot_granted (hanswer : (s.answers 0).1 = some q)
    (hvacant : s.vacant brk q (unitsFor size) = true) :
    allot brk size s = .ok (q, s.allotted brk q (unitsFor size) (s.answers 0).2) := by
  have hpair : s.answers 0 = (some q, (s.answers 0).2) := by rw [← hanswer]
  rw [allot, Exec.bind_of_ok Exec.get_run, hpair]
  dsimp only
  rw [if_pos hvacant]
  rfl

theorem allot_refused (hanswer : (s.answers 0).1 = none) :
    allot brk size s = .ok (0, s.refused brk (s.answers 0).2) := by
  have hpair : s.answers 0 = (none, (s.answers 0).2) := by rw [← hanswer]
  rw [allot, Exec.bind_of_ok Exec.get_run, hpair]
  rfl

theorem realloc_granted (hanswer : (s.answers 0).1 = some q)
    (hvacant : s.vacant brk q (unitsFor size) = true) (hp : unit ≤ p) :
    realloc brk p size s = .ok (q, moved brk p q size s) := by
  rw [realloc, Exec.bind_of_ok (allot_granted hanswer hvacant), if_neg (by omega)]
  rfl

/-- Without memory for the new block the old one is released all the same. -/
theorem realloc_refused (brk size : ℕ) (hanswer : (s.answers 0).1 = none) (hp : unit ≤ p) :
    ∃ t, realloc brk p size s = .ok (0, t) ∧ t.live = s.live.filter fun b => b.1 ≠ p := by
  rw [realloc, Exec.bind_of_ok (allot_refused hanswer), if_neg (by omega)]
  exact ⟨_, rfl, rfl⟩

theorem realloc_null_error (r : ℕ × Space) : realloc brk 0 size s ≠ .ok r := by
  intro h
  obtain ⟨a, t, -, h⟩ := Exec.bind_eq_ok.mp h
  rw [if_pos (by decide)] at h
  cases h

theorem moved_live (brk p q size : ℕ) (s : Space) (hq : q ≠ p) :
    (moved brk p q size s).live = (q, unitsFor size) :: s.live.filter fun b => b.1 ≠ p := by
  change ((q, unitsFor size) :: s.live).filter (fun b => b.1 ≠ p) = _
  rw [List.filter_cons_of_pos (by simpa using hq)]

/-- The bytes of a block in use, after its release all but those of `p`. -/
theorem moved_mem (h : InOrder brk s) (hp : (p, unitsFor old) ∈ s.live)
    (hvacant : s.vacant brk q (unitsFor size) = true) {b : ℕ × ℕ}
    (hb : b ∈ (moved brk p q size s).live) (hlow : b.1 ≤ x + unit)
    (hhigh : x + unit < b.1 + unit * b.2) :
    (moved brk p q size s).mem x =
      memmove q p (min size (unitsFor old))
        (s.allotted brk q (unitsFor size) (s.answers 0).2).mem x := by
  have hword : word (s.allotted brk q (unitsFor size) (s.answers 0).2).mem (p - 4) =
      unitsFor old := by
    refine Eq.trans (congrArg UInt32.toNat (get32_congr fun i hi => ?_)) (h.header _ hp)
    have hpos := h.pos _ hp
    have hlow := h.low _ hp
    refine allotted_of_held hvacant (Nat.succ_pos _) (held_of_mem brk hp ?_ ?_)
    · rw [unit] at *
      omega
    · rw [unit] at *
      dsimp only at *
      omega
  have hheld := held_of_mem brk hb hlow hhigh
  rw [← hword]
  exact if_pos hheld

/-! ## The law -/

/-- What is expected of `realloc(p, size)` for a block `p` of `old` bytes. -/
structure ReallocLaw (brk p old size : ℕ) (s : Space) (r : ℕ) (t : Space) : Prop where
  room : r ≠ 0 → ∃ b ∈ t.live, b.1 = r ∧ min old size + unit ≤ unit * b.2
  contents : r ≠ 0 → ∀ i < min old size, t.mem (r + i) = s.mem (p + i)
  freed : r ≠ 0 → ∀ b ∈ t.live, b.1 ≠ p
  others : r ≠ 0 → ∀ b ∈ s.live, b.1 ≠ p → b ∈ t.live ∧
    ∀ x, b.1 ≤ x → x + unit < b.1 + unit * b.2 → t.mem x = s.mem x
  kept : r = 0 → (∃ b ∈ t.live, b.1 = p) ∧ ∀ i < old, t.mem (p + i) = s.mem (p + i)

/-- The bytes of the old block that are not copied are in the new one by chance. -/
def LuckyRest (p q old size : ℕ) (s : Space) : Prop :=
  ∀ i, unitsFor old ≤ i → i < min old size → (s.answers 0).2 (q + i) = s.mem (p + i)

theorem moved_contents (h : InOrder brk s) (hp : (p, unitsFor old) ∈ s.live)
    (hold : old + unit ≤ unit * unitsFor old) (hvacant : s.vacant brk q (unitsFor size) = true)
    (hq : q ≠ p) (hroom : min old size + unit ≤ unit * unitsFor size) :
    (∀ i < min old size, (moved brk p q size s).mem (q + i) = s.mem (p + i)) ↔
      LuckyRest p q old size s := by
  have hnew : (q, unitsFor size) ∈ (moved brk p q size s).live := by simp [moved_live, hq]
  have hbyte : ∀ i < min old size, (moved brk p q size s).mem (q + i) =
      if i < unitsFor old then s.mem (p + i) else (s.answers 0).2 (q + i) := by
    intro i hi
    have hhigh : q + i + unit < q + unit * unitsFor size := by omega
    rw [moved_mem h hp hvacant hnew (by dsimp only; omega) hhigh, memmove_apply]
    by_cases hcopied : i < unitsFor old
    · rw [if_pos hcopied, if_pos (by omega), Nat.add_sub_cancel_left]
      exact allotted_of_held hvacant (Nat.succ_pos _)
        (held_of_mem brk hp (by dsimp only; omega) (by dsimp only; omega))
    · rw [if_neg hcopied, if_neg (by omega)]
      exact allotted_inside hvacant (by omega) hhigh
  constructor
  · intro hall i hunits hi
    rw [← hall i hi, hbyte i hi, if_neg (by omega)]
  · intro hrest i hi
    rw [hbyte i hi]
    by_cases hcopied : i < unitsFor old
    · rw [if_pos hcopied]
    · rw [if_neg hcopied]
      exact hrest i (by omega) hi

/-- The copy ends in the new block or, if that has no room, one byte behind it: no byte of
another block is there. -/
theorem moved_others (h : InOrder brk s) (hp : (p, unitsFor old) ∈ s.live)
    (hvacant : s.vacant brk q (unitsFor size) = true) (hq : q ≠ p)
    (hcopy : min size (unitsFor old) + unit ≤ unit * unitsFor size + 1) {b : ℕ × ℕ}
    (hb : b ∈ s.live) (hne : b.1 ≠ p) :
    b ∈ (moved brk p q size s).live ∧
      ∀ x, b.1 ≤ x → x + unit < b.1 + unit * b.2 → (moved brk p q size s).mem x = s.mem x := by
  have hstays : b ∈ (moved brk p q size s).live := by simp [moved_live, hq, hb, hne]
  refine ⟨hstays, fun x hlow hhigh => ?_⟩
  have hheld := held_of_mem brk hb (show b.1 ≤ x + unit by omega) hhigh
  have hout := vacant_apart hvacant hb
  rw [moved_mem h hp hvacant hstays (by omega) hhigh, memmove_apply, if_neg]
  · exact allotted_of_held hvacant (Nat.succ_pos _) hheld
  · rw [unit] at *
    omega

/-- A program with a heap from 16 on and one block, of `old` bytes, at 24. -/
def oneBlock (old : ℕ) (answer : Option ℕ) : Space where
  mem := store (fun x => if x = 27 then 7 else 0) 20 (wordBytes (unitsFor old))
  environ := 0
  lastEnviron := 0
  live := [(24, unitsFor old)]
  answers := fun _ => (answer, fun _ => 0)

theorem inOrder_oneBlock {answer : Option ℕ} : InOrder 16 (oneBlock 4 answer) := by
  refine ⟨?_, ?_, List.pairwise_singleton _ _, ?_⟩
  · intro b hb
    obtain rfl := List.mem_singleton.mp hb
    decide
  · intro b hb
    obtain rfl := List.mem_singleton.mp hb
    decide
  · intro b hb
    obtain rfl := List.mem_singleton.mp hb
    exact word_store _ _ (by decide)

end Lainos.Libc
