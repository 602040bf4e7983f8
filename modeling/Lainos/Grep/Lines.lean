import Lainos.Grep.Matcher
import Mathlib.Data.List.DropRight

/-!
# The lines grep writes

A round of `grep` is right when its bytes end in the part of the buffer that no read has
reached, for there `strchr` finds the NUL that ends its search, and when they hold a
newline, for otherwise they are dropped. Both are needed.
-/

namespace Lainos.Grep

open Library

variable {re piece l t x y : List UInt8} {ls ls' : List (List UInt8)} {p q n M : ℕ}
  {s s' : State} {buf : Bytes}

/-! ## Lines -/

/-- A line has no newline and no NUL. -/
def IsLine (l : List UInt8) : Prop := 10 ∉ l ∧ 0 ∉ l

/-- The lines, each with its newline. -/
def terminated (ls : List (List UInt8)) : List UInt8 := ls.flatMap (· ++ [10])

@[simp] theorem terminated_nil : terminated [] = [] := rfl

@[simp] theorem terminated_cons (l : List UInt8) (ls : List (List UInt8)) :
    terminated (l :: ls) = l ++ 10 :: terminated ls := by
  simp [terminated]

@[simp] theorem terminated_append (ls ls' : List (List UInt8)) :
    terminated (ls ++ ls') = terminated ls ++ terminated ls' := by
  simp [terminated]

theorem zero_notMem_terminated (h : ∀ l ∈ ls, IsLine l) : 0 ∉ terminated ls := by
  simp only [terminated, List.mem_flatMap, not_exists, not_and]
  intro l hl h0
  rcases List.mem_append.mp h0 with h0 | h0
  · exact (h l hl).2 h0
  · simp at h0

theorem newline_mem_terminated : 10 ∈ terminated ls ↔ ls ≠ [] := by
  cases ls <;> simp

/-- Bytes that end in a newline are lines. -/
theorem exists_lines (h : 0 ∉ x) :
    ∃ ls, (∀ l ∈ ls, IsLine l) ∧ ls ≠ [] ∧ terminated ls = x ++ [10] := by
  induction x with
  | nil => exact ⟨[[]], by simp [IsLine], by simp, rfl⟩
  | cons c x ih =>
    rw [List.mem_cons, not_or] at h
    obtain ⟨ls, hls, hne, heq⟩ := ih h.2
    by_cases hc : c = 10
    · refine ⟨[] :: ls, ?_, by simp, by simp [heq, hc]⟩
      simpa [IsLine] using hls
    · obtain ⟨l, ls, rfl⟩ := List.exists_cons_of_ne_nil hne
      refine ⟨(c :: l) :: ls, ?_, by simp, by simpa using heq⟩
      simp only [List.mem_cons, forall_eq_or_imp, IsLine, not_or] at hls ⊢
      exact ⟨⟨⟨Ne.symm hc, hls.1.1⟩, h.1, hls.1.2⟩, hls.2⟩

theorem append_newline_inj (hx : 10 ∉ x) (hy : 10 ∉ y) {a b : List UInt8}
    (h : x ++ 10 :: a = y ++ 10 :: b) : x = y ∧ a = b := by
  induction x generalizing y with
  | nil =>
    cases y with
    | nil => simpa using h
    | cons c y =>
      simp only [List.nil_append, List.cons_append, List.cons.injEq] at h
      exact absurd (h.1 ▸ List.mem_cons_self) hy
  | cons c x ih =>
    cases y with
    | nil =>
      simp only [List.nil_append, List.cons_append, List.cons.injEq] at h
      exact absurd (h.1 ▸ List.mem_cons_self) hx
    | cons d y =>
      simp only [List.cons_append, List.cons.injEq] at h
      have hx' := List.not_mem_of_not_mem_cons hx
      obtain ⟨rfl, rfl⟩ := ih hx' (List.not_mem_of_not_mem_cons hy) h.2
      exact ⟨by rw [h.1], rfl⟩

/-- Lines at the beginning of a text are its first lines. -/
theorem terminated_split (hls : ∀ l ∈ ls, IsLine l) (hls' : ∀ l ∈ ls', IsLine l)
    (h : terminated ls' ++ y = terminated ls) : ∃ r, ls = ls' ++ r ∧ y = terminated r := by
  induction ls' generalizing ls with
  | nil => exact ⟨ls, rfl, h⟩
  | cons l ls' ih =>
    cases ls with
    | nil => simp at h
    | cons k ls =>
      simp only [List.mem_cons, forall_eq_or_imp] at hls hls'
      rw [terminated_cons, terminated_cons, List.append_assoc, List.cons_append] at h
      obtain ⟨rfl, htail⟩ := append_newline_inj hls'.1.1 hls.1.1 h
      obtain ⟨r, rfl, hr⟩ := ih hls.2 hls'.2 htail
      exact ⟨r, rfl, hr⟩

/-- The bytes behind the last newline. -/
def kept (piece : List UInt8) : ℕ := (piece.rtakeWhile (· ≠ 10)).length

theorem split_at_last (h : 10 ∈ piece) :
    ∃ x y, piece = x ++ 10 :: y ∧ 10 ∉ y ∧ kept piece = y.length := by
  induction piece using List.reverseRecOn with
  | nil => cases h
  | append_singleton piece c ih =>
    by_cases hc : c = 10
    · refine ⟨piece, [], by rw [hc], List.not_mem_nil, ?_⟩
      rw [kept, List.rtakeWhile_concat_neg _ _ _ (by simp [hc])]
    · obtain ⟨x, y, hxy, hy, hkept⟩ := ih (by simpa [Ne.symm hc] using h)
      refine ⟨x, y ++ [c], by rw [hxy]; simp, by simp [hy, Ne.symm hc], ?_⟩
      rw [kept, List.rtakeWhile_concat_pos _ _ _ (by simp [hc]), List.length_append,
        List.length_append, ← hkept, kept]

/-! ## The search for a newline -/

theorem strchrFrom_of_line (h : Holds buf p l) (hl : IsLine l)
    (hend : buf (p + l.length) = 10 ∨ buf (p + l.length) = 0) (hn : l.length < n) :
    strchrFrom buf n p = some (p + l.length) := by
  induction l generalizing p n with
  | nil =>
    cases n with
    | zero => cases hn
    | succ n =>
      rw [strchrFrom]
      exact if_pos hend
  | cons c l ih =>
    cases n with
    | zero => cases hn
    | succ n =>
      obtain ⟨hten, hzero⟩ := hl
      rw [List.mem_cons, not_or] at hten hzero
      rw [List.length_cons, Nat.succ_lt_succ_iff] at hn
      rw [List.length_cons, Nat.add_comm l.length, ← Nat.add_assoc] at hend ⊢
      rw [strchrFrom, h.1, if_neg (not_or.mpr ⟨Ne.symm hten.1, Ne.symm hzero.1⟩)]
      exact ih h.2 ⟨hten.2, hzero.2⟩ hend hn

theorem strchr_of_line (h : Holds buf p l) (hl : IsLine l)
    (hend : buf (p + l.length) = 10 ∨ buf (p + l.length) = 0) (hroom : p + l.length < BUFSIZE) :
    strchr buf p = some (p + l.length) :=
  strchrFrom_of_line h hl hend (by omega)

/-- Where the search stops there is a newline or a NUL, and only other bytes before. -/
theorem strchrFrom_some (h : strchrFrom buf n p = some q) :
    p ≤ q ∧ q < p + n ∧ (buf q = 10 ∨ buf q = 0) ∧ ∀ i, p ≤ i → i < q → buf i ≠ 10 ∧ buf i ≠ 0 := by
  induction n generalizing p with
  | zero => cases h
  | succ n ih =>
    rw [strchrFrom] at h
    by_cases hp : buf p = 10 ∨ buf p = 0
    · rw [if_pos hp, Option.some.injEq] at h
      subst h
      exact ⟨le_rfl, by omega, hp, fun i _ _ => by omega⟩
    · rw [if_neg hp] at h
      obtain ⟨hle, hlt, hq, hbefore⟩ := ih h
      refine ⟨by omega, by omega, hq, fun i hi hiq => ?_⟩
      rcases Nat.eq_or_lt_of_le hi with rfl | hi
      · exact not_or.mp hp
      · exact hbefore i hi hiq

theorem strchr_some (h : strchr buf p = some q) :
    p ≤ q ∧ q < BUFSIZE ∧ (buf q = 10 ∨ buf q = 0) ∧
      ∀ i, p ≤ i → i < q → buf i ≠ 10 ∧ buf i ≠ 0 := by
  obtain ⟨hle, hlt, hq, hbefore⟩ := strchrFrom_some h
  exact ⟨hle, by omega, hq, hbefore⟩

/-! ## One line -/

theorem line_of_holds (re : List UInt8) (h : Holds s.buf p l) (hend : s.buf (p + l.length) = 10) :
    s.line re p (p + l.length) = if matchText re l then { s with out := s.out ++ (l ++ [10]) }
      else { s with buf := Function.update s.buf (p + l.length) 0 } := by
  have hwhole : Holds s.buf p (l ++ [10]) := holds_append.mpr ⟨h, hend, trivial⟩
  have hload := hwhole.load
  rw [List.length_append, List.length_singleton] at hload
  rw [State.line, Nat.add_sub_cancel_left, h.load, Nat.add_assoc, Nat.add_sub_cancel_left, hload]

@[simp] theorem line_m (s : State) (p q : ℕ) : (s.line re p q).m = s.m := by
  unfold State.line
  split <;> rfl

@[simp] theorem line_log (s : State) (p q : ℕ) : (s.line re p q).log = s.log := by
  unfold State.line
  split <;> rfl

theorem line_buf (s : State) (p : ℕ) {i : ℕ} (h : i ≠ q) : (s.line re p q).buf i = s.buf i := by
  unfold State.line
  split
  · rfl
  · exact Function.update_of_ne h ..

@[simp] theorem line_nil_buf (s : State) (p q : ℕ) : (s.line [] p q).buf = s.buf := by
  simp [State.line]

theorem length_line_out (re : List UInt8) (s : State) (p q : ℕ) :
    (s.line re p q).out.length ≤ s.out.length + (q + 1 - p) := by
  unfold State.line
  split
  · rw [List.length_append, length_load]
  · exact Nat.le_add_right ..

/-! ## The loop over the lines -/

/-- The loop on whole lines and the beginning of one more, with a NUL behind them. -/
theorem lines_spec (re : List UInt8) (hls : ∀ l ∈ ls, IsLine l) (ht : IsLine t)
    (hbuf : Holds s.buf p (terminated ls ++ t))
    (hend : s.buf (p + (terminated ls ++ t).length) = 0)
    (hroom : p + (terminated ls ++ t).length < BUFSIZE) (hn : ls.length < n) :
    ∃ s', lines re n p s = some (p + (terminated ls).length, s') ∧
      s'.out = s.out ++ terminated (ls.filter (matchText re)) ∧ s'.m = s.m ∧
      (∀ i, p + (terminated ls).length ≤ i → s'.buf i = s.buf i) ∧
      ∀ a ∈ s'.log, a ∈ s.log ∨ a.1 ≤ p + (terminated ls ++ t).length ∧ a.2 = s.m := by
  induction ls generalizing p n s with
  | nil =>
    rw [terminated_nil, List.nil_append] at hbuf hend hroom
    cases n with
    | zero => cases hn
    | succ n =>
      refine ⟨s.look (p + t.length), ?_, by simp [State.look], rfl, fun i _ => rfl, ?_⟩
      · rw [lines, strchr_of_line hbuf ht (.inr hend) hroom, Option.bind_some, if_pos hend]
        rfl
      · intro a ha
        rcases List.mem_append.mp ha with ha | ha
        · exact .inl ha
        · obtain rfl := List.mem_singleton.mp ha
          exact .inr ⟨le_rfl, rfl⟩
  | cons l ls ih =>
    cases n with
    | zero => cases hn
    | succ n =>
      have hlen : (terminated (l :: ls) ++ t).length =
          l.length + 1 + (terminated ls ++ t).length := by
        simp only [terminated_cons, List.length_append, List.length_cons]
        omega
      rw [hlen] at hend hroom ⊢
      rw [terminated_cons, List.append_assoc, List.cons_append, holds_append] at hbuf
      obtain ⟨hline, hten, hrest⟩ := hbuf
      simp only [List.mem_cons, forall_eq_or_imp] at hls
      have hlook := strchr_of_line hline hls.1 (.inl hten) (by omega)
      have hturn := line_of_holds re (s := s.look (p + l.length)) hline hten
      have hsame : ∀ i, p + l.length + 1 ≤ i →
          ((s.look (p + l.length)).line re p (p + l.length)).buf i = s.buf i :=
        fun i hi => line_buf _ _ (by omega)
      obtain ⟨s', hs', hout, hm, hb, hlog⟩ := ih hls.2 (hrest.congr fun i hi _ => hsame i hi)
        (by rw [hsame _ (by omega), ← hend]; congr 1; omega) (by omega) (n := n)
        (Nat.lt_of_succ_lt_succ hn)
      have hcount : p + (terminated (l :: ls)).length =
          p + l.length + 1 + (terminated ls).length := by
        simp only [terminated_cons, List.length_append, List.length_cons]
        omega
      refine ⟨s', ?_, ?_, hm.trans (line_m ..), fun i hi => ?_, fun a ha => ?_⟩
      · rw [lines, hlook, Option.bind_some, if_neg (by rw [hten]; decide), hs', hcount]
      · rw [hout, hturn, List.filter_cons]
        by_cases hmatch : matchText re l
        · rw [if_pos hmatch, if_pos hmatch, terminated_cons]
          simp [State.look]
        · rw [if_neg hmatch, if_neg hmatch]
          rfl
      · rw [hcount] at hi
        rw [hb i hi, hsame i (by omega)]
      · rcases hlog a ha with ha | ⟨hle, heq⟩
        · rw [line_log] at ha
          rcases List.mem_append.mp ha with ha | ha
          · exact .inl ha
          · obtain rfl := List.mem_singleton.mp ha
            exact .inr ⟨by omega, rfl⟩
        · exact .inr ⟨by omega, heq.trans (line_m ..)⟩

/-- What the loop does to any buffer: it moves on and writes at most what it passed. -/
theorem lines_some (h : lines re n p s = some (q, s')) :
    p ≤ q ∧ s'.m = s.m ∧ s'.out.length ≤ s.out.length + (q - p) ∧ s.log ⊆ s'.log := by
  induction n generalizing p s with
  | zero => cases h
  | succ n ih =>
    obtain ⟨r, hr, h⟩ := Option.bind_eq_some_iff.mp h
    split at h
    · cases h
      exact ⟨le_rfl, rfl, by simp [State.look], List.subset_append_left ..⟩
    · obtain ⟨hle, hm, hout, hlog⟩ := ih h
      have hpr := (strchr_some hr).1
      have hline := length_line_out re (s.look r) p r
      refine ⟨by omega, hm.trans (line_m ..), ?_, ?_⟩
      · change _ ≤ s.out.length + _ at hline
        omega
      · rw [line_log] at hlog
        exact fun a ha => hlog (List.mem_append_left _ ha)

/-- The loop looks at every byte up to the first NUL. -/
theorem lines_looks (h : lines re n p s = some (q, s'))
    (hM : ∀ i, p ≤ i → i < M → s.buf i ≠ 0) :
    ∃ r, (r, s.m) ∈ s'.log ∧ M ≤ r ∧ r < BUFSIZE := by
  induction n generalizing p s with
  | zero => cases h
  | succ n ih =>
    obtain ⟨r, hr, h⟩ := Option.bind_eq_some_iff.mp h
    obtain ⟨hle, hlt, -, -⟩ := strchr_some hr
    have hmem : (r, s.m) ∈ (s.look r).log := List.mem_append_right _ (List.mem_singleton_self _)
    split at h
    · next hzero =>
      cases h
      refine ⟨r, hmem, ?_, hlt⟩
      by_contra hr
      exact hM r hle (by omega) hzero
    · by_cases hMr : M ≤ r
      · refine ⟨r, ?_, hMr, hlt⟩
        have hlog := (lines_some h).2.2.2
        rw [line_log] at hlog
        exact hlog hmem
      · have := ih h fun i hi hiM => by
          rw [line_buf _ _ (by omega)]
          exact hM i (by omega) hiM
        rwa [line_m] at this

/-- The empty pattern matches each line, so that each newline comes back. -/
theorem lines_nil_buf (h : lines [] n p s = some (q, s')) : s'.buf = s.buf := by
  induction n generalizing p s with
  | zero => cases h
  | succ n ih =>
    obtain ⟨r, hr, h⟩ := Option.bind_eq_some_iff.mp h
    split at h
    · cases h
      rfl
    · rw [ih h, line_nil_buf]
      rfl

/-! ## One round -/

/-- The buffer holds the beginning `t` of a line, and no read has reached the place `M`. -/
structure Held (s : State) (t : List UInt8) (M : ℕ) : Prop where
  holds : Holds s.buf 0 t
  count : s.m = t.length
  line : IsLine t
  clear : ∀ i, M ≤ i → s.buf i = 0

theorem held_init : Held State.init [] 0 :=
  ⟨trivial, rfl, ⟨List.not_mem_nil, List.not_mem_nil⟩, fun _ _ => rfl⟩

theorem Held.read (h : Held s t M) (piece : List UInt8) :
    Holds (s.read piece).buf 0 (t ++ piece) := by
  refine holds_append.mpr ⟨h.holds.store ?_, ?_⟩
  · rw [h.count]
    omega
  · rw [Nat.zero_add, ← h.count]
    exact holds_store ..

theorem length_le_terminated (ls : List (List UInt8)) : ls.length ≤ (terminated ls).length := by
  induction ls with
  | nil => rfl
  | cons l ls ih =>
    simp only [terminated_cons, List.length_append, List.length_cons]
    omega

theorem keep_of_holds (hp : p ≠ 0) (hm : s.m = p + y.length) (h : Holds s.buf p y) :
    s.keep p = some { s with m := y.length, buf := store s.buf 0 y } := by
  rw [State.keep, if_neg (by omega), if_neg (by omega), hm, Nat.add_sub_cancel_left,
    copy_eq_store h (.inr (Nat.zero_le p))]

/-- A round whose bytes end in the clear part of the buffer. -/
theorem round_spec (re : List UInt8) (h : Held s t M) (hM : M ≤ s.m + piece.length)
    (hroom : s.m + piece.length < BUFSIZE) (hls : ∀ l ∈ ls, IsLine l) (hy : IsLine y)
    (heq : t ++ piece = terminated ls ++ y) :
    ∃ s', round re piece s = some s' ∧
      s'.out = s.out ++ terminated (ls.filter (matchText re)) ∧
      Held s' (if ls = [] then [] else y) (s.m + piece.length) ∧
      ∀ a ∈ s'.log, a ∈ s.log ∨ a.1 ≤ a.2 := by
  have hlen : s.m + piece.length = (terminated ls ++ y).length := by
    rw [← heq, List.length_append, h.count]
  have hbuf := h.read piece
  have hclear : ∀ i, s.m + piece.length ≤ i → (s.read piece).buf i = 0 := fun i hi =>
    (store_of_outside (.inr hi)).trans (h.clear i (by omega))
  have hcount := length_le_terminated ls
  rw [heq] at hbuf
  obtain ⟨s₁, hs₁, hout, hm, hsame, hlog⟩ := lines_spec re (n := BUFSIZE + 1) hls hy hbuf
    (by rw [Nat.zero_add, ← hlen]; exact hclear _ le_rfl) (by omega)
    (by rw [List.length_append] at hlen; omega)
  rw [Nat.zero_add] at hs₁ hlog hsame
  have hgood : ∀ a ∈ s₁.log, a ∈ s.log ∨ a.1 ≤ a.2 := by
    intro a ha
    refine (hlog a ha).imp_right fun ⟨hle, hheld⟩ => ?_
    rw [hheld]
    exact hle.trans hlen.ge
  by_cases hnil : ls = []
  · subst hnil
    refine ⟨{ s₁ with m := 0 }, ?_, hout, ?_, hgood⟩
    · rw [round, hs₁, Option.bind_some, State.keep, if_pos (.inl rfl)]
    · exact ⟨trivial, rfl, ⟨List.not_mem_nil, List.not_mem_nil⟩,
        fun i hi => (hsame i (Nat.zero_le i)).trans (hclear i hi)⟩
  · have hpos : (terminated ls).length ≠ 0 := by
      have := List.length_pos_of_ne_nil hnil
      omega
    have hrest := (holds_append.mp hbuf).2
    rw [Nat.zero_add] at hrest
    have hkeep := keep_of_holds (s := s₁) (y := y) hpos
      (by rw [hm, ← List.length_append]; exact hlen)
      (hrest.congr fun i hi _ => hsame i hi)
    refine ⟨{ s₁ with m := y.length, buf := store s₁.buf 0 y }, ?_, hout, ?_, hgood⟩
    · rw [round, hs₁, Option.bind_some, hkeep]
    rw [if_neg hnil]
    refine ⟨holds_store .., rfl, hy, fun i hi => ?_⟩
    rw [List.length_append] at hlen
    change store s₁.buf 0 y i = 0
    rw [store_of_outside (by omega), hsame i (by omega), hclear i hi]

/-- What a round does to any buffer: no byte is written twice. -/
theorem round_some (hne : piece ≠ []) (h : round re piece s = some s') :
    s'.out.length + s'.m ≤ s.out.length + s.m + piece.length ∧ s.log ⊆ s'.log := by
  obtain ⟨⟨p, s₁⟩, hs₁, hkeep⟩ := Option.bind_eq_some_iff.mp h
  obtain ⟨-, hm, hout, hlog⟩ := lines_some hs₁
  change s₁.m = s.m + piece.length at hm
  change s₁.out.length ≤ s.out.length + (p - 0) at hout
  have hpos := List.length_pos_of_ne_nil hne
  simp only [State.keep] at hkeep
  split at hkeep
  · cases hkeep
    refine ⟨?_, hlog⟩
    change s₁.out.length + 0 ≤ _
    omega
  · split at hkeep
    · cases hkeep
    · cases hkeep
      refine ⟨?_, hlog⟩
      change s₁.out.length + (s₁.m - p) ≤ _
      omega


theorem copy_ne_zero {dst src : ℕ} (h : ∀ i < M, buf i ≠ 0) (hsrc : src + n ≤ M) {i : ℕ}
    (hi : i < M) : copy dst src n buf i ≠ 0 := by
  induction n generalizing buf dst src with
  | zero => exact h i hi
  | succ n ih =>
    refine ih (fun j hj => ?_) (by omega)
    by_cases hdst : j = dst
    · rw [hdst, Function.update_self]
      exact h src (by omega)
    · rw [Function.update_of_ne hdst]
      exact h j hj

/-- With the empty pattern no NUL comes into the buffer. -/
theorem round_nil_ne_zero (h : round [] piece s = some s')
    (hbuf : ∀ i < s.m + piece.length, (s.read piece).buf i ≠ 0) {i : ℕ}
    (hi : i < s.m + piece.length) : s'.buf i ≠ 0 := by
  obtain ⟨⟨p, s₁⟩, hs₁, hkeep⟩ := Option.bind_eq_some_iff.mp h
  have hm : s₁.m = s.m + piece.length := (lines_some hs₁).2.1
  rw [← lines_nil_buf hs₁] at hbuf
  simp only [State.keep] at hkeep
  split at hkeep
  · cases hkeep
    exact hbuf i hi
  · split at hkeep
    · cases hkeep
    · cases hkeep
      exact copy_ne_zero hbuf (by omega) hi

/-! ## The whole input -/

/-- Each piece has a newline, ends at or behind the place where the bytes of the round
before ended, and leaves a byte of the buffer free; `m` bytes are held, and no read has
reached the place `M`. -/
def Steady : ℕ → ℕ → List (List UInt8) → Prop
  | _, _, [] => True
  | m, M, piece :: rest =>
    10 ∈ piece ∧ M ≤ m + piece.length ∧ m + piece.length < BUFSIZE ∧
      Steady (kept piece) (m + piece.length) rest

instance Steady.decidable : ∀ m M pieces, Decidable (Steady m M pieces)
  | _, _, [] => inferInstanceAs (Decidable True)
  | m, M, piece :: rest =>
    have := Steady.decidable (kept piece) (m + piece.length) rest
    inferInstanceAs (Decidable (10 ∈ piece ∧ M ≤ m + piece.length ∧
      m + piece.length < BUFSIZE ∧ Steady (kept piece) (m + piece.length) rest))

variable {pieces : List (List UInt8)}

/-- A run over steady pieces. -/
theorem grep_of_steady (re : List UInt8) (h : Held s t M) (hsteady : Steady s.m M pieces)
    (hls : ∀ l ∈ ls, IsLine l) (hwhole : t ++ pieces.flatten = terminated ls) :
    ∃ s', grep re pieces s = some s' ∧
      s'.out = s.out ++ terminated (ls.filter (matchText re)) ∧
      ∀ a ∈ s'.log, a ∈ s.log ∨ a.1 ≤ a.2 := by
  induction pieces generalizing s t M ls with
  | nil =>
    have hnil : ls = [] := by
      by_contra hne
      rw [List.flatten_nil, List.append_nil] at hwhole
      exact h.line.1 (hwhole ▸ newline_mem_terminated.mpr hne)
    subst hnil
    exact ⟨s, rfl, by simp, fun a ha => .inl ha⟩
  | cons piece rest ih =>
    obtain ⟨hten, hM, hroom, hrest⟩ := hsteady
    obtain ⟨x, y, rfl, hy, hkept⟩ := split_at_last hten
    have hzero := zero_notMem_terminated hls
    rw [← hwhole] at hzero
    simp only [List.flatten_cons, List.mem_append, List.mem_cons, not_or] at hzero
    obtain ⟨ls₁, hls₁, hne, heq⟩ := exists_lines (x := t ++ x) (by simp [hzero.1, hzero.2.1.1])
    obtain ⟨r, rfl, hr⟩ := terminated_split (y := y ++ rest.flatten) hls hls₁ (by
      rw [heq, ← hwhole]
      simp)
    obtain ⟨s₁, hs₁, hout, hheld, hlog⟩ := round_spec re h hM hroom hls₁
      (y := y) ⟨hy, hzero.2.1.2.2⟩ (by rw [heq]; simp)
    rw [if_neg hne] at hheld
    rw [hkept, ← hheld.count] at hrest
    obtain ⟨s', hs', hout', hlog'⟩ := ih hheld hrest
      (fun l hl => hls l (List.mem_append_right _ hl)) hr
    refine ⟨s', by rw [grep, hs₁, Option.bind_some, hs'], ?_, fun a ha => ?_⟩
    · rw [hout', hout, List.filter_append, terminated_append, List.append_assoc]
    · rcases hlog' a ha with ha | ha
      · exact hlog a ha
      · exact .inr ha

/-- What a run does whatever the buffer: no byte is written twice. -/
theorem grep_some (hne : [] ∉ pieces) (h : grep re pieces s = some s') :
    s'.out.length + s'.m ≤ s.out.length + s.m + pieces.flatten.length ∧ s.log ⊆ s'.log := by
  induction pieces generalizing s with
  | nil =>
    cases h
    exact ⟨by simp, List.Subset.refl _⟩
  | cons piece rest ih =>
    rw [List.mem_cons, not_or] at hne
    obtain ⟨s₁, hs₁, hs'⟩ := Option.bind_eq_some_iff.mp h
    obtain ⟨hfirst, hlog⟩ := round_some (Ne.symm hne.1) hs₁
    obtain ⟨hrest, hlog'⟩ := ih hne.2 hs'
    rw [List.flatten_cons, List.length_append]
    exact ⟨by omega, fun a ha => hlog' (hlog ha)⟩

theorem ne_zero_of_holds {a i : ℕ} (h : Holds buf a l) (hl : 0 ∉ l) (ha : a ≤ i)
    (hi : i < a + l.length) : buf i ≠ 0 := by
  obtain ⟨j, rfl⟩ := Nat.exists_eq_add_of_le ha
  rw [h.apply (by omega)]
  exact fun h0 => hl (h0 ▸ List.getElem_mem _)

theorem read_ne_zero (hs : s.m ≤ M) (hM : ∀ i < M, s.buf i ≠ 0) (hzero : 0 ∉ piece) {i : ℕ}
    (hi : i < max M (s.m + piece.length)) : (s.read piece).buf i ≠ 0 := by
  by_cases hin : s.m ≤ i ∧ i < s.m + piece.length
  · exact ne_zero_of_holds (holds_store ..) hzero hin.1 hin.2
  · change store s.buf s.m piece i ≠ 0
    rw [store_of_outside (by omega)]
    exact hM i (by omega)

/-- The bytes that a round reads, and those of an earlier read behind them, are all
looked at. -/
theorem round_looks (hs : s.m ≤ M) (hM : ∀ i < M, s.buf i ≠ 0) (hzero : 0 ∉ piece)
    (h : round re piece s = some s') :
    ∃ r, (r, s.m + piece.length) ∈ s'.log ∧ M ≤ r ∧ s.m + piece.length ≤ r ∧ r < BUFSIZE := by
  obtain ⟨⟨p, s₁⟩, hs₁, hkeep⟩ := Option.bind_eq_some_iff.mp h
  obtain ⟨r, hr, hle, hlt⟩ := lines_looks hs₁ fun i _ hi => read_ne_zero hs hM hzero hi
  have hlog : s'.log = s₁.log := by
    simp only [State.keep] at hkeep
    split at hkeep
    · cases hkeep
      rfl
    · split at hkeep
      · cases hkeep
      · cases hkeep
        rfl
  exact ⟨r, hlog ▸ hr, by omega, by omega, hlt⟩

/-- With the empty pattern every byte has to be written, and that takes steady pieces. -/
theorem steady_of_grep (h : Held s t M) (hm : s.m ≤ M) (hM : ∀ i < M, s.buf i ≠ 0)
    (hne : [] ∉ pieces) (hzero : 0 ∉ pieces.flatten) (hs' : grep [] pieces s = some s')
    (hlog : ∀ a ∈ s'.log, a.1 ≤ a.2)
    (hout : s.out.length + s.m + pieces.flatten.length ≤ s'.out.length) :
    Steady s.m M pieces := by
  induction pieces generalizing s t M with
  | nil => trivial
  | cons piece rest ih =>
    rw [List.mem_cons, not_or] at hne
    rw [List.flatten_cons, List.mem_append, not_or] at hzero
    rw [List.flatten_cons, List.length_append] at hout
    obtain ⟨s₁, hs₁, hs'⟩ := Option.bind_eq_some_iff.mp hs'
    obtain ⟨hsum, -⟩ := round_some (Ne.symm hne.1) hs₁
    obtain ⟨hsum', hsub⟩ := grep_some hne.2 hs'
    obtain ⟨r, hr, hMr, hmr, hrlt⟩ := round_looks hm hM hzero.1 hs₁
    have hrm : r ≤ s.m + piece.length := hlog _ (hsub hr)
    have hMm : M ≤ s.m + piece.length := by omega
    have hroom : s.m + piece.length < BUFSIZE := by omega
    by_cases hten : 10 ∈ piece
    · obtain ⟨x, y, hxy, hy, hkept⟩ := split_at_last hten
      have hzx : 0 ∉ x ∧ 0 ∉ y := by
        have := hzero.1
        rw [hxy, List.mem_append, List.mem_cons, not_or, not_or] at this
        exact ⟨this.1, this.2.2⟩
      obtain ⟨ls₁, hls₁, hne₁, heq⟩ := exists_lines (x := t ++ x) (by simp [h.line.2, hzx.1])
      obtain ⟨s₂, hs₂, -, hheld, -⟩ := round_spec [] h hMm hroom hls₁ (y := y)
        ⟨hy, hzx.2⟩ (by rw [heq, hxy]; simp)
      obtain rfl := Option.some.inj (hs₁.symm.trans hs₂)
      rw [if_neg hne₁] at hheld
      have hrest := ih hheld ?_ ?_ hne.2 hzero.2 hs' (by omega)
      · rw [hheld.count, ← hkept] at hrest
        exact ⟨hten, hMm, hroom, hrest⟩
      · rw [hheld.count, hxy, List.length_append, List.length_cons]
        omega
      · refine fun i hi => round_nil_ne_zero hs₁ (fun i hi => ?_) hi
        exact read_ne_zero hm hM hzero.1 (hi.trans_le (le_max_right ..))
    · exfalso
      have hnone : t ++ piece = terminated [] ++ (t ++ piece) := rfl
      obtain ⟨s₂, hs₂, hout₂, hheld, -⟩ := round_spec [] h hMm hroom (List.forall_mem_nil _)
        ⟨by simp [h.line.1, hten], by simp [h.line.2, hzero.1]⟩ hnone
      obtain rfl := Option.some.inj (hs₁.symm.trans hs₂)
      have hcount := hheld.count
      have hpos := List.length_pos_of_ne_nil (Ne.symm hne.1)
      rw [if_pos rfl, List.length_nil] at hcount
      rw [List.filter_nil, terminated_nil, List.append_nil] at hout₂
      rw [hout₂] at hsum'
      omega

/-- `grep` writes the matching lines, and every place looked at is as `inside` asks of it
and of the number of bytes held. -/
def Prints (re : List UInt8) (pieces ls : List (List UInt8)) (inside : ℕ × ℕ → Prop) : Prop :=
  ∃ s, grep re pieces State.init = some s ∧
    s.out = terminated (ls.filter (matchText re)) ∧ ∀ a ∈ s.log, inside a

end Lainos.Grep
