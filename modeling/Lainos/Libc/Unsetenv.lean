import Lainos.Libc.EnvironMap

/-!
# Removing variables

`unsetenv` moves the pointers behind a match one place down and goes on with the next place,
so that the pointer that came into the place of the match is never looked at.
-/

namespace Lainos.Libc

open Library

/-- `do { dp[0] = dp[1]; } while (*dp++)`. -/
def shiftDown : ℕ → ℕ → EAct Unit
  | 0, _ => throw .fuel
  | fuel + 1, dp => do
    modify fun s => s.setMem (store s.mem dp (wordBytes (word s.mem (dp + 4))))
    let s ← get
    if word s.mem dp = 0 then return () else shiftDown fuel (dp + 4)

/-- The loop of `unsetenv` from `ep` on. -/
def unsetFrom (name : List UInt8) : ℕ → ℕ → EAct Unit
  | 0, _ => throw .fuel
  | fuel + 1, ep => do
    let s ← get
    if word s.mem ep = 0 then return ()
    else do
      if defines s.mem (word s.mem ep) name then shiftDown fuel ep
      unsetFrom name fuel (ep + 4)

/-- There is no test for an array that is not there. -/
def unsetenv (fuel : ℕ) (name : List UInt8) : EAct Unit := do
  let s ← get
  unsetFrom name fuel s.environ

/-! ## What the loop keeps -/

section Sweep

variable {α : Type*} (p : α → Bool)

/-- The loop on a list: behind an element that goes, one element stays unseen. -/
def sweep : List α → List α
  | [] => []
  | [x] => if p x then [] else [x]
  | x :: y :: l => if p x then y :: sweep l else x :: sweep (y :: l)

variable {p}

theorem sweep_cons_of_neg {x : α} (hx : p x = false) (l : List α) :
    sweep p (x :: l) = x :: sweep p l := by
  cases l with
  | nil => simp [sweep, hx]
  | cons y l => simp [sweep, hx]

theorem mem_of_mem_sweep {x : α} {l : List α} (h : x ∈ sweep p l) : x ∈ l := by
  induction l using List.twoStepInduction with
  | nil => exact h
  | singleton y =>
    rw [sweep] at h
    split at h
    · cases h
    · exact h
  | cons_cons y z l ih ih' =>
    rw [sweep] at h
    split at h
    · obtain rfl | h := List.mem_cons.mp h
      · simp
      · simp [ih h]
    · obtain rfl | h := List.mem_cons.mp h
      · simp
      · exact List.mem_cons_of_mem _ (ih' z h)

theorem length_sweep_le (l : List α) : (sweep p l).length ≤ l.length := by
  induction l using List.twoStepInduction with
  | nil => exact le_rfl
  | singleton x =>
    rw [sweep]
    split <;> simp
  | cons_cons x y l ih ih' =>
    have hrest := ih' y
    rw [List.length_cons] at hrest
    rw [sweep]
    split
    · rw [List.length_cons, List.length_cons, List.length_cons]
      omega
    · rw [List.length_cons, List.length_cons, List.length_cons]
      omega

/-- No two neighbours are to be removed. -/
def Sparse (p : α → Bool) (l : List α) : Prop := l.IsChain fun x y => ¬ (p x = true ∧ p y = true)

theorem sweep_eq_filter {l : List α} (h : Sparse p l) : sweep p l = l.filter fun x => !p x := by
  induction l using List.twoStepInduction with
  | nil => rfl
  | singleton x => cases hx : p x <;> simp [sweep, hx]
  | cons_cons x y l ih ih' =>
    rw [Sparse, List.isChain_cons_cons] at h
    cases hx : p x with
    | false =>
      rw [sweep_cons_of_neg hx, ih' y h.2]
      exact (List.filter_cons_of_pos (by simp [hx])).symm
    | true =>
      have hy : p y = false := by
        cases hy : p y with
        | false => rfl
        | true => exact absurd ⟨hx, hy⟩ h.1
      rw [sweep, if_pos hx, ih h.2.tail, List.filter_cons_of_neg (by simp [hx]),
        List.filter_cons_of_pos (by simp [hy])]

theorem exists_mem_sweep {l : List α} (h : ¬ Sparse p l) : ∃ x ∈ sweep p l, p x = true := by
  induction l using List.twoStepInduction with
  | nil => exact absurd List.IsChain.nil h
  | singleton x => exact absurd (List.IsChain.singleton x) h
  | cons_cons x y l ih ih' =>
    cases hx : p x with
    | false =>
      obtain ⟨z, hz, hpz⟩ := ih' y fun hl => h (List.isChain_cons_cons.mpr ⟨by simp [hx], hl⟩)
      exact ⟨z, by rw [sweep_cons_of_neg hx]; exact List.mem_cons_of_mem _ hz, hpz⟩
    | true =>
      rw [sweep, if_pos hx]
      cases hy : p y with
      | true => exact ⟨y, List.mem_cons_self, hy⟩
      | false =>
        obtain ⟨z, hz, hpz⟩ := ih fun hl => h <| by
          refine List.isChain_cons_cons.mpr ⟨by simp [hy], ?_⟩
          cases l with
          | nil => exact List.IsChain.singleton y
          | cons z l => exact List.isChain_cons_cons.mpr ⟨by simp [hy], hl⟩
        exact ⟨z, List.mem_cons_of_mem _ hz, hpz⟩

end Sweep

/-! ## The loops -/

variable {a dp ep fuel x : ℕ} {s : Space} {m : Bytes} {name str : List UInt8}
  {es : List (ℕ × List UInt8)}

/-- The string gives the name a value. -/
def gives (name str : List UInt8) : Bool := (name ++ [eqSign]).isPrefixOf str

theorem gives_iff : gives name str = true ↔ name ++ [eqSign] <+: str := List.isPrefixOf_iff_prefix

theorem defines_string (h : IsString m a str) (hname : 0 ∉ name) :
    defines m a name = true ↔ gives name str = true := by
  rw [gives_iff, defines, Bool.and_eq_true, decide_eq_true_eq]
  induction name generalizing a str with
  | nil =>
    rw [List.length_nil, Nat.add_zero, h.head (by decide)]
    cases str with
    | nil => simp
    | cons c str => simp [strncmp, eq_comm]
  | cons c name ih =>
    rw [List.mem_cons, not_or] at hname
    cases str with
    | nil => simp [strncmp, isString_nil_iff.mp h, hname.1]
    | cons d str =>
      obtain ⟨hd, hne, htail⟩ := isString_cons_iff.mp h
      have hrest := ih htail hname.2
      rw [Nat.add_right_comm, Nat.add_assoc] at hrest
      rw [List.cons_append, List.cons_prefix_cons, ← hrest, strncmp, hd, List.length_cons]
      by_cases hdc : d = c
      · simp [hdc, Ne.symm hname.1]
      · simp [hdc, Ne.symm hdc]

theorem holds_words_cons {w : ℕ} {ws : List ℕ} :
    Holds m a (words (w :: ws)) ↔ Holds m a (wordBytes w) ∧ Holds m (a + 4) (words ws) := by
  have hsplit : words (w :: ws) = wordBytes w ++ words ws := rfl
  rw [hsplit, holds_append, length_wordBytes]

theorem shiftDown_spec {w : ℕ} {ws : List ℕ} (h : Holds s.mem dp (words (w :: (ws ++ [0]))))
    (hws : ∀ v ∈ ws, 0 < v ∧ v < 2 ^ 32) (hfuel : ws.length < fuel) :
    ∃ m, shiftDown fuel dp s = .ok ((), s.setMem m) ∧ Holds m dp (words (ws ++ [0])) ∧
      ∀ x, x < dp ∨ dp + 4 * (ws.length + 1) ≤ x → m x = s.mem x := by
  induction ws generalizing w dp s fuel with
  | nil =>
    cases fuel with
    | zero => cases hfuel
    | succ fuel =>
      have hzero := (holds_words_cons.mp (holds_words_cons.mp h).2).1.word (by norm_num)
      refine ⟨store s.mem dp (wordBytes 0), ?_, holds_store .., fun x hx => ?_⟩
      · rw [shiftDown, Exec.bind_of_ok (Exec.modify_run _), Exec.bind_of_ok Exec.get_run, hzero]
        exact congrFun (if_pos ((holds_store s.mem dp (wordBytes 0)).word (by norm_num))) _
      · exact store_of_outside (by rw [length_wordBytes]; simpa using hx)
  | cons v ws ih =>
    cases fuel with
    | zero => cases hfuel
    | succ fuel =>
      rw [List.forall_mem_cons] at hws
      rw [List.length_cons] at hfuel ⊢
      obtain ⟨-, hrest⟩ := holds_words_cons.mp h
      have hv := (holds_words_cons.mp hrest).1.word hws.1.2
      have hstored := holds_store s.mem dp (wordBytes v)
      have hnext : Holds (store s.mem dp (wordBytes v)) (dp + 4) (words (v :: (ws ++ [0]))) :=
        hrest.store (by rw [length_wordBytes]; omega)
      obtain ⟨m, hrun, hholds, hsame⟩ := ih (s := s.setMem (store s.mem dp (wordBytes v)))
        hnext hws.2 (show ws.length < fuel by omega)
      refine ⟨m, ?_, holds_words_cons.mpr ⟨?_, hholds⟩, fun x hx => ?_⟩
      · rw [shiftDown, Exec.bind_of_ok (Exec.modify_run _), Exec.bind_of_ok Exec.get_run, hv]
        refine (congrFun (if_neg ?_) _).trans hrun
        rw [Space.setMem_mem, hstored.word hws.1.2]
        omega
      · refine hstored.congr fun x _ hx => hsame x (.inl ?_)
        rwa [length_wordBytes] at hx
      · rw [hsame x (by omega)]
        exact store_of_outside (by rw [length_wordBytes]; omega)

/-- A string whose pointer is in the table at `ep`, which has room for `n` pointers. -/
structure Entry (m : Bytes) (ep n : ℕ) (e : ℕ × List UInt8) : Prop where
  pos : 0 < e.1
  lt : e.1 < 2 ^ 32
  string : IsString m e.1 e.2
  apart : Apart (e.1, e.2.length + 1) (ep, 4 * n)

/-- Changes in the table do not reach the strings. -/
theorem Entry.congr {n n' ep' : ℕ} {m' : Bytes} {e : ℕ × List UInt8} (h : Entry m ep n e)
    (hlow : ep ≤ ep') (hhigh : ep' + 4 * n' ≤ ep + 4 * n)
    (hx : ∀ x, x < ep ∨ ep + 4 * n ≤ x → m' x = m x) : Entry m' ep' n' e := by
  have hapart := h.apart
  simp only [Apart] at hapart
  refine ⟨h.pos, h.lt, ⟨h.string.holds.congr fun x hle hlt => hx x ?_, h.string.clean⟩, ?_⟩
  · rw [List.length_append, List.length_singleton] at hlt
    omega
  · simp only [Apart]
    omega

theorem unsetFrom_end (h : word s.mem ep = 0) :
    unsetFrom name (fuel + 1) ep s = .ok ((), s.setMem s.mem) := by
  rw [unsetFrom, Exec.bind_of_ok Exec.get_run, if_pos h]
  rfl

theorem unsetFrom_pass (h : word s.mem ep ≠ 0) (hname : ¬ defines s.mem (word s.mem ep) name) :
    unsetFrom name (fuel + 1) ep s = unsetFrom name fuel (ep + 4) s := by
  rw [unsetFrom, Exec.bind_of_ok Exec.get_run, if_neg h, if_neg hname]

theorem unsetFrom_remove (h : word s.mem ep ≠ 0) (hname : defines s.mem (word s.mem ep) name)
    (hrun : shiftDown fuel ep s = .ok ((), s.setMem m)) :
    unsetFrom name (fuel + 1) ep s = unsetFrom name fuel (ep + 4) (s.setMem m) := by
  rw [unsetFrom, Exec.bind_of_ok Exec.get_run, if_neg h, if_pos hname, Exec.bind_of_ok hrun]

/-- The loop keeps what `sweep` keeps. Behind an entry that goes the loop skips one, so the
induction is on the number of entries. -/
theorem unsetFrom_spec (hes : ∀ e ∈ es, Entry s.mem ep (es.length + 1) e)
    (h : Holds s.mem ep (words (es.map Prod.fst ++ [0]))) (hname : 0 ∉ name)
    (hfuel : es.length < fuel) :
    ∃ m, unsetFrom name fuel ep s = .ok ((), s.setMem m) ∧
      Holds m ep (words ((sweep (fun e => gives name e.2) es).map Prod.fst ++ [0])) ∧
      ∀ x, x < ep ∨ ep + 4 * (es.length + 1) ≤ x → m x = s.mem x := by
  induction hn : es.length using Nat.strong_induction_on generalizing es ep s fuel with
  | h n ih =>
    subst hn
    obtain ⟨fuel, rfl⟩ : ∃ j, fuel = j + 1 := ⟨fuel - 1, by omega⟩
    cases es with
    | nil =>
      exact ⟨s.mem, unsetFrom_end ((holds_words_cons.mp h).1.word (by norm_num)), h, fun _ _ => rfl⟩
    | cons e es =>
      rw [List.length_cons] at hfuel hes ⊢
      rw [List.forall_mem_cons] at hes
      obtain ⟨hfirst, hrest⟩ := holds_words_cons.mp h
      have hword := hfirst.word hes.1.lt
      have hne : word s.mem ep ≠ 0 := by
        rw [hword]
        exact hes.1.pos.ne'
      have hdefines := defines_string hes.1.string hname
      rw [← hword] at hdefines
      cases hgives : gives name e.2 with
      | false =>
        obtain ⟨m, hrun, hholds, hsame⟩ := ih es.length (Nat.lt_succ_self _)
          (fun e he => (hes.2 e he).congr (by omega) (by omega) fun _ _ => rfl) hrest
          (show es.length < fuel by omega) rfl
        refine ⟨m, ?_, ?_, fun x hx => hsame x (by omega)⟩
        · rw [unsetFrom_pass hne (by rw [hdefines, hgives]; decide), hrun]
        · rw [sweep_cons_of_neg (p := fun e => gives name e.2) (x := e) hgives]
          refine holds_words_cons.mpr ⟨hfirst.congr fun x _ hx => hsame x (.inl ?_), hholds⟩
          rwa [length_wordBytes] at hx
      | true =>
        have hpos : ∀ v ∈ es.map Prod.fst, 0 < v ∧ v < 2 ^ 32 := by
          rw [List.forall_mem_map]
          exact fun e he => ⟨(hes.2 e he).pos, (hes.2 e he).lt⟩
        have hlen : (es.map Prod.fst).length < fuel := by
          rw [List.length_map]
          omega
        obtain ⟨m₁, hshift, hholds₁, hsame₁⟩ := shiftDown_spec h hpos hlen
        rw [List.length_map] at hsame₁
        have hremove := unsetFrom_remove hne (hdefines.mpr hgives) hshift
        obtain ⟨fuel, rfl⟩ : ∃ j, fuel = j + 1 := ⟨fuel - 1, by omega⟩
        cases es with
        | nil =>
          -- the old end of the table stays behind the new one
          have hend : Holds m₁ (ep + 4) (wordBytes 0) := hrest.congr fun x hle _ =>
            hsame₁ x (.inr hle)
          have hsweep : sweep (fun e => gives name e.2) [e] = [] := by
            rw [sweep, if_pos hgives]
          refine ⟨m₁, ?_, ?_, fun x hx => hsame₁ x (by omega)⟩
          · exact hremove.trans (unsetFrom_end (s := s.setMem m₁) (hend.word (by norm_num)))
          · rw [hsweep]
            exact hholds₁
        | cons e' es =>
          rw [List.length_cons] at hfuel hes hsame₁ ⊢
          rw [List.forall_mem_cons] at hes
          obtain ⟨hfirst', hrest'⟩ := holds_words_cons.mp hholds₁
          have hentries : ∀ d ∈ es, Entry m₁ (ep + 4) (es.length + 1) d := fun d hd =>
            (hes.2.2 d hd).congr (by omega) (by omega) fun x hx => hsame₁ x (by omega)
          obtain ⟨m, hrun, hholds, hsame⟩ := ih es.length (by simp) (s := s.setMem m₁)
            hentries hrest' (show es.length < fuel + 1 by omega) rfl
          refine ⟨m, hremove.trans hrun, ?_, fun x hx => ?_⟩
          · have hsweep : sweep (fun e => gives name e.2) (e :: e' :: es) =
                e' :: sweep (fun e => gives name e.2) es := by
              rw [sweep, if_pos hgives]
            rw [hsweep]
            refine holds_words_cons.mpr ⟨hfirst'.congr fun x _ hx => hsame x (.inl ?_), hholds⟩
            rwa [length_wordBytes] at hx
          · rw [hsame x (by omega)]
            exact hsame₁ x (by omega)

/-! ## The environment afterwards -/

/-- `environ` points to the table of these strings, none of which has a byte in it. -/
structure Listed (s : Space) (es : List (ℕ × List UInt8)) : Prop where
  environ : s.environ ≠ 0
  table : Holds s.mem s.environ (words (es.map Prod.fst ++ [0]))
  entries : ∀ e ∈ es, Entry s.mem s.environ (es.length + 1) e

theorem findEntry_spec {b n : ℕ} (size : ℕ) (hes : ∀ e ∈ es, Entry s.mem b n e)
    (h : Holds s.mem ep (words (es.map Prod.fst ++ [0]))) (hname : 0 ∉ name)
    (hfuel : es.length < fuel) :
    ∃ r, findEntry s.mem name fuel ep size s = .ok (r, s) ∧
      (word s.mem r.1 = 0 ↔ ∀ e ∈ es, gives name e.2 = false) := by
  induction es generalizing ep size fuel with
  | nil =>
    obtain ⟨fuel, rfl⟩ : ∃ j, fuel = j + 1 := ⟨fuel - 1, by omega⟩
    have hword := (holds_words_cons.mp h).1.word (by norm_num)
    refine ⟨(ep, size), ?_, by simpa using hword⟩
    rw [findEntry, if_pos hword]
    rfl
  | cons e es ih =>
    obtain ⟨fuel, rfl⟩ : ∃ j, fuel = j + 1 := ⟨fuel - 1, by omega⟩
    rw [List.length_cons] at hfuel
    rw [List.forall_mem_cons] at hes ⊢
    obtain ⟨hfirst, hrest⟩ := holds_words_cons.mp h
    have hword := hfirst.word hes.1.lt
    have hne : word s.mem ep ≠ 0 := by
      rw [hword]
      exact hes.1.pos.ne'
    have hdefines := defines_string hes.1.string hname
    rw [← hword] at hdefines
    rw [findEntry, if_neg hne]
    cases hgives : gives name e.2 with
    | true =>
      refine ⟨(ep, size), ?_, by simp [hne]⟩
      rw [if_pos (hdefines.mpr hgives)]
      rfl
    | false =>
      rw [if_neg (by rw [hdefines, hgives]; decide)]
      obtain ⟨r, hrun, hr⟩ := ih (size + 1) hes.2 hrest (show es.length < fuel by omega)
      exact ⟨r, hrun, by simpa using hr⟩

/-- `getenv` returns NULL exactly when no string gives the name a value. -/
theorem Listed.getenv_null_iff (h : Listed s es) (hname : 0 ∉ name) :
    Returns s name none ↔ ∀ e ∈ es, gives name e.2 = false := by
  obtain ⟨r, hrun, hr⟩ := findEntry_spec 0 h.entries h.table hname (Nat.lt_succ_self _)
  have hget : getenv (es.length + 1) name s =
      .ok (if word s.mem r.1 = 0 then 0 else word s.mem r.1 + name.length + 1, s) := by
    rw [getenv, Exec.bind_of_ok Exec.get_run, if_neg h.environ, Exec.bind_of_ok hrun]
    rfl
  rw [← hr]
  constructor
  · rintro ⟨fuel, hnull⟩
    by_contra hne
    have heq := getenv_unique hget hnull
    rw [if_neg hne] at heq
    omega
  · intro hnull
    rw [if_pos hnull] at hget
    exact ⟨_, hget⟩

/-- `unsetenv` ends and changes nothing but the table; the name is gone and the other
strings remain in their order exactly when the name never stands twice in a row. -/
theorem unsetenv_removes_iff (h : Listed s es) (hname : 0 ∉ name) (hfuel : es.length < fuel) :
    ∃ m, unsetenv fuel name s = .ok ((), s.setMem m) ∧
      (∀ x, x < s.environ ∨ s.environ + 4 * (es.length + 1) ≤ x → m x = s.mem x) ∧
      (Returns (s.setMem m) name none ∧
          Listed (s.setMem m) (es.filter fun e => !gives name e.2) ↔
        Sparse (fun e => gives name e.2) es) := by
  obtain ⟨m, hrun, hholds, hsame⟩ := unsetFrom_spec h.entries h.table hname hfuel
  have hlength := length_sweep_le (p := fun e => gives name e.2) es
  have hlisted : Listed (s.setMem m) (sweep (fun e => gives name e.2) es) := by
    refine ⟨h.environ, hholds, fun e he => ?_⟩
    exact (h.entries e (mem_of_mem_sweep he)).congr le_rfl
      (by rw [Space.setMem_environ]; omega) hsame
  refine ⟨m, hrun, hsame, fun hafter => ?_, fun hsparse => ?_⟩
  · by_contra hsparse
    obtain ⟨e, he, hgives⟩ := exists_mem_sweep hsparse
    have hnone := (hlisted.getenv_null_iff hname).mp hafter.1 e he
    rw [hgives] at hnone
    cases hnone
  · rw [sweep_eq_filter hsparse] at hlisted
    refine ⟨(hlisted.getenv_null_iff hname).mpr fun e he => ?_, hlisted⟩
    simpa using (List.mem_filter.mp he).2

/-- A table at 4 and the string `A=` at 20. -/
def smallSpace (ws : List ℕ) : Space where
  mem := store (store (fun _ => 0) 4 (words (ws ++ [0]))) 20 [65, 61, 0]
  environ := 4
  lastEnviron := 0
  live := []
  answers := fun _ => (none, fun _ => 0)

theorem listed_smallSpace {n : ℕ} (hn : n < 4) :
    Listed (smallSpace (List.replicate n 20)) (List.replicate n (20, [65, 61])) := by
  refine ⟨show 4 ≠ 0 by decide, ?_, fun e he => ?_⟩
  · rw [List.map_replicate]
    exact (holds_store ..).store (by rw [length_words]; simp; omega)
  · obtain rfl := List.eq_of_mem_replicate he
    refine ⟨by decide, by decide, ⟨holds_store .., by decide⟩, ?_⟩
    simp only [Apart, List.length_replicate, smallSpace]
    omega

theorem unsetenv_removes_one :
    ∃ m, unsetenv 2 [65] (smallSpace [20]) = .ok ((), (smallSpace [20]).setMem m) ∧
      Returns ((smallSpace [20]).setMem m) [65] none := by
  have hname : 0 ∉ [(65 : UInt8)] := by decide
  have hfuel : (List.replicate 1 (20, [(65 : UInt8), 61])).length < 2 := by decide
  obtain ⟨m, hrun, -, hafter⟩ :=
    unsetenv_removes_iff (listed_smallSpace (n := 1) (by decide)) hname hfuel
  exact ⟨m, hrun, (hafter.mpr (List.IsChain.singleton _)).1⟩

/-- The name stands twice in a row: the second one is still found. -/
theorem unsetenv_keeps_second :
    Listed (smallSpace [20, 20]) [(20, [65, 61]), (20, [65, 61])] ∧
      ∃ s, unsetenv 3 [65] (smallSpace [20, 20]) = .ok ((), s) ∧
        getenv 3 [65] s = .ok (22, s) :=
  ⟨listed_smallSpace (n := 2) (by decide), _, rfl, rfl⟩

end Lainos.Libc
