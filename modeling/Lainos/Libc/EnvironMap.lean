import Lainos.Libc.Environ
import Lainos.Libc.Sequences

/-!
# The environment as a map

The array that `environ` points to shows a list of variables, and `getenv` finds the value
of each of them and of no other name.
-/

namespace Lainos.Libc

open Library

variable {brk a n p units x : ℕ} {s s' : Space} {m : Bytes} {k k' v name value : List UInt8}

/-- The bytes of a name. -/
def IsName (name : List UInt8) : Prop := eqSign ∉ name ∧ 0 ∉ name

instance (name : List UInt8) : Decidable (IsName name) :=
  inferInstanceAs (Decidable (_ ∧ _))

/-! ## Strings in memory -/

theorem string_unique (h : Holds m a (v ++ [0])) (h' : Holds m a (value ++ [0])) (hv : 0 ∉ v)
    (hvalue : 0 ∉ value) : v = value := by
  induction v generalizing a value with
  | nil =>
    cases value with
    | nil => rfl
    | cons c value => exact absurd (h.1 ▸ h'.1) fun heq => hvalue (by simp [heq])
  | cons b v ih =>
    cases value with
    | nil => exact absurd (h'.1 ▸ h.1) fun heq => hv (by simp [heq])
    | cons c value =>
      rw [List.mem_cons, not_or] at hv hvalue
      rw [show b = c from h.1.symm.trans h'.1, ih h.2 h'.2 hv.2 hvalue.2]

/-- The string of a variable is found under its name only. -/
theorem defines_iff (h : Holds m a (entry name value)) (hname : IsName name) (hk : IsName k) :
    defines m a k = true ↔ name = k := by
  rw [defines, Bool.and_eq_true, decide_eq_true_eq]
  induction name generalizing a k with
  | nil =>
    have hfirst : m a = eqSign := h.1
    cases k with
    | nil => simp [strncmp, hfirst]
    | cons c k =>
      have hc : m a ≠ c := fun heq => hk.1 (by simp [← hfirst, heq])
      simp [strncmp, hc]
  | cons d name ih =>
    have hfirst : m a = d := h.1
    have hd : m a ≠ 0 := fun heq => hname.2 (by simp [← hfirst, heq])
    cases k with
    | nil =>
      have heq : m a ≠ eqSign := fun heq => hname.1 (by simp [← hfirst, heq])
      simp [heq]
    | cons c k =>
      have hname' : IsName name := ⟨fun h => hname.1 (by simp [h]), fun h => hname.2 (by simp [h])⟩
      have hk' : IsName k := ⟨fun h => hk.1 (by simp [h]), fun h => hk.2 (by simp [h])⟩
      by_cases hc : d = c
      · have hrest := ih h.2 hname' hk'
        rw [Nat.add_right_comm, Nat.add_assoc] at hrest
        simp only [strncmp, hfirst, hc, List.length_cons, List.cons.injEq, true_and]
        rw [if_pos ⟨by rw [← hc, ← hfirst]; exact hd, trivial⟩]
        exact hrest
      · simp [strncmp, hfirst, hc]

theorem strlen_spec {fuel : ℕ} (h : Holds m a (v ++ [0])) (hv : 0 ∉ v) (hfuel : v.length < fuel) :
    strlen m fuel a s = .ok (v.length, s) := by
  obtain ⟨fuel, rfl⟩ : ∃ j, fuel = j + 1 := ⟨fuel - 1, by omega⟩
  induction v generalizing a fuel with
  | nil => rw [strlen, if_pos h.1]; rfl
  | cons b v ih =>
    rw [List.mem_cons, not_or] at hv
    rw [List.length_cons] at hfuel
    obtain ⟨fuel, rfl⟩ : ∃ j, fuel = j + 1 := ⟨fuel - 1, by omega⟩
    have hb : m a ≠ 0 := fun heq => hv.1 (by rw [← heq]; exact h.1)
    have hrest := ih h.2 hv.2 fuel (by omega)
    rw [strlen, if_neg hb, map_eq_pure_bind, Exec.bind_of_ok hrest]
    rfl

/-! ## Memory in use -/

/-- The `n` bytes from `a` on lie below the heap or in a block in use. -/
def InUse (brk : ℕ) (s : Space) (a n : ℕ) : Prop :=
  a + n ≤ brk ∨ ∃ b ∈ s.live, b.1 ≤ a ∧ a + n + unit ≤ b.1 + unit * b.2

def Apart (r q : ℕ × ℕ) : Prop := r.1 + r.2 ≤ q.1 ∨ q.1 + q.2 ≤ r.1

theorem vacant_bounds (h : s.vacant brk p units = true) :
    brk + unit ≤ p ∧ p + unit * units ≤ KERNBASE + unit := by
  simp only [Space.vacant, Bool.and_eq_true, decide_eq_true_eq] at h
  exact h.1

theorem InUse.held (h : InUse brk s a n) (hx : a ≤ x) (hx' : x < a + n) : s.held brk x = true := by
  rw [Space.held, Bool.or_eq_true, decide_eq_true_eq, List.any_eq_true]
  refine h.imp (fun h => by omega) ?_
  rintro ⟨b, hb, hlow, hhigh⟩
  refine ⟨b, hb, ?_⟩
  rw [Bool.and_eq_true, decide_eq_true_eq, decide_eq_true_eq]
  rw [unit] at *
  omega

theorem InUse.allotted {junk : Bytes} (h : InUse brk s a n) :
    InUse brk (s.allotted brk p units junk) a n :=
  h.imp_right fun ⟨b, hb, hbounds⟩ => ⟨b, List.mem_cons_of_mem _ hb, hbounds⟩

/-- A new block is apart from all memory in use. -/
theorem InUse.apart (h : InUse brk s a n) (hvacant : s.vacant brk p units = true) :
    a + n + unit ≤ p ∨ p + unit * units ≤ a := by
  simp only [Space.vacant, Bool.and_eq_true, decide_eq_true_eq, List.all_eq_true,
    Bool.or_eq_true] at hvacant
  obtain ⟨⟨hlow, -⟩, hlive⟩ := hvacant
  obtain h | ⟨b, hb, hb'⟩ := h
  · omega
  · have := hlive b hb
    omega

/-- The allocator leaves memory in use alone. -/
theorem InUse.allotted_mem {junk : Bytes} (h : InUse brk s a n)
    (hvacant : s.vacant brk p units = true) (hx : a ≤ x) (hx' : x < a + n) :
    (s.allotted brk p units junk).mem x = s.mem x := by
  have hout := h.apart hvacant
  have hp := (vacant_bounds hvacant).1
  rw [Space.allotted_mem, store_of_outside, Space.scribble, if_pos (h.held hx hx')]
  rw [length_wordBytes]
  rw [unit] at *
  omega

theorem inUse_new {junk : Bytes} (hn : n + unit ≤ unit * units) :
    InUse brk (s.allotted brk p units junk) p n :=
  .inr ⟨(p, units), List.mem_cons_self, le_rfl, by
    rw [Nat.add_assoc]
    exact Nat.add_le_add_left hn p⟩

/-- What `malloc` answers is vacant: it overlaps no block in use. -/
theorem Reach.vacant {base fuel nbytes : ℕ} {t t' : Arena} {live : List (ℕ × ℕ)} {rets : List ℕ}
    (h : Reach base t live rets) (hn : nbytes < 2 ^ 31 - 2 ^ 16)
    (hrun : Libc.malloc base fuel nbytes t = .ok (some p, t')) (hbrk : ∀ q ∈ t'.regions, brk ≤ q.1)
    (htop : t'.top ≤ KERNBASE) (hs : s.live = live.map fun q => (q.1, (t.mem (q.1 - unit)).size)) :
    s.vacant brk p (unitsFor nbytes) = true ∧ (t'.mem (p - unit)).size = unitsFor nbytes := by
  obtain ⟨fs, blocks, hkept⟩ := h.kept
  obtain ⟨q, fs', rfl, ht', -⟩ := hkept.malloc_block hn hrun
  have hmem : (q, unitsFor nbytes) ∈ fs' ++ (q, unitsFor nbytes) :: blocks := by simp
  obtain ⟨hsize, hpos⟩ := ht'.size _ hmem
  refine ⟨?_, by rwa [Nat.add_sub_cancel]⟩
  have hlow : brk ≤ q := by
    obtain ⟨g, hg, hle, -⟩ := (ht'.partition.exhaust q).mp ⟨_, hmem, le_rfl, by rw [unit]; omega⟩
    exact (hbrk g hg).trans hle
  have hhigh := (ht'.bounds hmem).2
  simp only [Space.vacant, Bool.and_eq_true, decide_eq_true_eq, List.all_eq_true, Bool.or_eq_true, hs,
    List.forall_mem_map]
  refine ⟨⟨by omega, by dsimp only at hhigh; omega⟩, fun r hr => ?_⟩
  obtain ⟨b, hb, hrb, -⟩ := exists_erase_of_forall₂ hkept.usable hr
  have hb' := (hkept.consistent hr).size b (List.mem_append_right fs hb)
  have hdisj : Disjoint (q, unitsFor nbytes) b := by
    have hpair := (List.pairwise_append.mp ht'.partition.disjoint).2.1
    exact List.rel_of_pairwise_cons hpair hb
  rw [hrb.1, Nat.add_sub_cancel, hb'.1]
  rw [Disjoint] at hdisj
  dsimp only at hdisj
  omega

/-! ## The variables -/

/-- A variable and the address of its string. -/
structure Var where
  addr : ℕ
  name : List UInt8
  value : List UInt8

namespace Var

def region (u : Var) : ℕ × ℕ := (u.addr, (entry u.name u.value).length)

structure Valid (brk : ℕ) (s : Space) (u : Var) : Prop where
  addr_pos : 0 < u.addr
  string : Holds s.mem u.addr (entry u.name u.value)
  inUse : InUse brk s u.region.1 u.region.2
  name : IsName u.name
  name_ne : u.name ≠ []
  value : 0 ∉ u.value

end Var

variable {vars : List Var} {u : Var}

/-- The table of a list of variables. -/
def table (vars : List Var) : List ℕ := vars.map Var.addr ++ [0]

/-- `environ` points to the table of the variables, whose strings have no byte in common
with one another or the table. -/
structure Shows (brk : ℕ) (s : Space) (vars : List Var) : Prop where
  brk_le : brk ≤ KERNBASE
  live : ∀ b ∈ s.live, b.1 + unit * b.2 ≤ KERNBASE + unit
  last : s.lastEnviron = 0 ∨ s.lastEnviron = s.environ
  none : s.environ = 0 → vars = []
  table : s.environ ≠ 0 → Holds s.mem s.environ (words (table vars)) ∧
    InUse brk s s.environ (4 * (vars.length + 1))
  valid : ∀ u ∈ vars, u.Valid brk s
  apart : (vars.map Var.region).Pairwise Apart
  apart_table : s.environ ≠ 0 → ∀ u ∈ vars, Apart u.region (s.environ, 4 * (vars.length + 1))
  names : (vars.map Var.name).Nodup
  answers : ∀ i, ∃ p, (s.answers i).1 = some p

/-- What `getenv` is expected to find. -/
def lookup (vars : List Var) (k : List UInt8) : Option (List UInt8) :=
  (vars.find? fun u => u.name = k).map Var.value

/-- `getenv(k)` returns a pointer to the string, or no pointer. -/
def Returns (s : Space) (k : List UInt8) : Option (List UInt8) → Prop
  | none => ∃ fuel, getenv fuel k s = .ok (0, s)
  | some v => ∃ fuel p, getenv fuel k s = .ok (p, s) ∧ p ≠ 0 ∧ Holds s.mem p (v ++ [0]) ∧ 0 ∉ v

theorem InUse.le_kernbase (h : InUse brk s a n) (hbrk : brk ≤ KERNBASE)
    (hlive : ∀ b ∈ s.live, b.1 + unit * b.2 ≤ KERNBASE + unit) : a + n ≤ KERNBASE := by
  obtain h | ⟨b, hb, -, hb'⟩ := h
  · omega
  · have := hlive b hb
    omega

theorem Shows.addr_lt (h : Shows brk s vars) (hu : u ∈ vars) : u.addr < 2 ^ 32 := by
  have := (h.valid u hu).inUse.le_kernbase h.brk_le h.live
  simp only [Var.region, KERNBASE] at this
  omega

theorem findEntry_mono {fuel j ep size : ℕ} {r : (ℕ × ℕ) × Space} (hj : fuel ≤ j)
    (h : findEntry m k fuel ep size s = .ok r) : findEntry m k j ep size s = .ok r := by
  induction fuel generalizing ep size j with
  | zero => cases h
  | succ fuel ih =>
    obtain ⟨j, rfl⟩ : ∃ i, j = i + 1 := ⟨j - 1, by omega⟩
    rw [findEntry] at h ⊢
    split_ifs at h ⊢
    · exact h
    · exact h
    · exact ih (by omega) h

theorem lookup_eq_none : lookup vars k = none ↔ ∀ u ∈ vars, u.name ≠ k := by
  simp [lookup]

theorem lookup_eq_some : lookup vars k = some v ↔ ∃ l u r, vars = l ++ u :: r ∧
    (∀ u' ∈ l, u'.name ≠ k) ∧ u.name = k ∧ u.value = v := by
  rw [lookup, Option.map_eq_some_iff]
  constructor
  · rintro ⟨u, hfind, rfl⟩
    obtain ⟨hu, l, r, rfl, hl⟩ := List.find?_eq_some_iff_append.mp hfind
    exact ⟨l, u, r, rfl, by simpa using hl, by simpa using hu, rfl⟩
  · rintro ⟨l, u, r, rfl, hl, hu, rfl⟩
    refine ⟨u, List.find?_eq_some_iff_append.mpr ⟨by simpa using hu, l, r, rfl, ?_⟩, rfl⟩
    simpa using hl

/-- The loop passes the variables of other names. -/
theorem findEntry_pass {fuel ep size : ℕ} {ws : List ℕ}
    (htable : Holds m ep (words (vars.map Var.addr ++ ws)))
    (hvars : ∀ u ∈ vars, 0 < u.addr ∧ u.addr < 2 ^ 32 ∧ Holds m u.addr (entry u.name u.value) ∧
      IsName u.name ∧ u.name ≠ k) (hk : IsName k) :
    findEntry m k (fuel + vars.length) ep size s =
      findEntry m k fuel (ep + 4 * vars.length) (size + vars.length) s := by
  induction vars generalizing ep size with
  | nil => rfl
  | cons u vars ih =>
    obtain ⟨hpos, hlt, hstring, hname, hne⟩ := hvars u List.mem_cons_self
    have hsplit : Holds m ep (wordBytes u.addr ++ words (vars.map Var.addr ++ ws)) := htable
    rw [holds_append, length_wordBytes] at hsplit
    have hword : word m ep = u.addr := hsplit.1.word hlt
    rw [List.length_cons, ← Nat.add_assoc, findEntry, hword, if_neg hpos.ne',
      if_neg fun h => hne ((defines_iff hstring hname hk).mp h),
      ih hsplit.2 fun u hu => hvars u (List.mem_cons_of_mem _ hu)]
    congr 1 <;> ring

namespace Shows

theorem passable (h : Shows brk s vars) {l : List Var} (hsub : ∀ u ∈ l, u ∈ vars)
    (hl : ∀ u ∈ l, u.name ≠ k) : ∀ u ∈ l, 0 < u.addr ∧ u.addr < 2 ^ 32 ∧
      Holds s.mem u.addr (entry u.name u.value) ∧ IsName u.name ∧ u.name ≠ k := by
  intro u hu
  have hvalid := h.valid u (hsub u hu)
  exact ⟨hvalid.addr_pos, h.addr_lt (hsub u hu), hvalid.string, hvalid.name, hl u hu⟩

/-- The loop for a name that has no value. -/
theorem findEntry_missing {fuel : ℕ} (h : Shows brk s vars) (henv : s.environ ≠ 0) (hk : IsName k)
    (hmissing : ∀ u ∈ vars, u.name ≠ k) (hfuel : vars.length < fuel) :
    findEntry s.mem k fuel s.environ 0 s = .ok ((s.environ + 4 * vars.length, vars.length), s) ∧
      word s.mem (s.environ + 4 * vars.length) = 0 := by
  obtain ⟨fuel, rfl⟩ : ∃ j, fuel = j + 1 + vars.length := ⟨fuel - vars.length - 1, by omega⟩
  have htable := (h.table henv).1
  have hword : word s.mem (s.environ + 4 * vars.length) = 0 := by
    have hsplit := htable
    rw [Libc.table, words_append, holds_append, length_words, List.length_map] at hsplit
    exact hsplit.2.word (by norm_num)
  rw [findEntry_pass htable (h.passable (fun _ hu => hu) hmissing) hk, findEntry, if_pos hword,
    Nat.zero_add]
  exact ⟨rfl, hword⟩

/-- The loop for a name that has a value. -/
theorem findEntry_found {fuel : ℕ} {l r : List Var} (h : Shows brk s (l ++ u :: r))
    (henv : s.environ ≠ 0) (hl : ∀ u' ∈ l, u'.name ≠ u.name) (hfuel : l.length < fuel) :
    findEntry s.mem u.name fuel s.environ 0 s = .ok ((s.environ + 4 * l.length, l.length), s) ∧
      word s.mem (s.environ + 4 * l.length) = u.addr := by
  obtain ⟨fuel, rfl⟩ : ∃ j, fuel = j + 1 + l.length := ⟨fuel - l.length - 1, by omega⟩
  have hu := h.valid u (by simp)
  have htable := (h.table henv).1
  rw [Libc.table, List.map_append, List.append_assoc] at htable
  have hword : word s.mem (s.environ + 4 * l.length) = u.addr := by
    have hsplit := htable
    rw [words_append, holds_append, length_words, List.length_map] at hsplit
    have hrest : Holds s.mem (s.environ + 4 * l.length)
      (wordBytes u.addr ++ words (r.map Var.addr ++ [0])) := hsplit.2
    exact (holds_append.mp hrest).1.word (h.addr_lt (by simp))
  rw [findEntry_pass htable (h.passable (fun u hu => List.mem_append_left _ hu) hl) hu.name,
    findEntry, hword, if_neg hu.addr_pos.ne', if_pos ((defines_iff hu.string hu.name hu.name).mpr rfl),
    Nat.zero_add]
  exact ⟨rfl, rfl⟩

/-- `getenv` finds the value of the variable. -/
theorem getenv_lookup (h : Shows brk s vars) (hk : IsName k) : Returns s k (lookup vars k) := by
  cases hlookup : lookup vars k with
  | none =>
    refine ⟨vars.length + 1, ?_⟩
    rw [getenv, Exec.bind_of_ok Exec.get_run]
    by_cases henv : s.environ = 0
    · rw [if_pos henv]
      rfl
    · obtain ⟨hrun, hword⟩ :=
        h.findEntry_missing henv hk (lookup_eq_none.mp hlookup) (Nat.lt_succ_self _)
      rw [if_neg henv, Exec.bind_of_ok hrun]
      dsimp only
      rw [if_pos hword]
      rfl
  | some v =>
    obtain ⟨l, u, r, rfl, hl, rfl, rfl⟩ := lookup_eq_some.mp hlookup
    have hu := h.valid u (by simp)
    have henv : s.environ ≠ 0 := fun henv => by simpa using h.none henv
    obtain ⟨hrun, hword⟩ := h.findEntry_found henv hl (Nat.lt_succ_self _)
    refine ⟨l.length + 1, u.addr + u.name.length + 1, ?_, by omega, ?_, hu.value⟩
    · rw [getenv, Exec.bind_of_ok Exec.get_run, if_neg henv, Exec.bind_of_ok hrun]
      dsimp only
      rw [hword, if_neg hu.addr_pos.ne']
      rfl
    · have hstring := hu.string
      rw [entry, holds_append] at hstring
      exact hstring.2.2

end Shows

theorem getenv_mono {fuel j : ℕ} {r : ℕ × Space} (hj : fuel ≤ j) (h : getenv fuel k s = .ok r) :
    getenv j k s = .ok r := by
  rw [getenv, Exec.bind_of_ok Exec.get_run] at h ⊢
  split_ifs at h ⊢
  · exact h
  · obtain ⟨e, t, hfind, hrest⟩ := Exec.bind_eq_ok.mp h
    rw [Exec.bind_of_ok (findEntry_mono hj hfind)]
    exact hrest

theorem getenv_unique {fuel j q : ℕ} (h : getenv fuel k s = .ok (p, s))
    (h' : getenv j k s = .ok (q, s)) : p = q := by
  have hmax := getenv_mono (le_max_left fuel j) h
  rw [getenv_mono (le_max_right fuel j) h'] at hmax
  cases hmax
  rfl

theorem Returns.unique {w w' : Option (List UInt8)} (h : Returns s k w) (h' : Returns s k w') :
    w = w' := by
  cases w with
  | none =>
    obtain ⟨fuel, h⟩ := h
    cases w' with
    | none => rfl
    | some v' =>
      obtain ⟨fuel', p, h', hp, -⟩ := h'
      exact absurd (getenv_unique h' h) hp
  | some v =>
    obtain ⟨fuel, p, h, hp, hv, hv0⟩ := h
    cases w' with
    | none =>
      obtain ⟨fuel', h'⟩ := h'
      exact absurd (getenv_unique h h') hp
    | some v' =>
      obtain ⟨fuel', p', h', -, hv', hv0'⟩ := h'
      obtain rfl := getenv_unique h h'
      rw [string_unique hv hv' hv0 hv0']

theorem Shows.returns_iff {w : Option (List UInt8)} (h : Shows brk s vars) (hk : IsName k) :
    Returns s k w ↔ w = lookup vars k :=
  ⟨fun hw => hw.unique (h.getenv_lookup hk), fun hw => hw ▸ h.getenv_lookup hk⟩

end Lainos.Libc
