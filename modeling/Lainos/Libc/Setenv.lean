import Lainos.Libc.EnvironMap

/-!
# Setting variables

Each way through `setenv` leaves an environment that shows the right variables, except the
one that extends its own array with `realloc`.
-/

namespace Lainos.Libc

open Library

variable {brk a n p units x : ℕ} {s s' : Space} {m : Bytes} {k v : List UInt8} {vars : List Var}
  {u : Var}

/-! ## Adding a variable -/

theorem Shows.allot (h : Shows brk s vars) (n : ℕ) : Exec.Ends (allot brk n)
    (fun p t => s.vacant brk p (unitsFor n) = true ∧
      ∃ junk, t = s.allotted brk p (unitsFor n) junk) (· = .answer) s := by
  obtain ⟨p, hp⟩ := h.answers 0
  obtain ⟨junk, hanswer⟩ : ∃ junk, s.answers 0 = (some p, junk) := ⟨(s.answers 0).2, by rw [← hp]⟩
  rw [Libc.allot, Exec.ends_bind, Exec.ends_get, hanswer]
  dsimp only
  by_cases hvacant : s.vacant brk p (unitsFor n) = true
  · rw [if_pos hvacant]
    exact ⟨hvacant, junk, rfl⟩
  · rw [if_neg hvacant]
    rfl

theorem add_unit_le_unitsFor (hn : n < 2 ^ 32 - unit) : n + unit ≤ unit * unitsFor n := by
  simp only [unitsFor, unit] at *
  omega

/-- The variables do not depend on other memory. -/
theorem Shows.congr (h : Shows brk s vars) (henv : s'.environ = s.environ)
    (hlast : s'.lastEnviron = s.lastEnviron) (hsub : ∀ b ∈ s.live, b ∈ s'.live)
    (hlive : ∀ b ∈ s'.live, b.1 + unit * b.2 ≤ KERNBASE + unit)
    (hanswers : ∀ i, ∃ p, (s'.answers i).1 = some p)
    (hmem : ∀ a n, InUse brk s a n → ((a, n) ∈ vars.map Var.region ∨
      s.environ ≠ 0 ∧ (a, n) = (s.environ, 4 * (vars.length + 1))) →
      ∀ x, a ≤ x → x < a + n → s'.mem x = s.mem x) : Shows brk s' vars := by
  have huse : ∀ a n, InUse brk s a n → InUse brk s' a n := fun a n ha =>
    ha.imp_right fun ⟨b, hb, hbounds⟩ => ⟨b, hsub b hb, hbounds⟩
  refine ⟨h.brk_le, hlive, by rw [henv, hlast]; exact h.last, fun h0 => h.none (henv ▸ h0),
    fun h0 => ?_, fun u hu => ?_, h.apart, fun h0 => ?_, h.names, hanswers⟩
  · rw [henv] at h0 ⊢
    obtain ⟨htable, hin⟩ := h.table h0
    refine ⟨htable.congr fun x hle hlt => hmem _ _ hin (.inr ⟨h0, rfl⟩) x hle ?_, huse _ _ hin⟩
    simpa [Libc.table] using hlt
  · have hu' := h.valid u hu
    refine ⟨hu'.addr_pos, hu'.string.congr fun x hle hlt => ?_, huse _ _ hu'.inUse, hu'.name,
      hu'.name_ne, hu'.value⟩
    exact hmem _ _ hu'.inUse (.inl (List.mem_map_of_mem hu)) x hle hlt
  · rw [henv] at h0 ⊢
    exact h.apart_table h0

theorem Shows.allotted {junk : Bytes} (h : Shows brk s vars)
    (hvacant : s.vacant brk p units = true) : Shows brk (s.allotted brk p units junk) vars := by
  refine h.congr rfl rfl (fun b hb => List.mem_cons_of_mem _ hb) (fun b hb => ?_)
    (fun i => h.answers (i + 1)) fun a n ha _ x hle hlt => ha.allotted_mem hvacant hle hlt
  obtain rfl | hb := List.mem_cons.mp hb
  · exact (vacant_bounds hvacant).2
  · exact h.live b hb

/-- The memory after the stores of `addEntry`, with the new array at `a` and the new string
at `p`. -/
def added (m : Bytes) (a p : ℕ) (addrs : List ℕ) (e : List UInt8) : Bytes :=
  store (store (store (store m (a + 4 * addrs.length) (wordBytes p)) a (words addrs)) p e)
    (a + 4 * (addrs.length + 1)) (wordBytes 0)

theorem added_of_apart {addrs : List ℕ} {e : List UInt8} (ha : Apart (x, 1) (a, 4 * (addrs.length + 2)))
    (hp : Apart (x, 1) (p, e.length)) : added m a p addrs e x = m x := by
  simp only [Apart] at ha hp
  rw [added, store_of_outside (by rw [length_wordBytes]; omega), store_of_outside (by omega),
    store_of_outside (by rw [length_words]; omega),
    store_of_outside (by rw [length_wordBytes]; omega)]

theorem holds_added_string {addrs : List ℕ} {e : List UInt8}
    (h : Apart (a, 4 * (addrs.length + 2)) (p, e.length)) : Holds (added m a p addrs e) p e := by
  simp only [Apart] at h
  exact (holds_store _ p e).store (by rw [length_wordBytes]; omega)

theorem holds_added_table {addrs : List ℕ} {e : List UInt8}
    (h : Apart (a, 4 * (addrs.length + 2)) (p, e.length)) :
    Holds (added m a p addrs e) a (words (addrs ++ [p] ++ [0])) := by
  simp only [Apart] at h
  rw [words_append, words_append, List.append_assoc, holds_append, holds_append, length_words]
  refine ⟨?_, ?_, ?_⟩
  · refine ((holds_store _ a (words addrs)).store ?_).store ?_
    · rw [length_words]
      omega
    · rw [length_words]
      omega
  · refine (((holds_store _ _ (wordBytes p)).store ?_).store ?_).store ?_
    · rw [length_words]
      omega
    · rw [length_wordBytes]
      omega
    · rw [length_wordBytes]
      omega
  · have hlen : a + 4 * addrs.length + (words [p]).length = a + 4 * (addrs.length + 1) := by
      rw [length_words, List.length_singleton]
      ring
    rw [hlen]
    exact holds_store _ _ (wordBytes 0)

/-- A new table and a new string in memory that was not in use. -/
theorem Shows.add (h : Shows brk s vars) (ha0 : 0 < a) (hp0 : 0 < p)
    (ha : InUse brk s a (4 * (vars.length + 2))) (hp : InUse brk s p (entry k v).length)
    (hap : Apart (a, 4 * (vars.length + 2)) (p, (entry k v).length))
    (hapart : ∀ u ∈ vars, Apart u.region (a, 4 * (vars.length + 2)) ∧
      Apart u.region (p, (entry k v).length))
    (hk : IsName k) (hk0 : k ≠ []) (hv : 0 ∉ v) (hmissing : ∀ u ∈ vars, u.name ≠ k) :
    Shows brk ((s.setMem (added s.mem a p (vars.map Var.addr) (entry k v))).setEnviron a)
      (vars ++ [⟨p, k, v⟩]) := by
  have hlen : (vars.map Var.addr).length = vars.length := List.length_map _
  refine ⟨h.brk_le, h.live, .inr rfl, fun h0 => absurd h0 ha0.ne', fun _ => ⟨?_, ?_⟩, fun u hu => ?_,
    ?_, fun _ u hu => ?_, ?_, h.answers⟩
  · rw [Libc.table, List.map_append]
    exact holds_added_table (by rw [hlen]; exact hap)
  · rw [List.length_append]
    exact ha
  · obtain hu | hu := List.mem_append.mp hu
    · have hu' := h.valid u hu
      refine ⟨hu'.addr_pos, hu'.string.congr fun x hle hlt => ?_, hu'.inUse, hu'.name, hu'.name_ne,
        hu'.value⟩
      obtain ⟨hua, hup⟩ := hapart u hu
      simp only [Apart, Var.region] at hua hup
      refine added_of_apart ?_ ?_
      · simp only [Apart, hlen]
        omega
      · simp only [Apart]
        omega
    · obtain rfl := List.mem_singleton.mp hu
      exact ⟨hp0, holds_added_string (by rw [hlen]; exact hap), hp, hk, hk0, hv⟩
  · rw [List.map_append, List.pairwise_append]
    refine ⟨h.apart, List.pairwise_singleton _ _, fun r hr q hq => ?_⟩
    obtain ⟨u, hu, rfl⟩ := List.mem_map.mp hr
    obtain rfl := List.mem_singleton.mp hq
    exact (hapart u hu).2
  · rw [List.length_append]
    obtain hu | hu := List.mem_append.mp hu
    · exact (hapart u hu).1
    · obtain rfl := List.mem_singleton.mp hu
      exact hap.symm
  · rw [List.map_append, List.nodup_append]
    refine ⟨h.names, List.nodup_singleton _, fun y hy z hz => ?_⟩
    obtain ⟨u, hu, rfl⟩ := List.mem_map.mp hy
    obtain rfl := List.mem_singleton.mp hz
    exact hmissing u hu

theorem length_entry (k v : List UInt8) : (entry k v).length = k.length + 1 + (v.length + 1) := by
  simp [entry]
  ring

theorem Shows.length_lt (h : Shows brk s vars) : 4 * (vars.length + 1) ≤ KERNBASE := by
  by_cases henv : s.environ = 0
  · rw [h.none henv, KERNBASE]
    decide
  · have := (h.table henv).2.le_kernbase h.brk_le h.live
    omega

/-- The pointers of the old array are copied unless there was none. -/
theorem Shows.copy_table (h : Shows brk s vars) (hext : ¬ (s.environ = s.lastEnviron ∧ s.environ ≠ 0))
    (ha : s.environ ≠ 0 → Apart (s.environ, 4 * (vars.length + 1)) (a, 4 * (vars.length + 2))) :
    (if s.environ ≠ s.lastEnviron then copy a s.environ (vars.length * 4)
        (store s.mem (a + 4 * vars.length) (wordBytes p))
      else store s.mem (a + 4 * vars.length) (wordBytes p)) =
      store (store s.mem (a + 4 * vars.length) (wordBytes p)) a (words (vars.map Var.addr)) := by
  by_cases henv : s.environ = 0
  · have hlast : s.lastEnviron = 0 := h.last.elim id fun heq => heq.trans henv
    rw [if_neg (by rw [henv, hlast]; exact not_not.mpr rfl), h.none henv]
    rfl
  · have hne : s.environ ≠ s.lastEnviron := fun heq => hext ⟨heq, henv⟩
    have hapart := ha henv
    simp only [Apart] at hapart
    have hlen : vars.length * 4 = (words (vars.map Var.addr)).length := by
      rw [length_words, List.length_map, Nat.mul_comm]
    have htable := (h.table henv).1
    rw [Libc.table, words_append, holds_append] at htable
    rw [if_pos hne, hlen]
    refine copy_eq_store (htable.1.store ?_) ?_
    · rw [← hlen, length_wordBytes]
      omega
    · rw [← hlen]
      omega

theorem addEntry_spec (h : Shows brk s vars) (hext : ¬ (s.environ = s.lastEnviron ∧ s.environ ≠ 0))
    (hk : IsName k) (hk0 : k ≠ []) (hv : 0 ∉ v) (hlen : k.length + v.length < 2 ^ 31)
    (hmissing : ∀ u ∈ vars, u.name ≠ k) :
    Exec.Ends (addEntry brk vars.length k v)
      (fun r t => r = 0 ∧ ∃ p, Shows brk t (vars ++ [⟨p, k, v⟩])) (· = .answer) s := by
  have hcount := h.length_lt
  have hsize : 4 * (vars.length + 2) + unit ≤ unit * unitsFor ((vars.length + 2) * 4) := by
    rw [Nat.mul_comm]
    refine add_unit_le_unitsFor ?_
    simp only [KERNBASE, unit] at *
    omega
  have hbytes : (entry k v).length + unit ≤ unit * unitsFor (k.length + 1 + (v.length + 1)) := by
    rw [length_entry]
    refine add_unit_le_unitsFor ?_
    simp only [unit]
    omega
  rw [addEntry, Exec.ends_bind, Exec.ends_get, if_neg hext, Exec.ends_bind]
  refine (h.allot _).mono ?_ fun _ he => he
  rintro a _ ⟨hvacant, junk, rfl⟩
  have h₁ : Shows brk (s.allotted brk a _ junk) vars := h.allotted hvacant
  have ha0 : 0 < a := by
    have := (vacant_bounds hvacant).1
    rw [unit] at this
    omega
  dsimp only
  rw [if_neg ha0.ne', Exec.ends_bind]
  refine (h₁.allot _).mono ?_ fun _ he => he
  rintro p _ ⟨hvacant', junk', rfl⟩
  have h₂ : Shows brk ((s.allotted brk a _ junk).allotted brk p _ junk') vars := h₁.allotted hvacant'
  have hina : InUse brk (s.allotted brk a _ junk) a (4 * (vars.length + 2)) := inUse_new hsize
  have hp0 : 0 < p := by
    have := (vacant_bounds hvacant').1
    rw [unit] at this
    omega
  have hapart : ∀ b n, InUse brk s b n → Apart (b, n) (a, 4 * (vars.length + 2)) ∧
      Apart (b, n) (p, (entry k v).length) := by
    intro b n hb
    have hba := hb.apart hvacant
    have hbp := hb.allotted.apart hvacant'
    simp only [Apart]
    omega
  have hap : Apart (a, 4 * (vars.length + 2)) (p, (entry k v).length) := by
    have := hina.apart hvacant'
    simp only [Apart]
    omega
  have hcopy := h₂.copy_table hext (p := p) fun henv => (hapart _ _ (h.table henv).2).1
  have hadd := h₂.add ha0 hp0 hina.allotted (inUse_new hbytes) hap
    (fun u hu => hapart _ _ (h.valid u hu).inUse) hk hk0 hv hmissing
  refine Exec.ends_bind.mpr ?_
  rw [Exec.ends_modify, if_neg hp0.ne']
  generalize (s.allotted brk a _ junk).allotted brk p _ junk' = t at hcopy hadd
  simp only [Exec.ends_bind, Exec.ends_modify, Space.setMem_environ, Space.setMem_lastEnviron]
  refine ⟨rfl, p, ?_⟩
  convert hadd using 1
  rw [added, List.length_map, ← hcopy]
  split_ifs <;> rfl

/-! ## Replacing a value -/

section Replace

variable {l r : List Var} {w : Var}

/-- One variable gets another string. -/
theorem Shows.replace (h : Shows brk s (l ++ u :: r)) (hname : w.name = u.name)
    (hw : w.Valid brk (s.setMem m)) (henv : s.environ ≠ 0)
    (htable : Holds m s.environ (words (Libc.table (l ++ w :: r))))
    (hothers : ∀ u' ∈ l ++ r, Apart u'.region w.region)
    (hself : Apart w.region (s.environ, 4 * ((l ++ u :: r).length + 1)))
    (hmem : ∀ u' ∈ l ++ r, ∀ x, u'.region.1 ≤ x → x < u'.region.1 + u'.region.2 → m x = s.mem x) :
    Shows brk (s.setMem m) (l ++ w :: r) := by
  have hlen : (l ++ w :: r).length = (l ++ u :: r).length := by simp
  have hcases : ∀ u' ∈ l ++ w :: r, u' = w ∨ u' ∈ l ++ r ∧ u' ∈ l ++ u :: r := by
    intro u' hu'
    simp only [List.mem_append, List.mem_cons] at hu' ⊢
    tauto
  refine ⟨h.brk_le, h.live, h.last, fun h0 => absurd h0 henv, fun _ => ⟨htable, ?_⟩,
    fun u' hu' => ?_, ?_, fun _ u' hu' => ?_, ?_, h.answers⟩
  · rw [hlen]
    exact (h.table henv).2
  · obtain rfl | ⟨hu', hold⟩ := hcases u' hu'
    · exact hw
    · have hvalid := h.valid u' hold
      exact ⟨hvalid.addr_pos, hvalid.string.congr fun x hle hlt => hmem u' hu' x hle hlt,
        hvalid.inUse, hvalid.name, hvalid.name_ne, hvalid.value⟩
  · have hapart := h.apart
    rw [List.map_append, List.map_cons, List.pairwise_append, List.pairwise_cons] at hapart ⊢
    obtain ⟨hl, ⟨-, hr⟩, hlr⟩ := hapart
    refine ⟨hl, ⟨fun q hq => ?_, hr⟩, fun q hq q' hq' => ?_⟩
    · obtain ⟨u', hu', rfl⟩ := List.mem_map.mp hq
      exact (hothers u' (List.mem_append_right l hu')).symm
    · obtain rfl | hq' := List.mem_cons.mp hq'
      · obtain ⟨u', hu', rfl⟩ := List.mem_map.mp hq
        exact hothers u' (List.mem_append_left r hu')
      · exact hlr q hq q' (List.mem_cons_of_mem _ hq')
  · rw [hlen]
    obtain rfl | ⟨-, hold⟩ := hcases u' hu'
    · exact hself
    · exact h.apart_table henv u' hold
  · have hnames := h.names
    rw [List.map_append, List.map_cons] at hnames ⊢
    rwa [hname]

/-- The strings of the other variables are apart from this one. -/
theorem Shows.apart_of_mem (h : Shows brk s (l ++ u :: r)) {u' : Var} (hu' : u' ∈ l ++ r) :
    Apart u'.region u.region := by
  have hapart := h.apart
  rw [List.map_append, List.map_cons, List.pairwise_append, List.pairwise_cons] at hapart
  obtain ⟨-, ⟨hur, -⟩, hlu⟩ := hapart
  obtain hu' | hu' := List.mem_append.mp hu'
  · exact hlu _ (List.mem_map_of_mem hu') _ List.mem_cons_self
  · exact (hur _ (List.mem_map_of_mem hu')).symm

/-- The new string takes the place of the old one. -/
theorem Shows.overwrite (h : Shows brk s (l ++ u :: r)) (hv : 0 ∉ v)
    (hlen : (entry u.name v).length ≤ (entry u.name u.value).length) :
    Shows brk (s.setMem (store s.mem u.addr (entry u.name v))) (l ++ ⟨u.addr, u.name, v⟩ :: r) := by
  have hu := h.valid u (by simp)
  have henv : s.environ ≠ 0 := fun henv => by simpa using h.none henv
  have hself := h.apart_table henv u (by simp)
  simp only [Apart, Var.region] at hself
  refine h.replace rfl ⟨hu.addr_pos, holds_store _ _ _, ?_, hu.name, hu.name_ne, hv⟩ henv ?_
    (fun u' hu' => ?_) ?_ fun u' hu' x hle hlt => ?_
  · refine hu.inUse.imp (fun hle => ?_) ?_
    · exact (Nat.add_le_add_left hlen _).trans hle
    · rintro ⟨b, hb, hb'⟩
      refine ⟨b, hb, hb'.1, ?_⟩
      simp only [Var.region] at hb' ⊢
      omega
  · have htable := (h.table henv).1
    have hsame : Libc.table (l ++ ⟨u.addr, u.name, v⟩ :: r) = Libc.table (l ++ u :: r) := by
      simp [Libc.table]
    rw [hsame]
    refine htable.store ?_
    rw [length_words, Libc.table, List.length_append, List.length_map, List.length_singleton]
    omega
  · have := h.apart_of_mem hu'
    simp only [Apart, Var.region] at this ⊢
    omega
  · simp only [Apart, Var.region]
    omega
  · have := h.apart_of_mem hu'
    simp only [Apart, Var.region] at this hle hlt
    exact store_of_outside (by omega)

/-- The pointer to the old string is replaced by one to a new string. -/
theorem Shows.move (h : Shows brk s (l ++ u :: r)) (hp0 : 0 < p)
    (hp : InUse brk s p (entry u.name v).length)
    (hapart : ∀ u' ∈ l ++ u :: r, Apart u'.region (p, (entry u.name v).length))
    (htable : Apart (s.environ, 4 * ((l ++ u :: r).length + 1)) (p, (entry u.name v).length))
    (hv : 0 ∉ v) : Shows brk (s.setMem (store (store s.mem (s.environ + 4 * l.length) (wordBytes p)) p
      (entry u.name v))) (l ++ ⟨p, u.name, v⟩ :: r) := by
  have hu := h.valid u (by simp)
  have henv : s.environ ≠ 0 := fun henv => by simpa using h.none henv
  refine h.replace rfl ⟨hp0, holds_store _ _ _, hp, hu.name, hu.name_ne, hv⟩ henv ?_
    (fun u' hu' => hapart u' ?_) htable.symm fun u' hu' x hle hlt => ?_
  · have hold := (h.table henv).1
    have hsplit : ∀ q, words (Libc.table (l ++ ⟨q, u.name, v⟩ :: r)) =
        words (l.map Var.addr) ++ (wordBytes q ++ words (Libc.table r)) := by
      intro q
      rw [Libc.table, List.map_append, List.append_assoc, words_append]
      rfl
    have hsplit' : words (Libc.table (l ++ u :: r)) =
        words (l.map Var.addr) ++ (wordBytes u.addr ++ words (Libc.table r)) := by
      rw [Libc.table, List.map_append, List.append_assoc, words_append]
      rfl
    have hlen : (words (Libc.table r)).length = 4 * (r.length + 1) := by simp [Libc.table]
    simp only [Apart, List.length_append, List.length_cons] at htable
    rw [hsplit', holds_append, holds_append, length_words, List.length_map,
      length_wordBytes] at hold
    rw [hsplit, holds_append, holds_append, length_words, List.length_map, length_wordBytes]
    refine ⟨(hold.1.store ?_).store ?_, (holds_store _ _ _).store ?_, (hold.2.2.store ?_).store ?_⟩
    · rw [length_words, List.length_map]
      omega
    · rw [length_words, List.length_map]
      omega
    · rw [length_wordBytes]
      omega
    · rw [length_wordBytes]
      omega
    · rw [hlen]
      omega
  · simp only [List.mem_append, List.mem_cons] at hu' ⊢
    tauto
  · have hmem : u' ∈ l ++ u :: r := by
      simp only [List.mem_append, List.mem_cons] at hu' ⊢
      tauto
    have hup := hapart u' hmem
    have hut := h.apart_table henv u' hmem
    simp only [Apart, List.length_append, List.length_cons] at hup hut
    rw [store_of_outside (by omega), store_of_outside (by rw [length_wordBytes]; omega)]

theorem replaceEntry_spec {fuel : ℕ} (h : Shows brk s (l ++ u :: r)) (hv : 0 ∉ v)
    (hlen : u.name.length + v.length < 2 ^ 31) (hfuel : (entry u.name u.value).length ≤ fuel)
    (hword : word s.mem (s.environ + 4 * l.length) = u.addr) :
    Exec.Ends (replaceEntry brk fuel (s.environ + 4 * l.length) u.name v)
      (fun r' t => r' = 0 ∧ ∃ p, Shows brk t (l ++ ⟨p, u.name, v⟩ :: r)) (· = .answer) s := by
  have hu := h.valid u (by simp)
  have henv : s.environ ≠ 0 := fun henv => by simpa using h.none henv
  have hstring : Holds s.mem u.addr ((u.name ++ eqSign :: u.value) ++ [0]) := by
    simpa [entry] using hu.string
  have hnull : 0 ∉ u.name ++ eqSign :: u.value := by
    simp only [List.mem_append, List.mem_cons, not_or]
    exact ⟨hu.name.2, by decide, hu.value⟩
  have hstrlen : strlen s.mem fuel u.addr s = .ok ((u.name ++ eqSign :: u.value).length, s) :=
    strlen_spec hstring hnull (by simp [entry] at hfuel ⊢; omega)
  have hoff : (entry u.name u.value).length = (u.name ++ eqSign :: u.value).length + 1 := by
    simp [entry]
    ring
  rw [replaceEntry, Exec.ends_bind, Exec.ends_get, hword, Exec.ends_bind, Exec.ends_of_ok hstrlen,
    ← hoff, ← length_entry]
  by_cases hlong : (entry u.name u.value).length < (entry u.name v).length
  · rw [if_pos hlong, Exec.ends_bind]
    refine (h.allot _).mono ?_ fun _ he => he
    rintro p _ ⟨hvacant, junk, rfl⟩
    have h₁ : Shows brk (s.allotted brk p _ junk) (l ++ u :: r) := h.allotted hvacant
    have hbytes : (entry u.name v).length + unit ≤ unit * unitsFor (entry u.name v).length := by
      refine add_unit_le_unitsFor ?_
      rw [length_entry, unit]
      omega
    have hbounds := vacant_bounds hvacant
    rw [KERNBASE, unit] at hbounds
    have hp0 : 0 < p := by omega
    have hapart : ∀ b n, InUse brk s b n → Apart (b, n) (p, (entry u.name v).length) := by
      intro b n hb
      have := hb.apart hvacant
      simp only [Apart]
      omega
    have hmove := h₁.move hp0 (inUse_new hbytes)
      (fun u' hu' => hapart _ _ (h.valid u' hu').inUse) (hapart _ _ (h.table henv).2) hv
    rw [if_neg hp0.ne']
    simp only [Exec.ends_bind, Exec.ends_modify]
    refine ⟨rfl, p, ?_⟩
    simp only [Space.setMem_mem]
    rw [word_store _ _ (by omega)]
    exact hmove
  · rw [if_neg hlong]
    simp only [Exec.ends_bind, Exec.ends_modify, hword]
    exact ⟨rfl, u.addr, h.overwrite hv (by omega)⟩

end Replace

/-! ## The law of a map -/

/-- The call has to extend an array that an earlier call allocated. -/
def Extends (s : Space) (k : List UInt8) : Prop :=
  s.environ = s.lastEnviron ∧ s.environ ≠ 0 ∧ Returns s k none

/-- The arguments of a call: strings in the memory of the program, and the first one a
name. -/
structure Args (k v : List UInt8) : Prop where
  name : IsName k
  name_ne : k ≠ []
  value : 0 ∉ v
  length : k.length + v.length < 2 ^ 31

/-- What `setenv(k, v, overwrite)` has to do between `s` and `t`. -/
structure Law (k v : List UInt8) (overwrite : Bool) (s t : Space) : Prop where
  set : overwrite = true ∨ Returns s k none → Returns t k (some v)
  keep : overwrite = false → ∀ w, Returns s k (some w) → Returns t k (some w)
  others : ∀ k', IsName k' → k' ≠ k → ∀ w, Returns s k' w ↔ Returns t k' w

theorem lookup_append_of_ne {k' : List UInt8} (hk : k' ≠ k) :
    lookup (vars ++ [⟨p, k, v⟩]) k' = lookup vars k' := by
  simp [lookup, List.find?_append, hk.symm]

theorem lookup_append_self (h : ∀ u ∈ vars, u.name ≠ k) :
    lookup (vars ++ [⟨p, k, v⟩]) k = some v :=
  lookup_eq_some.mpr ⟨vars, _, [], rfl, h, rfl, rfl⟩

theorem lookup_replace_of_ne {l r : List Var} {k' : List UInt8} (hk : k' ≠ u.name) :
    lookup (l ++ ⟨p, u.name, v⟩ :: r) k' = lookup (l ++ u :: r) k' := by
  simp [lookup, List.find?_append, List.find?_cons, hk.symm]

theorem lookup_replace_self {l r : List Var} (h : ∀ u' ∈ l, u'.name ≠ u.name) :
    lookup (l ++ ⟨p, u.name, v⟩ :: r) u.name = some v :=
  lookup_eq_some.mpr ⟨l, _, r, rfl, h, rfl, rfl⟩

/-- The law in terms of the variables shown. -/
theorem Law.of_shows {overwrite : Bool} {vars' : List Var} (h : Shows brk s vars)
    (h' : Shows brk s' vars') (hk : IsName k)
    (hset : overwrite = true ∨ lookup vars k = none → lookup vars' k = some v)
    (hkeep : overwrite = false → ∀ w, lookup vars k = some w → lookup vars' k = some w)
    (hothers : ∀ k' ≠ k, lookup vars' k' = lookup vars k') : Law k v overwrite s s' := by
  refine ⟨fun hcase => ?_, fun how w hw => ?_, fun k' hk' hne w => ?_⟩
  · rw [h.returns_iff hk] at hcase
    rw [h'.returns_iff hk, hset (hcase.imp_right Eq.symm)]
  · rw [h.returns_iff hk] at hw
    rw [h'.returns_iff hk, hkeep how w hw.symm]
  · rw [h.returns_iff hk', h'.returns_iff hk', hothers k' hne]

theorem setenv_spec {fuel : ℕ} {overwrite : Bool} (h : Shows brk s vars) (hargs : Args k v)
    (hext : ¬ Extends s k) (hfuel : KERNBASE ≤ fuel) :
    Exec.Ends (setenv brk fuel k v overwrite)
      (fun r t => r = 0 ∧ (∃ vars', Shows brk t vars') ∧ Law k v overwrite s t) (· = .answer) s := by
  have hcount := h.length_lt
  rw [setenv, Exec.ends_bind, Exec.ends_get, Exec.ends_bind, scan]
  cases hlookup : lookup vars k with
  | none =>
    have hmissing := lookup_eq_none.mp hlookup
    have hext' : ¬ (s.environ = s.lastEnviron ∧ s.environ ≠ 0) := fun hboth =>
      hext ⟨hboth.1, hboth.2, (h.returns_iff hargs.name).mpr hlookup.symm⟩
    have hadd : Exec.Ends (addEntry brk vars.length k v)
        (fun r t => r = 0 ∧ (∃ vars', Shows brk t vars') ∧ Law k v overwrite s t) (· = .answer) s := by
      refine (addEntry_spec h hext' hargs.name hargs.name_ne hargs.value hargs.length hmissing).mono
        ?_ fun _ he => he
      rintro r t ⟨hr, p, ht⟩
      refine ⟨hr, ⟨_, ht⟩, .of_shows h ht hargs.name (fun _ => lookup_append_self hmissing)
        (fun _ w hw => ?_) fun k' hne => lookup_append_of_ne hne⟩
      rw [hlookup] at hw
      cases hw
    by_cases henv : s.environ = 0
    · rw [if_neg (not_not.mpr henv), Exec.ends_pure]
      dsimp only
      rw [if_pos (.inl henv)]
      rwa [h.none henv] at hadd
    · obtain ⟨hrun, hword⟩ := h.findEntry_missing henv hargs.name hmissing
        (show vars.length < fuel by omega)
      rw [if_pos henv, Exec.ends_of_ok hrun]
      dsimp only
      rw [if_pos (.inr hword)]
      exact hadd
  | some w =>
    obtain ⟨l, u, r, rfl, hl, rfl, rfl⟩ := lookup_eq_some.mp hlookup
    have hu := h.valid u (by simp)
    have henv : s.environ ≠ 0 := fun henv => by simpa using h.none henv
    rw [List.length_append, List.length_cons] at hcount
    obtain ⟨hrun, hword⟩ := h.findEntry_found henv hl (show l.length < fuel by omega)
    rw [if_pos henv, Exec.ends_of_ok hrun]
    dsimp only
    rw [if_neg (by rw [hword]; exact not_or.mpr ⟨henv, hu.addr_pos.ne'⟩)]
    cases overwrite with
    | false =>
      refine ⟨rfl, ⟨_, h⟩, .of_shows h h hargs.name (fun hcase => ?_) (fun _ w hw => hw)
        fun k' _ => rfl⟩
      simp [hlookup] at hcase
    | true =>
      have hsize := hu.inUse.le_kernbase h.brk_le h.live
      simp only [Var.region] at hsize
      refine (replaceEntry_spec h hargs.value hargs.length (by omega) hword).mono ?_ fun _ he => he
      rintro r' t ⟨hr', p, ht⟩
      exact ⟨hr', ⟨_, ht⟩, .of_shows h ht hargs.name (fun _ => lookup_replace_self hl)
        (fun how => by cases how) fun k' hne => lookup_replace_of_ne hne⟩

/-! ## Runs -/

theorem strlen_mono {fuel j : ℕ} {r : ℕ × Space} (hj : fuel ≤ j) (h : strlen m fuel a s = .ok r) :
    strlen m j a s = .ok r := by
  induction fuel generalizing a j r with
  | zero => cases h
  | succ fuel ih =>
    obtain ⟨j, rfl⟩ : ∃ i, j = i + 1 := ⟨j - 1, by omega⟩
    rw [strlen] at h ⊢
    split_ifs at h ⊢
    · exact h
    · rw [map_eq_pure_bind] at h ⊢
      obtain ⟨len, t, hlen, hrest⟩ := Exec.bind_eq_ok.mp h
      rw [Exec.bind_of_ok (ih (by omega) hlen)]
      exact hrest

theorem replaceEntry_mono {fuel j ep : ℕ} {r : ℤ × Space} (hj : fuel ≤ j)
    (h : replaceEntry brk fuel ep k v s = .ok r) : replaceEntry brk j ep k v s = .ok r := by
  rw [replaceEntry, Exec.bind_of_ok Exec.get_run] at h ⊢
  obtain ⟨len, t, hlen, hrest⟩ := Exec.bind_eq_ok.mp h
  rw [Exec.bind_of_ok (strlen_mono hj hlen)]
  exact hrest

theorem setenv_mono {fuel j : ℕ} {overwrite : Bool} {r : ℤ × Space} (hj : fuel ≤ j)
    (h : setenv brk fuel k v overwrite s = .ok r) : setenv brk j k v overwrite s = .ok r := by
  rw [setenv, Exec.bind_of_ok Exec.get_run] at h ⊢
  obtain ⟨e, t, hscan, hrest⟩ := Exec.bind_eq_ok.mp h
  have hscan' : scan s k j s = .ok (e, t) := by
    rw [scan] at hscan ⊢
    split_ifs at hscan ⊢
    · exact findEntry_mono hj hscan
    · exact hscan
  rw [Exec.bind_of_ok hscan']
  dsimp only at hrest ⊢
  split_ifs at hrest ⊢
  · exact hrest
  · exact replaceEntry_mono hj hrest
  · exact hrest

/-- The environments that calls of `setenv` lead to from one that `execve` supplied, if none
of them has to extend an array. -/
inductive Reached (brk : ℕ) : Space → Prop
  | init {s : Space} {vars : List Var} : Shows brk s vars → s.lastEnviron = 0 → Reached brk s
  | setenv {s t : Space} {fuel : ℕ} {k v : List UInt8} {overwrite : Bool} {r : ℤ} :
      Reached brk s → Args k v → ¬ Extends s k → setenv brk fuel k v overwrite s = .ok (r, t) →
      Reached brk t

theorem Reached.shows (h : Reached brk s) : ∃ vars, Shows brk s vars := by
  induction h with
  | init h _ => exact ⟨_, h⟩
  | @setenv s t fuel k v overwrite r _ hargs hext hrun ih =>
    obtain ⟨vars, hs⟩ := ih
    have hspec := @setenv_spec brk s k v _ _ overwrite hs hargs hext (le_max_right fuel KERNBASE)
    exact (hspec.ok (setenv_mono (le_max_left fuel KERNBASE) hrun)).2.1

/-- In such an environment the next call, if it does not have to extend the array either,
changes the variable as it should and no other. -/
theorem setenv_law (h : Reached brk s) (hargs : Args k v) (hext : ¬ Extends s k) (overwrite : Bool) :
    ∀ fuel ≥ KERNBASE, Exec.Ends (setenv brk fuel k v overwrite)
      (fun r t => r = 0 ∧ Law k v overwrite s t) (· = .answer) s := by
  intro fuel hfuel
  obtain ⟨vars, hs⟩ := h.shows
  refine (setenv_spec hs hargs hext hfuel).mono ?_ fun _ he => he
  rintro r t ⟨hr, -, hlaw⟩
  exact ⟨hr, hlaw⟩

theorem not_law_of_lost {k' : List UInt8} (w : List UInt8) {overwrite : Bool} (hk' : IsName k')
    (hne : k' ≠ k) (h : Returns s k' (some w)) (h' : Returns s' k' none) : ¬ Law k v overwrite s s' := by
  intro hlaw
  have hafter := (hlaw.others k' hk' hne (some w)).mp h
  exact by cases hafter.unique h'

/-- A program without variables, whose heap begins at `0x20000`. -/
def bare : Space where
  mem _ := 0
  environ := 4
  lastEnviron := 0
  live := []
  answers i := (some (0x20008 + 24 * i), fun _ => 0)

theorem bare_reached : Reached 0x20000 bare := by
  refine .init (show Shows 0x20000 bare [] from ⟨by decide, by simp [bare], .inl rfl, fun _ => rfl, fun _ => ⟨?_, ?_⟩,
    by simp, .nil, by simp, .nil, fun i => ⟨_, rfl⟩⟩) rfl
  · exact ⟨rfl, rfl, rfl, rfl, trivial⟩
  · exact .inl (by decide)

theorem bare_not_extends (k : List UInt8) : ¬ Extends bare k := fun h => absurd h.1 (by decide)

/-- `setenv("A", "1", 1)` in a program without variables. -/
theorem setenv_law_bare : Exec.Ends (setenv 0x20000 KERNBASE [65] [49] true)
    (fun r t => r = 0 ∧ Law [65] [49] true bare t) (· = .answer) bare :=
  setenv_law bare_reached ⟨by decide, by decide, by decide, by decide⟩ (bare_not_extends _) true
    KERNBASE le_rfl

/-- After `setenv("A", "1", 1)`, `setenv("B", "2", 1)` extends the array: `realloc` copies as
many bytes as the old block has units, which is half of the pointer to `A=1`. -/
theorem setenv_loses_value : ∃ s t, Reached 0x20000 s ∧ Args [66] [50] ∧
    setenv 0x20000 5 [66] [50] true s = .ok (0, t) ∧ ¬ Law [66] [50] true s t := by
  have hargs : Args [65] [49] := ⟨by decide, by decide, by decide, by decide⟩
  refine ⟨_, _, .setenv bare_reached hargs (bare_not_extends _)
    (show setenv 0x20000 5 [65] [49] true bare = .ok (0, _) from rfl),
    ⟨by decide, by decide, by decide, by decide⟩, rfl, ?_⟩
  exact not_law_of_lost [49] hargs.name (by decide)
    ⟨5, 0x20022, rfl, by decide, ⟨rfl, rfl, trivial⟩, by decide⟩ ⟨5, rfl⟩

end Lainos.Libc
