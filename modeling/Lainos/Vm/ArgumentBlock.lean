import Lainos.Vm.Arguments

/-!
# The argument block

What `_start` finds at the stack pointer: a return address, the number of arguments, and the
addresses of two vectors of pointers to strings. The vector of the environment lies between
the strings of `env` and those of `argv`. Its last word is not written but was zero.
-/

namespace Lainos.Vm

open Library Exec

/-! ## What is expected -/

/-- At `v` there are pointers `ps` to the strings `l`, and a zero. -/
structure Pointers (b : Bytes) (v : ℕ) (ps : List ℕ) (l : List (List UInt8)) : Prop where
  length : ps.length = l.length
  pointer : ∀ i (h : i < ps.length), get32 b (v + 4 * i) = UInt32.ofNat ps[i]
  last : get32 b (v + 4 * l.length) = 0
  string : ∀ i (h : i < ps.length) (h' : i < l.length), ∀ j ≤ l[i].length, b (ps[i] + j) = cstring l[i] j

/-- The places of strings, as an address and a number of bytes each. -/
def stringPlaces (ps : List ℕ) (l : List (List UInt8)) : List (ℕ × ℕ) :=
  List.zipWith (fun p x => (p, x.length + 1)) ps l

/-- The places lie between `lo` and `hi`, each below the one before. -/
structure Descending (lo hi : ℕ) (l : List (ℕ × ℕ)) : Prop where
  bounds : ∀ x ∈ l, lo ≤ x.1 ∧ x.1 + x.2 ≤ hi
  apart : l.Pairwise fun x y => y.1 + y.2 ≤ x.1

/-- The block that `_start` expects at `esp`, in the page from `lo` to `hi`. -/
structure ArgumentBlock (b : Bytes) (lo hi esp : ℕ) (argv env : List (List UInt8)) : Prop where
  aligned : esp % 4 = 0
  inside : lo ≤ esp ∧ esp < hi
  retpc : get32 b esp = 0xFFFFFFFF
  argc : get32 b (esp + 4) = UInt32.ofNat argv.length
  vectors : ∃ av ev ap ep, get32 b (esp + 8) = UInt32.ofNat av ∧ get32 b (esp + 12) = UInt32.ofNat ev ∧
    Pointers b av ap argv ∧ Pointers b ev ep env ∧
    Descending lo hi (stringPlaces ep env ++ (ev, 4 * (env.length + 1)) :: (stringPlaces ap argv ++
      [(av, 4 * (argv.length + 1)), (esp, 16)]))

/-! ## The same bytes -/

theorem Pointers.congr {b b' : Bytes} {lo hi v : ℕ} {ps : List ℕ} {l : List (List UInt8)}
    (h : Pointers b v ps l) (hvector : lo ≤ v ∧ v + 4 * (l.length + 1) ≤ hi)
    (hplaces : ∀ x ∈ stringPlaces ps l, lo ≤ x.1 ∧ x.1 + x.2 ≤ hi)
    (hsame : ∀ x, lo ≤ x → x < hi → b' x = b x) : Pointers b' v ps l := by
  have hlength := h.length
  refine ⟨hlength, fun i hi => ?_, ?_, fun i hi hi' j hj => ?_⟩
  · rw [← h.pointer i hi]
    exact get32_congr fun k hk => hsame _ (by omega) (by omega)
  · rw [← h.last]
    exact get32_congr fun k hk => hsame _ (by omega) (by omega)
  · have hmem : (ps[i], l[i].length + 1) ∈ stringPlaces ps l := by
      refine List.mem_iff_getElem.mpr ⟨i, by rw [stringPlaces, List.length_zipWith]; omega, ?_⟩
      exact List.getElem_zipWith
    have hbounds := hplaces _ hmem
    simp only at hbounds
    rw [hsame _ (by omega) (by omega)]
    exact h.string i hi hi' j hj

/-- The block depends on the bytes of its page only. -/
theorem ArgumentBlock.congr {b b' : Bytes} {lo hi esp : ℕ} {argv env : List (List UInt8)}
    (h : ArgumentBlock b lo hi esp argv env) (hsame : ∀ x, lo ≤ x → x < hi → b' x = b x) :
    ArgumentBlock b' lo hi esp argv env := by
  obtain ⟨av, ev, ap, ep, hav, hev, hargv, henv, hplaces⟩ := h.vectors
  have hbounds := hplaces.bounds
  have hesp := hbounds (esp, 16) (by simp)
  have hargv' := hbounds (av, 4 * (argv.length + 1)) (by simp)
  have henv' := hbounds (ev, 4 * (env.length + 1)) (by simp)
  simp only at hesp hargv' henv'
  have hword : ∀ a, lo ≤ a → a + 4 ≤ hi → get32 b' a = get32 b a := fun a hlo hhi =>
    get32_congr fun k hk => hsame _ (by omega) (by omega)
  refine ⟨h.aligned, h.inside, ?_, ?_, av, ev, ap, ep, ?_, ?_, ?_, ?_, hplaces⟩
  · rw [hword _ (by omega) (by omega)]
    exact h.retpc
  · rw [hword _ (by omega) (by omega)]
    exact h.argc
  · rw [hword _ (by omega) (by omega)]
    exact hav
  · rw [hword _ (by omega) (by omega)]
    exact hev
  · exact hargv.congr hargv' (fun x hx => hbounds x (by simp [hx])) hsame
  · exact henv.congr henv' (fun x hx => hbounds x (by simp [hx])) hsame

/-! ## Places of strings -/

theorem Strings.string {b : Bytes} {sp : ℕ} {l : List (List UInt8)} (h : Strings b sp l) (i : ℕ)
    (hi : i < (addrs sp l).length) (hi' : i < l.length) :
    ∀ j ≤ l[i].length, b ((addrs sp l)[i] + j) = cstring l[i] j := by
  induction l generalizing sp i with
  | nil => exact absurd hi' (Nat.not_lt_zero i)
  | cons x l ih =>
    cases i with
    | zero => exact h.1
    | succ i => exact ih h.2 i (Nat.lt_of_succ_lt_succ hi) (Nat.lt_of_succ_lt_succ hi')

theorem descending_strings {sp : ℕ} {l : List (List UInt8)} (h : rooms l ≤ sp) :
    Descending (sp - rooms l) sp (stringPlaces (addrs sp l) l) := by
  induction l generalizing sp with
  | nil => exact ⟨fun x hx => (by cases hx), List.Pairwise.nil⟩
  | cons x l ih =>
    rw [rooms_cons] at h
    have hlt := length_lt_room x
    obtain ⟨hbounds, hapart⟩ := @ih (sp - room x) (by omega)
    refine ⟨fun y hy => ?_, List.pairwise_cons.mpr ⟨fun y hy => ?_, hapart⟩⟩
    · rw [rooms_cons]
      obtain rfl | hmem := List.mem_cons.mp hy
      · exact ⟨by simp only; omega, by simp only; omega⟩
      · have := hbounds y hmem
        omega
    · exact (hbounds y hy).2

theorem Descending.append {lo mid hi : ℕ} {l l' : List (ℕ × ℕ)} (h : Descending mid hi l)
    (h' : Descending lo mid l') (hmid : lo ≤ mid ∧ mid ≤ hi) : Descending lo hi (l ++ l') := by
  refine ⟨fun x hx => ?_, List.pairwise_append.mpr ⟨h.apart, h'.apart, fun x hx y hy => ?_⟩⟩
  · obtain hx | hx := List.mem_append.mp hx
    · have := h.bounds x hx
      omega
    · have := h'.bounds x hx
      omega
  · exact (h'.bounds y hy).2.trans (h.bounds x hx).1

theorem Descending.single {a n : ℕ} : Descending a (a + n) [(a, n)] :=
  ⟨fun x hx => by
    rw [List.mem_singleton.mp hx]
    exact ⟨le_rfl, le_rfl⟩, List.pairwise_singleton ..⟩

theorem Descending.mono {lo hi lo' hi' : ℕ} {l : List (ℕ × ℕ)} (h : Descending lo hi l) (hlo : lo' ≤ lo)
    (hhi : hi ≤ hi') : Descending lo' hi' l :=
  ⟨fun x hx => ⟨hlo.trans (h.bounds x hx).1, (h.bounds x hx).2.trans hhi⟩, h.apart⟩

theorem get32_words {b : Bytes} {w : ℕ → UInt32} {va n k : ℕ}
    (h : ∀ i < 4 * n, b (va + i) = words w i) (hk : k < n) : get32 b (va + 4 * k) = w k := by
  rw [← get32_word32 (w k)]
  refine get32_congr fun i hi => ?_
  rw [Nat.add_assoc, h _ (by omega), words, show (4 * k + i) / 4 = k by omega,
    show (4 * k + i) % 4 = i by omega, Nat.zero_add]

/-! ## What is laid out -/

/-- The stack pointer below the strings of `env` and the first block. -/
def spEnv (sz : ℕ) (env : List (List UInt8)) : ℕ := sz - rooms env - 4 * (6 + env.length)

/-- The stack pointer below the strings of `argv` and the second block. -/
def spArgv (sp : ℕ) (argv : List (List UInt8)) : ℕ := sp - rooms argv - 4 * (5 + argv.length)

/-- The bytes of the stack that `execve` needs. -/
def needed (argv env : List (List UInt8)) : ℕ :=
  rooms env + 4 * (6 + env.length) + (rooms argv + 4 * (5 + argv.length))

/-- `ustack` when the first block is copied. -/
def envStack (w : ℕ → UInt32) (sz : ℕ) (env : List (List UInt8)) : ℕ → UInt32 :=
  Function.update (Function.update (storeAddrs (Function.update w 0 0xFFFFFFFF) 5 (addrs sz env)) 3
    (UInt32.ofNat (sz - rooms env - 4 * (env.length + 1)))) (5 + env.length) 0

/-- `ustack` when the second block is copied. -/
def argvStack (w : ℕ → UInt32) (sp : ℕ) (argv : List (List UInt8)) : ℕ → UInt32 :=
  Function.update (Function.update (Function.update (storeAddrs w 4 (addrs sp argv)) 1
    (UInt32.ofNat argv.length)) 2 (UInt32.ofNat (sp - rooms argv - 4 * (argv.length + 1))))
      (4 + argv.length) 0

variable {w : ℕ → UInt32} {sz sp : ℕ} {argv env : List (List UInt8)}

theorem envStack_zero : envStack w sz env 0 = 0xFFFFFFFF := by
  rw [envStack, Function.update_of_ne (by omega), Function.update_of_ne (by omega),
    storeAddrs_outside (Or.inl (by omega)), Function.update_self]

theorem envStack_three :
    envStack w sz env 3 = UInt32.ofNat (sz - rooms env - 4 * (env.length + 1)) := by
  rw [envStack, Function.update_of_ne (by omega), Function.update_self]

theorem envStack_pointer {i : ℕ} (h : i < (addrs sz env).length) :
    envStack w sz env (5 + i) = UInt32.ofNat (addrs sz env)[i] := by
  have hlen := length_addrs sz env
  rw [envStack, Function.update_of_ne (by omega), Function.update_of_ne (by omega), storeAddrs_inside h]

theorem argvStack_of_ne {i : ℕ} (h : i ≠ 1) (h' : i ≠ 2) (h'' : i < 4) : argvStack w sp argv i = w i := by
  rw [argvStack, Function.update_of_ne (by omega), Function.update_of_ne h', Function.update_of_ne h,
    storeAddrs_outside (Or.inl h'')]

theorem argvStack_one : argvStack w sp argv 1 = UInt32.ofNat argv.length := by
  rw [argvStack, Function.update_of_ne (by omega), Function.update_of_ne (by omega), Function.update_self]

theorem argvStack_two :
    argvStack w sp argv 2 = UInt32.ofNat (sp - rooms argv - 4 * (argv.length + 1)) := by
  rw [argvStack, Function.update_of_ne (by omega), Function.update_self]

theorem argvStack_pointer {i : ℕ} (h : i < (addrs sp argv).length) :
    argvStack w sp argv (4 + i) = UInt32.ofNat (addrs sp argv)[i] := by
  have hlen := length_addrs sp argv
  rw [argvStack, Function.update_of_ne (by omega), Function.update_of_ne (by omega),
    Function.update_of_ne (by omega), storeAddrs_inside h]

theorem argvStack_last : argvStack w sp argv (4 + argv.length) = 0 := by
  rw [argvStack, Function.update_self]

/-- Memory after all copies. -/
structure Laid (b : Bytes) (sz : ℕ) (argv env : List (List UInt8)) (w : ℕ → UInt32) : Prop where
  envStrings : Strings b sz env
  envBlock : ∀ i < 4 * (5 + env.length), b (spEnv sz env + i) = words (envStack w sz env) i
  envLast : ∀ i < 4, b (sz - rooms env - 4 + i) = 0
  argvStrings : Strings b (spEnv sz env) argv
  argvBlock : ∀ i < 4 * (5 + argv.length), b (spArgv (spEnv sz env) argv + i) =
    words (argvStack (envStack w sz env) (spEnv sz env) argv) i

theorem rooms_mod_four (l : List (List UInt8)) : rooms l % 4 = 0 := by
  induction l with
  | nil => rfl
  | cons x l ih =>
    rw [rooms_cons, room]
    omega

theorem Laid.env_pointers {b : Bytes} (h : Laid b sz argv env w) (hfit : needed argv env ≤ sz) :
    Pointers b (sz - rooms env - 4 * (env.length + 1)) (addrs sz env) env := by
  have hv : ∀ k, sz - rooms env - 4 * (env.length + 1) + 4 * k = spEnv sz env + 4 * (5 + k) := fun k => by
    unfold needed spEnv at *
    omega
  refine ⟨length_addrs sz env, fun i hi => ?_, ?_, h.envStrings.string⟩
  · have hlen := length_addrs sz env
    rw [hv, get32_words h.envBlock (by omega), envStack_pointer hi]
  · have hlast : sz - rooms env - 4 * (env.length + 1) + 4 * env.length = sz - rooms env - 4 := by
      unfold needed at hfit
      omega
    rw [hlast, ← get32_zero 0]
    exact get32_congr fun i hi => h.envLast i hi

theorem Laid.argv_pointers {b : Bytes} (h : Laid b sz argv env w) :
    Pointers b (spArgv (spEnv sz env) argv + 16) (addrs (spEnv sz env) argv) argv := by
  have hv : ∀ k, spArgv (spEnv sz env) argv + 16 + 4 * k = spArgv (spEnv sz env) argv + 4 * (4 + k) :=
    fun k => by omega
  refine ⟨length_addrs _ argv, fun i hi => ?_, ?_, h.argvStrings.string⟩
  · have hlen := length_addrs (spEnv sz env) argv
    rw [hv, get32_words h.argvBlock (by omega), argvStack_pointer hi]
  · rw [hv, get32_words h.argvBlock (by omega), argvStack_last]

theorem Laid.argumentBlock {b : Bytes} {lo : ℕ} (h : Laid b sz argv env w) (halign : sz % 4 = 0)
    (hfit : lo + needed argv env ≤ sz) : ArgumentBlock b lo sz (sz - needed argv env) argv env := by
  have hsp : sz - needed argv env = spArgv (spEnv sz env) argv := by
    unfold needed spArgv spEnv
    omega
  have henv := rooms_mod_four env
  have hargv := rooms_mod_four argv
  have hbelow : spEnv sz env ≤ sz - rooms env - 4 * (env.length + 1) := by
    unfold spEnv
    omega
  have hav : spArgv (spEnv sz env) argv + 16 + 4 * (argv.length + 1) = spEnv sz env - rooms argv := by
    unfold needed spArgv spEnv at *
    omega
  have hev : sz - rooms env - 4 * (env.length + 1) + 4 * (env.length + 1) = sz - rooms env := by
    unfold needed at hfit
    omega
  have hroom : rooms env ≤ sz ∧ rooms argv ≤ spEnv sz env ∧ lo ≤ spArgv (spEnv sz env) argv := by
    unfold needed spArgv spEnv at *
    omega
  rw [hsp]
  refine ⟨?_, ?_, ?_, ?_, spArgv (spEnv sz env) argv + 16, sz - rooms env - 4 * (env.length + 1),
    addrs (spEnv sz env) argv, addrs sz env, ?_, ?_, h.argv_pointers, h.env_pointers (by omega), ?_⟩
  · unfold needed spArgv spEnv at *
    omega
  · unfold needed spArgv spEnv at *
    omega
  · have hword := get32_words (k := 0) h.argvBlock (by omega)
    rwa [argvStack_of_ne (by omega) (by omega) (by omega), envStack_zero] at hword
  · have hword := get32_words (k := 1) h.argvBlock (by omega)
    rwa [argvStack_one] at hword
  · have hword := get32_words (k := 2) h.argvBlock (by omega)
    rwa [argvStack_two, ← hav, Nat.add_sub_cancel] at hword
  · have hword := get32_words (k := 3) h.argvBlock (by omega)
    rwa [argvStack_of_ne (by omega) (by omega) (by omega), envStack_three] at hword
  · -- From the top down: strings, vector, strings, vector, and the four words.
    have hfour : Descending (spArgv (spEnv sz env) argv) (spEnv sz env - rooms argv)
        [(spArgv (spEnv sz env) argv + 16, 4 * (argv.length + 1)), (spArgv (spEnv sz env) argv, 16)] := by
      rw [← hav]
      exact Descending.append (l := [_]) Descending.single Descending.single ⟨by omega, by omega⟩
    have hargs := (descending_strings hroom.2.1).append hfour ⟨by omega, by omega⟩
    have hvector : Descending (sz - rooms env - 4 * (env.length + 1)) (sz - rooms env)
        [(sz - rooms env - 4 * (env.length + 1), 4 * (env.length + 1))] := by
      have hone := Descending.single (a := sz - rooms env - 4 * (env.length + 1)) (n := 4 * (env.length + 1))
      rwa [hev] at hone
    have hrest := hvector.append (hargs.mono le_rfl hbelow) ⟨by omega, by omega⟩
    exact ((descending_strings hroom.1).append hrest ⟨by omega, by omega⟩).mono hroom.2.2 le_rfl

/-! ## The copies -/

theorem sub_word {n : ℕ} (hle : n ≤ sp) (hsp : sp < word) : (sp + word - n) % word = sp - n := by
  unfold word at *
  omega

namespace Ram

variable {L : Layout} {r t₁ t₂ t₃ t₄ : Ram} {d e : ℕ} {c : ExecCall}

/-- The four copies, one below the other. -/
theorem laid_of_copies (hzero : ∀ x, (pages e + 1) * PGSIZE ≤ x → x < (pages e + 2) * PGSIZE → r.byte d x = 0)
    (hfit : (pages e + 1) * PGSIZE + needed argv env ≤ sz) (hsz : sz = (pages e + 2) * PGSIZE)
    (h₁ : Pushed r t₁ d e sz env)
    (h₂ : Placed t₁ t₂ d e (spEnv sz env) (4 * (5 + env.length)) (words (envStack w sz env)))
    (h₃ : Pushed t₂ t₃ d e (spEnv sz env) argv)
    (h₄ : Placed t₃ t₄ d e (spArgv (spEnv sz env) argv) (4 * (5 + argv.length))
      (words (argvStack (envStack w sz env) (spEnv sz env) argv))) :
    Laid (t₄.byte d) sz argv env w := by
  have hfirst : spEnv sz env + 4 * (5 + env.length) + 4 = sz - rooms env ∧
      (pages e + 1) * PGSIZE ≤ spEnv sz env := by
    unfold needed spEnv at *
    omega
  have hsecond : spArgv (spEnv sz env) argv + 4 * (5 + argv.length) = spEnv sz env - rooms argv ∧
      rooms argv ≤ spEnv sz env ∧ (pages e + 1) * PGSIZE ≤ spArgv (spEnv sz env) argv := by
    unfold needed spArgv spEnv at *
    omega
  have hroom : rooms env ≤ sz := by
    unfold needed at hfit
    omega
  -- What is above the second part is not touched by it.
  have hlater : ∀ x, spEnv sz env ≤ x → x < sz → t₄.byte d x = t₂.byte d x := fun x hlo hhi => by
    rw [h₄.outside x (by omega) (by omega) (by omega), h₃.kept x (by omega) (by omega) (by omega)]
  refine ⟨?_, fun i hi => ?_, fun i hi => ?_, ?_, fun i hi => ?_⟩
  · refine h₁.strings.congr hroom fun x hlo hhi => ?_
    rw [hlater x (by omega) hhi, h₂.outside x (by omega) (by omega) (by omega)]
  · rw [hlater _ (by omega) (by omega), h₂.inside i hi]
  · rw [hlater _ (by omega) (by omega), h₂.outside _ (by omega) (by omega) (by omega),
      h₁.kept _ (by omega) (by omega) (by omega)]
    exact hzero _ (by omega) (by omega)
  · refine h₃.strings.congr hsecond.2.1 fun x hlo hhi => ?_
    exact h₄.outside x (by omega) (by omega) (by omega)
  · exact h₄.inside i hi

theorem page_bounds (h : Fenced L r d e) : (pages e + 2) * PGSIZE = (pages e + 1) * PGSIZE + PGSIZE ∧
    (pages e + 2) * PGSIZE < word ∧ (pages e + 1) * PGSIZE % 4 = 0 ∧ PGSIZE ≤ (pages e + 1) * PGSIZE ∧
      PGSIZE = 4096 := by
  have hsize := h.size
  have hc := constants
  unfold PGSIZE word
  omega

theorem Fenced.pushEnv_fits (h : Fenced L r d e) (hstack : User r.1.mem d (pages e + 1))
    (henv : c.env = [] ∨ c.image.phnum < MAXARG) (hsz : sz = (pages e + 2) * PGSIZE)
    (hfit : rooms c.env + 4 * (6 + c.env.length) ≤ PGSIZE) :
    Ends (pushEnv d sz c) (fun y t => y = some (spEnv sz c.env, envStack c.ustack sz c.env) ∧
      ∃ t₁, Pushed r t₁ d e sz c.env ∧ Placed t₁ t d e (spEnv sz c.env) (4 * (5 + c.env.length))
        (words (envStack c.ustack sz c.env))) (fun _ => False) r := by
  obtain ⟨hend, hword, halign, hpage, -⟩ := page_bounds h
  have hrooms := rooms_mod_four c.env
  rw [pushEnv, ends_bind]
  refine (pushStrings_fits h hstack (fun i hi => ?_) (by rw [hsz, PGSIZE]; omega) (by omega) hsz.le).mono ?_
    fun _ he => he
  · obtain hnil | hlt := henv
    · rw [hnil] at hi
      exact absurd hi (Nat.not_lt_zero i)
    · exact decide_eq_false (Nat.not_le.mpr hlt)
  rintro y t₁ ⟨rfl, h₁⟩
  have hsp : (sz - rooms c.env + word - (5 + c.env.length + 1) * 4) % word = spEnv sz c.env := by
    rw [sub_word (by omega) (by omega), spEnv]
    omega
  have hsp' : (sz - rooms c.env + word - (c.env.length + 1) * 4) % word =
      sz - rooms c.env - 4 * (c.env.length + 1) := by
    rw [sub_word (by omega) (by omega), Nat.mul_comm]
  have hlen : (4 + c.env.length + 1) * 4 = 4 * (5 + c.env.length) := by omega
  simp only [hsp, hsp', hlen]
  have hsame := h₁.only.same
  rw [ends_bind]
  refine ((hsame.fenced h).copyout_placed (by rwa [User, hsame.mem_eq]) ?_ ?_).mono ?_ fun _ he => he
  · rw [spEnv]
    omega
  · rw [spEnv]
    omega
  · rintro ok t ⟨rfl, h₂⟩
    exact ⟨rfl, t₁, h₁, h₂⟩

theorem Fenced.pushArgv_fits {w : ℕ → UInt32} (h : Fenced L r d e) (hstack : User r.1.mem d (pages e + 1))
    (hargc : c.argv.length < MAXARG) (halign : sp % 4 = 0) (hsp : sp ≤ (pages e + 2) * PGSIZE)
    (hfit : (pages e + 1) * PGSIZE + (rooms c.argv + 4 * (5 + c.argv.length)) ≤ sp) :
    Ends (pushArgv d sz c sp w) (fun y t => y = some (spArgv sp c.argv) ∧
      ∃ t₁, Pushed r t₁ d e sp c.argv ∧ Placed t₁ t d e (spArgv sp c.argv) (4 * (5 + c.argv.length))
        (words (argvStack w sp c.argv))) (fun _ => False) r := by
  obtain ⟨hend, hword, -, hpage, -⟩ := page_bounds h
  have hrooms := rooms_mod_four c.argv
  rw [pushArgv, ends_bind]
  refine (pushStrings_fits h hstack (fun i hi => ?_) halign (by omega) hsp).mono ?_ fun _ he => he
  · exact decide_eq_false (by omega)
  rintro y t₁ ⟨rfl, h₁⟩
  have hsp₁ : (sp - rooms c.argv + word - 4 * (5 + c.argv.length)) % word = spArgv sp c.argv := by
    rw [sub_word (by omega) (by omega), spArgv]
  have hsp₂ : (sp - rooms c.argv + word - (c.argv.length + 1) * 4) % word =
      sp - rooms c.argv - 4 * (c.argv.length + 1) := by
    rw [sub_word (by omega) (by omega), Nat.mul_comm]
  have hlen : (4 + c.argv.length + 1) * 4 = 4 * (5 + c.argv.length) := by omega
  simp only [hlen, hsp₁, hsp₂]
  have hsame := h₁.only.same
  rw [ends_bind]
  refine ((hsame.fenced h).copyout_placed (by rwa [User, hsame.mem_eq]) ?_ ?_).mono ?_ fun _ he => he
  · rw [spArgv]
    omega
  · rw [spArgv]
    omega
  · rintro ok t ⟨rfl, h₂⟩
    exact ⟨rfl, t₁, h₁, h₂⟩

/-- With many program headers there is no room for any environment. -/
theorem pushEnv_stopped (hne : c.env ≠ []) (hle : MAXARG ≤ c.image.phnum) :
    pushEnv d sz c = pure none := by
  obtain ⟨y, l, hl⟩ := List.exists_cons_of_ne_nil hne
  rw [pushEnv, hl, pushStrings, if_pos (decide_eq_true hle), pure_bind]

/-- The environment does not fit. -/
theorem Fenced.pushEnv_none (h : Fenced L r d e)
    (hstack : User r.1.mem d (pages e + 1) ∨ ∃ y ∈ c.env.head?, sz < (pages e + 1) * PGSIZE + room y)
    (henv : c.env = [] ∨ c.image.phnum < MAXARG) (hsz : sz = (pages e + 2) * PGSIZE)
    (henvc : c.env.length < MAXARG) (hfit : PGSIZE < rooms c.env + 4 * (6 + c.env.length)) :
    Ends (pushEnv d sz c) (fun y _ => y = none ∧
        (c.null = trapEntry → Traced r.1.mem d ((pages e + 1) * PGSIZE) sz c.env))
      (fun _ => ¬ Traced r.1.mem d ((pages e + 1) * PGSIZE) sz c.env) r := by
  obtain ⟨hend, hword, halign, hpage, hvalue⟩ := page_bounds h
  have hrooms := rooms_mod_four c.env
  have halign' : sz % 4 = 0 := by omega
  have hstop : ∀ i < c.env.length, (fun _ => decide (MAXARG ≤ c.image.phnum)) (0 + i) = false :=
    fun i hi => by
      obtain hnil | hlt := henv
      · rw [hnil] at hi
        exact absurd hi (Nat.not_lt_zero i)
      · exact decide_eq_false (Nat.not_le.mpr hlt)
  rw [pushEnv, ends_bind]
  by_cases hstrings : sz < (pages e + 1) * PGSIZE + rooms c.env
  · refine (pushStrings_none h hstop halign' (by omega) hsz.le hstrings (hstack.imp_right ?_)).mono ?_
      fun _ he => he
    · rintro ⟨y, hy, hlt⟩ y' hy'
      rwa [Option.mem_unique hy' hy]
    · rintro y t ⟨rfl, htraced⟩
      exact ⟨rfl, htraced⟩
  replace hstack : User r.1.mem d (pages e + 1) := hstack.resolve_right (by
    rintro ⟨y, hy, hlt⟩
    have hle := room_le_rooms (List.mem_of_mem_head? hy)
    omega)
  have htraced := traced_of_fits hstack halign' hword (Nat.le_of_not_lt hstrings) hsz.le
  refine (pushStrings_fits h hstack hstop halign' (by omega) hsz.le).mono ?_ fun _ he => he.elim
  rintro y t₁ ⟨rfl, h₁⟩
  have hsp : (sz - rooms c.env + word - (5 + c.env.length + 1) * 4) % word =
      sz - rooms c.env - (5 + c.env.length + 1) * 4 := sub_word (by unfold MAXARG at henvc; omega) (by omega)
  simp only [hsp]
  have hfenced := h₁.only.same.fenced h
  have hguard : Walkable t₁.1.mem d (sz - rooms c.env - (5 + c.env.length + 1) * 4)
      ((4 + c.env.length + 1) * 4) := by
    have hmul : (pages e + 1) * PGSIZE = pages e * PGSIZE + PGSIZE := Nat.succ_mul ..
    refine hfenced.walkable_guard ?_ (by omega)
    unfold MAXARG at henvc
    omega
  rw [ends_bind]
  refine (hfenced.copyout_below (show _ ≤ sz - rooms c.env by omega) (by omega) (by omega)
    (by omega) (by omega)).mono ?_ fun _ he => (he hguard).elim
  rintro ok t ⟨rfl, -⟩
  exact ⟨rfl, fun _ => htraced⟩

/-- The arguments do not fit below the environment. -/
theorem Fenced.pushArgv_none {w : ℕ → UInt32} (h : Fenced L r d e) (hstack : User r.1.mem d (pages e + 1))
    (hargc : c.argv.length < MAXARG) (halign : sp % 4 = 0) (hlo : (pages e + 1) * PGSIZE ≤ sp)
    (hsp : sp ≤ (pages e + 2) * PGSIZE)
    (hfit : sp < (pages e + 1) * PGSIZE + (rooms c.argv + 4 * (5 + c.argv.length))) :
    Ends (pushArgv d sz c sp w) (fun y _ => y = none ∧
        (c.null = trapEntry → Traced r.1.mem d ((pages e + 1) * PGSIZE) sp c.argv))
      (fun _ => ¬ Traced r.1.mem d ((pages e + 1) * PGSIZE) sp c.argv) r := by
  obtain ⟨hend, hword, -, hpage, hvalue⟩ := page_bounds h
  have hstop : ∀ i < c.argv.length, (fun argc => decide (MAXARG ≤ argc)) (0 + i) = false :=
    fun i hi => decide_eq_false (by omega)
  rw [pushArgv, ends_bind]
  by_cases hstrings : sp < (pages e + 1) * PGSIZE + rooms c.argv
  · refine (pushStrings_none h hstop halign hlo hsp hstrings (Or.inl hstack)).mono ?_ fun _ he => he
    rintro y t ⟨rfl, htraced⟩
    exact ⟨rfl, htraced⟩
  have htraced := traced_of_fits hstack halign hword (Nat.le_of_not_lt hstrings) hsp
  refine (pushStrings_fits h hstack hstop halign (by omega) hsp).mono ?_ fun _ he => he.elim
  rintro y t₁ ⟨rfl, h₁⟩
  have hsp₁ : (sp - rooms c.argv + word - (4 + c.argv.length + 1) * 4) % word =
      sp - rooms c.argv - (4 + c.argv.length + 1) * 4 := sub_word (by unfold MAXARG at hargc; omega) (by omega)
  simp only [hsp₁]
  have hfenced := h₁.only.same.fenced h
  have hguard : Walkable t₁.1.mem d (sp - rooms c.argv - (4 + c.argv.length + 1) * 4)
      ((4 + c.argv.length + 1) * 4) := by
    have hmul : (pages e + 1) * PGSIZE = pages e * PGSIZE + PGSIZE := Nat.succ_mul ..
    refine hfenced.walkable_guard ?_ (by omega)
    unfold MAXARG at hargc
    omega
  rw [ends_bind]
  refine (hfenced.copyout_below (show _ ≤ sp - rooms c.argv by omega) (by omega) (by omega)
    (by omega) (by omega)).mono ?_ fun _ he => (he hguard).elim
  rintro ok t ⟨rfl, -⟩
  exact ⟨rfl, fun _ => htraced⟩

/-! ## All of it -/

theorem Ready.pushArguments_fits (h : Ready L r d e) (hstack : (view r.1.mem d (pages e + 1)).p = true)
    (henv : c.env = [] ∨ c.image.phnum < MAXARG) (hargc : c.argv.length < MAXARG)
    (hsz : sz = (pages e + 2) * PGSIZE) (hfit : needed c.argv c.env ≤ PGSIZE) :
    Ends (pushArguments d sz c) (fun y t => y = some (sz - needed c.argv c.env) ∧ StackOnly r t d e ∧
      ArgumentBlock (t.byte d) ((pages e + 1) * PGSIZE) sz (sz - needed c.argv c.env) c.argv c.env)
      (fun _ => False) r := by
  obtain ⟨huser, hbytes⟩ := h.stack hstack
  obtain ⟨hend, hword, halign, hpage, hvalue⟩ := page_bounds h.toFenced
  have hzero : ∀ x, (pages e + 1) * PGSIZE ≤ x → x < (pages e + 2) * PGSIZE → r.byte d x = 0 :=
    fun x hlo hhi => by rw [byte, stack_page hlo hhi, hbytes]
  have hrooms := rooms_mod_four c.env
  have hparts : rooms c.env + 4 * (6 + c.env.length) ≤ PGSIZE ∧
      (pages e + 1) * PGSIZE + (rooms c.argv + 4 * (5 + c.argv.length)) ≤ spEnv sz c.env ∧
      spEnv sz c.env % 4 = 0 ∧ spEnv sz c.env ≤ sz := by
    unfold needed spEnv at *
    omega
  have hsp : spArgv (spEnv sz c.env) c.argv = sz - needed c.argv c.env := by
    unfold needed spArgv spEnv
    omega
  rw [pushArguments, ends_bind]
  refine (h.pushEnv_fits huser henv hsz hparts.1).mono ?_ fun _ he => he
  rintro y t₂ ⟨rfl, t₁, h₁, h₂⟩
  have hsame := h₁.only.same.trans h₂.only.same
  refine ((hsame.fenced h.toFenced).pushArgv_fits (by rwa [User, hsame.mem_eq]) hargc hparts.2.2.1
    (by omega) hparts.2.1).mono ?_ fun _ he => he
  rintro y t₄ ⟨rfl, t₃, h₃, h₄⟩
  refine ⟨by rw [hsp], ((h₁.only.trans h₂.only).trans h₃.only).trans h₄.only, ?_⟩
  exact (laid_of_copies hzero (by omega) hsz h₁ h₂ h₃ h₄).argumentBlock (by omega) (by omega)

/-- The copies of `pushArguments`, up to the first one for which there is no room, find the page
tables on their way. -/
def Passable (mem : Memory) (d lo sz : ℕ) (argv env : List (List UInt8)) : Prop :=
  Traced mem d lo sz env ∧ (lo + (rooms env + 4 * (6 + env.length)) ≤ sz →
    Walkable mem d (spEnv sz env) (4 * (5 + env.length)) ∧ Traced mem d lo (spEnv sz env) argv)

/-- The stack page is there, and the arguments do not fit on it. -/
theorem Ready.pushArguments_none (h : Ready L r d e) (hstack : (view r.1.mem d (pages e + 1)).p = true)
    (henv : c.env = [] ∨ c.image.phnum < MAXARG) (henvc : c.env.length < MAXARG)
    (hargc : c.argv.length < MAXARG) (hsz : sz = (pages e + 2) * PGSIZE)
    (hfit : PGSIZE < needed c.argv c.env) :
    Ends (pushArguments d sz c) (fun y _ => y = none ∧
        (c.null = trapEntry → Passable r.1.mem d ((pages e + 1) * PGSIZE) sz c.argv c.env))
      (fun _ => ¬ Passable r.1.mem d ((pages e + 1) * PGSIZE) sz c.argv c.env) r := by
  obtain ⟨huser, -⟩ := h.stack hstack
  obtain ⟨hend, hword, halign, hpage, hvalue⟩ := page_bounds h.toFenced
  have hrooms := rooms_mod_four c.env
  have halign' : sz % 4 = 0 := by omega
  rw [pushArguments, ends_bind]
  by_cases hfirst : PGSIZE < rooms c.env + 4 * (6 + c.env.length)
  · refine (h.pushEnv_none (Or.inl huser) henv hsz henvc hfirst).mono ?_ fun _ he hpass => he hpass.1
    rintro y t ⟨rfl, htraced⟩
    exact ⟨rfl, fun heq => ⟨htraced heq, fun hle => by omega⟩⟩
  have htraced := traced_of_fits (l := c.env) huser halign' hword (by omega) hsz.le
  have hparts : (pages e + 1) * PGSIZE ≤ spEnv sz c.env ∧ spEnv sz c.env % 4 = 0 ∧
      spEnv sz c.env + 4 * (6 + c.env.length) ≤ sz ∧
      spEnv sz c.env < (pages e + 1) * PGSIZE + (rooms c.argv + 4 * (5 + c.argv.length)) := by
    unfold needed spEnv at *
    omega
  have hwalk : Walkable r.1.mem d (spEnv sz c.env) (4 * (5 + c.env.length)) :=
    Walkable.on_stack huser hparts.1 (by omega)
  refine (h.pushEnv_fits huser henv hsz (by omega)).mono ?_ fun _ he => he.elim
  rintro y t₂ ⟨rfl, t₁, h₁, h₂⟩
  have hsame := h₁.only.same.trans h₂.only.same
  have hrest := @Fenced.pushArgv_none sz _ L t₂ d e c (envStack c.ustack sz c.env)
    (hsame.fenced h.toFenced) (by rwa [User, hsame.mem_eq]) hargc hparts.2.1 hparts.1 (by omega)
    hparts.2.2.2
  rw [hsame.mem_eq] at hrest
  refine hrest.mono ?_ fun _ he hpass => he (hpass.2 (by omega)).2
  rintro y t ⟨rfl, hargv⟩
  exact ⟨rfl, fun heq => ⟨htraced, fun _ => ⟨hwalk, hargv heq⟩⟩⟩

theorem passable_of_fits (h : Fenced L r d e) (hstack : User r.1.mem d (pages e + 1))
    (hsz : sz = (pages e + 2) * PGSIZE) {argv env : List (List UInt8)} (hfit : needed argv env ≤ PGSIZE) :
    Passable r.1.mem d ((pages e + 1) * PGSIZE) sz argv env := by
  obtain ⟨hend, hword, halign, hpage, hvalue⟩ := page_bounds h
  have hrooms := rooms_mod_four env
  have hparts : rooms env + 4 * (6 + env.length) ≤ PGSIZE ∧
      (pages e + 1) * PGSIZE + rooms argv ≤ spEnv sz env ∧ spEnv sz env % 4 = 0 ∧
      spEnv sz env + 4 * (6 + env.length) ≤ sz := by
    unfold needed spEnv at *
    omega
  refine ⟨traced_of_fits hstack (by omega) hword (by omega) hsz.le, fun _ => ⟨?_, ?_⟩⟩
  · exact Walkable.on_stack hstack (by omega) (by omega)
  · exact traced_of_fits hstack hparts.2.2.1 hword hparts.2.1 (by omega)

/-- The page table of the stack page is missing. -/
theorem not_walkable {va len : ℕ} (htable : (r.1.mem d ((pages e + 1) / 1024)).p = false)
    (hlo : (pages e + 1) * PGSIZE ≤ va) (hhi : va < (pages e + 2) * PGSIZE) (hlen : 0 < len) :
    ¬ Walkable r.1.mem d va len := fun hwalk => by
  have hfirst := hwalk va le_rfl (by omega) fun y hy hy' => by omega
  rw [stack_page hlo hhi, htable] at hfirst
  cases hfirst

theorem copyout_traps {va len size : ℕ} {src : Bytes} (hram : InRam r.1.mem d) (hva : va + len ≤ word)
    (hwalk : ¬ Walkable r.1.mem d va len) :
    Ends (copyout trapEntry d size va len src) (fun _ _ => False) (fun _ => True) r :=
  Ends.mono (copyoutFrom_trapEntry hram hva le_rfl) (fun _ _ h => hwalk h) fun _ he => he

theorem Fenced.not_passable {argv env : List (List UInt8)} (h : Fenced L r d e)
    (htable : (r.1.mem d ((pages e + 1) / 1024)).p = false) (hsz : sz = (pages e + 2) * PGSIZE)
    (hroom : ∀ y ∈ env.head?, (pages e + 1) * PGSIZE + room y ≤ sz) :
    ¬ Passable r.1.mem d ((pages e + 1) * PGSIZE) sz argv env := fun hpass => by
  obtain ⟨hend, hword, halign, hpage, hvalue⟩ := page_bounds h
  cases env with
  | nil =>
    have hwalk := (hpass.2 (by rw [rooms_nil, List.length_nil]; omega)).1
    rw [spEnv, rooms_nil, List.length_nil] at hwalk
    exact not_walkable htable (by omega) (by omega) (by omega) hwalk
  | cons y l =>
    have hfits := hroom y rfl
    have hlt := length_lt_room y
    have hwalk := hpass.1.1
    rw [startOf, next_address (by omega) (by omega) (by omega)] at hwalk
    exact not_walkable htable (by omega) (by omega) (by omega) hwalk

/-- Then the first copy that has room reads the word at address zero. -/
theorem Fenced.pushEnv_traps (h : Fenced L r d e) (htable : (r.1.mem d ((pages e + 1) / 1024)).p = false)
    (henv : c.env = [] ∨ c.image.phnum < MAXARG) (hsz : sz = (pages e + 2) * PGSIZE)
    (hroom : ∀ y ∈ c.env.head?, (pages e + 1) * PGSIZE + room y ≤ sz) (hnull : c.null = trapEntry) :
    Ends (pushEnv d sz c) (fun _ _ => False) (fun _ => True) r := by
  obtain ⟨hend, hword, halign, hpage, hvalue⟩ := page_bounds h
  cases hlist : c.env with
  | nil =>
    have hsp : (sz + word - (5 + 0 + 1) * 4) % word = sz - 24 := sub_word (by omega) (by omega)
    rw [pushEnv, hlist, pushStrings, pure_bind]
    simp only [List.length_nil, hsp, hnull]
    rw [ends_bind]
    exact (copyout_traps h.inRam (by omega)
      (not_walkable htable (by omega) (by omega) (by omega))).mono (fun _ _ hfalse => hfalse.elim)
      fun _ he => he
  | cons y l =>
    have hfits := hroom y (by rw [hlist]; rfl)
    have hlt := length_lt_room y
    have hgo : ¬ decide (MAXARG ≤ c.image.phnum) = true := by
      rw [decide_eq_true_eq, Nat.not_le]
      exact henv.resolve_left fun hnil => by rw [hnil] at hlist; cases hlist
    rw [pushEnv, hlist, pushStrings, if_neg hgo, next_address (by omega) (by omega) (by omega), hnull,
      ends_bind, ends_bind]
    exact (copyout_traps h.inRam (by omega)
      (not_walkable htable (by omega) (by omega) (by omega))).mono (fun _ _ hfalse => hfalse.elim)
      fun _ he => he

theorem Fenced.pushArguments_without_table (h : Fenced L r d e)
    (htable : (r.1.mem d ((pages e + 1) / 1024)).p = false)
    (henv : c.env = [] ∨ c.image.phnum < MAXARG) (henvc : c.env.length < MAXARG)
    (hsz : sz = (pages e + 2) * PGSIZE) :
    Ends (pushArguments d sz c) (fun y _ =>
        (c.null = trapEntry → Passable r.1.mem d ((pages e + 1) * PGSIZE) sz c.argv c.env) ∧
        (Passable r.1.mem d ((pages e + 1) * PGSIZE) sz c.argv c.env →
          (y = none ↔ PGSIZE < needed c.argv c.env)))
      (fun _ => ¬ Passable r.1.mem d ((pages e + 1) * PGSIZE) sz c.argv c.env) r := by
  obtain ⟨hend, -, -, -, -⟩ := page_bounds h
  by_cases hroom : ∀ y ∈ c.env.head?, (pages e + 1) * PGSIZE + room y ≤ sz
  · have hnot : ¬ Passable r.1.mem d ((pages e + 1) * PGSIZE) sz c.argv c.env :=
      h.not_passable htable hsz hroom
    by_cases hnull : c.null = trapEntry
    · rw [pushArguments, ends_bind]
      exact (h.pushEnv_traps htable henv hsz hroom hnull).mono (fun _ _ hfalse => hfalse.elim)
        fun _ _ => hnot
    · exact ends_iff.mpr ⟨fun _ _ _ => ⟨fun heq => (hnull heq).elim, fun hpass => (hnot hpass).elim⟩,
        fun _ _ => hnot⟩
  · push Not at hroom
    obtain ⟨y, hy, hlt⟩ := hroom
    have hle := room_le_rooms (List.mem_of_mem_head? hy)
    have hbig : PGSIZE < rooms c.env + 4 * (6 + c.env.length) := by omega
    rw [pushArguments, ends_bind]
    refine (h.pushEnv_none (Or.inr ⟨y, hy, hlt⟩) henv hsz henvc hbig).mono ?_ fun _ he hpass => he hpass.1
    rintro x t ⟨rfl, htraced⟩
    refine ⟨fun heq => ⟨htraced heq, fun hfits => by omega⟩, fun _ => ⟨fun _ => ?_, fun _ => rfl⟩⟩
    unfold needed
    omega

/-- The arguments are refused for their size only, and nothing is read through address zero, if
the copies find the page tables on their way. -/
theorem Ready.pushArguments_size (h : Ready L r d e) (henv : c.env = [] ∨ c.image.phnum < MAXARG)
    (henvc : c.env.length < MAXARG) (hargc : c.argv.length < MAXARG) (hsz : sz = (pages e + 2) * PGSIZE) :
    Ends (pushArguments d sz c) (fun y _ =>
        (c.null = trapEntry → Passable r.1.mem d ((pages e + 1) * PGSIZE) sz c.argv c.env) ∧
        (Passable r.1.mem d ((pages e + 1) * PGSIZE) sz c.argv c.env →
          (y = none ↔ PGSIZE < needed c.argv c.env)))
      (fun _ => ¬ Passable r.1.mem d ((pages e + 1) * PGSIZE) sz c.argv c.env) r := by
  cases htable : (r.1.mem d ((pages e + 1) / 1024)).p with
  | false => exact h.pushArguments_without_table htable henv henvc hsz
  | true =>
    have hstack := h.tied htable
    by_cases hfit : needed c.argv c.env ≤ PGSIZE
    · have hpass := passable_of_fits h.toFenced (h.stack hstack).1 hsz hfit
      refine (h.pushArguments_fits hstack henv hargc hsz hfit).mono ?_ fun _ he => he.elim
      rintro y t ⟨rfl, -⟩
      exact ⟨fun _ => hpass, fun _ => ⟨fun hnone => (by cases hnone), fun hlt => by omega⟩⟩
    · refine (h.pushArguments_none hstack henv henvc hargc hsz (Nat.lt_of_not_le hfit)).mono ?_
        fun _ he => he
      rintro y t ⟨rfl, hpass⟩
      exact ⟨hpass, fun _ => ⟨fun _ => Nat.lt_of_not_le hfit, fun _ => rfl⟩⟩

end Ram

end Lainos.Vm
