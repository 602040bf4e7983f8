import Lainos.Shell.Soundness

/-!
# The parser accepts the grammar

A derivation, followed by a token that cannot continue it, leads the parser through the
same steps. Together with soundness this says what `parsecmd` accepts and returns.
-/

namespace Lainos.Shell

variable {line ps s : Ptr} {t : Tok} {ts r : List Tok} {toks : List UInt8} {c : UInt8}

/-! ## Completeness -/

/-- The next token is none of those that begin with a byte of `toks`. -/
def Avoids (r : List Tok) (toks : List UInt8) : Prop := ∀ t ∈ r.head?, t.lead ∉ toks

/-- The next token, if there is one, begins with a byte of `toks`. -/
def Follows (r : List Tok) (toks : List UInt8) : Prop := ∀ t ∈ r.head?, t.lead ∈ toks

theorem peek_of_avoids (hclean : 0 ∉ ps) (htoks : ∀ c ∈ toks, c ∈ symbols)
    (h : Avoids (tokens ps) toks) : peek ps toks = (false, skipBlanks ps) := by
  rw [peek_eq hclean htoks, decide_eq_false]
  rintro ⟨t, ht, hlead⟩
  exact h t ht hlead

theorem peek_of_cons (hclean : 0 ∉ ps) (htoks : ∀ c ∈ toks, c ∈ symbols) (h : tokens ps = t :: ts)
    (hlead : t.lead ∈ toks) : peek ps toks = (true, skipBlanks ps) := by
  rw [peek_eq hclean htoks, decide_eq_true]
  exact ⟨t, by rw [h]; rfl, hlead⟩

theorem Follows.avoids {toks' : List UInt8} (h : Follows r toks) (hdisj : ∀ c ∈ toks, c ∉ toks') :
    Avoids r toks' := fun t ht => hdisj _ (h t ht)

theorem avoids_cons (h : t.lead ∉ toks) : Avoids (t :: ts) toks := by
  intro t' ht'
  obtain rfl : t = t' := by simpa using ht'
  exact h

/-- A parsing function gives the command `c` and leaves the tokens `r`, unless there is
too little fuel. -/
def Yields (x : Result) (ps : Ptr) (c : Cmd (List UInt8)) (r : List Tok) : Prop :=
  Ends x (fun a => a.1.map Word.span = c ∧ tokens a.2 = r ∧ a.2 <:+ ps) (· = .fuel)

theorem not_mem_of_suffix {ps' : Ptr} (h : ps' <:+ ps) (hclean : 0 ∉ ps) : 0 ∉ ps' :=
  fun h0 => hclean (h.subset h0)

theorem Operator.lead {mode : UInt32} {fd : ℕ} (h : Operator t mode fd) :
    t.lead ∈ ([60, 62] : List UInt8) := by
  cases h <;> decide

theorem parseredirs_yields {rs : List Redir} (h : Redirs ts rs) {fuel : ℕ} {cmd : Cmd Word}
    (hclean : 0 ∉ ps) (hts : tokens ps = ts ++ r) (hr : Avoids r [60, 62]) :
    Yields (parseredirs fuel cmd ps) ps (rs.foldl Redir.wrap (cmd.map Word.span)) r := by
  induction h generalizing fuel cmd ps with
  | nil =>
    cases fuel with
    | zero => rfl
    | succ fuel =>
      rw [List.nil_append] at hts
      rw [parseredirs, peek_of_avoids hclean (by simp [symbols]) (hts ▸ hr)]
      exact ⟨rfl, by rw [tokens_skipBlanks, hts], skipBlanks_suffix ps⟩
  | @cons op mode fd w ts rs hop _ ih =>
    cases fuel with
    | zero => rfl
    | succ fuel =>
      obtain ⟨-, htok, hts₁⟩ := gettoken_of_tokens hts
      obtain ⟨-, hword, hts₂⟩ := gettoken_of_tokens hts₁
      obtain ⟨hret, hspan⟩ := Gotten.ret_of_word hword
      have hps₁ := gettoken_suffix ps
      have hps₂ := gettoken_suffix (gettoken ps).ps
      rw [parseredirs, peek_of_cons hclean (by simp [symbols]) hts hop.lead]
      dsimp only
      rw [if_pos rfl, gettoken_skipBlanks, if_neg (not_not.mpr hret),
        redircmd_of_operator (htok ▸ hop)]
      refine (ih (not_mem_of_suffix (hps₂.trans hps₁) hclean) hts₂).mono ?_
      rintro ⟨c, ps'⟩ ⟨hc, hts', hsuf⟩
      refine ⟨?_, hts', hsuf.trans (hps₂.trans hps₁)⟩
      rw [hc, Cmd.map, hspan]
      rfl

theorem Args.avoids {ws : List (List UInt8)} {rs : List Redir} (h : Args ts ws rs)
    (hr : Avoids r [60, 62]) : Avoids (ts ++ r) [60, 62] := by
  cases h with
  | nil => exact hr
  | cons => exact avoids_cons (by simp [Tok.lead])

theorem parseargs_yields {ws : List (List UInt8)} {rs : List Redir} (h : Args ts ws rs)
    {fuel argc : ℕ} {ret : Cmd Word} (hclean : 0 ∉ ps) (hts : tokens ps = ts ++ r)
    (hr : Follows r [124, 41, 38, 59]) (hargc : argc + ws.length < MAXARGS) :
    Yields (parseargs fuel argc ret ps) ps
      (rs.foldl Redir.wrap (addArgs ws (ret.map Word.span))) r := by
  induction h generalizing fuel argc ret ps with
  | nil =>
    rw [List.nil_append] at hts
    cases fuel with
    | zero => rfl
    | succ fuel =>
      rw [parseargs]
      cases r with
      | nil =>
        have hret := gettoken_ret_of_nil hts
        rw [peek_of_avoids hclean (by simp [symbols]) (by rw [hts]; intro t ht; cases ht)]
        dsimp only
        rw [if_neg (by decide), gettoken_skipBlanks, if_pos hret]
        refine ⟨rfl, ?_, gettoken_suffix ps⟩
        dsimp only
        rw [gettoken_end hclean hret]
        exact tokens_eq_nil rfl
      | cons t r =>
        rw [peek_of_cons hclean (by simp [symbols]) hts (hr t rfl)]
        exact ⟨rfl, by rw [tokens_skipBlanks, hts], skipBlanks_suffix ps⟩
  | @cons w ts ts' ws rs rs' hrs hargs ih =>
    cases fuel with
    | zero => rfl
    | succ fuel =>
      obtain ⟨hzero, hword, hts₁⟩ := gettoken_of_tokens hts
      obtain ⟨hret, hspan⟩ := Gotten.ret_of_word hword
      have hps₁ := gettoken_suffix ps
      have hclean₁ := not_mem_of_suffix hps₁ hclean
      rw [List.length_cons] at hargc
      rw [parseargs, peek_of_avoids hclean (by simp [symbols]) (by rw [hts]; exact avoids_cons (by simp [Tok.lead]))]
      dsimp only
      rw [if_neg (by decide), gettoken_skipBlanks, if_neg hzero, if_neg (not_not.mpr hret),
        if_neg (by omega), Yields, ends_bind]
      refine (parseredirs_yields hrs hclean₁ (hts₁.trans (List.append_assoc ..))
        (hargs.avoids (hr.avoids (by simp)))).mono ?_
      rintro ⟨ret₁, ps₁⟩ ⟨hret₁, hts₂, hsuf₁⟩
      refine (ih (not_mem_of_suffix hsuf₁ hclean₁) hts₂ (by omega)).mono ?_
      rintro ⟨c, ps'⟩ ⟨hc, hts', hsuf⟩
      refine ⟨?_, hts', hsuf.trans (hsuf₁.trans hps₁)⟩
      rw [hc, hret₁, addArgs_wraps, List.foldl_append, map_addArg, hspan]
      rfl

theorem parseback_yields {n fuel : ℕ} {cmd : Cmd Word} (hclean : 0 ∉ ps)
    (hts : tokens ps = List.replicate n (.sym 38) ++ r) (hr : Avoids r [38]) :
    Yields (parseback fuel cmd ps) ps (backs n (cmd.map Word.span)) r := by
  induction n generalizing fuel cmd ps with
  | zero =>
    rw [List.replicate_zero, List.nil_append] at hts
    cases fuel with
    | zero => rfl
    | succ fuel =>
      rw [parseback, peek_of_avoids hclean (by simp [symbols]) (hts ▸ hr)]
      exact ⟨rfl, by rw [tokens_skipBlanks, hts], skipBlanks_suffix ps⟩
  | succ n ih =>
    cases fuel with
    | zero => rfl
    | succ fuel =>
      obtain ⟨-, -, hts₁⟩ := gettoken_of_tokens hts
      have hps₁ := gettoken_suffix ps
      rw [parseback, peek_of_cons hclean (by simp [symbols]) hts (by decide)]
      dsimp only
      rw [if_pos rfl, gettoken_skipBlanks]
      refine (@ih (gettoken ps).ps fuel cmd.back (not_mem_of_suffix hps₁ hclean) hts₁).mono ?_
      rintro ⟨c, ps'⟩ ⟨hc, hts', hsuf⟩
      exact ⟨hc, hts', hsuf.trans hps₁⟩

def parse : Nt → ℕ → Ptr → Result
  | .line => parseline
  | .pipe => parsepipe
  | .exec => parseexec

/-- The symbols that can come behind what a nonterminal derives. -/
def follow : Nt → List UInt8
  | .line => [41]
  | .pipe => [41, 38, 59]
  | .exec => [124, 41, 38, 59]

theorem follows_cons (h : t.lead ∈ toks) : Follows (t :: ts) toks := by
  intro t' ht'
  obtain rfl : t = t' := by simpa using ht'
  exact h

theorem Follows.mono {toks' : List UInt8} (h : Follows r toks) (hsub : ∀ c ∈ toks, c ∈ toks') :
    Follows r toks' := fun t ht => hsub _ (h t ht)

theorem follows_replicate {n : ℕ} (h : Follows r [41, 59]) :
    Follows (List.replicate n (.sym 38) ++ r) (follow .pipe) := by
  cases n with
  | zero => exact h.mono (by simp [follow])
  | succ n => exact follows_cons (by decide)

theorem Redirs.avoids {rs : List Redir} (h : Redirs ts rs) (hr : Avoids r [40]) :
    Avoids (ts ++ r) [40] := by
  cases h with
  | nil => exact hr
  | cons hop _ => cases hop <;> exact avoids_cons (by decide)

/-- A pipe and its `&`s, once they are parsed. -/
theorem ends_parseback {c : Cmd (List UInt8)} {n fuel : ℕ} {f : Cmd Word × Ptr → Result}
    {Q : Cmd Word × Ptr → Prop} (hclean : 0 ∉ ps) (hr : Follows r [41, 59])
    (h : Yields (parsepipe fuel ps) ps c (List.replicate n (.sym 38) ++ r))
    (hf : ∀ a, a.1.map Word.span = backs n c → tokens a.2 = r → a.2 <:+ ps → Ends (f a) Q (· = .fuel)) :
    Ends (parsepipe fuel ps >>= fun a => parseback fuel a.1 a.2 >>= f) Q (· = .fuel) := by
  rw [ends_bind]
  refine Ends.mono h ?_
  rintro ⟨c₁, ps₁⟩ ⟨hc₁, hts₁, hsuf₁⟩
  rw [ends_bind]
  refine (parseback_yields (not_mem_of_suffix hsuf₁ hclean) hts₁ (hr.avoids (by simp))).mono ?_
  rintro ⟨c₂, ps₂⟩ ⟨hc₂, hts₂, hsuf₂⟩
  exact hf _ (by rw [hc₂, hc₁]) hts₂ (hsuf₂.trans hsuf₁)

/-- A derivation is followed by the parser. -/
theorem Derives.yields {nt : Nt} {c : Cmd (List UInt8)} (h : Derives nt ts c) {fuel : ℕ}
    (hclean : 0 ∉ ps) (hts : tokens ps = ts ++ r) (hr : Follows r (follow nt)) :
    Yields (parse nt fuel ps) ps c r := by
  induction h generalizing fuel ps r with
  | @line ts c n _ ih =>
    cases fuel with
    | zero => rfl
    | succ fuel =>
      have hr' : Follows r [41, 59] := hr.mono (by simp [follow])
      rw [List.append_assoc] at hts
      rw [parse, Yields, parseline]
      refine ends_parseback hclean hr' (ih hclean hts (follows_replicate hr')) ?_
      rintro ⟨c₂, ps₂⟩ hc₂ hts₂ hsuf₂
      dsimp only at hc₂ hts₂ hsuf₂ ⊢
      rw [peek_of_avoids (not_mem_of_suffix hsuf₂ hclean) (by simp [symbols])
        (hts₂ ▸ hr.avoids (by simp [follow]))]
      exact ⟨hc₂, by rw [tokens_skipBlanks, hts₂], (skipBlanks_suffix ps₂).trans hsuf₂⟩
  | @list ts ts' c c' n _ _ ih ih' =>
    cases fuel with
    | zero => rfl
    | succ fuel =>
      have hr' : Follows (.sym 59 :: ts' ++ r) [41, 59] := follows_cons (by decide)
      rw [List.append_assoc, List.append_assoc] at hts
      rw [parse, Yields, parseline]
      refine ends_parseback hclean hr' (ih hclean hts (follows_replicate hr')) ?_
      rintro ⟨c₂, ps₂⟩ hc₂ hts₂ hsuf₂
      dsimp only at hc₂ hts₂ hsuf₂ ⊢
      have hclean₂ := not_mem_of_suffix hsuf₂ hclean
      have hps₃ := gettoken_suffix ps₂
      rw [peek_of_cons hclean₂ (by simp [symbols]) hts₂ (by decide)]
      dsimp only
      rw [if_pos rfl, gettoken_skipBlanks, ends_bind]
      refine Ends.mono (ih' (not_mem_of_suffix hps₃ hclean₂) (gettoken_of_tokens hts₂).2.2 hr) ?_
      rintro ⟨c₃, ps'⟩ ⟨hc₃, hts', hsuf⟩
      exact ⟨by rw [Cmd.map, hc₂, hc₃], hts', hsuf.trans (hps₃.trans hsuf₂)⟩
  | @single ts c _ ih =>
    cases fuel with
    | zero => rfl
    | succ fuel =>
      rw [parse, Yields, parsepipe, ends_bind]
      refine Ends.mono (ih hclean hts (hr.mono (by simp [follow]))) ?_
      rintro ⟨c₁, ps₁⟩ ⟨hc₁, hts₁, hsuf₁⟩
      dsimp only at hc₁ hts₁ hsuf₁ ⊢
      rw [peek_of_avoids (not_mem_of_suffix hsuf₁ hclean) (by simp [symbols])
        (hts₁ ▸ hr.avoids (by simp [follow]))]
      exact ⟨hc₁, by rw [tokens_skipBlanks, hts₁], (skipBlanks_suffix ps₁).trans hsuf₁⟩
  | @pipe ts ts' c c' _ _ ih ih' =>
    cases fuel with
    | zero => rfl
    | succ fuel =>
      rw [List.append_assoc] at hts
      rw [parse, Yields, parsepipe, ends_bind]
      refine Ends.mono (ih hclean hts (follows_cons (by decide))) ?_
      rintro ⟨c₁, ps₁⟩ ⟨hc₁, hts₁, hsuf₁⟩
      dsimp only at hc₁ hts₁ hsuf₁ ⊢
      have hclean₁ := not_mem_of_suffix hsuf₁ hclean
      have hps₂ := gettoken_suffix ps₁
      rw [peek_of_cons hclean₁ (by simp [symbols]) hts₁ (by decide)]
      dsimp only
      rw [if_pos rfl, gettoken_skipBlanks, ends_bind]
      refine Ends.mono (ih' (not_mem_of_suffix hps₂ hclean₁) (gettoken_of_tokens hts₁).2.2 hr) ?_
      rintro ⟨c₂, ps'⟩ ⟨hc₂, hts', hsuf⟩
      exact ⟨by rw [Cmd.map, hc₁, hc₂], hts', hsuf.trans (hps₂.trans hsuf₁)⟩
  | @block ts ts' c rs _ hrs ih =>
    cases fuel with
    | zero => rfl
    | succ fuel =>
      rw [List.cons_append, List.append_assoc] at hts
      rw [parse, parseexec, peek_of_cons hclean (by simp [symbols]) hts (by decide)]
      cases fuel with
      | zero => rfl
      | succ fuel =>
        have hskip := skipBlanks_suffix ps
        have hps₁ := gettoken_suffix ps
        have hts₁ := (gettoken_of_tokens hts).2.2
        dsimp only
        rw [if_pos rfl, parseblock, peek_of_cons (not_mem_of_suffix hskip hclean) (by simp [symbols])
          ((tokens_skipBlanks ps).trans hts) (by decide)]
        dsimp only
        rw [if_pos rfl, gettoken_skipBlanks, gettoken_skipBlanks, Yields, ends_bind]
        refine Ends.mono (ih (not_mem_of_suffix hps₁ hclean) hts₁ (follows_cons (by decide))) ?_
        rintro ⟨c₂, ps₂⟩ ⟨hc₂, hts₂, hsuf₂⟩
        dsimp only at hc₂ hts₂ hsuf₂ ⊢
        have hclean₂ := not_mem_of_suffix (hsuf₂.trans hps₁) hclean
        have hps₃ := gettoken_suffix ps₂
        rw [peek_of_cons hclean₂ (by simp [symbols]) hts₂ (by decide)]
        dsimp only
        rw [if_pos rfl, gettoken_skipBlanks, ← hc₂]
        refine Ends.mono (parseredirs_yields hrs (not_mem_of_suffix hps₃ hclean₂)
          (gettoken_of_tokens hts₂).2.2 (hr.avoids (by simp [follow]))) ?_
        rintro ⟨c₃, ps'⟩ ⟨hc₃, hts', hsuf⟩
        exact ⟨hc₃, hts', hsuf.trans (hps₃.trans (hsuf₂.trans hps₁))⟩
  | @simple ts ts' ws rs rs' hrs hargs hlen =>
    cases fuel with
    | zero => rfl
    | succ fuel =>
      have hskip := skipBlanks_suffix ps
      have hclean' := not_mem_of_suffix hskip hclean
      rw [List.append_assoc] at hts
      have hbracket : Avoids (tokens ps) [40] := by
        rw [hts]
        refine hrs.avoids ?_
        cases hargs with
        | nil => exact hr.avoids (by simp [follow])
        | cons => exact avoids_cons (by simp [Tok.lead])
      rw [parse, parseexec, peek_of_avoids hclean (by simp [symbols]) hbracket]
      dsimp only
      rw [if_neg (by decide), Yields, ends_bind]
      refine (parseredirs_yields hrs hclean' ((tokens_skipBlanks ps).trans hts)
        (hargs.avoids (hr.avoids (by simp [follow])))).mono ?_
      rintro ⟨ret, ps₁⟩ ⟨hret, hts₁, hsuf₁⟩
      refine (parseargs_yields hargs (not_mem_of_suffix hsuf₁ hclean') hts₁ hr ?_).mono ?_
      · simp only [MAXARGS] at hlen ⊢
        omega
      rintro ⟨c, ps'⟩ ⟨hc, hts', hsuf⟩
      refine ⟨?_, hts', hsuf.trans (hsuf₁.trans hskip)⟩
      rw [hc, hret, addArgs_wraps, ← List.foldl_append, Cmd.map, List.map_nil, addArgs_exec,
        List.nil_append]

/-! ## The strings -/

theorem map_congr_words {α β : Type} {f g : α → β} {c : Cmd α} (h : ∀ w ∈ c.words, f w = g w) :
    c.map f = c.map g := by
  induction c with
  | exec argv => exact congrArg Cmd.exec (List.map_congr_left h)
  | redir c file mode fd ih =>
    rw [Cmd.map, Cmd.map, ih fun w hw => h w (List.mem_append_left _ hw),
      h file (List.mem_append_right _ (List.mem_singleton_self _))]
  | pipe l r ihl ihr | list l r ihl ihr =>
    rw [Cmd.map, Cmd.map, ihl fun w hw => h w (List.mem_append_left _ hw),
      ihr fun w hw => h w (List.mem_append_right _ hw)]
  | back c ih => rw [Cmd.map, Cmd.map, ih h]

theorem foldl_update_zero (ks : List Word) (buf : ℕ → UInt8) (i : ℕ) :
    ks.foldl (fun buf w => Function.update buf (indexOf line w.eq) 0) buf i =
      if ∃ w ∈ ks, indexOf line w.eq = i then 0 else buf i := by
  induction ks generalizing buf with
  | nil => simp
  | cons w ks ih =>
    rw [List.foldl_cons, ih, Function.update_apply]
    by_cases hi : indexOf line w.eq = i
    · simp [hi]
    · simp [hi, Ne.symm hi]

theorem cstring_eq {buf : ℕ → UInt8} {text : List UInt8} {n i : ℕ} (hn : text.length < n)
    (htext : ∀ j (hj : j < text.length), buf (i + j) = text[j] ∧ text[j] ≠ 0)
    (hend : buf (i + text.length) = 0) : cstring buf n i = text := by
  induction text generalizing n i with
  | nil =>
    cases n with
    | zero => rfl
    | succ n => exact if_pos hend
  | cons c text ih =>
    rw [List.length_cons] at hn hend
    obtain ⟨n, rfl⟩ : ∃ m, n = m + 1 := ⟨n - 1, by omega⟩
    obtain ⟨hbuf, hc⟩ := htext 0 (by simp)
    rw [Nat.add_zero, List.getElem_cons_zero] at hbuf
    rw [List.getElem_cons_zero] at hc
    rw [cstring, if_neg (by rwa [hbuf]), hbuf]
    congr 1
    refine ih (by omega) (fun j hj => ?_) ?_
    · rw [Nat.add_assoc, Nat.add_comm 1]
      exact htext (j + 1) (by rw [List.length_cons]; omega)
    · rw [Nat.add_assoc, Nat.add_comm 1]
      exact hend

/-- Where the text of a word is in the line. -/
theorem Valid.split_line {w : Word} (h : Valid line w) : ∃ pre text, line = pre ++ (text ++ w.eq) ∧
    indexOf line w.q = pre.length ∧ indexOf line w.eq = pre.length + text.length ∧
      w.span = text ∧ ∀ c ∈ text, Plain c := by
  obtain ⟨pre, hpre⟩ := h.suffix
  obtain ⟨text, hq, hplain⟩ := h.split
  rw [hq] at hpre
  refine ⟨pre, text, hpre.symm, ?_, ?_, ?_, hplain⟩
  · rw [indexOf, ← hpre, hq, List.length_append, Nat.add_sub_cancel]
  · rw [indexOf, ← hpre, ← List.append_assoc, List.length_append, Nat.add_sub_cancel,
      List.length_append]
  · rw [Word.span, hq, List.length_append, Nat.add_sub_cancel, List.take_left]

/-- No NUL is stored inside a word. -/
theorem Valid.indexOf_eq_ne {w w' : Word} (h : Valid line w) (h' : Valid line w') {j : ℕ}
    (hj : indexOf line w.q + j < indexOf line w.eq) : indexOf line w'.eq ≠ indexOf line w.q + j := by
  obtain ⟨pre, text, hline, hq, he, -, hplain⟩ := h.split_line
  obtain ⟨pre', text', hline', -, he', -, -⟩ := h'.split_line
  rw [hq, he] at hj
  have hjlt : j < text.length := by omega
  intro heq
  rw [he', hq] at heq
  have hc : (line)[pre.length + j]? = some text[j] := by
    rw [hline, List.getElem?_append_right (by omega), Nat.add_sub_cancel_left,
      List.getElem?_append_left hjlt, List.getElem?_eq_getElem hjlt]
  have hc' : (line)[pre.length + j]? = w'.eq.head? := by
    rw [← heq, hline', ← List.append_assoc, List.getElem?_append_right (by simp),
      List.length_append, Nat.sub_self, List.head?_eq_getElem?]
  exact h'.ends _ (hc'.symm.trans hc) (hplain _ (List.getElem_mem hjlt))

theorem cstring_nulterminate (hline : 0 ∉ line) {cmd : Cmd Word}
    (hwords : ∀ w ∈ cmd.words, Valid line w) {w : Word} (hw : w ∈ cmd.words) :
    cstring (nulterminate line cmd) (line.length + 1) (indexOf line w.q) = w.span := by
  have hvalid := hwords w hw
  obtain ⟨pre, text, hsplit, hq, he, hspan, -⟩ := hvalid.split_line
  have hlen := congrArg List.length hsplit
  rw [List.length_append, List.length_append] at hlen
  rw [hspan]
  refine cstring_eq (by omega) (fun j hj => ⟨?_, fun h0 => hline ?_⟩) ?_
  · rw [nulterminate, foldl_update_zero, if_neg, List.getD_eq_getElem?_getD, hq, hsplit,
      List.getElem?_append_right (by omega), Nat.add_sub_cancel_left,
      List.getElem?_append_left hj, List.getElem?_eq_getElem hj, Option.getD_some]
    rintro ⟨w', hw', heq⟩
    exact hvalid.indexOf_eq_ne (hwords w' hw') (by omega) heq
  · rw [← h0, hsplit]
    exact List.mem_append_right _ (List.mem_append_left _ (List.getElem_mem hj))
  · rw [nulterminate, foldl_update_zero, if_pos ⟨w, hw, by omega⟩]

theorem skipBlanks_eq_nil (hclean : 0 ∉ ps) : skipBlanks ps = [] ↔ tokens ps = [] := by
  constructor
  · intro h
    rw [← tokens_skipBlanks, h]
    exact tokens_eq_nil rfl
  · intro h
    cases hs : skipBlanks ps with
    | nil => rfl
    | cons c s => exact absurd (gettoken_ret_of_nil h) (lead_tok hclean hs).1

/-! ## The result -/

theorem Derives.parseline {c : Cmd (List UInt8)} (h : Derives .line (tokens line) c)
    (hline : 0 ∉ line) (fuel : ℕ) : Yields (parseline fuel line) line c [] :=
  h.yields hline (List.append_nil _).symm fun _ ht => by cases ht

/-- What `parsecmd` does with the result of `parseline`. -/
theorem ends_parsecmd (hline : 0 ∉ line) :
    Ends (parsecmd line) (Derives .line (tokens line)) (· ≠ .fuel) := by
  rw [parsecmd, ends_bind]
  refine ((parse_sound hline (4 * line.length + 4)).1 line List.suffix_rfl le_rfl).mono ?_
  rintro ⟨cmd, s⟩ ⟨hrest, hwords, ts, hts, hd⟩
  dsimp only at hrest hwords hts hd ⊢
  have hclean : 0 ∉ s := not_mem_of_suffix hrest hline
  rw [peek_eq hclean (by simp)]
  dsimp only
  split_ifs with hend
  · exact fun h => by cases h
  · rw [(skipBlanks_eq_nil hclean).mp (of_not_not hend), List.append_nil] at hts
    have hstrings := map_congr_words fun w hw => cstring_nulterminate hline hwords hw
    change Derives .line (tokens line) _
    rwa [hstrings, hts]

theorem parsecmd_of_derives {c : Cmd (List UInt8)} (hline : 0 ∉ line)
    (h : Derives .line (tokens line) c) : parsecmd line = .ok c := by
  have hyields := h.parseline hline (4 * line.length + 4)
  have hsound := (parse_sound hline (4 * line.length + 4)).1 line List.suffix_rfl le_rfl
  rw [parsecmd]
  cases hrun : parseline (4 * line.length + 4) line with
  | error e =>
    rw [hrun] at hyields hsound
    exact absurd hyields hsound
  | ok a =>
    obtain ⟨cmd, s⟩ := a
    rw [hrun] at hyields hsound
    obtain ⟨rfl, hnil, hsuf⟩ := hyields
    dsimp only at hnil hsuf
    have hclean : 0 ∉ s := not_mem_of_suffix hsuf hline
    have hstrings := map_congr_words fun w hw => cstring_nulterminate hline hsound.words hw
    dsimp only [bind, Except.bind] at hstrings ⊢
    rw [peek_eq hclean (by simp)]
    dsimp only
    rw [if_neg (not_not.mpr ((skipBlanks_eq_nil hclean).mpr hnil)), hstrings]
    rfl

theorem derives_of_parsecmd {c : Cmd (List UInt8)} (hline : 0 ∉ line)
    (h : parsecmd line = .ok c) : Derives .line (tokens line) c := by
  have hends := ends_parsecmd hline
  rwa [h] at hends

/-- `parsecmd` ends on every line. It gives a command just if the grammar derives the
tokens of the line, and then it is the command that goes with the derivation. -/
theorem parsecmd_ok_iff (line : List UInt8) (hline : 0 ∉ line) :
    parsecmd line ≠ .error .fuel ∧ ∀ c, parsecmd line = .ok c ↔ Derives .line (tokens line) c := by
  refine ⟨fun h => ?_, fun c => ⟨derives_of_parsecmd hline, parsecmd_of_derives hline⟩⟩
  have hends := ends_parsecmd hline
  rw [h] at hends
  exact hends rfl

/-- The line `ls | wc > out &`. -/
theorem parsecmd_ok_iff_example :
    (0 : UInt8) ∉ ([108, 115, 32, 124, 32, 119, 99, 32, 62, 111, 117, 116, 32, 38] : List UInt8) ∧
    parsecmd [108, 115, 32, 124, 32, 119, 99, 32, 62, 111, 117, 116, 32, 38] =
      .ok (.back (.pipe (.exec [[108, 115]]) (.redir (.exec [[119, 99]]) [111, 117, 116]
        (O_WRONLY ||| O_CREATE) 1))) ∧
    Derives .line (tokens [108, 115, 32, 124, 32, 119, 99, 32, 62, 111, 117, 116, 32, 38])
      (.back (.pipe (.exec [[108, 115]]) (.redir (.exec [[119, 99]]) [111, 117, 116]
        (O_WRONLY ||| O_CREATE) 1))) := by
  have hrun : parsecmd [108, 115, 32, 124, 32, 119, 99, 32, 62, 111, 117, 116, 32, 38] =
      .ok (.back (.pipe (.exec [[108, 115]]) (.redir (.exec [[119, 99]]) [111, 117, 116]
        (O_WRONLY ||| O_CREATE) 1))) := by rfl
  exact ⟨by decide, hrun, ((parsecmd_ok_iff _ (by decide)).2 _).mp hrun⟩

/-! ## What `nulterminate` writes -/

/-- The words of a tree in the buffer after `nulterminate`. -/
structure Intact (line : Ptr) (cmd : Cmd Word) : Prop where
  /-- Every word is one that `gettoken` delimited. -/
  token : ∀ w ∈ cmd.words, ∃ ps, ps <:+ line ∧ (gettoken ps).ret = 97 ∧
    w = ⟨(gettoken ps).q, (gettoken ps).eq⟩
  reads : ∀ w ∈ cmd.words,
    cstring (nulterminate line cmd) (line.length + 1) (indexOf line w.q) = w.span
  /-- The terminators are not before the line and not behind its final NUL. -/
  inside : ∀ w ∈ cmd.words, w.eq <:+ line
  apart : ∀ w ∈ cmd.words, ∀ w' ∈ cmd.words,
    ¬ (indexOf line w'.q ≤ indexOf line w.eq ∧ indexOf line w.eq < indexOf line w'.eq)
  frame : ∀ i, (∀ w ∈ cmd.words, indexOf line w.eq ≠ i) → nulterminate line cmd i = line.getD i 0

theorem intact_of_valid (hline : 0 ∉ line) {cmd : Cmd Word} (hwords : ∀ w ∈ cmd.words, Valid line w) :
    Intact line cmd where
  token w hw := (hwords w hw).token
  reads w hw := cstring_nulterminate hline hwords hw
  inside w hw := by
    obtain ⟨pre, text, hsplit, -⟩ := (hwords w hw).split_line
    exact ⟨pre ++ text, by rw [hsplit, List.append_assoc]⟩
  apart w hw w' hw' hinside := by
    obtain ⟨j, hj⟩ := Nat.exists_eq_add_of_le hinside.1
    rw [hj] at hinside
    exact (hwords w' hw').indexOf_eq_ne (hwords w hw) hinside.2 hj
  frame i hi := by
    rw [nulterminate, foldl_update_zero, if_neg]
    rintro ⟨w, hw, heq⟩
    exact hi w hw heq

/-- Whenever `parsecmd` returns, the words of its tree are what `gettoken` delimited. -/
theorem parsecmd_intact {c : Cmd (List UInt8)} (hline : 0 ∉ line) (h : parsecmd line = .ok c) :
    ∃ cmd s, parseline (4 * line.length + 4) line = .ok (cmd, s) ∧ c = cmd.map Word.span ∧
      Intact line cmd := by
  have hsound := (parse_sound hline (4 * line.length + 4)).1 line List.suffix_rfl le_rfl
  rw [parsecmd] at h
  cases hrun : parseline (4 * line.length + 4) line with
  | error e =>
    rw [hrun] at h
    cases h
  | ok a =>
    obtain ⟨cmd, s⟩ := a
    rw [hrun] at h hsound
    have hintact := intact_of_valid hline hsound.words
    refine ⟨cmd, s, rfl, ?_, hintact⟩
    dsimp only [bind, Except.bind] at h
    split_ifs at h
    rw [← map_congr_words fun w hw => hintact.reads w hw]
    exact (Except.ok.inj h).symm

/-- The line `ls>f|wc`, whose words are followed by symbols. -/
theorem parsecmd_intact_example :
    ((0 : UInt8) ∉ ([108, 115, 62, 102, 124, 119, 99] : List UInt8) ∧
      parsecmd [108, 115, 62, 102, 124, 119, 99] = .ok (.pipe
        (.redir (.exec [[108, 115]]) [102] (O_WRONLY ||| O_CREATE) 1) (.exec [[119, 99]]))) ∧
    ∃ cmd s, parseline (4 * 7 + 4) [108, 115, 62, 102, 124, 119, 99] = .ok (cmd, s) ∧
      .pipe (.redir (.exec [[108, 115]]) [102] (O_WRONLY ||| O_CREATE) 1) (.exec [[119, 99]]) =
        cmd.map Word.span ∧ Intact [108, 115, 62, 102, 124, 119, 99] cmd := by
  have hrun : parsecmd [108, 115, 62, 102, 124, 119, 99] = .ok (.pipe
      (.redir (.exec [[108, 115]]) [102] (O_WRONLY ||| O_CREATE) 1) (.exec [[119, 99]])) := by rfl
  exact ⟨⟨by decide, hrun⟩, parsecmd_intact (by decide) hrun⟩

end Lainos.Shell
