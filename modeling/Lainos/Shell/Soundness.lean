import Lainos.Shell.Grammar
import Mathlib.Data.List.DropRight

/-!
# Soundness of the parser

Every run of the parser ends, and its result is the tree of a derivation of the tokens
that it consumed.
-/

namespace Lainos.Shell

variable {line ps s : Ptr} {t : Tok} {ts r : List Tok} {toks : List UInt8} {c : UInt8}

/-! ## Tokens -/

theorem skipBlanks_skipBlanks (ps : Ptr) : skipBlanks (skipBlanks ps) = skipBlanks ps :=
  List.dropWhile_idempotent ..

theorem gettoken_skipBlanks (ps : Ptr) : gettoken (skipBlanks ps) = gettoken ps := by
  rw [gettoken, gettoken, skipBlanks_skipBlanks]

theorem tokens_skipBlanks (ps : Ptr) : tokens (skipBlanks ps) = tokens ps := by
  rw [tokens, gettoken_skipBlanks, ← tokens]

theorem tokens_of_ret (h : (gettoken ps).ret ≠ 0) :
    tokens ps = (gettoken ps).tok :: tokens (gettoken ps).ps := by
  rw [tokens, if_neg h]

theorem tokens_eq_nil (h : (gettoken ps).ret = 0) : tokens ps = [] := by
  rw [tokens, if_pos h]

theorem gettoken_of_tokens (h : tokens ps = t :: ts) : (gettoken ps).ret ≠ 0 ∧
    (gettoken ps).tok = t ∧ tokens (gettoken ps).ps = ts := by
  have hret : (gettoken ps).ret ≠ 0 := by
    intro hret
    rw [tokens_eq_nil hret] at h
    cases h
  rw [tokens_of_ret hret, List.cons.injEq] at h
  exact ⟨hret, h⟩

theorem gettoken_ret_of_nil (h : tokens ps = []) : (gettoken ps).ret = 0 := by
  by_contra hret
  rw [tokens_of_ret hret] at h
  cases h

theorem Gotten.ret_of_word {g : Gotten} {w : List UInt8} (h : g.tok = .word w) :
    g.ret = 97 ∧ Word.span ⟨g.q, g.eq⟩ = w := by
  rw [Gotten.tok] at h
  split_ifs at h with hret
  exact ⟨hret, Tok.word.inj h⟩

theorem Gotten.ret_of_sym {g : Gotten} (h : g.tok = .sym c) : g.ret = c := by
  rw [Gotten.tok] at h
  split_ifs at h
  exact Tok.sym.inj h

theorem Gotten.ret_of_append {g : Gotten} (h : g.tok = .append) : g.ret = 43 := by
  rw [Gotten.tok] at h
  split_ifs at h with _ hret
  exact hret

theorem Lexed.suffix {g : Gotten} (h : Lexed ps g) : g.ps <:+ ps := by
  refine List.IsSuffix.trans ?_ (skipBlanks_suffix ps)
  cases h with
  | done h => exact List.nil_suffix
  | nul h => exact h ▸ List.suffix_rfl
  | sym h _ | out h =>
    rw [h]
    exact (skipBlanks_suffix _).trans (List.suffix_cons _ _)
  | append h =>
    rw [h]
    exact (skipBlanks_suffix _).trans ((List.suffix_cons _ _).trans (List.suffix_cons _ _))
  | word h _ _ _ =>
    rw [h]
    exact (skipBlanks_suffix _).trans (List.suffix_append _ _)

theorem gettoken_suffix (ps : Ptr) : (gettoken ps).ps <:+ ps := (gettoken_lexed ps).suffix

theorem gettoken_lt (h : tokens ps = t :: ts) : (gettoken ps).ps.length < ps.length :=
  (gettoken_lexed ps).ps_lt (gettoken_of_tokens h).1

/-- The byte that `peek` sees of a token; for a word it is some byte that is no symbol. -/
def Tok.lead : Tok → UInt8
  | .sym c => c
  | .append => 62
  | .word _ => 97

theorem lead_tok (hclean : 0 ∉ ps) (hs : skipBlanks ps = c :: s) :
    (gettoken ps).ret ≠ 0 ∧ (c ∈ symbols → c = (gettoken ps).tok.lead) ∧
      ((gettoken ps).tok.lead ∈ symbols → (gettoken ps).tok.lead = c) := by
  have hmem : c ∈ ps := (skipBlanks_suffix ps).subset (by rw [hs]; exact List.mem_cons_self)
  have hlex := gettoken_lexed ps
  generalize gettoken ps = g at hlex
  cases hlex with
  | done h => simp [hs] at h
  | nul h =>
    obtain ⟨rfl, -⟩ := List.cons.inj (hs.symm.trans h)
    exact absurd hmem hclean
  | @sym c' s' h hc =>
    obtain ⟨rfl, -⟩ := List.cons.inj (hs.symm.trans h)
    simp only [List.mem_cons, List.not_mem_nil, or_false] at hc
    obtain rfl | rfl | rfl | rfl | rfl | rfl := hc <;> exact ⟨by simp, fun _ => rfl, fun _ => rfl⟩
  | append h | out h =>
    obtain ⟨rfl, -⟩ := List.cons.inj (hs.symm.trans h)
    exact ⟨by simp, fun _ => rfl, fun _ => rfl⟩
  | @word w e h hw hplain he =>
    cases w with
    | nil => exact absurd rfl hw
    | cons c' w =>
      obtain ⟨rfl, -⟩ := List.cons.inj (hs.symm.trans h)
      have hc := (hplain c List.mem_cons_self).2
      refine ⟨by simp, fun hsym => absurd hsym hc, fun hsym => ?_⟩
      simp [Gotten.tok, Tok.lead, symbols] at hsym

/-- `peek` looks at the next token. -/
theorem peek_eq (hclean : 0 ∉ ps) (htoks : ∀ c ∈ toks, c ∈ symbols) :
    peek ps toks = (decide (∃ t ∈ (tokens ps).head?, t.lead ∈ toks), skipBlanks ps) := by
  rw [peek]
  cases hs : skipBlanks ps with
  | nil =>
    have hnil : tokens ps = [] := by
      rw [← tokens_skipBlanks, hs]
      exact tokens_eq_nil rfl
    simp [hnil]
  | cons c s =>
    obtain ⟨hret, hlead, hlead'⟩ := lead_tok hclean hs
    have hzero : c ≠ 0 := by
      rintro rfl
      exact hclean ((skipBlanks_suffix ps).subset (by rw [hs]; exact List.mem_cons_self))
    have hiff : (c ≠ 0 ∧ c ∈ toks) ↔ ∃ t ∈ (tokens ps).head?, t.lead ∈ toks := by
      rw [tokens_of_ret hret, List.head?_cons]
      simp only [Option.mem_some_iff, exists_eq_left']
      constructor
      · rintro ⟨-, hc⟩
        exact hlead (htoks c hc) ▸ hc
      · intro hc
        exact ⟨hzero, hlead' (htoks _ hc) ▸ hc⟩
    simp only [hiff]

/-- What a run of the parser ends with. -/
def Ends {α : Type} (x : Except Stop α) (Q : α → Prop) (E : Stop → Prop) : Prop :=
  match x with
  | .ok a => Q a
  | .error e => E e

theorem ends_bind {α β : Type} {x : Except Stop α} {f : α → Except Stop β} {Q : β → Prop}
    {E : Stop → Prop} : Ends (x >>= f) Q E ↔ Ends x (fun a => Ends (f a) Q E) E := by
  cases x <;> rfl

theorem Ends.mono {α : Type} {x : Except Stop α} {Q Q' : α → Prop} {E : Stop → Prop}
    (h : Ends x Q E) (hQ : ∀ a, Q a → Q' a) : Ends x Q' E := by
  cases x with
  | ok a => exact hQ a h
  | error e => exact h

/-! ## Soundness -/

/-- A word of the line that `gettoken` found. It cannot be extended to the right. -/
structure Valid (line : Ptr) (w : Word) : Prop where
  token : ∃ ps, ps <:+ line ∧ (gettoken ps).ret = 97 ∧ w = ⟨(gettoken ps).q, (gettoken ps).eq⟩
  suffix : w.q <:+ line
  split : ∃ text, w.q = text ++ w.eq ∧ ∀ c ∈ text, Plain c
  ends : ∀ c, w.eq.head? = some c → ¬ Plain c

theorem gettoken_valid (hps : ps <:+ line) (hret : (gettoken ps).ret = 97) :
    Valid line ⟨(gettoken ps).q, (gettoken ps).eq⟩ := by
  have htoken : ∃ ps', ps' <:+ line ∧ (gettoken ps').ret = 97 ∧
      (⟨(gettoken ps).q, (gettoken ps).eq⟩ : Word) = ⟨(gettoken ps').q, (gettoken ps').eq⟩ :=
    ⟨ps, hps, hret, rfl⟩
  have hlex := gettoken_lexed ps
  generalize gettoken ps = g at hlex hret htoken
  cases hlex with
  | done h | nul h => cases hret
  | sym h hc =>
    dsimp only at hret
    rw [hret] at hc
    simp at hc
  | append h | out h => cases hret
  | word h _ hplain he =>
    have hsuffix := (skipBlanks_suffix ps).trans hps
    rw [h] at hsuffix
    exact ⟨htoken, hsuffix, ⟨_, rfl, hplain⟩, he⟩

/-- The result of the parser on `ps`, where the tokens consumed are to satisfy `D`. -/
structure Parsed (line ps : Ptr) (D : List Tok → Cmd (List UInt8) → Prop) (r : Cmd Word × Ptr) :
    Prop where
  rest : r.2 <:+ ps
  words : ∀ w ∈ r.1.words, Valid line w
  derives : ∃ ts, tokens ps = ts ++ tokens r.2 ∧ D ts (r.1.map Word.span)

/-- A token with the byte of a symbol other than `>` is that symbol. -/
theorem eq_sym_of_lead (hc : c ∈ ([124, 40, 41, 59, 38, 60] : List UInt8)) (h : t.lead ∈ [c]) :
    t = .sym c := by
  rw [List.mem_singleton] at h
  cases t with
  | sym c' => exact congrArg Tok.sym h
  | append | word =>
    rw [← h] at hc
    simp [Tok.lead] at hc

theorem operator_of_lead (h : t.lead ∈ ([60, 62] : List UInt8)) : ∃ mode fd, Operator t mode fd := by
  cases t with
  | sym c =>
    simp only [Tok.lead, List.mem_cons, List.not_mem_nil, or_false] at h
    obtain rfl | rfl := h
    · exact ⟨_, _, .input⟩
    · exact ⟨_, _, .output⟩
  | append => exact ⟨_, _, .append⟩
  | word w => simp [Tok.lead] at h

theorem redircmd_of_operator {g : Gotten} {mode : UInt32} {fd : ℕ} (h : Operator g.tok mode fd)
    (cmd : Cmd Word) (file : Word) : redircmd cmd file g.ret = .redir cmd file mode fd := by
  generalize ht : g.tok = t at h
  cases h with
  | input | output => rw [Gotten.ret_of_sym ht]; rfl
  | append => rw [Gotten.ret_of_append ht]; rfl

/-- The next token, if `peek` finds its byte among the symbols `toks`. -/
theorem exists_of_peek (hclean : 0 ∉ ps) (htoks : ∀ c ∈ toks, c ∈ symbols)
    (h : (peek ps toks).1 = true) : ∃ t ts, tokens ps = t :: ts ∧ t.lead ∈ toks := by
  rw [peek_eq hclean htoks] at h
  obtain ⟨t, ht, hlead⟩ := of_decide_eq_true h
  obtain ⟨ts, hts⟩ := List.head?_eq_some_iff.mp ht
  exact ⟨t, ts, hts, hlead⟩

theorem parseredirs_sound (hline : 0 ∉ line) {fuel : ℕ} {cmd : Cmd Word} (hps : ps <:+ line)
    (hfuel : ps.length < fuel) (hwords : ∀ w ∈ cmd.words, Valid line w) :
    Ends (parseredirs fuel cmd ps) (Parsed line ps fun ts c =>
      ∃ rs, Redirs ts rs ∧ c = rs.foldl Redir.wrap (cmd.map Word.span)) (· ≠ .fuel) := by
  induction fuel generalizing cmd ps with
  | zero => omega
  | succ fuel ih =>
    have hclean : 0 ∉ ps := fun h0 => hline (hps.subset h0)
    have hsnd : (peek ps [60, 62]).2 = skipBlanks ps := by rw [peek_eq hclean (by simp [symbols])]
    rw [parseredirs]
    dsimp only
    rw [hsnd, gettoken_skipBlanks]
    split_ifs with hpeek hret
    · exact fun h => by cases h
    · obtain ⟨t, ts, hts, hlead⟩ := exists_of_peek hclean (by simp [symbols]) hpeek
      obtain ⟨-, htok, hrest⟩ := gettoken_of_tokens hts
      obtain ⟨mode, fd, hop⟩ := operator_of_lead hlead
      rw [redircmd_of_operator (htok ▸ hop)]
      have hps₁ := gettoken_suffix ps
      have hps₂ := gettoken_suffix (gettoken ps).ps
      have hlt := gettoken_lt hts
      have hret97 : (gettoken (gettoken ps).ps).ret = 97 := of_not_not hret
      have hword := @tokens_of_ret (gettoken ps).ps (by rw [hret97]; decide)
      have hvalid := gettoken_valid (hps₁.trans hps) hret97
      refine (ih (hps₂.trans (hps₁.trans hps)) ?_ ?_).mono ?_
      · have := hps₂.length_le
        omega
      · intro w hw
        rw [Cmd.words, List.mem_append, List.mem_singleton] at hw
        obtain hw | rfl := hw
        · exact hwords w hw
        · exact hvalid
      · rintro ⟨c, ps'⟩ ⟨hsuf, hvalid', ts', hts', rs, hrs, hc⟩
        have hspan : (gettoken (gettoken ps).ps).tok =
            .word (Word.span ⟨(gettoken (gettoken ps).ps).q, (gettoken (gettoken ps).ps).eq⟩) := by
          rw [Gotten.tok, if_pos hret97]
        refine ⟨hsuf.trans (hps₂.trans hps₁), hvalid', t :: _ :: ts', ?_, _, .cons hop hrs, hc⟩
        rw [hts, ← hrest, hword, hspan, hts']
        rfl
    · exact ⟨skipBlanks_suffix ps, hwords, [], by rw [tokens_skipBlanks]; rfl, [], .nil, rfl⟩

/-- The words are added to the command inside its redirections. -/
def addArgs (ws : List (List UInt8)) (c : Cmd (List UInt8)) : Cmd (List UInt8) :=
  ws.foldl (fun c w => c.addArg w) c

theorem map_addArg {α β : Type} (f : α → β) (w : α) (c : Cmd α) :
    (c.addArg w).map f = (c.map f).addArg (f w) := by
  induction c with
  | exec argv => simp [Cmd.addArg, Cmd.map]
  | redir c file mode fd ih => rw [Cmd.addArg, Cmd.map, ih, Cmd.map, Cmd.addArg]
  | pipe | list | back => rfl

theorem mem_words_addArg {α : Type} {w x : α} {c : Cmd α} (h : x ∈ (c.addArg w).words) :
    x ∈ c.words ∨ x = w := by
  induction c with
  | exec argv => simpa [Cmd.addArg, Cmd.words] using h
  | redir c file mode fd ih =>
    rw [Cmd.addArg, Cmd.words, List.mem_append] at h
    rw [Cmd.words, List.mem_append]
    obtain h | h := h
    · exact (ih h).imp Or.inl id
    · exact Or.inl (Or.inr h)
  | pipe | list | back => exact Or.inl h

theorem addArg_wraps (w : List UInt8) (rs : List Redir) (c : Cmd (List UInt8)) :
    (rs.foldl Redir.wrap c).addArg w = rs.foldl Redir.wrap (c.addArg w) := by
  induction rs generalizing c with
  | nil => rfl
  | cons r rs ih => exact ih (r.wrap c)

theorem addArgs_wraps (ws : List (List UInt8)) (rs : List Redir) (c : Cmd (List UInt8)) :
    addArgs ws (rs.foldl Redir.wrap c) = rs.foldl Redir.wrap (addArgs ws c) := by
  induction ws generalizing c with
  | nil => rfl
  | cons w ws ih =>
    rw [addArgs, List.foldl_cons, addArg_wraps]
    exact ih (c.addArg w)

theorem addArgs_exec (ws argv : List (List UInt8)) :
    addArgs ws (.exec argv) = .exec (argv ++ ws) := by
  induction ws generalizing argv with
  | nil => rw [List.append_nil]; rfl
  | cons w ws ih =>
    rw [addArgs, List.foldl_cons]
    refine (ih (argv ++ [w])).trans ?_
    rw [List.append_assoc, List.singleton_append]

theorem gettoken_end (hclean : 0 ∉ ps) (hret : (gettoken ps).ret = 0) : (gettoken ps).ps = [] := by
  have hlex := gettoken_lexed ps
  generalize gettoken ps = g at hlex hret
  cases hlex with
  | done h => rfl
  | @nul s h =>
    refine absurd ((skipBlanks_suffix ps).subset ?_) hclean
    rw [h]
    exact List.mem_cons_self
  | sym h hc =>
    dsimp only at hret
    rw [hret] at hc
    simp at hc
  | append | out | word => cases hret

theorem parseargs_sound (hline : 0 ∉ line) {fuel argc : ℕ} {ret : Cmd Word} (hps : ps <:+ line)
    (hfuel : ps.length < fuel) (hargc : argc < MAXARGS) (hwords : ∀ w ∈ ret.words, Valid line w) :
    Ends (parseargs fuel argc ret ps) (Parsed line ps fun ts c =>
      ∃ ws rs, Args ts ws rs ∧ argc + ws.length < MAXARGS ∧
        c = rs.foldl Redir.wrap (addArgs ws (ret.map Word.span))) (· ≠ .fuel) := by
  induction fuel generalizing argc ret ps with
  | zero => omega
  | succ fuel ih =>
    have hclean : 0 ∉ ps := fun h0 => hline (hps.subset h0)
    have hsnd : (peek ps [124, 41, 38, 59]).2 = skipBlanks ps := by rw [peek_eq hclean (by simp [symbols])]
    rw [parseargs]
    dsimp only
    rw [hsnd, gettoken_skipBlanks]
    split_ifs with hpeek hzero hret hmax
    · exact ⟨skipBlanks_suffix ps, hwords, [], by rw [tokens_skipBlanks]; rfl, [], [], .nil, hargc, rfl⟩
    · refine ⟨gettoken_suffix ps, hwords, [], ?_, [], [], .nil, hargc, rfl⟩
      rw [gettoken_end hclean hzero, tokens_eq_nil hzero]
      exact (tokens_eq_nil rfl).symm
    · exact fun h => by cases h
    · exact fun h => by cases h
    · have hret97 : (gettoken ps).ret = 97 := of_not_not hret
      have hts := tokens_of_ret hzero
      rw [Gotten.tok, if_pos hret97] at hts
      have hps₁ := gettoken_suffix ps
      have hlt := gettoken_lt hts
      have hvalid := gettoken_valid hps hret97
      rw [ends_bind]
      refine (parseredirs_sound hline (hps₁.trans hps) (by omega) ?_).mono ?_
      · intro w hw
        obtain hw | rfl := mem_words_addArg hw
        · exact hwords w hw
        · exact hvalid
      rintro ⟨ret₁, ps₁⟩ ⟨hsuf₁, hwords₁, ts₁, hts₁, rs, hrs, hret₁⟩
      refine (ih (hsuf₁.trans (hps₁.trans hps)) ?_ (Nat.lt_of_not_le hmax) hwords₁).mono ?_
      · have := hsuf₁.length_le
        dsimp only at this ⊢
        omega
      rintro ⟨c, ps'⟩ ⟨hsuf, hwords', ts', hts', ws, rs', hargs, hlen, hc⟩
      refine ⟨hsuf.trans (hsuf₁.trans hps₁), hwords', _, ?_,
        Word.span ⟨(gettoken ps).q, (gettoken ps).eq⟩ :: ws, rs ++ rs', .cons hrs hargs, ?_, ?_⟩
      · rw [hts, hts₁, hts', List.cons_append, List.append_assoc]
      · rw [List.length_cons]
        omega
      · rw [hc, hret₁, addArgs_wraps, List.foldl_append, map_addArg]
        rfl

theorem parseback_sound (hline : 0 ∉ line) {fuel : ℕ} {cmd : Cmd Word} (hps : ps <:+ line)
    (hfuel : ps.length < fuel) (hwords : ∀ w ∈ cmd.words, Valid line w) :
    Ends (parseback fuel cmd ps) (Parsed line ps fun ts c =>
      ∃ n, ts = List.replicate n (.sym 38) ∧ c = backs n (cmd.map Word.span)) (· ≠ .fuel) := by
  induction fuel generalizing cmd ps with
  | zero => omega
  | succ fuel ih =>
    have hclean : 0 ∉ ps := fun h0 => hline (hps.subset h0)
    have hsnd : (peek ps [38]).2 = skipBlanks ps := by rw [peek_eq hclean (by simp [symbols])]
    rw [parseback]
    dsimp only
    rw [hsnd, gettoken_skipBlanks]
    split_ifs with hpeek
    · obtain ⟨t, ts, hts, hlead⟩ := exists_of_peek hclean (by simp [symbols]) hpeek
      obtain ⟨-, -, hrest⟩ := gettoken_of_tokens hts
      have hps₁ := gettoken_suffix ps
      have hlt := gettoken_lt hts
      obtain rfl := eq_sym_of_lead (by decide) hlead
      refine (@ih (gettoken ps).ps cmd.back (hps₁.trans hps) (by omega) hwords).mono ?_
      rintro ⟨c, ps'⟩ ⟨hsuf, hwords', ts', hts', n, rfl, hc⟩
      refine ⟨hsuf.trans hps₁, hwords', _, ?_, n + 1, rfl, hc⟩
      rw [hts, ← hrest, hts']
      rfl
    · exact ⟨skipBlanks_suffix ps, hwords, [], by rw [tokens_skipBlanks]; rfl, 0, rfl, rfl⟩

/-- The parsing function for `nt` is sound, given fuel for four calls a byte and `k`
more. -/
def Sound (line : Ptr) (fuel k : ℕ) (nt : Nt) (parse : ℕ → Ptr → Result) : Prop :=
  ∀ ps, ps <:+ line → 4 * ps.length + k ≤ fuel →
    Ends (parse fuel ps) (Parsed line ps (Derives nt)) (· ≠ .fuel)

theorem peek_snd (hline : 0 ∉ line) (hps : ps <:+ line) (htoks : ∀ c ∈ toks, c ∈ symbols) :
    (peek ps toks).2 = skipBlanks ps := by
  rw [peek_eq (fun h0 => hline (hps.subset h0)) htoks]

/-- The tokens, if `peek` finds the symbol `c`. -/
theorem tokens_of_peek (hline : 0 ∉ line) (hps : ps <:+ line)
    (hc : c ∈ ([124, 40, 41, 59, 38, 60] : List UInt8)) (h : (peek ps [c]).1 = true) :
    tokens ps = .sym c :: tokens (gettoken ps).ps ∧ (gettoken ps).ps.length < ps.length := by
  have hsym : ∀ c' ∈ [c], c' ∈ symbols := by
    intro c' hc'
    rw [List.mem_singleton.mp hc']
    simp only [List.mem_cons, List.not_mem_nil, or_false] at hc
    obtain rfl | rfl | rfl | rfl | rfl | rfl := hc <;> decide
  obtain ⟨t, ts, hts, hlead⟩ := exists_of_peek (fun h0 => hline (hps.subset h0)) hsym h
  rw [eq_sym_of_lead hc hlead] at hts
  exact ⟨by rw [hts, (gettoken_of_tokens hts).2.2], gettoken_lt hts⟩

theorem parseline_sound {fuel : ℕ} (hline : 0 ∉ line) (hpipe : Sound line fuel 3 .pipe parsepipe)
    (hrec : Sound line fuel 4 .line parseline) : Sound line (fuel + 1) 4 .line parseline := by
  intro ps hps hfuel
  rw [parseline, ends_bind]
  refine (hpipe ps hps (by omega)).mono ?_
  rintro ⟨c₁, ps₁⟩ ⟨hsuf₁, hwords₁, ts₁, hts₁, hd₁⟩
  dsimp only at hsuf₁ hwords₁ hts₁ hd₁ ⊢
  have hle₁ := hsuf₁.length_le
  rw [ends_bind]
  refine (parseback_sound hline (hsuf₁.trans hps) (by omega) hwords₁).mono ?_
  rintro ⟨c₂, ps₂⟩ ⟨hsuf₂, hwords₂, ts₂, hts₂, n, rfl, hc₂⟩
  dsimp only at hsuf₂ hwords₂ hts₂ hc₂ ⊢
  have hle₂ := hsuf₂.length_le
  have hps₂ := hsuf₂.trans (hsuf₁.trans hps)
  rw [peek_snd hline hps₂ (by simp [symbols]), gettoken_skipBlanks]
  split_ifs with hmore
  · obtain ⟨hts, hlt⟩ := tokens_of_peek hline hps₂ (by decide) hmore
    have hps₃ := gettoken_suffix ps₂
    rw [ends_bind]
    refine (hrec _ (hps₃.trans hps₂) (by omega)).mono ?_
    rintro ⟨c₃, ps'⟩ ⟨hsuf, hwords₃, ts₃, hts₃, hd₃⟩
    have hlist := Derives.list n hd₁ hd₃
    rw [← hc₂] at hlist
    refine ⟨hsuf.trans (hps₃.trans (hsuf₂.trans hsuf₁)), ?_, _, ?_, hlist⟩
    · intro w hw
      exact (List.mem_append.mp hw).elim (hwords₂ w) (hwords₃ w)
    · rw [hts₁, hts₂, hts, hts₃]
      simp
  · have hd := Derives.line n hd₁
    rw [← hc₂] at hd
    refine ⟨(skipBlanks_suffix ps₂).trans (hsuf₂.trans hsuf₁), hwords₂, _, ?_, hd⟩
    rw [tokens_skipBlanks, hts₁, hts₂, List.append_assoc]

theorem parsepipe_sound {fuel : ℕ} (hline : 0 ∉ line) (hexec : Sound line fuel 2 .exec parseexec)
    (hrec : Sound line fuel 3 .pipe parsepipe) : Sound line (fuel + 1) 3 .pipe parsepipe := by
  intro ps hps hfuel
  rw [parsepipe, ends_bind]
  refine (hexec ps hps (by omega)).mono ?_
  rintro ⟨c₁, ps₁⟩ ⟨hsuf₁, hwords₁, ts₁, hts₁, hd₁⟩
  dsimp only at hsuf₁ hwords₁ hts₁ hd₁ ⊢
  have hle₁ := hsuf₁.length_le
  have hps₁ := hsuf₁.trans hps
  rw [peek_snd hline hps₁ (by simp [symbols]), gettoken_skipBlanks]
  split_ifs with hmore
  · obtain ⟨hts, hlt⟩ := tokens_of_peek hline hps₁ (by decide) hmore
    have hps₂ := gettoken_suffix ps₁
    rw [ends_bind]
    refine (hrec _ (hps₂.trans hps₁) (by omega)).mono ?_
    rintro ⟨c₂, ps'⟩ ⟨hsuf, hwords₂, ts₂, hts₂, hd₂⟩
    refine ⟨hsuf.trans (hps₂.trans hsuf₁), ?_, _, ?_, .pipe hd₁ hd₂⟩
    · intro w hw
      exact (List.mem_append.mp hw).elim (hwords₁ w) (hwords₂ w)
    · rw [hts₁, hts, hts₂]
      simp
  · refine ⟨(skipBlanks_suffix ps₁).trans hsuf₁, hwords₁, _, ?_, .single hd₁⟩
    rw [tokens_skipBlanks, hts₁]

theorem parseexec_sound {fuel : ℕ} (hline : 0 ∉ line) (hblock : Sound line fuel 1 .exec parseblock) :
    Sound line (fuel + 1) 2 .exec parseexec := by
  intro ps hps hfuel
  rw [parseexec]
  dsimp only
  rw [peek_snd hline hps (by simp [symbols])]
  have hskip := skipBlanks_suffix ps
  have hle := hskip.length_le
  split_ifs with hbracket
  · refine (hblock _ (hskip.trans hps) (by omega)).mono ?_
    rintro ⟨c, ps'⟩ ⟨hsuf, hwords, ts, hts, hd⟩
    exact ⟨hsuf.trans hskip, hwords, ts, by rw [← hts, tokens_skipBlanks], hd⟩
  · rw [ends_bind]
    refine (parseredirs_sound hline (hskip.trans hps) (by omega) ?_).mono ?_
    · intro w hw
      cases hw
    rintro ⟨ret, ps₁⟩ ⟨hsuf₁, hwords₁, ts₁, hts₁, rs, hrs, hret⟩
    dsimp only at hsuf₁ hwords₁ hts₁ hret ⊢
    have hle₁ := hsuf₁.length_le
    have hps₁ := hsuf₁.trans (hskip.trans hps)
    refine (parseargs_sound hline hps₁ (by omega) (by decide) hwords₁).mono ?_
    rintro ⟨c, ps'⟩ ⟨hsuf, hwords, ts, hts, ws, rs', hargs, hlen, hc⟩
    refine ⟨hsuf.trans (hsuf₁.trans hskip), hwords, ts₁ ++ ts, ?_, ?_⟩
    · rw [← tokens_skipBlanks, hts₁, hts, List.append_assoc]
    · have hsimple := Derives.simple hrs hargs (by omega)
      rwa [hc, hret, addArgs_wraps, ← List.foldl_append, Cmd.map, List.map_nil, addArgs_exec]

theorem parseblock_sound {fuel : ℕ} (hline : 0 ∉ line) (hrec : Sound line fuel 4 .line parseline) :
    Sound line (fuel + 1) 1 .exec parseblock := by
  intro ps hps hfuel
  rw [parseblock]
  dsimp only
  rw [peek_snd hline hps (by simp [symbols]), gettoken_skipBlanks]
  split_ifs with hbracket
  · obtain ⟨hts, hlt⟩ := tokens_of_peek hline hps (by decide) hbracket
    have hps₁ := gettoken_suffix ps
    rw [ends_bind]
    refine (hrec _ (hps₁.trans hps) (by omega)).mono ?_
    rintro ⟨c₂, ps₂⟩ ⟨hsuf₂, hwords₂, ts₂, hts₂, hd₂⟩
    dsimp only at hsuf₂ hwords₂ hts₂ hd₂ ⊢
    have hle₂ := hsuf₂.length_le
    have hps₂ := hsuf₂.trans (hps₁.trans hps)
    rw [peek_snd hline hps₂ (by simp [symbols]), gettoken_skipBlanks]
    split_ifs with hclosed
    · obtain ⟨hts', hlt'⟩ := tokens_of_peek hline hps₂ (by decide) hclosed
      have hps₃ := gettoken_suffix ps₂
      refine (parseredirs_sound hline (hps₃.trans hps₂) (by omega) hwords₂).mono ?_
      rintro ⟨c, ps'⟩ ⟨hsuf, hwords, ts, hts₄, rs, hrs, hc⟩
      have hd := Derives.block hd₂ hrs
      rw [← hc] at hd
      refine ⟨hsuf.trans (hps₃.trans (hsuf₂.trans hps₁)), hwords, _, ?_, hd⟩
      rw [hts, hts₂, hts', hts₄]
      simp
    · exact fun h => by cases h
  · exact fun h => by cases h

/-- The calls from one opening bracket to the next use up fuel four times. -/
theorem parse_sound (hline : 0 ∉ line) (fuel : ℕ) :
    Sound line fuel 4 .line parseline ∧ Sound line fuel 3 .pipe parsepipe ∧
      Sound line fuel 2 .exec parseexec ∧ Sound line fuel 1 .exec parseblock := by
  induction fuel with
  | zero => refine ⟨?_, ?_, ?_, ?_⟩ <;> exact fun ps _ h => absurd h (by omega)
  | succ fuel ih =>
    obtain ⟨hl, hp, he, hb⟩ := ih
    exact ⟨parseline_sound hline hp hl, parsepipe_sound hline he hp, parseexec_sound hline hb,
      parseblock_sound hline hl⟩

end Lainos.Shell
