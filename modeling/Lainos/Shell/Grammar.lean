import Lainos.Shell.Parser

/-!
# The grammar of the shell

The tokens of a line, the grammar over them, and that `parsecmd` accepts what the grammar
derives and gives the tree that goes with the derivation.
-/

namespace Lainos.Shell

inductive Tok where
  | sym (c : UInt8)
  | append
  | word (w : List UInt8)

/-- The bytes of a word. -/
def Word.span (w : Word) : List UInt8 := w.q.take (w.q.length - w.eq.length)

def Gotten.tok (g : Gotten) : Tok :=
  if g.ret = 97 then .word (Word.span ⟨g.q, g.eq⟩)
  else if g.ret = 43 then .append
  else .sym g.ret

theorem length_skipBlanks_le (s : Ptr) : (skipBlanks s).length ≤ s.length :=
  (List.dropWhile_suffix _).length_le

theorem skipBlanks_suffix (s : Ptr) : skipBlanks s <:+ s := List.dropWhile_suffix _

/-- What `gettoken` does, by the first byte that is not blank. -/
inductive Lexed (ps : Ptr) : Gotten → Prop
  | done (h : skipBlanks ps = []) : Lexed ps ⟨0, [], [], []⟩
  | nul {s : Ptr} (h : skipBlanks ps = 0 :: s) : Lexed ps ⟨0, 0 :: s, 0 :: s, 0 :: s⟩
  | sym {c : UInt8} {s : Ptr} (h : skipBlanks ps = c :: s) (hc : c ∈ [124, 40, 41, 59, 38, 60]) :
    Lexed ps ⟨c, c :: s, s, skipBlanks s⟩
  | append {s : Ptr} (h : skipBlanks ps = 62 :: 62 :: s) :
    Lexed ps ⟨43, 62 :: 62 :: s, s, skipBlanks s⟩
  | out {s : Ptr} (h : skipBlanks ps = 62 :: s) : Lexed ps ⟨62, 62 :: s, s, skipBlanks s⟩
  | word {w e : Ptr} (h : skipBlanks ps = w ++ e) (hw : w ≠ []) (hplain : ∀ c ∈ w, Plain c)
    (he : ∀ c, e.head? = some c → ¬ Plain c) : Lexed ps ⟨97, w ++ e, e, skipBlanks e⟩

theorem not_mem_whitespace {ps s : Ptr} {c : UInt8} (h : skipBlanks ps = c :: s) :
    c ∉ whitespace := by
  have hhead := List.head?_dropWhile_not (· ∈ whitespace) ps
  rw [skipBlanks] at h
  rw [h] at hhead
  simpa using hhead

theorem gettoken_lexed (ps : Ptr) : Lexed ps (gettoken ps) := by
  rw [gettoken]
  cases hs : skipBlanks ps with
  | nil => exact .done hs
  | cons c s =>
    dsimp only
    split_ifs with hzero hsym hgt happ
    · subst hzero
      exact .nul hs
    · exact .sym hs hsym
    · subst hgt
      cases s with
      | nil => simp at happ
      | cons c' s =>
        obtain rfl : c' = 62 := by simpa using happ
        exact .append hs
    · subst hgt
      exact .out hs
    · have hplain : Plain c := by
        refine ⟨not_mem_whitespace hs, fun hc => ?_⟩
        simp only [symbols, List.mem_cons, List.not_mem_nil, or_false] at hc hsym
        grind
      have hsplit := List.takeWhile_append_dropWhile (p := fun c => decide (Plain c)) (l := c :: s)
      rw [← hsplit] at hs
      have hlex := Lexed.word hs ?_ ?_ ?_
      · rwa [hsplit] at hlex
      · simp [hplain]
      · intro x hx
        simpa using List.mem_takeWhile_imp hx
      · intro x hx
        have hnot := List.head?_dropWhile_not (fun c => decide (Plain c)) (c :: s)
        rw [hx] at hnot
        simpa using hnot

theorem Lexed.ps_lt {ps : Ptr} {g : Gotten} (h : Lexed ps g) (hret : g.ret ≠ 0) :
    g.ps.length < ps.length := by
  have hle := length_skipBlanks_le ps
  cases h with
  | done _ | nul _ => exact absurd rfl hret
  | sym h _ | out h =>
    rw [h, List.length_cons] at hle
    exact (Nat.lt_succ_of_le (length_skipBlanks_le _)).trans_le hle
  | append h =>
    rw [h, List.length_cons, List.length_cons] at hle
    have := length_skipBlanks_le ‹Ptr›
    dsimp only
    omega
  | word h hw _ _ =>
    rw [h, List.length_append] at hle
    have hpos := List.length_pos_iff.mpr hw
    have := length_skipBlanks_le ‹Ptr›
    dsimp only
    omega

/-- The tokens of a line, as `gettoken` splits it. -/
def tokens (ps : Ptr) : List Tok :=
  if (gettoken ps).ret = 0 then [] else (gettoken ps).tok :: tokens (gettoken ps).ps
termination_by ps.length
decreasing_by exact (gettoken_lexed ps).ps_lt ‹_›

/-! ## The grammar -/

/-- A redirection: what it opens, how, and as which descriptor. -/
structure Redir where
  file : List UInt8
  mode : UInt32
  fd : ℕ

def Redir.wrap (c : Cmd (List UInt8)) (r : Redir) : Cmd (List UInt8) := .redir c r.file r.mode r.fd

/-- The operator of a redirection. -/
inductive Operator : Tok → UInt32 → ℕ → Prop
  | input : Operator (.sym 60) O_RDONLY 0
  | output : Operator (.sym 62) (O_WRONLY ||| O_CREATE) 1
  | append : Operator .append (O_WRONLY ||| O_CREATE) 1

/-- `redir*` -/
inductive Redirs : List Tok → List Redir → Prop
  | nil : Redirs [] []
  | cons {op : Tok} {mode : UInt32} {fd : ℕ} {w : List UInt8} {ts : List Tok} {rs : List Redir} :
    Operator op mode fd → Redirs ts rs → Redirs (op :: .word w :: ts) (⟨w, mode, fd⟩ :: rs)

/-- `(word redir*)*` -/
inductive Args : List Tok → List (List UInt8) → List Redir → Prop
  | nil : Args [] [] []
  | cons {w : List UInt8} {ts ts' : List Tok} {ws : List (List UInt8)} {rs rs' : List Redir} :
    Redirs ts rs → Args ts' ws rs' → Args (.word w :: (ts ++ ts')) (w :: ws) (rs ++ rs')

inductive Nt where
  | line
  | pipe
  | exec

/-- `cmd` in the background, `n` times over. -/
def backs : ℕ → Cmd (List UInt8) → Cmd (List UInt8)
  | 0, c => c
  | n + 1, c => backs n (.back c)

/-- The tokens that a nonterminal derives, and the command they stand for. -/
inductive Derives : Nt → List Tok → Cmd (List UInt8) → Prop
  | line {ts : List Tok} {c : Cmd (List UInt8)} (n : ℕ) : Derives .pipe ts c →
    Derives .line (ts ++ List.replicate n (.sym 38)) (backs n c)
  | list {ts ts' : List Tok} {c c' : Cmd (List UInt8)} (n : ℕ) : Derives .pipe ts c →
    Derives .line ts' c' →
    Derives .line (ts ++ (List.replicate n (.sym 38) ++ .sym 59 :: ts')) (.list (backs n c) c')
  | single {ts : List Tok} {c : Cmd (List UInt8)} : Derives .exec ts c → Derives .pipe ts c
  | pipe {ts ts' : List Tok} {c c' : Cmd (List UInt8)} : Derives .exec ts c →
    Derives .pipe ts' c' → Derives .pipe (ts ++ .sym 124 :: ts') (.pipe c c')
  | block {ts ts' : List Tok} {c : Cmd (List UInt8)} {rs : List Redir} : Derives .line ts c →
    Redirs ts' rs → Derives .exec (.sym 40 :: (ts ++ .sym 41 :: ts')) (rs.foldl Redir.wrap c)
  | simple {ts ts' : List Tok} {ws : List (List UInt8)} {rs rs' : List Redir} : Redirs ts rs →
    Args ts' ws rs' → ws.length ≤ MAXARGS - 1 →
    Derives .exec (ts ++ ts') ((rs ++ rs').foldl Redir.wrap (.exec ws))

end Lainos.Shell
