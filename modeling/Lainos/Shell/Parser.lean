import Mathlib.Data.List.TakeWhile

/-!
# The parser of the shell

`gettoken`, `peek` and the parsing functions of `sh.c`. The line is the list of its
bytes without the terminating NUL, and a pointer into it is given by the rest of the line
from there on; the pointer `es` is the empty rest. `malloc` is taken to succeed.
-/

namespace Lainos.Shell

abbrev Ptr := List UInt8

/-- A parsed command. `ω` is what stands for a word. -/
inductive Cmd (ω : Type) where
  | exec (argv : List ω)
  | redir (cmd : Cmd ω) (file : ω) (mode : UInt32) (fd : ℕ)
  | pipe (left right : Cmd ω)
  | list (left right : Cmd ω)
  | back (cmd : Cmd ω)
deriving DecidableEq

def MAXARGS : ℕ := 10

def O_RDONLY : UInt32 := 0
def O_WRONLY : UInt32 := 1
def O_CREATE : UInt32 := 0x200

/-- `whitespace` is " \t\r\n\v". -/
def whitespace : List UInt8 := [32, 9, 13, 10, 11]

/-- `symbols` is "<|>&;()". -/
def symbols : List UInt8 := [60, 124, 62, 38, 59, 40, 41]

/-- The message of a panic, or that the fuel was not enough. -/
inductive Stop where
  | panic (msg : String)
  | fuel
deriving DecidableEq

def skipBlanks (s : Ptr) : Ptr := s.dropWhile (· ∈ whitespace)

/-- A byte of a word. -/
def Plain (c : UInt8) : Prop := c ∉ whitespace ∧ c ∉ symbols

instance : DecidablePred Plain := fun _ => inferInstanceAs (Decidable (_ ∧ _))

/-- What `gettoken` returns, and the pointers it sets. -/
structure Gotten where
  ret : UInt8
  q : Ptr
  eq : Ptr
  ps : Ptr

def gettoken (ps : Ptr) : Gotten :=
  match skipBlanks ps with
  | [] => ⟨0, [], [], []⟩
  | c :: s =>
    if c = 0 then ⟨0, c :: s, c :: s, c :: s⟩
    else if c ∈ [124, 40, 41, 59, 38, 60] then ⟨c, c :: s, s, skipBlanks s⟩
    else if c = 62 then
      if s.head? = some 62 then ⟨43, c :: s, s.tail, skipBlanks s.tail⟩
      else ⟨62, c :: s, s, skipBlanks s⟩
    else
      let e := (c :: s).dropWhile (fun c => decide (Plain c))
      ⟨97, c :: s, e, skipBlanks e⟩

/-- The result of `peek`, and where it leaves the pointer. -/
def peek (ps : Ptr) (toks : List UInt8) : Bool × Ptr :=
  match skipBlanks ps with
  | [] => (false, [])
  | c :: s => (decide (c ≠ 0 ∧ c ∈ toks), c :: s)

/-- A word from `q` up to `eq`. -/
structure Word where
  q : Ptr
  eq : Ptr

abbrev Result := Except Stop (Cmd Word × Ptr)

/-- `redircmd` as `parseredirs` calls it for the token `tok`. -/
def redircmd (cmd : Cmd Word) (file : Word) (tok : UInt8) : Cmd Word :=
  if tok = 60 then .redir cmd file O_RDONLY 0
  else if tok = 62 then .redir cmd file (O_WRONLY ||| O_CREATE) 1
  else if tok = 43 then .redir cmd file (O_WRONLY ||| O_CREATE) 1
  else cmd

def parseredirs : ℕ → Cmd Word → Ptr → Result
  | 0, _, _ => .error .fuel
  | fuel + 1, cmd, ps =>
    let (more, ps) := peek ps [60, 62]
    if more then
      let tok := gettoken ps
      let file := gettoken tok.ps
      if file.ret ≠ 97 then .error (.panic "missing file for redirection")
      else parseredirs fuel (redircmd cmd ⟨file.q, file.eq⟩ tok.ret) file.ps
    else .ok (cmd, ps)

/-- `cmd->argv[argc] = q`, `cmd` being the command inside its redirections. -/
def Cmd.addArg {ω : Type} (w : ω) : Cmd ω → Cmd ω
  | .exec argv => .exec (argv ++ [w])
  | .redir cmd file mode fd => .redir (cmd.addArg w) file mode fd
  | cmd => cmd

/-- The loop of `parseexec`. -/
def parseargs : ℕ → ℕ → Cmd Word → Ptr → Result
  | 0, _, _, _ => .error .fuel
  | fuel + 1, argc, ret, ps =>
    let (stop, ps) := peek ps [124, 41, 38, 59]
    if stop then .ok (ret, ps)
    else
      let tok := gettoken ps
      if tok.ret = 0 then .ok (ret, tok.ps)
      else if tok.ret ≠ 97 then .error (.panic "syntax")
      else if MAXARGS ≤ argc + 1 then .error (.panic "too many args")
      else do
        let (ret, ps) ← parseredirs fuel (ret.addArg ⟨tok.q, tok.eq⟩) tok.ps
        parseargs fuel (argc + 1) ret ps

/-- The loop of `parseline` over `&`. -/
def parseback : ℕ → Cmd Word → Ptr → Result
  | 0, _, _ => .error .fuel
  | fuel + 1, cmd, ps =>
    let (more, ps) := peek ps [38]
    if more then parseback fuel (.back cmd) (gettoken ps).ps
    else .ok (cmd, ps)

mutual

def parseline : ℕ → Ptr → Result
  | 0, _ => .error .fuel
  | fuel + 1, ps => do
    let (cmd, ps) ← parsepipe fuel ps
    let (cmd, ps) ← parseback fuel cmd ps
    let (more, ps) := peek ps [59]
    if more then do
      let (right, ps) ← parseline fuel (gettoken ps).ps
      return (.list cmd right, ps)
    else return (cmd, ps)

def parsepipe : ℕ → Ptr → Result
  | 0, _ => .error .fuel
  | fuel + 1, ps => do
    let (cmd, ps) ← parseexec fuel ps
    let (more, ps) := peek ps [124]
    if more then do
      let (right, ps) ← parsepipe fuel (gettoken ps).ps
      return (.pipe cmd right, ps)
    else return (cmd, ps)

def parseexec : ℕ → Ptr → Result
  | 0, _ => .error .fuel
  | fuel + 1, ps =>
    let (block, ps) := peek ps [40]
    if block then parseblock fuel ps
    else do
      let (ret, ps) ← parseredirs fuel (.exec []) ps
      parseargs fuel 0 ret ps

def parseblock : ℕ → Ptr → Result
  | 0, _ => .error .fuel
  | fuel + 1, ps =>
    let (block, ps) := peek ps [40]
    if block then do
      let (cmd, ps) ← parseline fuel (gettoken ps).ps
      let (closed, ps) := peek ps [41]
      if closed then parseredirs fuel cmd (gettoken ps).ps
      else .error (.panic "syntax - missing )")
    else .error (.panic "parseblock")

end

/-! ## Termination of the words -/

/-- The index of a pointer. -/
def indexOf (line s : Ptr) : ℕ := line.length - s.length

def Cmd.words {ω : Type} : Cmd ω → List ω
  | .exec argv => argv
  | .redir cmd file _ _ => cmd.words ++ [file]
  | .pipe left right => left.words ++ right.words
  | .list left right => left.words ++ right.words
  | .back cmd => cmd.words

/-- `nulterminate`: what is in the buffer once there is a NUL behind each word. -/
def nulterminate (line : Ptr) (cmd : Cmd Word) : ℕ → UInt8 :=
  cmd.words.foldl (fun buf w => Function.update buf (indexOf line w.eq) 0) fun i => line.getD i 0

/-- The bytes up to the next NUL, of at most `n`. -/
def cstring (buf : ℕ → UInt8) : ℕ → ℕ → List UInt8
  | 0, _ => []
  | n + 1, i => if buf i = 0 then [] else buf i :: cstring buf n (i + 1)

def Cmd.map {α β : Type} (f : α → β) : Cmd α → Cmd β
  | .exec argv => .exec (argv.map f)
  | .redir cmd file mode fd => .redir (cmd.map f) (f file) mode fd
  | .pipe left right => .pipe (left.map f) (right.map f)
  | .list left right => .list (left.map f) (right.map f)
  | .back cmd => .back (cmd.map f)

/-- `parsecmd`: the command with the strings that its pointers lead to. -/
def parsecmd (line : List UInt8) : Except Stop (Cmd (List UInt8)) := do
  let (cmd, s) ← parseline (4 * line.length + 4) line
  let s := (peek s []).2
  if s ≠ [] then .error (.panic "syntax")
  else
    let buf := nulterminate line cmd
    return cmd.map fun w => cstring buf (line.length + 1) (indexOf line w.q)

end Lainos.Shell
