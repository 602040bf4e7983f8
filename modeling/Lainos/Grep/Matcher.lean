import Lainos.Library.ByteLists

/-!
# grep

The regular expressions of `apps/grep.c` with `^ . * $`, and the loop that cuts the input
into lines. `strchr` looks for a newline and stops at a NUL, so it is told where the bytes
of the last read end only by what an earlier read left behind them.
-/

namespace Lainos.Grep

open Library

/-! ## Matching -/

/-- `c*re` at the beginning of the text, where `here` tells whether `re` is. -/
def matchstar (here : List UInt8 → Bool) (c : UInt8) : List UInt8 → Bool
  | [] => here []
  | x :: text => here (x :: text) || ((x == c || c == 46) && matchstar here c text)

/-- `re` at the beginning of the text. -/
def matchhere : List UInt8 → List UInt8 → Bool
  | [], _ => true
  | c :: 42 :: re, text => matchstar (matchhere re) c text
  | [36], text => text.isEmpty
  | c :: re, text =>
    match text with
    | [] => false
    | x :: text => (c == 46 || c == x) && matchhere re text

/-- The loop of `match`: it looks at the empty string too. -/
def matchAnywhere (re : List UInt8) : List UInt8 → Bool
  | [] => matchhere re []
  | x :: text => matchhere re (x :: text) || matchAnywhere re text

/-- `match` of the source. -/
def matchText : List UInt8 → List UInt8 → Bool
  | 94 :: re, text => matchhere re text
  | re, text => matchAnywhere re text

@[simp] theorem matchText_nil (text : List UInt8) : matchText [] text = true := by
  cases text <;> rfl

/-! ## The buffer -/

/-- `sizeof(buf)`. -/
def BUFSIZE : ℕ := 1024

/-- The buffer with the number of bytes it holds, what has been written to the standard
output, and for each call of `strchr` the last place it looked at with the number of bytes
held then. -/
structure State where
  buf : Bytes
  m : ℕ
  out : List UInt8
  log : List (ℕ × ℕ)

/-- The variables when `main` calls `grep` for its first file: `buf` is static. -/
def State.init : State := ⟨fun _ => 0, 0, [], []⟩

/-- The place where `strchr(p, '\n')` returns, looking at no more than `n` bytes. -/
def strchrFrom (buf : Bytes) : ℕ → ℕ → Option ℕ
  | 0, _ => none
  | n + 1, p => if buf p = 10 ∨ buf p = 0 then some p else strchrFrom buf n (p + 1)

/-- `none` when the search runs off the end of the buffer. -/
def strchr (buf : Bytes) (p : ℕ) : Option ℕ := strchrFrom buf (BUFSIZE - p) p

/-- `read` puts a piece of the input behind what is held. -/
def State.read (s : State) (piece : List UInt8) : State :=
  { s with buf := store s.buf s.m piece, m := s.m + piece.length }

def State.look (s : State) (q : ℕ) : State := { s with log := s.log ++ [(q, s.m)] }

/-- The line from `p` to the newline at `q`: the newline comes back only with a match. -/
def State.line (re : List UInt8) (p q : ℕ) (s : State) : State :=
  if matchText re (load s.buf p (q - p)) then
    { s with out := s.out ++ load s.buf p (q + 1 - p) }
  else { s with buf := Function.update s.buf q 0 }

/-- The loop over the lines, from `p` on. It gives the last value of `p`, and `none` when
`strchr` leaves the buffer. -/
def lines (re : List UInt8) : ℕ → ℕ → State → Option (ℕ × State)
  | 0, _, _ => none
  | n + 1, p, s =>
    (strchr s.buf p).bind fun q =>
      -- strchr stopped at a NUL and returned 0
      if s.buf q = 0 then some (p, s.look q)
      else lines re n (q + 1) ((s.look q).line re p q)

/-- What follows the loop over the lines. `memmove` takes an unsigned count: a negative
one makes it copy beyond the buffer. -/
def State.keep (p : ℕ) (s : State) : Option State :=
  if p = 0 ∨ s.m = 0 then some { s with m := 0 }
  else if s.m < p then none
  else some { s with m := s.m - p, buf := copy 0 p (s.m - p) s.buf }

/-- One turn of the outer loop, for a `read` that returns the piece. -/
def round (re piece : List UInt8) (s : State) : Option State :=
  (lines re (BUFSIZE + 1) 0 (s.read piece)).bind fun r => r.2.keep r.1

/-- `grep(pattern, fd)` when `read` returns these pieces one after the other and then 0. -/
def grep (re : List UInt8) : List (List UInt8) → State → Option State
  | [], s => some s
  | piece :: rest, s => (round re piece s).bind (grep re rest)

example : (grep [94, 98] [[97, 10, 98, 99, 10], [98, 100, 101, 102, 10]] State.init).map
    State.out = some [98, 99, 10, 98, 100, 101, 102, 10] := by decide

end Lainos.Grep
