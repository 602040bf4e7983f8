import Lainos.Shell.Accepts
import Mathlib.Data.Nat.Find

/-!
# Running a command

`runcmd` of `sh.c` as far as descriptors go. A descriptor table belongs to one process and
`fork` copies it, so that a run of the command tree is given by the calls of `exec` that
its processes make, each with the table it is made with. `fork` and `pipe` are taken to
succeed while there are free descriptors, and so are the redirections' calls of `open`.
-/

namespace Lainos.Shell

def NOFILE : ℕ := 16

/-- Where a node is in the command tree: the sides taken from the node up to the root. -/
abbrev Node := List Bool

/-- What a descriptor refers to: what was open before, the file opened at a node, or an
end of the pipe made at a node. -/
inductive Obj (α : Type) where
  | old (a : α)
  | file (node : Node) (name : List UInt8) (mode : UInt32)
  | readEnd (node : Node)
  | writeEnd (node : Node)

abbrev Fds (α : Type) := ℕ → Option (Obj α)

variable {α : Type}

/-- `fdalloc`: the lowest free descriptor. -/
def fdalloc (t : Fds α) (o : Obj α) : Option (ℕ × Fds α) :=
  match (List.range NOFILE).find? fun fd => (t fd).isNone with
  | none => none
  | some fd => some (fd, Function.update t fd (some o))

def close (fd : ℕ) (t : Fds α) : Fds α := if fd < NOFILE then Function.update t fd none else t

/-- `dup`, whose result the shell does not look at. -/
def dup (fd : ℕ) (t : Fds α) : Fds α :=
  if fd < NOFILE then
    match t fd with
    | none => t
    | some o =>
      match fdalloc t o with
      | none => t
      | some (_, t') => t'
  else t

def pipe (node : Node) (t : Fds α) : Option (ℕ × ℕ × Fds α) :=
  match fdalloc t (.readEnd node) with
  | none => none
  | some (p₀, t₀) =>
    match fdalloc t₀ (.writeEnd node) with
    | none => none
    | some (p₁, t₁) => some (p₀, p₁, t₁)

/-- A call of `exec`. -/
structure ExecCall (α : Type) where
  node : Node
  path : List UInt8
  argv : List (List UInt8)
  table : Fds α

/-- "/bin/" -/
def bin : List UInt8 := [47, 98, 105, 110, 47]

/-- The `EXEC` case of `runcmd`; `found` is whether the program's file can be opened. The
assignment in `fd = open(path, O_RDONLY) < 0` is of the comparison. -/
def runexec (found : Bool) (node : Node) (argv : List (List UInt8)) (t : Fds α) :
    List (ExecCall α) :=
  match argv with
  | [] => []
  | prog :: _ =>
    let opened := if found then fdalloc t (.file node prog O_RDONLY) else none
    let t' := (opened.map Prod.snd).getD t
    let fd : ℕ := if opened.isNone then 1 else 0
    if fd ≠ 0 then [⟨node, bin ++ prog, argv, t'⟩]
    else [⟨node, prog, argv, close fd t'⟩]

/-- `runcmd` for the command at `node`. In a `LIST` or `PIPE` node `true` is the left side. -/
def runcmd (found : Node → Bool) : Node → Cmd (List UInt8) → Fds α → List (ExecCall α)
  | node, .exec argv, t => runexec (found node) node argv t
  | node, .redir cmd file mode fd, t =>
    match fdalloc (close fd t) (.file node file mode) with
    | none => []
    | some (_, t') => runcmd found (true :: node) cmd t'
  | node, .list left right, t =>
    runcmd found (true :: node) left t ++ runcmd found (false :: node) right t
  | node, .pipe left right, t =>
    match pipe node t with
    | none => []
    | some (p₀, p₁, t') =>
      runcmd found (true :: node) left (close p₁ (close p₀ (dup p₁ (close 1 t')))) ++
        runcmd found (false :: node) right (close p₁ (close p₀ (dup p₀ (close 0 t'))))
  | node, .back cmd, t => runcmd found (true :: node) cmd t

/-! ## What the line asks for -/

/-- The `EXEC` nodes that have a program to run, each with the table that the redirections
and pipes above it make of `t`. -/
def wanted : Node → Cmd (List UInt8) → Fds α → List (Node × Fds α)
  | _, .exec [], _ => []
  | node, .exec (_ :: _), t => [(node, t)]
  | node, .redir cmd file mode fd, t =>
    wanted (true :: node) cmd (Function.update t fd (some (.file node file mode)))
  | node, .list left right, t => wanted (true :: node) left t ++ wanted (false :: node) right t
  | node, .pipe left right, t =>
    wanted (true :: node) left (Function.update t 1 (some (.writeEnd node))) ++
      wanted (false :: node) right (Function.update t 0 (some (.readEnd node)))
  | node, .back cmd, t => wanted (true :: node) cmd t

/-- The redirections are those of the shell's syntax. -/
def Cmd.Redirects {ω : Type} : Cmd ω → Prop
  | .exec _ => True
  | .redir cmd _ mode fd => cmd.Redirects ∧
    (mode = O_RDONLY ∧ fd = 0 ∨ mode = O_WRONLY ||| O_CREATE ∧ fd = 1)
  | .list left right => left.Redirects ∧ right.Redirects
  | .pipe left right => left.Redirects ∧ right.Redirects
  | .back cmd => cmd.Redirects

/-- Descriptors 0, 1 and 2 are open and two others are free. -/
structure Ready (t : Fds α) : Prop where
  std : ∀ fd < 3, (t fd).isSome
  free : ∃ a b, a < b ∧ b < NOFILE ∧ t a = none ∧ t b = none

theorem fdalloc_eq {t : Fds α} {fd : ℕ} (o : Obj α) (hfd : fd < NOFILE) (hfree : t fd = none)
    (hlow : ∀ i < fd, (t i).isSome) : fdalloc t o = some (fd, Function.update t fd (some o)) := by
  have hfind : (List.range NOFILE).find? (fun fd => (t fd).isNone) = some fd := by
    rw [List.find?_range_eq_some]
    refine ⟨by rw [hfree]; rfl, List.mem_range.mpr hfd, fun i hi => ?_⟩
    have hsome := hlow i hi
    cases hti : t i with
    | none => simp [hti] at hsome
    | some o => rfl
  rw [fdalloc, hfind]

namespace Ready

variable {t : Fds α}

/-- The two lowest free descriptors. -/
theorem slots (h : Ready t) : ∃ p₀ p₁, 3 ≤ p₀ ∧ p₀ < p₁ ∧ p₁ < NOFILE ∧ t p₀ = none ∧ t p₁ = none ∧
    (∀ i < p₀, (t i).isSome) ∧ ∀ i < p₁, i ≠ p₀ → (t i).isSome := by
  classical
  obtain ⟨a, b, hab, hb, hta, htb⟩ := h.free
  have hex : ∃ i, t i = none := ⟨a, hta⟩
  have hle := Nat.find_min' hex hta
  have hex' : ∃ i, Nat.find hex < i ∧ t i = none := ⟨b, by omega, htb⟩
  obtain ⟨hlt, hnone⟩ := Nat.find_spec hex'
  have hle' := Nat.find_min' hex' ⟨by omega, htb⟩
  refine ⟨Nat.find hex, Nat.find hex', ?_, hlt, by omega, Nat.find_spec hex, hnone, ?_, ?_⟩
  · by_contra hlow
    have hsome := h.std _ (Nat.lt_of_not_le hlow)
    rw [Nat.find_spec hex] at hsome
    cases hsome
  · exact fun i hi => Option.isSome_iff_ne_none.mpr (Nat.find_min hex hi)
  · intro i hi hne
    refine Option.isSome_iff_ne_none.mpr fun hi' => Nat.find_min hex' hi ⟨?_, hi'⟩
    exact lt_of_le_of_ne (Nat.find_min' hex hi') (Ne.symm hne)

theorem update (h : Ready t) {fd : ℕ} (hfd : fd < 3) (o : Obj α) :
    Ready (Function.update t fd (some o)) := by
  obtain ⟨p₀, p₁, hp₀, hp₁, hlt, ht₀, ht₁, -, -⟩ := h.slots
  refine ⟨fun i hi => ?_, p₀, p₁, hp₁, hlt, ?_, ?_⟩
  · rw [Function.update_apply]
    split_ifs
    · rfl
    · exact h.std i hi
  · rw [Function.update_of_ne (by omega), ht₀]
  · rw [Function.update_of_ne (by omega), ht₁]

/-- A redirection replaces its descriptor. -/
theorem redirect (h : Ready t) {fd : ℕ} (hfd : fd < 3) (o : Obj α) :
    fdalloc (close fd t) o = some (fd, Function.update t fd (some o)) := by
  have hlt : fd < NOFILE := by
    rw [NOFILE]
    omega
  have hclose : close fd t = Function.update t fd none := if_pos hlt
  rw [hclose, fdalloc_eq o hlt (Function.update_self ..), Function.update_idem]
  intro i hi
  rw [Function.update_of_ne (by omega)]
  exact h.std i (by omega)

end Ready

/-- A child of a `PIPE` node moves the end `q` of the pipe to descriptor `k` and closes
both ends. -/
theorem move_end {t : Fds α} {p₀ p₁ q k : ℕ} {r w o : Obj α} (h : Ready t) (hk : k < 3)
    (hp₀ : 3 ≤ p₀) (hp₁ : p₀ < p₁) (hlt : p₁ < NOFILE) (ht₀ : t p₀ = none) (ht₁ : t p₁ = none)
    (hq : q = p₀ ∧ o = r ∨ q = p₁ ∧ o = w) :
    close p₁ (close p₀ (dup q (close k
      (Function.update (Function.update t p₀ (some r)) p₁ (some w))))) =
        Function.update t k (some o) := by
  set t' := Function.update (Function.update t p₀ (some r)) p₁ (some w) with ht'
  have hclose : ∀ fd < NOFILE, ∀ u : Fds α, close fd u = Function.update u fd none :=
    fun fd hfd u => if_pos hfd
  have hqlt : q < NOFILE := by obtain ⟨rfl, -⟩ | ⟨rfl, -⟩ := hq <;> omega
  have hqk : q ≠ k := by obtain ⟨rfl, -⟩ | ⟨rfl, -⟩ := hq <;> omega
  have hqo : t' q = some o := by
    obtain ⟨rfl, rfl⟩ | ⟨rfl, rfl⟩ := hq
    · rw [ht', Function.update_of_ne (by omega), Function.update_self]
    · rw [ht', Function.update_self]
  have hdup : dup q (close k t') = Function.update t' k (some o) := by
    rw [hclose k (by omega), dup, if_pos hqlt, Function.update_of_ne hqk, hqo]
    dsimp only
    rw [fdalloc_eq o (by omega : k < NOFILE) (Function.update_self ..)]
    · exact Function.update_idem ..
    · intro i hi
      rw [Function.update_of_ne (by omega), ht', Function.update_of_ne (by omega),
        Function.update_of_ne (by omega)]
      exact h.std i (by omega)
  rw [hdup, hclose p₀ (by omega), hclose p₁ hlt]
  funext fd
  simp only [Function.update_apply, ht']
  by_cases h₁ : fd = p₁
  · rw [if_pos h₁, if_neg (by omega), h₁, ht₁]
  · by_cases h₀ : fd = p₀
    · rw [if_neg h₁, if_pos h₀, if_neg (by omega), h₀, ht₀]
    · rw [if_neg h₁, if_neg h₀, if_neg h₁, if_neg h₀]

theorem runcmd_pipe {t : Fds α} (h : Ready t) (found : Node → Bool) (node : Node)
    (left right : Cmd (List UInt8)) : runcmd found node (.pipe left right) t =
      runcmd found (true :: node) left (Function.update t 1 (some (.writeEnd node))) ++
        runcmd found (false :: node) right (Function.update t 0 (some (.readEnd node))) := by
  obtain ⟨p₀, p₁, hp₀, hp₁, hlt, ht₀, ht₁, hlow₀, hlow₁⟩ := h.slots
  have hpipe : pipe node t = some (p₀, p₁,
      Function.update (Function.update t p₀ (some (.readEnd node))) p₁ (some (.writeEnd node))) := by
    rw [pipe, fdalloc_eq _ (by omega) ht₀ hlow₀]
    dsimp only
    rw [fdalloc_eq _ hlt (by rw [Function.update_of_ne (by omega), ht₁])]
    intro i hi
    rw [Function.update_apply]
    split_ifs with hi₀
    · rfl
    · exact hlow₁ i hi hi₀
  rw [runcmd, hpipe]
  dsimp only
  rw [move_end h (by omega) hp₀ hp₁ hlt ht₀ ht₁ (Or.inr ⟨rfl, rfl⟩),
    move_end h (by omega) hp₀ hp₁ hlt ht₀ ht₁ (Or.inl ⟨rfl, rfl⟩)]

theorem runcmd_redir {t : Fds α} (h : Ready t) (found : Node → Bool) (node : Node)
    (cmd : Cmd (List UInt8)) (file : List UInt8) (mode : UInt32) {fd : ℕ} (hfd : fd < 3) :
    runcmd found node (.redir cmd file mode fd) t =
      runcmd found (true :: node) cmd (Function.update t fd (some (.file node file mode))) := by
  rw [runcmd, h.redirect hfd]

/-- The nodes that have a program to run. -/
def programs : Node → Cmd (List UInt8) → List Node
  | _, .exec [] => []
  | node, .exec (_ :: _) => [node]
  | node, .redir cmd _ _ _ => programs (true :: node) cmd
  | node, .list left right => programs (true :: node) left ++ programs (false :: node) right
  | node, .pipe left right => programs (true :: node) left ++ programs (false :: node) right
  | node, .back cmd => programs (true :: node) cmd

def ExecCall.entry (x : ExecCall α) : Node × Fds α := (x.node, x.table)

theorem runexec_entry {t : Fds α} (h : Ready t) (found : Bool) (node : Node) (prog : List UInt8)
    (argv : List (List UInt8)) : ∃ u, (runexec found node (prog :: argv) t).map ExecCall.entry =
      [(node, u)] ∧ (u = t ↔ found = false) := by
  cases found with
  | false => exact ⟨t, rfl, by simp⟩
  | true =>
    obtain ⟨p₀, p₁, hp₀, hp₁, hlt, ht₀, -, hlow, -⟩ := h.slots
    rw [runexec, if_pos rfl, fdalloc_eq _ (by omega) ht₀ hlow]
    refine ⟨_, rfl, fun hu => ?_, fun hc => by cases hc⟩
    have hstd := h.std 0 (by omega)
    rw [← hu] at hstd
    simp [close, NOFILE] at hstd

/-- Which nodes run does not depend on the tables. -/
theorem map_node_runcmd {t : Fds α} (h : Ready t) (found : Node → Bool) {node : Node}
    {c : Cmd (List UInt8)} (hc : c.Redirects) :
    ((runcmd found node c t).map ExecCall.entry).map Prod.fst = programs node c := by
  induction c generalizing node t with
  | exec argv =>
    cases argv with
    | nil => rfl
    | cons prog argv =>
      obtain ⟨u, hu, -⟩ := runexec_entry h (found node) node prog argv
      rw [runcmd, hu]
      rfl
  | redir c file mode fd ih =>
    have hfd : fd < 3 := by obtain ⟨-, ⟨-, rfl⟩ | ⟨-, rfl⟩⟩ := hc <;> omega
    rw [runcmd_redir h _ _ _ _ _ hfd]
    exact ih (h.update hfd _) hc.1
  | pipe l r ihl ihr =>
    rw [runcmd_pipe h, List.map_append, List.map_append, ihl (h.update (by omega) _) hc.1,
      ihr (h.update (by omega) _) hc.2]
    rfl
  | list l r ihl ihr =>
    rw [runcmd, List.map_append, List.map_append, ihl h hc.1, ihr h hc.2]
    rfl
  | back c ih => exact ih h hc

theorem map_fst_wanted (node : Node) (c : Cmd (List UInt8)) (t : Fds α) :
    (wanted node c t).map Prod.fst = programs node c := by
  induction c generalizing node t with
  | exec argv => cases argv <;> rfl
  | redir c file mode fd ih => exact ih ..
  | pipe l r ihl ihr | list l r ihl ihr => rw [wanted, List.map_append, ihl, ihr, programs]
  | back c ih => exact ih ..

/-- Two lists of entries that begin with the same nodes. -/
theorem append_entries_iff {A A' B B' : List (Node × Fds α)}
    (h : A.map Prod.fst = A'.map Prod.fst) : A ++ B = A' ++ B' ↔ A = A' ∧ B = B' := by
  have hlen : A.length = A'.length := by
    rw [← List.length_map Prod.fst, h, List.length_map]
  constructor
  · exact fun heq => List.append_inj heq hlen
  · rintro ⟨rfl, rfl⟩
    rfl

/-- Every program runs with the table that the line asks for, just if none is found under
its own name: the search closes descriptor 0 in place of the one it opened. -/
theorem runcmd_tables_iff {t : Fds α} (h : Ready t) (found : Node → Bool) (node : Node)
    {c : Cmd (List UInt8)} (hc : c.Redirects) :
    (runcmd found node c t).map ExecCall.entry = wanted node c t ↔
      ∀ n ∈ programs node c, found n = false := by
  induction c generalizing node t with
  | exec argv =>
    cases argv with
    | nil => simp [runcmd, runexec, wanted, programs]
    | cons prog argv =>
      obtain ⟨u, hu, hiff⟩ := runexec_entry h (found node) node prog argv
      rw [runcmd, hu, wanted]
      simp [programs, hiff]
  | redir c file mode fd ih =>
    have hfd : fd < 3 := by obtain ⟨-, ⟨-, rfl⟩ | ⟨-, rfl⟩⟩ := hc <;> omega
    rw [runcmd_redir h _ _ _ _ _ hfd]
    exact ih (h.update hfd _) _ hc.1
  | pipe l r ihl ihr =>
    have hl := h.update (show 1 < 3 by omega) (.writeEnd node)
    have hr := h.update (show 0 < 3 by omega) (.readEnd node)
    rw [runcmd_pipe h, List.map_append, wanted,
      append_entries_iff ((map_node_runcmd hl found hc.1).trans (map_fst_wanted ..).symm),
      ihl hl _ hc.1, ihr hr _ hc.2, programs]
    simp only [List.mem_append, or_imp, forall_and]
  | list l r ihl ihr =>
    rw [runcmd, List.map_append, wanted,
      append_entries_iff ((map_node_runcmd h found hc.1).trans (map_fst_wanted ..).symm),
      ihl h _ hc.1, ihr h _ hc.2, programs]
    simp only [List.mem_append, or_imp, forall_and]
  | back c ih => exact ih h _ hc

/-- The console on descriptors 0, 1 and 2. -/
def console : Fds Unit := fun fd => if fd < 3 then some (.old ()) else none

theorem ready_console : Ready console := by
  refine ⟨fun fd hfd => ?_, 3, 4, by omega, by decide, rfl, rfl⟩
  rw [console, if_pos hfd]
  rfl

/-- `ls < in | wc`, with neither program in the working directory. -/
theorem runcmd_tables_iff_console :
    (Cmd.pipe (.redir (.exec [[108, 115]]) [105, 110] O_RDONLY 0) (.exec [[119, 99]])).Redirects ∧
    ((runcmd (fun _ => false) [] (.pipe (.redir (.exec [[108, 115]]) [105, 110] O_RDONLY 0)
        (.exec [[119, 99]])) console).map ExecCall.entry =
      wanted [] (.pipe (.redir (.exec [[108, 115]]) [105, 110] O_RDONLY 0) (.exec [[119, 99]]))
        console) := by
  have hc : (Cmd.pipe (.redir (.exec [[108, 115]]) [105, 110] O_RDONLY 0)
      (.exec [[119, 99]])).Redirects := ⟨⟨trivial, Or.inl ⟨rfl, rfl⟩⟩, trivial⟩
  exact ⟨hc, (runcmd_tables_iff ready_console (fun _ => false) [] hc).mpr fun _ _ => rfl⟩

/-- A program found under its own name runs without descriptor 0, and with descriptor 3
open on its own file. -/
theorem runcmd_loses_stdin :
    ((runcmd (fun _ => true) [] (.exec [[108, 115]]) console).map ExecCall.entry ≠
      wanted [] (.exec [[108, 115]]) console) ∧
    (runcmd (fun _ => true) [] (.exec [[108, 115]]) console).map
      (fun x => ((x.table 0).isSome, (x.table 3).isSome)) = [(false, true)] := by
  have htable : (runcmd (fun _ => true) [] (.exec [[108, 115]]) console).map
      (fun x => ((x.table 0).isSome, (x.table 3).isSome)) = [(false, true)] := rfl
  refine ⟨fun h => ?_, htable⟩
  have hentry := congrArg (fun l => l.map fun e : Node × Fds Unit => (e.2 0).isSome) h
  rw [List.map_map] at hentry
  cases hentry

/-! ## The trees that the parser makes -/

theorem redirects_backs {n : ℕ} {c : Cmd (List UInt8)} (h : c.Redirects) : (backs n c).Redirects := by
  induction n generalizing c with
  | zero => exact h
  | succ n ih => exact ih h

theorem redirects_wraps {ts : List Tok} {rs : List Redir} (hrs : Redirs ts rs)
    {c : Cmd (List UInt8)} (h : c.Redirects) : (rs.foldl Redir.wrap c).Redirects := by
  induction hrs generalizing c with
  | nil => exact h
  | cons hop _ ih =>
    refine ih ⟨h, ?_⟩
    cases hop with
    | input => exact Or.inl ⟨rfl, rfl⟩
    | output | append => exact Or.inr ⟨rfl, rfl⟩

theorem Redirs.append {ts ts' : List Tok} {rs rs' : List Redir} (h : Redirs ts rs)
    (h' : Redirs ts' rs') : Redirs (ts ++ ts') (rs ++ rs') := by
  induction h with
  | nil => exact h'
  | cons hop _ ih => exact .cons hop ih

theorem Args.redirs {ts : List Tok} {ws : List (List UInt8)} {rs : List Redir} (h : Args ts ws rs) :
    ∃ ts', Redirs ts' rs := by
  induction h with
  | nil => exact ⟨[], .nil⟩
  | cons hrs _ ih =>
    obtain ⟨ts', hrs'⟩ := ih
    exact ⟨_, hrs.append hrs'⟩

theorem Derives.redirects {nt : Nt} {ts : List Tok} {c : Cmd (List UInt8)} (h : Derives nt ts c) :
    c.Redirects := by
  induction h with
  | line n _ ih => exact redirects_backs ih
  | list n _ _ ih ih' => exact ⟨redirects_backs ih, ih'⟩
  | single _ ih => exact ih
  | pipe _ _ ih ih' => exact ⟨ih, ih'⟩
  | block _ hrs ih => exact redirects_wraps hrs ih
  | simple hrs hargs _ =>
    obtain ⟨ts', hrs'⟩ := hargs.redirs
    rw [List.foldl_append]
    exact redirects_wraps hrs' (redirects_wraps hrs trivial)

theorem redirects_of_parsecmd {line : List UInt8} (hline : 0 ∉ line) {c : Cmd (List UInt8)}
    (h : parsecmd line = .ok c) : c.Redirects :=
  (derives_of_parsecmd hline h).redirects

end Lainos.Shell
