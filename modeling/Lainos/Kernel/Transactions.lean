import Lainos.Kernel.Logging
import Lainos.Kernel.Overflow

/-!
# Transactions

How the system calls use the log. A process is outside or inside of its transaction, and
each piece of a call takes it from one to the other or leaves it where it is: `begin_trans`
goes in, `commit_trans` goes out, all other code stays. Over whole runs this gives who may
end a transaction, and which blocks can have changed since the last one ended.
-/

namespace Lainos.Kernel

open Library

variable {s t : Sys} {p : Pid} {k : ℕ} {name : List UInt8} {α β : Type}

/-! ## Calls -/

/-- What a step of a call may do to the disk and the log. -/
inductive Moves (s t : Sys) : Prop
  | logs (h : Logs s t)
  | begins (hbusy : s.log.busy = false) (hdisk : t.disk = s.disk) (hstart : t.log.start = s.log.start)
    (hsectors : t.log.sectors = s.log.sectors) (hbusy' : t.log.busy = true)
  | commits (hempty : s.log.sectors = [] → t.disk = s.disk) (hstart : t.log.start = s.log.start)
    (hsectors : t.log.sectors = []) (hbusy : t.log.busy = false)

/-- Each process knows whether it is inside its transaction. -/
def transactions : Outline Pid Sys (Pid → Bool) Bool where
  inv s g := (s.log.busy = true ↔ s.log.owner ≠ none) ∧ ∀ p, g p = true ↔ s.log.owner = some p
  own g p := g p

/-- The code takes process `p` from outside or inside its transaction to outside or
inside, and does not wait for the log from inside. -/
structure Takes (p : Pid) (l m : Bool) (x : Call α) : Prop where
  safe : Safe transactions (fun _ => True) (fun l e => l = true ∧ WaitsForLog e) p
    (fun _ l' => l' = m) x l
  steps : x.Steps Moves

namespace Takes

variable {l m n : Bool}

theorem bind {x : Call α} {f : α → Call β} (hx : Takes p l m x) (hf : ∀ a, Takes p m n (f a)) :
    Takes p l n (x >>= f) := by
  refine ⟨(hx.safe.mono fun a l' hl => ?_).bind, hx.steps.bind fun a => (hf a).steps⟩
  exact hl ▸ (hf a).safe

theorem pure {a : α} : Takes p l l (Pure.pure a : Call α) := ⟨Safe.pure rfl, .pure a⟩

theorem ite {c : Prop} [Decidable c] {x y : Call α} (hx : Takes p l m x) (hy : Takes p l m y) :
    Takes p l m (if c then x else y) := by
  split_ifs
  · exact hx
  · exact hy

/-- Code that goes on according to whether something was found. -/
theorem cases {γ : Type} {x : Call (Option γ)} {f : Option γ → Call α} (hx : Takes p l m x)
    (hnone : Takes p m n (f none)) (hsome : ∀ a, Takes p m n (f (some a))) :
    Takes p l n (x >>= f) := by
  refine hx.bind fun o => ?_
  cases o with
  | none => exact hnone
  | some a => exact hsome a

theorem act {x : Act α} (hx : ∀ {s}, Quiet s x) : Takes p l l (liftM x : Call α) := by
  refine ⟨Safe.lift fun s g hinv hown => ?_, .lift fun s b t hrun => .logs (hx.logs hrun)⟩
  refine Exec.Ends.mono hx (fun a t ht _ => ⟨g, ?_, fun _ _ => rfl, hown⟩)
    fun e he hbad => he hbad.2
  change (t.log.busy = true ↔ _) ∧ _
  rw [ht.busy, ht.owner]
  exact hinv

theorem panic {msg : String} : Takes p l m (liftM (Kernel.panic msg : Act α) : Call α) :=
  ⟨Safe.lift fun _ _ _ _ hbad => not_waits_panic msg hbad.2, .lift fun _ _ _ hrun => by cases hrun⟩

theorem begin : Takes p false true (liftM (beginTrans p) : Call Unit) := by
  refine ⟨Safe.lift fun s g hinv hown => ?_, .lift fun s b t hrun => ?_⟩
  · rw [beginTrans, Exec.ends_bind, Exec.ends_get, Exec.ends_ite]
    refine ⟨fun _ => fun hbad => (by cases hbad.1), fun hbusy _ => ?_⟩
    have hnone : s.log.owner = none := by
      by_contra howner
      exact hbusy (hinv.1.mpr howner)
    refine ⟨Function.update g p true, ⟨by simp, fun q => ?_⟩, fun q hq => Function.update_of_ne hq ..,
      Function.update_self ..⟩
    by_cases hq : q = p
    · subst hq
      simp
    · have hfree := hinv.2 q
      rw [hnone] at hfree
      simpa [hq, Ne.symm hq] using hfree
  · rw [beginTrans, Exec.bind_of_ok Exec.get_run] at hrun
    cases hbusy : s.log.busy with
    | true =>
      simp only [hbusy] at hrun
      cases hrun
    | false =>
      simp only [hbusy] at hrun
      obtain ⟨-, rfl⟩ := Prod.mk.inj (Except.ok.inj hrun)
      exact .begins hbusy rfl rfl rfl rfl

theorem commit : Takes p true false (liftM commitTrans : Call Unit) := by
  refine ⟨Safe.lift fun s g hinv hown _ => ?_, .lift fun s b t hrun => ?_⟩
  · have howner : s.log.owner = some p := (hinv.2 p).mp hown
    refine ⟨Function.update g p false, ⟨by simp, fun q => ?_⟩, fun q hq => Function.update_of_ne hq ..,
      Function.update_self ..⟩
    by_cases hq : q = p
    · subst hq
      simp
    · have hother := hinv.2 q
      rw [howner] at hother
      simpa [hq, Ne.symm hq] using hother
  · obtain ⟨-, rfl⟩ := Prod.mk.inj (Except.ok.inj hrun)
    exact .commits (fun hempty => if_pos hempty) rfl rfl rfl

end Takes

variable {l : Bool}

/-! ## Inodes and names -/

theorem takes_ilock {t : Option Ticket} : Takes p l l (ilock t k) :=
  .bind (.act quiet_ilockEnter) fun _ => .act quiet_ilockLoad

theorem takes_iput : Takes p l l (iput p k) :=
  .bind (.act quiet_iputEnter) fun _ => .ite (.bind (.act quiet_iputFree) fun _ =>
    .act quiet_iputLeave) .pure

theorem takes_iunlockput : Takes p l l (iunlockput p k) :=
  .bind (.act quiet_iunlock) fun _ => takes_iput

theorem takes_dirlink {ip : ℕ} : Takes p l l (dirlink p k name ip) :=
  .cases (.act quiet_dirlookup) (.bind (.act quiet_dirlinkWrite) fun _ => .pure)
    fun _ => .bind takes_iput fun _ => .pure

theorem takes_namexLoop {parent : Bool} {fuel ip : ℕ} {path : Path} {t : Option Ticket} :
    Takes p l l (namexLoop p parent fuel path name ip t) := by
  induction fuel generalizing path name ip t with
  | zero => exact .pure
  | succ fuel ih =>
    rw [namexLoop]
    split
    · exact .ite (.bind takes_iput fun _ => .pure) .pure
    · exact .bind takes_ilock fun d => .ite (.bind takes_iunlockput fun _ => .pure)
        (.ite (.bind (.act quiet_iunlock) fun _ => .pure) (.cases (.act quiet_dirlookup)
          (.bind takes_iunlockput fun _ => .pure) fun _ => .bind takes_iunlockput fun _ => ih))

theorem takes_namex {path : Path} {parent : Bool} : Takes p l l (namex p path parent) := by
  rw [namex]
  split_ifs
  · exact .bind (.act quiet_iget) fun _ => takes_namexLoop
  · exact .bind (.act quiet_idupCwd) fun _ => takes_namexLoop

theorem takes_namei {path : Path} : Takes p l l (namei p path) :=
  .cases takes_namex .pure fun _ => .pure

/-! ## Open files -/

theorem takes_fileclose {f : ℕ} : Takes p false false (fileclose p f) := by
  refine .cases (.act quiet_fileDrop) .pure fun ff => ?_
  obtain ⟨type, -⟩ := ff
  cases type with
  | none => exact .pure
  | pipe => exact .act quiet_pipeclose
  | inode => exact .bind .begin fun _ => .bind takes_iput fun _ => .commit

theorem takes_filestat {f : ℕ} : Takes p l l (filestat f) :=
  .bind (.act quiet_getFile) fun _ => .ite (.bind takes_ilock fun _ =>
    .bind (.act quiet_iunlock) fun _ => .pure) .pure

theorem takes_device {d : Dinode} {answer : Option ℕ} : Takes p l l (device d k answer) :=
  .ite (.bind (.act quiet_iunlock) fun _ => .bind takes_ilock fun _ => .pure) .pure

theorem takes_pipeWaits {n : ℕ} : Takes p l l (pipeWaits n) := by
  induction n with
  | zero => exact .pure
  | succ n ih => exact .bind (.act .pure) fun _ => ih

theorem takes_pipeCall {x : ℕ} {answer : Answer} : Takes p l l (pipeCall p x answer) :=
  .bind (.act quiet_note) fun _ => .bind takes_pipeWaits fun _ =>
    .bind (.act quiet_note) fun _ => .pure

theorem takes_fileread {f : ℕ} {n : UInt32} {answer : Answer} :
    Takes p l l (fileread p f n answer) := by
  refine .bind (.act quiet_getFile) fun file => .ite .pure ?_
  have hend : ∀ r : Option ℕ, Takes p l l (do
      iunlock file.ip
      return r : Call (Option ℕ)) := fun r => .bind (.act quiet_iunlock) fun _ => .pure
  split
  · exact .panic
  · exact takes_pipeCall
  · exact .bind takes_ilock fun d => .ite (.bind takes_device fun r => .bind (.act quiet_advance)
      fun _ => hend r) (.bind (.act quiet_readAdvance) hend)

theorem takes_writeChunks {f ip fuel n : ℕ} {src : Bytes} :
    Takes p false false (writeChunks p f ip fuel n src) := by
  induction fuel generalizing n src with
  | zero => exact .pure
  | succ fuel ih =>
    refine .ite .pure (.bind .begin fun _ => .bind takes_ilock fun d =>
      .ite (.bind takes_device fun _ => .bind (.act quiet_advance) fun _ => .bind .pure fun r =>
        .bind (.act quiet_iunlock) fun _ => .bind .commit fun _ => ?_)
      (.bind (.act quiet_writeAdvance) fun r => .bind (.act quiet_iunlock) fun _ =>
        .bind .commit fun _ => ?_))
    all_goals
      cases r with
      | none => exact .pure
      | some r => exact .ite .panic ih

theorem takes_filewrite {f n : ℕ} {src : Bytes} {answer : Answer} :
    Takes p false false (filewrite p f n src answer) := by
  refine .bind (.act quiet_getFile) fun file => .ite .pure ?_
  split
  · exact .panic
  · exact takes_pipeCall
  · exact .bind takes_writeChunks fun _ => .pure

/-! ## Links and new files -/

theorem takes_linkBad {ip : ℕ} {t : Option Ticket} : Takes p true false (linkBad p ip t) :=
  .bind takes_ilock fun _ => .bind (.act quiet_dropLink) fun _ =>
    .bind takes_iunlockput fun _ => .commit

theorem takes_sysLink {old new : Option Path} : Takes p false false (sysLink p old new) := by
  cases old with
  | none => exact .pure
  | some old =>
    cases new with
    | none => exact .pure
    | some new =>
      exact .cases takes_namei .pure fun _ => .bind .begin fun _ => .bind takes_ilock fun _ =>
        .ite (.bind takes_iunlockput fun _ => .commit) (.bind (.act quiet_addLink) fun _ =>
          .bind (.act quiet_iunlock) fun _ => .cases takes_namex takes_linkBad fun _ =>
            .bind takes_ilock fun _ => .bind takes_dirlink fun _ => .ite (.bind takes_iunlockput
              fun _ => .bind takes_iput fun _ => .commit)
            (.bind takes_iunlockput fun _ => takes_linkBad))

theorem takes_unlinkBad : Takes p true false (unlinkBad p k) :=
  .bind takes_iunlockput fun _ => .commit

theorem takes_unlinkFound {ip off : ℕ} {d : Dinode} :
    Takes p true false (unlinkFound p k ip off d) := by
  have hend : Takes p true false (do
      iunlockput p k
      dropLink p ip
      iunlockput p ip
      commitTrans) := .bind takes_iunlockput fun _ => .bind (.act quiet_dropLink) fun _ =>
    .bind takes_iunlockput fun _ => .commit
  exact .bind (.act quiet_clearDirent) fun _ =>
    .ite (.bind (.act quiet_dropLink) fun _ => hend) hend

theorem takes_sysUnlink {path : Option Path} : Takes p false false (sysUnlink p path) := by
  cases path with
  | none => exact .pure
  | some path =>
    exact .cases takes_namex .pure fun dir => .bind .begin fun _ => .bind takes_ilock fun _ =>
      .ite takes_unlinkBad (.cases (.act quiet_dirlookup) takes_unlinkBad fun entry =>
        .bind takes_ilock fun d => .ite .panic (.ite (.bind (.act quiet_isdirempty) fun _ =>
          .ite takes_unlinkFound (.bind takes_iunlockput fun _ => takes_unlinkBad))
            (.bind .pure fun _ => .ite takes_unlinkFound
              (.bind takes_iunlockput fun _ => takes_unlinkBad))))

theorem takes_makeDots {ip : ℕ} : Takes p l l (makeDots p ip k) :=
  .bind takes_dirlink fun _ => .ite (.bind takes_dirlink fun _ => .ite .pure .panic)
    (.bind .pure fun _ => .ite .pure .panic)

theorem takes_createNew {type major minor : Int16} :
    Takes p l l (createNew p k name type major minor) := by
  have hend : ∀ ip, Takes p l l (do
      if ← dirlink p k name ip then do
        iunlockput p k
        return ip
      else liftM (panic "create: dirlink" : Act ℕ)) := fun ip => .bind takes_dirlink fun _ =>
    .ite (.bind takes_iunlockput fun _ => .pure) .panic
  exact .bind (.act quiet_ialloc) fun ip => .bind takes_ilock fun _ => .bind (.act quiet_initInode)
    fun _ => .ite (.bind (.act quiet_addLink) fun _ => .bind takes_makeDots fun _ => hend ip)
      (hend ip)

theorem takes_create {path : Path} {type major minor : Int16} :
    Takes p l l (create p path type major minor) :=
  .cases takes_namex .pure fun _ => .bind takes_ilock fun _ => .cases (.act quiet_dirlookup)
    (.bind takes_createNew fun _ => .pure) fun _ => .bind takes_iunlockput fun _ =>
      .bind takes_ilock fun _ => .ite .pure (.bind takes_iunlockput fun _ => .pure)

theorem takes_openInode {ip : ℕ} {omode : UInt32} : Takes p false false (openInode p ip omode) :=
  .cases (.act quiet_filealloc) takes_iunlockput fun _ => .cases (.act quiet_fdalloc)
    (.bind takes_fileclose fun _ => takes_iunlockput) fun _ => .bind (.act quiet_iunlock) fun _ =>
      .act quiet_initFile

theorem takes_sysOpen {path : Option Path} {omode : UInt32} :
    Takes p false false (sysOpen p path omode) := by
  cases path with
  | none => exact .pure
  | some path =>
    refine .ite (.bind .begin fun _ => .bind takes_create fun ip => .bind .commit fun _ => ?_)
      (.cases takes_namei .pure fun _ => .bind takes_ilock fun _ =>
        .ite takes_iunlockput takes_openInode)
    cases ip with
    | none => exact .pure
    | some ip => exact takes_openInode

theorem takes_makeNode {path : Option Path} {type major minor : Int16} :
    Takes p false false (makeNode p path type major minor) := by
  refine .bind .begin fun _ => ?_
  cases path with
  | none => exact .commit
  | some path => exact .cases takes_create .commit fun _ => .bind takes_iunlockput fun _ => .commit

/-! ## Pipes and processes -/

theorem takes_pipealloc {page : Option ℕ} : Takes p false false (pipealloc p page) :=
  .cases (.act quiet_filealloc) .pure fun _ => .cases (.act quiet_filealloc)
    (.bind takes_fileclose fun _ => .pure) fun _ => .bind (.act quiet_pipeinit) fun _ =>
      .ite .pure (.bind takes_fileclose fun _ => .bind takes_fileclose fun _ => .pure)

theorem takes_sysPipe {page : Option ℕ} : Takes p false false (sysPipe p page) :=
  .cases takes_pipealloc .pure fun _ => .cases (.act quiet_fdalloc)
    (.bind takes_fileclose fun _ => takes_fileclose) fun _ => .cases (.act quiet_fdalloc)
      (.bind (.act quiet_clearFd) fun _ => .bind takes_fileclose fun _ => takes_fileclose)
      fun _ => .pure

theorem takes_putCwd : Takes p l l (putCwd p) :=
  .cases (.act quiet_getCwd) .pure fun _ => takes_iput

theorem takes_sysChdir {path : Option Path} : Takes p l l (sysChdir p path) := by
  cases path with
  | none => exact .pure
  | some path =>
    exact .cases takes_namei .pure fun _ => .bind takes_ilock fun _ => .ite takes_iunlockput
      (.bind (.act quiet_iunlock) fun _ => .bind takes_putCwd fun _ => .act quiet_setCwd)

theorem takes_execReads {d : Dinode} {ip : ℕ} {reads : List (UInt32 × UInt32 × Option ℕ)} :
    Takes p l l (execReads p d ip reads) := by
  induction reads with
  | nil => exact .pure
  | cons r rs ih =>
    exact .ite (.bind takes_device fun _ => ih) (.bind (.act quiet_readFile) fun _ => ih)

theorem takes_sysExecve {path : Option Path} {reads : List (UInt32 × UInt32 × Option ℕ)} :
    Takes p l l (sysExecve p path reads) := by
  cases path with
  | none => exact .pure
  | some path =>
    exact .cases takes_namei .pure fun _ => .bind takes_ilock fun _ =>
      .bind takes_execReads fun _ => takes_iunlockput

theorem takes_dupFds {q : Pid} {fds : List ℕ} : Takes p l l (dupFds p q fds) := by
  induction fds with
  | nil => exact .pure
  | cons fd fds ih => exact .bind (.act quiet_dupFd) fun _ => ih

theorem takes_fork {q : Pid} {mem : Bool} : Takes p l l (fork p q mem) :=
  .bind (.act quiet_allocproc) fun _ => .ite (.ite (.bind takes_dupFds fun _ =>
    .bind (.act quiet_dupCwd) fun _ => .act quiet_setState) (.act quiet_setState)) .pure

theorem takes_closeFds {fds : List ℕ} : Takes p false false (closeFds p fds) := by
  induction fds with
  | nil => exact .pure
  | cons fd fds ih =>
    exact .cases (.act quiet_argfd) ih fun _ => .bind takes_fileclose fun _ =>
      .bind (.act quiet_clearFd) fun _ => ih

theorem takes_exit : Takes p false false (exit p) :=
  .ite .panic (.bind takes_closeFds fun _ => .bind takes_putCwd fun _ =>
    .bind (.act quiet_setCwd) fun _ => .act quiet_setState)

theorem takes_call (c : Syscall) : Takes p false false (c.call p) := by
  cases c with
  | dup =>
    exact .cases (.act quiet_argfd) .pure fun _ => .cases (.act quiet_fdalloc) .pure fun _ =>
      .act quiet_filedup
  | pipe => exact takes_sysPipe
  | read => exact .cases (.act quiet_argfd) .pure fun _ => .bind takes_fileread fun _ => .pure
  | write => exact .cases (.act quiet_argfd) .pure fun _ => .bind takes_filewrite fun _ => .pure
  | close =>
    exact .cases (.act quiet_argfd) .pure fun _ => .bind (.act quiet_clearFd) fun _ =>
      takes_fileclose
  | fstat => exact .cases (.act quiet_argfd) .pure fun _ => .bind takes_filestat fun _ => .pure
  | link => exact takes_sysLink
  | unlink => exact takes_sysUnlink
  | «open» => exact takes_sysOpen
  | mkdir => exact takes_makeNode
  | mknod => exact takes_makeNode
  | chdir => exact takes_sysChdir
  | execve => exact takes_sysExecve
  | fork => exact takes_fork
  | exit => exact takes_exit

theorem takes_enters {x : Call Unit} (h : enters p s x) : Takes p false false x := by
  obtain ⟨-, c, rfl⟩ := h
  exact .bind (.act quiet_note) fun _ => .bind (takes_call c) fun _ => .act quiet_note

/-! ## Runs -/

/-- No transaction is in progress. -/
structure Logger.Idle (log : Logger) : Prop where
  busy : log.busy = false
  owner : log.owner = none
  sectors : log.sectors = []

variable {s₀ : Sys} {c c' : Pool Pid Halt Sys}

/-- The states that any number of processes bring about by file-system calls. -/
abbrev Reach (s₀ : Sys) : Pool Pid Halt Sys → Prop :=
  Pool.Reach enters (fun _ => True) ⟨s₀, fun _ => none⟩

theorem safeStart_transactions : SafeStart transactions (fun _ => True)
    (fun l e => l = true ∧ WaitsForLog e) (fun (_ : Pid) l => l = false) enters := by
  intro p s g x hinv hrest hcall
  refine ⟨g, hinv, fun _ _ => rfl, ?_⟩
  rw [hrest]
  exact (takes_enters hcall).safe

theorem Reach.sound (h₀ : s₀.log.Idle) (h : Reach s₀ c) : c.Sound transactions (fun _ => True)
    (fun l e => l = true ∧ WaitsForLog e) (fun (_ : Pid) l => l = false) := by
  refine Pool.Reach.sound safeStart_transactions ?_ h
  refine ⟨fun _ => false, ⟨?_, fun p => ?_⟩, fun _ => rfl⟩
  · simp [h₀.busy, h₀.owner]
  · simp [h₀.owner]

theorem Reach.moves (h : Reach s₀ c) (hstep : Pool.Step enters c c') : Moves c.state c'.state :=
  h.step_related (fun s => .logs (.refl s)) (fun _ _ _ hcall => (takes_enters hcall).steps)
    (fun _ => rfl) hstep

/-- If a step leaves the claims of all processes but one alone, the owner stays, or that
process takes or gives up the transaction. -/
theorem owner_cases {i : Pid} {o o' : Option Pid} (h : ∀ q, q ≠ i → (o' = some q ↔ o = some q)) :
    o' = o ∨ o = none ∧ o' = some i ∨ o = some i ∧ o' = none := by
  have hback : ∀ q, o' = some q → o = some q ∨ q = i := fun q hq =>
    (eq_or_ne q i).elim Or.inr fun hne => Or.inl ((h q hne).mp hq)
  cases o with
  | none =>
    cases o' with
    | none => exact Or.inl rfl
    | some q =>
      obtain hq | rfl := hback q rfl
      · cases hq
      · exact Or.inr (Or.inl ⟨rfl, rfl⟩)
  | some r =>
    by_cases hr : r = i
    · subst hr
      cases o' with
      | none => exact Or.inr (Or.inr ⟨rfl, rfl⟩)
      | some q =>
        obtain hq | rfl := hback q rfl
        · exact Or.inl hq.symm
        · exact Or.inl rfl
    · exact Or.inl ((h r hr).mpr rfl)

/-- `d` is the disk as the last commit left it, or the first one. -/
inductive LastCommit (s₀ : Sys) : Pool Pid Halt Sys → Disk → Prop
  | start : LastCommit s₀ ⟨s₀, fun _ => none⟩ s₀.disk
  | step {c c' : Pool Pid Halt Sys} {d : Disk} : LastCommit s₀ c d → Pool.Step enters c c' →
    LastCommit s₀ c'
      (if c.state.log.busy = true ∧ c'.state.log.busy = false then c'.state.disk else d)

theorem LastCommit.reach {d : Disk} (h : LastCommit s₀ c d) : Reach s₀ c := by
  induction h with
  | start => exact .refl
  | step _ hstep ih => exact ih.step hstep trivial

/-- A process has entered `sys_mkdir` and begun its transaction. -/
theorem lastCommit_mkdir : ∃ c d, LastCommit (sparse 4) c d ∧ c.state.log.owner = some 0 := by
  have hstart : LastCommit (sparse 4) _ _ := .start
  have hcall := hstart.step (.call 0 ((Syscall.mkdir none).run 0) rfl ⟨rfl, _, rfl⟩)
  have hnote := hcall.step (.act 0 _ _ _ _ rfl rfl)
  exact ⟨_, _, hnote.step (.act 0 _ _ _ _ rfl rfl), rfl⟩

/-- Who is inside a transaction, and who may become or cease to be so in the next step. -/
structure Bracketed (c : Pool Pid Halt Sys) : Prop where
  busy : c.state.log.busy = true ↔ c.state.log.owner ≠ none
  within : ∀ p, c.state.log.owner = some p → c.thread p ≠ none
  waits : ∀ p e, c.state.log.owner = some p → c.StopsAt p e → ¬ WaitsForLog e
  step : ∀ c', Pool.Step enters c c' → ∃ i, (∀ q, q ≠ i → c'.thread q = c.thread q) ∧
    (c'.state.log.owner = c.state.log.owner ∨
      c.state.log.owner = none ∧ c'.state.log.owner = some i ∨
      c.state.log.owner = some i ∧ c'.state.log.owner = none)

/-- In every interleaving of file-system calls at most one process is inside a
transaction. It is in the middle of a call, does not wait for the log, and is the only
one that can end the transaction. -/
theorem transactions_bracketed (h₀ : s₀.log.Idle) (h : Reach s₀ c) : Bracketed c := by
  obtain ⟨g, hinv, hgoing⟩ := h.sound h₀
  refine ⟨hinv.1, fun p howner hidle => ?_, fun p e howner hstop hwait => ?_, fun c' hstep => ?_⟩
  · have hrest := hgoing p
    rw [hidle] at hrest
    have hin : transactions.own g p = true := (hinv.2 p).mpr howner
    rw [show transactions.own g p = false from hrest] at hin
    cases hin
  · exact (hgoing p).not_bad hinv hstop ⟨(hinv.2 p).mpr howner, hwait⟩
  · obtain ⟨i, g', hinv', hthreads, hothers, -⟩ :=
      Pool.Sound.step safeStart_transactions hinv hgoing hstep trivial
    refine ⟨i, hthreads, owner_cases fun q hq => ?_⟩
    rw [← hinv'.2 q, ← hinv.2 q, show g' q = g q from hothers q hq]

theorem transactions_bracketed_mkdir : ∃ c, c.state.log.owner = some 0 ∧ Bracketed c := by
  obtain ⟨c, d, h, howner⟩ := lastCommit_mkdir
  exact ⟨c, howner, transactions_bracketed ⟨rfl, rfl, rfl⟩ h.reach⟩

/-! ## What changes -/

/-- The log accounts for all that changed since the disk was `d`. -/
structure Account (d : Disk) (s : Sys) : Prop where
  changed : ∀ b, s.disk b ≠ d b → s.log.Covers b
  fits : s.log.sectors.length ≤ LOGSIZE
  idle : s.log.busy = false → s.log.sectors = []

theorem not_covers {log : Logger} (h : log.sectors = []) (b : ℕ) : ¬ log.Covers b := by
  simp [Logger.Covers, h]

theorem Account.disk_eq {d : Disk} (h : Account d s) (hbusy : s.log.busy = false) : s.disk = d :=
  funext fun b => by_contra fun hb => not_covers (h.idle hbusy) b (h.changed b hb)

theorem Account.step {d : Disk} (h : Account d s) (hmove : Moves s t) :
    Account (if s.log.busy = true ∧ t.log.busy = false then t.disk else d) t := by
  cases hmove with
  | logs hlogs =>
    rw [if_neg (by simp [hlogs.busy])]
    refine ⟨fun b hb => ?_, hlogs.fits h.fits, fun hbusy => ?_⟩
    · by_cases hbc : t.disk b = s.disk b
      · exact hlogs.covers (h.changed b (hbc ▸ hb))
      · exact (hlogs.changed b hbc).2
    · rw [hlogs.busy] at hbusy
      exact (hlogs.idle hbusy).trans (h.idle hbusy)
  | begins hbusy hdisk hstart hsectors hbusy' =>
    rw [if_neg (by simp [hbusy])]
    refine ⟨fun b hb => ?_, by rw [hsectors]; exact h.fits, fun hfree => ?_⟩
    · rw [Logger.Covers, hstart, hsectors]
      exact h.changed b (hdisk ▸ hb)
    · rw [hbusy'] at hfree
      cases hfree
  | commits hempty hstart hsectors hbusy =>
    refine ⟨fun b hb => ?_, by simp [hsectors], fun _ => hsectors⟩
    split_ifs at hb with hwas
    · exact absurd rfl hb
    · -- A commit of nothing.
      have hfree : s.log.busy = false := by simpa [hbusy] using hwas
      rw [hempty (h.idle hfree), h.disk_eq hfree] at hb
      exact absurd rfl hb

end Lainos.Kernel
