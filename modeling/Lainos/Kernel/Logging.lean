import Lainos.Kernel.Blocks
import Lainos.Kernel.Cache

/-!
# Code inside a transaction

What the file-system code does to the disk and the log apart from `begin_trans` and
`commit_trans`: each block that it changes is entered into the log's list. The lemmas
follow the code, one for each function.
-/

namespace Lainos.Kernel

open Library

variable {s t u : Sys} {p : Pid} {k : ℕ} {name : List UInt8} {α β : Type}

/-! ## Steps between `begin_trans` and `commit_trans` -/

/-- The block is on the log's list, or one of the log's own blocks in use. -/
def Logger.Covers (log : Logger) (b : ℕ) : Prop :=
  b ∈ log.sectors ∨ log.start < b ∧ b ≤ log.start + log.sectors.length

/-- What a step may do to the disk and the log of a transaction. -/
structure Logs (s t : Sys) : Prop where
  start : t.log.start = s.log.start
  busy : t.log.busy = s.log.busy
  owner : t.log.owner = s.log.owner
  grows : s.log.sectors <+: t.log.sectors
  fits : s.log.sectors.length ≤ LOGSIZE → t.log.sectors.length ≤ LOGSIZE
  idle : s.log.busy = false → t.log.sectors = s.log.sectors
  changed : ∀ b, t.disk b ≠ s.disk b → s.log.busy = true ∧ t.log.Covers b

theorem Logs.of_eq (hdisk : t.disk = s.disk) (hlog : t.log = s.log) : Logs s t := by
  refine ⟨?_, ?_, ?_, ?_, ?_, ?_, fun b hb => absurd (congrFun hdisk b) hb⟩ <;> simp [hlog]

theorem Logs.refl (s : Sys) : Logs s s := .of_eq rfl rfl

/-- What is covered stays covered. -/
theorem Logs.covers (h : Logs s t) {b : ℕ} (hb : s.log.Covers b) : t.log.Covers b := by
  have hlen := h.grows.length_le
  have hstart := h.start
  rcases hb with hb | hb
  · exact Or.inl (h.grows.subset hb)
  · exact Or.inr (by omega)

theorem Logs.trans (h : Logs s t) (h' : Logs t u) : Logs s u where
  start := h'.start.trans h.start
  busy := h'.busy.trans h.busy
  owner := h'.owner.trans h.owner
  grows := h.grows.trans h'.grows
  fits := fun hs => h'.fits (h.fits hs)
  idle := fun hs => (h'.idle (h.busy.trans hs)).trans (h.idle hs)
  changed b hb := by
    by_cases hbt : t.disk b = s.disk b
    · rw [← hbt] at hb
      exact ⟨h.busy ▸ (h'.changed b hb).1, (h'.changed b hb).2⟩
    · exact ⟨(h.changed b hbt).1, h'.covers (h.changed b hbt).2⟩

/-- The process goes to sleep in `begin_trans`. -/
def WaitsForLog (e : Halt) : Prop := e.why = .sleep ∧ e.last.trace.head? = some (.sleeps .log)

theorem not_waits_panic (msg : String) : ¬ WaitsForLog ⟨.panic msg, s⟩ := fun h => by cases h.1

/-- From state `s` the code neither begins nor ends a transaction, nor waits for one. -/
def Quiet (s : Sys) (x : Act α) : Prop :=
  Exec.Ends x (fun _ t => Logs s t) (fun e => ¬ WaitsForLog e) s

namespace Quiet

theorem bind {x : Act α} {f : α → Act β} (hx : Quiet s x) (hf : ∀ a {t}, Quiet t (f a)) :
    Quiet s (x >>= f) :=
  Exec.ends_bind.mpr (Exec.Ends.mono hx (fun a _ ht => (Exec.Ends.mono (hf a)
    (fun _ _ hu => ht.trans hu) fun _ he => he)) fun _ he => he)

theorem logs {x : Act α} {a : α} (h : Quiet s x) (hrun : x s = .ok (a, t)) : Logs s t :=
  Exec.Ends.ok (Q := fun _ t => Logs s t) h hrun

theorem read {f : Sys → Act α} (h : Quiet s (f s)) : Quiet s (get >>= f) := h

theorem pure {a : α} : Quiet s (Pure.pure a : Act α) := Logs.refl s

theorem panic {msg : String} : Quiet s (Kernel.panic msg : Act α) := not_waits_panic msg

/-- Only the tables in memory change. -/
theorem set (hdisk : t.disk = s.disk) (hlog : t.log = s.log) :
    Quiet s (MonadStateOf.set t : Act PUnit) := Logs.of_eq hdisk hlog

theorem modify {f : Sys → Sys} (hdisk : (f s).disk = s.disk) (hlog : (f s).log = s.log) :
    Quiet s (MonadStateOf.modifyGet fun s => ((), f s) : Act Unit) := Logs.of_eq hdisk hlog

/-- Code that goes on according to whether something was found. -/
theorem cases {γ : Type} {x : Act (Option γ)} {f : Option γ → Act α} (hx : Quiet s x)
    (hnone : ∀ {t}, Quiet t (f none)) (hsome : ∀ a {t}, Quiet t (f (some a))) :
    Quiet s (x >>= f) := by
  refine hx.bind fun o t => ?_
  cases o with
  | none => exact hnone
  | some a => exact hsome a

theorem ite {c : Prop} [Decidable c] {x y : Act α} (hx : Quiet s x) (hy : Quiet s y) :
    Quiet s (if c then x else y) := Exec.ends_ite.mpr ⟨fun _ => hx, fun _ => hy⟩

end Quiet

theorem mem_logged_self {b : ℕ} {data : Block} : b ∈ (s.logged p b data).log.sectors := by
  simp only [Sys.logged_log_sectors]
  split_ifs with hb
  · exact hb
  · simp

theorem logs_logged (hroom : s.log.sectors.length < LOGSIZE) (hbusy : s.log.busy = true) {b : ℕ}
    {data : Block} : Logs s (s.logged p b data) := by
  refine ⟨rfl, rfl, rfl, ?_, fun _ => ?_, fun hidle => ?_, fun x hx => ⟨hbusy, ?_⟩⟩
  · simp only [Sys.logged_log_sectors]
    split_ifs
    · exact List.prefix_rfl
    · exact List.prefix_append ..
  · simp only [Sys.logged_log_sectors]
    split_ifs
    · omega
    · simpa using hroom
  · rw [hbusy] at hidle
    cases hidle
  · have hmem : b ∈ (s.logged p b data).log.sectors := mem_logged_self
    have hslot := List.idxOf_lt_length_of_mem hmem
    by_cases hxb : x = b
    · exact Or.inl (hxb ▸ hmem)
    · refine Or.inr ?_
      by_cases hx' : x = s.log.slot b
      · have hself : (s.logged p b data).log.slot b = s.log.slot b := logged_slot_self
        rw [hx', ← hself, Logger.slot]
        omega
      · rw [Sys.logged_disk, Function.update_of_ne hx', Function.update_of_ne hxb] at hx
        exact absurd rfl hx

theorem quiet_logWrite {b : ℕ} {data : Block} : Quiet s (logWrite p b data) := by
  refine .read (Exec.ends_ite.mpr ⟨fun _ => not_waits_panic _, fun hroom => Exec.ends_ite.mpr
    ⟨fun _ => not_waits_panic _, fun hbusy => Exec.ends_ite.mpr ⟨fun _ hwait => ?_, fun _ => ?_⟩⟩⟩)
  · cases hwait.2
  · exact logs_logged (by omega) (by simpa using hbusy)

/-! ## Blocks and inodes -/

theorem quiet_readsb : Quiet s readsb := .read .pure

theorem quiet_balloc : Quiet s (balloc p) := by
  refine .bind quiet_readsb fun sb s => .read ?_
  split
  · exact .panic
  · exact .bind quiet_logWrite fun _ => .bind quiet_logWrite fun _ =>
      .bind (.modify rfl rfl) fun _ => .pure

theorem quiet_bfree {b : UInt32} : Quiet s (bfree p b) :=
  .bind quiet_readsb fun _ => .read (.ite quiet_logWrite .panic)

theorem quiet_iget {inum : ℕ} : Quiet s (iget inum) := by
  refine ends_iget (fun k s' h => ?_) (not_waits_panic _)
  cases h <;> exact Logs.of_eq rfl rfl

theorem quiet_idup : Quiet s (idup k) := .read (.bind (.set rfl rfl) fun _ => .pure)

theorem quiet_iupdate : Quiet s (iupdate p k) := .read quiet_logWrite

theorem quiet_ialloc {type : Int16} : Quiet s (ialloc p type) := by
  refine .bind quiet_readsb fun sb s => .read ?_
  split
  · exact .panic
  · exact .bind quiet_logWrite fun _ => quiet_iget

theorem quiet_ilockEnter : Quiet s (ilockEnter k) := by
  refine .read (.ite .panic (.ite (fun hwait => ?_) (.set rfl rfl)))
  cases hwait.2

theorem quiet_ilockLoad {t : Option Ticket} : Quiet s (ilockLoad t k) :=
  .bind (.modify rfl rfl) fun _ =>
    .read (.ite .pure (.bind (.set rfl rfl) fun _ => .ite .panic .pure))

theorem quiet_iunlock : Quiet s (iunlock k) := .read (.ite .panic (.set rfl rfl))

theorem quiet_bmap {bn : ℕ} : Quiet s (bmap p k bn) := by
  have hentry : ∀ (ind : UInt32) {s}, Quiet s (do
      let s ← get
      let a := get32 (s.disk ind.toNat) (4 * (bn - NDIRECT))
      if a = 0 then do
        let b ← balloc p
        let s ← get
        logWrite p ind.toNat (put32 (s.disk ind.toNat) (4 * (bn - NDIRECT)) b)
        return b
      else return a) := fun ind s => .read (.ite (.bind quiet_balloc fun _ =>
    .read (.bind quiet_logWrite fun _ => .pure)) .pure)
  exact .read (.ite (.ite (.bind quiet_balloc fun _ => .bind (.modify rfl rfl) fun _ => .pure) .pure)
    (.ite (.ite (.bind quiet_balloc fun _ => .bind (.modify rfl rfl) fun _ => hentry _) (hentry _))
      .panic))

theorem quiet_freeDirect {is : List ℕ} : Quiet s (freeDirect p k is) := by
  induction is generalizing s with
  | nil => exact .pure
  | cons i is ih =>
    exact .read (.ite ih (.bind quiet_bfree fun _ => .bind (.modify rfl rfl) fun _ => ih))

theorem quiet_freeEntries {a : Block} {js : List ℕ} : Quiet s (freeEntries p a js) := by
  induction js generalizing s with
  | nil => exact .pure
  | cons j js ih => exact .ite ih (.bind quiet_bfree fun _ => ih)

theorem quiet_itrunc : Quiet s (itrunc p k) :=
  .bind quiet_freeDirect fun _ => .read (.ite (.bind (.modify rfl rfl) fun _ => quiet_iupdate)
    (.bind quiet_freeEntries fun _ => .bind quiet_bfree fun _ => .bind (.modify rfl rfl) fun _ =>
      .bind (.modify rfl rfl) fun _ => quiet_iupdate))

theorem quiet_iputEnter : Quiet s (iputEnter p k) :=
  .read (.ite (.ite .panic (.bind (.set rfl rfl) fun _ => .pure))
    (.bind (.set rfl rfl) fun _ => .pure))

theorem quiet_iputFree : Quiet s (iputFree p k) :=
  .bind (.modify rfl rfl) fun _ => .bind quiet_itrunc fun _ => .bind (.modify rfl rfl) fun _ =>
    .bind quiet_iupdate fun _ => .modify rfl rfl

theorem quiet_iputLeave : Quiet s (iputLeave k) := .read (.set rfl rfl)

theorem quiet_readLoop {fuel off n : ℕ} : Quiet s (readLoop p k fuel off n) := by
  induction fuel generalizing s off n with
  | zero => exact .pure
  | succ fuel ih =>
    refine .ite .pure (.bind (.modify ?_ ?_) fun _ => .bind quiet_bmap fun b =>
      .read (.bind ih fun _ => .pure)) <;> split_ifs <;> rfl

theorem quiet_readFile {off n : UInt32} : Quiet s (readFile p k off n) :=
  .read (.ite .pure (.bind quiet_readLoop fun _ => .pure))

theorem quiet_writeLoop {fuel off n : ℕ} {src : Bytes} :
    Quiet s (writeLoop p k fuel off n src) := by
  induction fuel generalizing s off n src with
  | zero => exact .pure
  | succ fuel ih =>
    exact .ite .pure (.bind quiet_bmap fun _ => .read (.bind quiet_logWrite fun _ => ih))

theorem quiet_writeFile {off n : UInt32} {src : Bytes} : Quiet s (writeFile p k src off n) :=
  .read (.ite .pure (.ite .pure (.bind quiet_writeLoop fun _ =>
    .ite (.bind (.modify rfl rfl) fun _ => .bind quiet_iupdate fun _ => .pure) .pure)))

/-! ## Directories -/

theorem quiet_readDirent {off : ℕ} {msg : String} : Quiet s (readDirent p k off msg) :=
  .cases quiet_readFile .panic fun _ => .ite .pure .panic

theorem quiet_dirScan {n off : ℕ} : Quiet s (dirScan p k name n off) := by
  induction n generalizing s off with
  | zero => exact .pure
  | succ n ih => exact .bind quiet_readDirent fun _ => .ite ih (.ite .pure ih)

theorem quiet_dirlookup : Quiet s (dirlookup p k name) :=
  .read (.ite .panic (.bind (.modify rfl rfl) fun _ => .cases quiet_dirScan .pure fun _ =>
    .bind quiet_iget fun _ => .bind (.modify rfl rfl) fun _ => .read .pure))

theorem quiet_freeDirent {n off : ℕ} : Quiet s (freeDirent p k n off) := by
  induction n generalizing s off with
  | zero => exact .pure
  | succ n ih => exact .bind quiet_readDirent fun _ => .ite .pure ih

theorem quiet_dirlinkWrite {ip : ℕ} : Quiet s (dirlinkWrite p k name ip) := by
  refine .read (.bind quiet_freeDirent fun off => .bind (.modify rfl rfl) fun _ =>
    .bind quiet_writeFile fun r s => ?_)
  split
  · exact .pure
  · exact .panic

theorem quiet_emptyFrom {n off : ℕ} : Quiet s (emptyFrom p k n off) := by
  induction n generalizing s off with
  | zero => exact .pure
  | succ n ih => exact .bind quiet_readDirent fun _ => .ite .pure ih

theorem quiet_isdirempty : Quiet s (isdirempty p k) := .read quiet_emptyFrom

theorem quiet_idupCwd : Quiet s (idupCwd p) := by
  refine .read ?_
  split
  · exact .panic
  · exact quiet_idup

/-! ## Files and processes -/

theorem quiet_note {e : Event} : Quiet s (note e) := .modify rfl rfl

theorem quiet_filealloc : Quiet s filealloc := by
  refine .read ?_
  split
  · exact .pure
  · exact .bind (.set rfl rfl) fun _ => .pure

theorem quiet_filedup {f : ℕ} : Quiet s (filedup f) := .read (.ite .panic (.set rfl rfl))

theorem quiet_fileDrop {f : ℕ} : Quiet s (fileDrop f) :=
  .read (.ite .panic (.ite (.bind (.set rfl rfl) fun _ => .pure) (.bind (.set rfl rfl) fun _ =>
    .ite (.bind quiet_note fun _ => .pure) .pure)))

theorem quiet_pipeclose {x : ℕ} {writable : Bool} : Quiet s (pipeclose x writable) :=
  .read (.ite (.set rfl rfl) (.set rfl rfl))

theorem quiet_getFile {f : ℕ} : Quiet s (getFile f) := .read .pure

theorem quiet_advance {f r : ℕ} : Quiet s (advance f r) := .read (.set rfl rfl)

theorem quiet_readAdvance {f : ℕ} {n : UInt32} : Quiet s (readAdvance p f n) :=
  .bind quiet_getFile fun _ => .cases quiet_readFile .pure fun _ =>
    .bind quiet_advance fun _ => .pure

theorem quiet_writeAdvance {f : ℕ} {src : Bytes} {n : UInt32} : Quiet s (writeAdvance p f src n) :=
  .bind quiet_getFile fun _ => .cases quiet_writeFile .pure fun _ =>
    .bind quiet_advance fun _ => .pure

theorem quiet_argfd {fd : ℕ} : Quiet s (argfd p fd) := .read .pure

theorem quiet_fdalloc {f : ℕ} : Quiet s (fdalloc p f) := by
  refine .read ?_
  split
  · exact .pure
  · exact .bind (.set rfl rfl) fun _ => .pure

theorem quiet_clearFd {fd : ℕ} : Quiet s (clearFd p fd) := .modify rfl rfl

theorem quiet_addLink : Quiet s (addLink p k) := .bind (.modify rfl rfl) fun _ => quiet_iupdate

theorem quiet_dropLink : Quiet s (dropLink p k) := .bind (.modify rfl rfl) fun _ => quiet_iupdate

theorem quiet_clearDirent {off : ℕ} : Quiet s (clearDirent p k off) := by
  refine .bind quiet_writeFile fun r s => ?_
  split
  · exact .pure
  · exact .panic

theorem quiet_initInode {major minor : Int16} : Quiet s (initInode p k major minor) :=
  .bind (.modify rfl rfl) fun _ => quiet_iupdate

theorem quiet_initFile {f ip : ℕ} {omode : UInt32} : Quiet s (initFile f ip omode) :=
  .modify rfl rfl

theorem quiet_pipeinit {f g : ℕ} {page : Option ℕ} : Quiet s (pipeinit f g page) := by
  refine .read ?_
  cases page with
  | none => exact .pure
  | some x => exact .ite .pure (.bind (.set rfl rfl) fun _ => .pure)

theorem quiet_getCwd : Quiet s (getCwd p) := .read .pure

theorem quiet_setCwd {cwd : Option ℕ} : Quiet s (setCwd p cwd) := .modify rfl rfl

theorem quiet_allocproc : Quiet s (allocproc p) :=
  .read (.ite (.bind (.set rfl rfl) fun _ => .pure) .pure)

theorem quiet_dupFd {q : Pid} {fd : ℕ} : Quiet s (dupFd p q fd) := by
  refine .read ?_
  split
  · exact .pure
  · exact .bind quiet_filedup fun _ => .modify rfl rfl

theorem quiet_dupCwd {q : Pid} : Quiet s (dupCwd p q) :=
  .bind quiet_idupCwd fun _ => .modify rfl rfl

theorem quiet_setState {state : ProcState} : Quiet s (setState p state) := .modify rfl rfl

end Lainos.Kernel
