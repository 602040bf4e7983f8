import Lainos.Disk.Layout
import Lainos.Library.Ring
import Lainos.Library.Thread

/-!
# Buffer cache

The buffers of `bio.c` with their links, flags and data, and the disk behind them.
The head of the list is node `NBUF`. A section under `bcache.lock` is one step, and
so is a transfer by the disk driver.

For each buffer `holders` lists the processes that have it from `bget` and have not
passed it to `brelse`. The code keeps no such list, only `B_BUSY`.
-/

namespace Lainos.Bio

open Library

def NBUF : ℕ := 10

/-- The value `-1` that `binit` stores in `dev`. -/
def nodev : ℕ := 0xFFFFFFFF

abbrev Pid := ℕ

structure Buf where
  dev : ℕ
  sector : ℕ
  busy : Bool
  valid : Bool
  dirty : Bool
  data : Block

structure Bcache where
  buf : ℕ → Buf
  next : ℕ → ℕ
  prev : ℕ → ℕ
  disk : ℕ → Disk
  holders : ℕ → List Pid

inductive Stop where
  | sleep
  | panic (message : String)
deriving DecidableEq

abbrev BAct := Exec Stop Bcache

abbrev head : ℕ := NBUF

namespace Bcache

/-- Putting `b` in behind the head. -/
@[simps -fullyApplied]
def insert (c : Bcache) (b : ℕ) : Bcache :=
  { c with
    next := Function.update (Function.update c.next b (c.next head)) head b
    prev := Function.update (Function.update c.prev b head) (c.next head) b }

@[simps -fullyApplied]
def unlink (c : Bcache) (b : ℕ) : Bcache :=
  { c with
    next := Function.update c.next (c.prev b) (c.next b)
    prev := Function.update c.prev (c.next b) (c.prev b) }

@[simps -fullyApplied]
def setBuf (c : Bcache) (b : ℕ) (x : Buf) : Bcache :=
  { c with buf := Function.update c.buf b x }

@[simps -fullyApplied]
def setHolders (c : Bcache) (b : ℕ) (l : List Pid) : Bcache :=
  { c with holders := Function.update c.holders b l }

/-- The sector of buffer `b` on the disk. -/
def home (c : Bcache) (b : ℕ) : Block := c.disk (c.buf b).dev (c.buf b).sector

@[simps -fullyApplied]
def setHome (c : Bcache) (b : ℕ) (x : Block) : Bcache :=
  { c with
    disk := Function.update c.disk (c.buf b).dev
      (Function.update (c.disk (c.buf b).dev) (c.buf b).sector x) }

end Bcache

/-- The cache as the loader leaves it. -/
def blank (disk : ℕ → Disk) : Bcache where
  buf _ := ⟨0, 0, false, false, false, zeroBlock⟩
  next _ := head
  prev _ := head
  disk := disk
  holders _ := []

/-- One turn of the loop of `binit`. -/
def initBuf (c : Bcache) (b : ℕ) : Bcache :=
  (c.setBuf b { c.buf b with dev := nodev }).insert b

def binit (disk : ℕ → Disk) : Bcache := (List.range NBUF).foldl initBuf (blank disk)

/-- The first scan of `bget`. -/
def lookup (c : Bcache) (dev sector : ℕ) : Option ℕ :=
  walk c.next head (fun b => (c.buf b).dev = dev && (c.buf b).sector = sector) (NBUF + 1)
    (c.next head)

/-- The second scan of `bget`. -/
def victim (c : Bcache) : Option ℕ :=
  walk c.prev head (fun b => !(c.buf b).busy && !(c.buf b).dirty) (NBUF + 1) (c.prev head)

/-- After a sleep `bget` starts again, so a step is the last round only. -/
def bget (p : Pid) (dev sector : ℕ) : BAct ℕ := do
  let c ← get
  match lookup c dev sector with
  | some b =>
    if (c.buf b).busy then throw .sleep
    set ((c.setBuf b { c.buf b with busy := true }).setHolders b (p :: c.holders b))
    return b
  | none =>
    match victim c with
    | some b =>
      set ((c.setBuf b ⟨dev, sector, true, false, false, (c.buf b).data⟩).setHolders b
        (p :: c.holders b))
      return b
    | none => throw (.panic "bget: no buffers")

/-- A request to the driver from `iderw` to its completion by `ideintr`. -/
def iderw (b : ℕ) : BAct Unit := do
  let c ← get
  if ! (c.buf b).busy then throw (.panic "iderw: buf not busy")
  if (c.buf b).valid && ! (c.buf b).dirty then throw (.panic "iderw: nothing to do")
  if (c.buf b).dirty then
    set ((c.setHome b (c.buf b).data).setBuf b { c.buf b with valid := true, dirty := false })
  else
    set (c.setBuf b { c.buf b with valid := true, data := c.home b })

/-- The tail of `bread`. -/
def fill (b : ℕ) : BAct Unit := do
  let c ← get
  if ! (c.buf b).valid then iderw b

def bread (p : Pid) (dev sector : ℕ) : Thread Stop Bcache ℕ := do
  let b ← bget p dev sector
  fill b
  return b

/-- Storing into `b->data`. -/
def edit (b : ℕ) (data : Block) : BAct Unit :=
  modify fun c => c.setBuf b { c.buf b with data := data }

/-- The statement `b->flags |= B_DIRTY` of `bwrite` and `log_write`. -/
def setDirty (b : ℕ) : BAct Unit :=
  modify fun c => c.setBuf b { c.buf b with dirty := true }

def checkBusy (b : ℕ) (message : String) : BAct Unit := do
  let c ← get
  if ! (c.buf b).busy then throw (.panic message)

def bwrite (b : ℕ) : Thread Stop Bcache Unit := do
  liftM (checkBusy b "bwrite")
  setDirty b
  iderw b

def brelse (p : Pid) (b : ℕ) : BAct Unit := do
  checkBusy b "brelse"
  modify fun c =>
    (((c.unlink b).insert b).setBuf b { c.buf b with busy := false }).setHolders b
      ((c.holders b).erase p)

/-- The use `log_write` makes of buffers, the copy of `b` going to sector `slot`. -/
def logWrite (p : Pid) (slot b : ℕ) : Thread Stop Bcache Unit := do
  let c ← liftM (get : BAct Bcache)
  let lbuf ← bread p (c.buf b).dev slot
  let c ← liftM (get : BAct Bcache)
  edit lbuf (c.buf b).data
  bwrite lbuf
  brelse p lbuf
  setDirty b

/-- What a process can do with the buffers it holds, `i` being the position of one
in the list of them. -/
inductive Cmd where
  | bread (dev : {d : ℕ // d ≠ nodev}) (sector : ℕ)
  | bwrite (i : ℕ) (data : Block)
  | logWrite (slot i : ℕ) (data : Block)
  | brelse (i : ℕ)

def brelseAll (p : Pid) : List ℕ → Thread Stop Bcache Unit
  | [] => pure ()
  | b :: held => do
    liftM (brelse p b)
    brelseAll p held

/-- A system call, as far as buffers go. Before it returns it has released all it
holds. -/
def script (p : Pid) : List Cmd → List ℕ → Thread Stop Bcache Unit
  | [], held => brelseAll p held
  | .bread dev sector :: cmds, held => do
    let b ← bread p dev sector
    script p cmds (b :: held)
  | .bwrite i data :: cmds, held =>
    match held[i]? with
    | some b => do
      liftM (edit b data)
      bwrite b
      script p cmds held
    | none => script p cmds held
  | .logWrite slot i data :: cmds, held =>
    match held[i]? with
    | some b => do
      liftM (edit b data)
      logWrite p slot b
      script p cmds held
    | none => script p cmds held
  | .brelse i :: cmds, held =>
    match held[i]? with
    | some b => do
      liftM (brelse p b)
      script p cmds (held.erase b)
    | none => script p cmds held

/-- Any number of processes, each in any system call. -/
def Enters (p : Pid) (_ : Bcache) (t : Thread Stop Bcache Unit) : Prop :=
  ∃ cmds, t = script p cmds []

/-- The states of the cache that the processes can bring about, starting from
`binit`. -/
abbrev Reach (disk : ℕ → Disk) : Pool Pid Stop Bcache → Prop :=
  Pool.Reach Enters (fun _ => True) ⟨binit disk, fun _ => none⟩

end Lainos.Bio
