import Lainos.Library.Projection
import Lainos.Vm.Image

/-!
# User memory byte by byte

The functions that fill user memory, together with what they put there. A frame has bytes
in addition to the entries it has as a page table. What `kfree` leaves in a frame is not
kept, since the frame is filled again before it is mapped. Without the bytes each function
is the one of the same name that was about mappings only.
-/

namespace Lainos.Vm

open Library Exec

/-- A machine and the bytes of its frames. -/
abbrev Ram := Machine × (ℕ → Bytes)

abbrev RAct := Exec Halt Ram

/-- A string of C, with a zero behind its bytes. -/
def cstring (l : List UInt8) : Bytes := fun i => l.getD i 0

/-- An array of words in memory. -/
def words (w : ℕ → UInt32) : Bytes := fun i => word32 (w (i / 4)) (i % 4)

/-- What a call of `execve` is given. The array `ustack` is not initialised, so it starts
with what is on the kernel stack. -/
structure ExecCall where
  image : Image
  argv : List (List UInt8)
  env : List (List UInt8)
  /-- The word at address zero of the process that calls `execve`. -/
  null : Pte
  ustack : ℕ → UInt32

def ExecCall.args (c : ExecCall) : ExecArgs :=
  ⟨c.image, c.argv.map List.length, c.env.map List.length, c.null⟩

def Image.entry (img : Image) : UInt32 := get32 img.bytes 24

/-- The registers and the address space with which a program starts. -/
structure Started where
  pgdir : ℕ
  sz : ℕ
  eip : UInt32
  esp : ℕ

namespace Ram

/-- The byte at address `x` of the user memory of `d`. -/
def byte (r : Ram) (d x : ℕ) : UInt8 := r.2 (view r.1.mem d (x / PGSIZE)).addr (x % PGSIZE)

/-- Changes the bytes of frame `f`. -/
def put (f : ℕ) (g : Bytes → Bytes) : RAct Unit :=
  modify fun r => (r.1, Function.update r.2 f (g (r.2 f)))

def allocFrom (d : ℕ) : ℕ → ℕ → RAct Bool
  | 0, _ => return true
  | n + 1, a => do
    match ← first kalloc with
    | none => return false
    | some m =>
      first (modify fun s => s.setPage m fun _ => .zero)
      put m fun _ _ => 0
      let _ ← first (mappages d true true 1 a m)
      allocFrom d n (a + 1)

variable (L : Layout)

def allocuvm (d oldsz newsz : ℕ) : RAct ℕ := do
  if newsz ≥ kernbase * PGSIZE then
    return 0
  else if newsz < oldsz then
    return oldsz
  else if ← allocFrom d (pages newsz - pages oldsz) (pages oldsz) then
    return newsz
  else
    let _ ← first (deallocuvm L d newsz oldsz)
    return 0

/-- `growproc` for a process with directory `d` and `sz` bytes: the new size, or `none` for
the result `-1`. -/
def growproc (d sz : ℕ) (n : ℤ) : RAct (Option ℕ) := do
  if 0 < n then
    let r ← allocuvm L d sz ((sz + n) % word).toNat
    return if r = 0 then none else some r
  else if n < 0 then
    let r ← first (deallocuvm L d sz ((sz + n) % word).toNat)
    return if r = 0 then none else some r
  else
    return some sz

def copyFrom (d d' : ℕ) : ℕ → ℕ → RAct Bool
  | 0, _ => return true
  | n + 1, i => do
    match ← first (walkpgdir d i false) with
    | none => first (panic "copyuvm: pte should exist")
    | some (t, j) =>
      let r ← get
      let pte := r.1.mem t j
      if !pte.p then first (panic "copyuvm: page not present")
      match ← first kalloc with
      | none => return false
      | some m =>
        first (modify fun s => s.setPage m (s.mem pte.addr))
        put m fun _ => r.2 pte.addr
        if ← first (mappages d' pte.w pte.u 1 i m) then
          copyFrom d d' n (i + 1)
        else
          return false

def copyuvm (d sz : ℕ) : RAct (Option ℕ) := do
  match ← first (setupkvm L) with
  | none => return none
  | some d' =>
    if ← copyFrom d d' (pages sz) 0 then
      return some d'
    else
      first (freevm L d')
      return none

/-- Stores `n` bytes of `src` from `off` on in a frame. -/
def storeTo (through : Through) (d size page frame off n : ℕ) (src : Bytes) : RAct Unit := do
  first (Vm.storeTo through d size page frame)
  put frame fun b => splice b off n src

def loadFrom (d addr : ℕ) (img : Image) (off filesz size : ℕ) : ℕ → ℕ → RAct Bool
  | 0, _ => return true
  | n + 1, k => do
    match ← first (walkpgdir d ((addr / PGSIZE + k) % top) false) with
    | none => first (panic "loaduvm: address should exist")
    | some (t, i) =>
      let r ← get
      match img.readi ((off + k * PGSIZE) % word) (min (filesz - k * PGSIZE) PGSIZE) with
      | none => return false
      | some count =>
        if 0 < count then
          storeTo .loaduvm d size ((addr / PGSIZE + k) % top) (r.1.mem t i).addr 0 count
            (shift img.bytes ((off + k * PGSIZE) % word))
        if count = min (filesz - k * PGSIZE) PGSIZE then
          loadFrom d addr img off filesz size n (k + 1)
        else
          return false

def loaduvm (d addr : ℕ) (img : Image) (off filesz size : ℕ) : RAct Bool := do
  if addr % PGSIZE ≠ 0 then first (panic "loaduvm: addr must be page aligned")
  loadFrom d addr img off filesz size (pages filesz) 0

def copyoutFrom (null : Pte) (d size : ℕ) : ℕ → ℕ → ℕ → Bytes → RAct Bool
  | 0, _, _, _ => return true
  | fuel + 1, va, len, src => do
    if len = 0 then
      return true
    else
      match ← first (uva2ka null d (va / PGSIZE)) with
      | none => return false
      | some frame =>
        storeTo .copyout d size (va / PGSIZE) frame (va % PGSIZE) (min (PGSIZE - va % PGSIZE) len) src
        copyoutFrom null d size fuel ((va / PGSIZE * PGSIZE + PGSIZE) % word)
          (len - min (PGSIZE - va % PGSIZE) len) (shift src (min (PGSIZE - va % PGSIZE) len))

def copyout (null : Pte) (d size va len : ℕ) (src : Bytes) : RAct Bool :=
  copyoutFrom null d size len va len src

def loadSegments (d : ℕ) (img : Image) : ℕ → ℕ → ℕ → RAct (Option ℕ)
  | 0, _, sz => return some sz
  | n + 1, off, sz => do
    if img.readi off 32 ≠ some 32 then
      return none
    else
      let ph := img.proghdr off
      if ph.type ≠ 1 then
        loadSegments d img n ((off + 32) % word) sz
      else if ph.memsz < ph.filesz then
        return none
      else
        let sz ← allocuvm L d sz ((ph.vaddr + ph.memsz) % word)
        if sz = 0 then
          return none
        else if ← loaduvm d ph.vaddr img ph.off ph.filesz sz then
          loadSegments d img n ((off + 32) % word) sz
        else
          return none

/-- The two pages of the stack, the first of which user code cannot use. -/
def allocStack (d sz : ℕ) : RAct (Option ℕ) := do
  let sz ← allocuvm L d (pages sz * PGSIZE) (pages sz * PGSIZE + 2 * PGSIZE)
  if sz = 0 then
    return none
  else
    first (clearpteu d (sz / PGSIZE - 2))
    return some sz

/-- The part of `execve` that makes the image and the stack. -/
def loadImage (d : ℕ) (img : Image) : RAct (Option ℕ) := do
  match ← loadSegments L d img img.phnum img.phoff 0 with
  | none => return none
  | some sz => allocStack L d sz

/-- Pushes strings and keeps their addresses in `ustack` from `base` on. -/
def pushStrings (null : Pte) (d size base : ℕ) (stop : ℕ → Bool) :
    ℕ → List (List UInt8) → ℕ → (ℕ → UInt32) → RAct (Option (ℕ × (ℕ → UInt32)))
  | _, [], sp, ustack => return some (sp, ustack)
  | c, x :: l, sp, ustack => do
    if stop c then
      return none
    else
      let sp := (sp + word - (x.length + 1) % word) % word / 4 * 4
      if ← copyout null d size sp (x.length + 1) (cstring x) then
        pushStrings null d size base stop (c + 1) l sp
          (Function.update ustack (base + c) (UInt32.ofNat sp))
      else
        return none

/-- The strings of `env` and the first copy of `ustack`. Gives the stack pointer and
`ustack`. -/
def pushEnv (d sz : ℕ) (c : ExecCall) : RAct (Option (ℕ × (ℕ → UInt32))) := do
  let ustack := Function.update c.ustack 0 0xFFFFFFFF
  -- The check in the loop over `env` is on the counter of the program headers.
  match ← pushStrings c.null d sz 5 (fun _ => MAXARG ≤ c.image.phnum) 0 c.env sz ustack with
  | none => return none
  | some (sp, ustack) =>
    let ustack := Function.update ustack 3 (UInt32.ofNat ((sp + word - (c.env.length + 1) * 4) % word))
    let ustack := Function.update ustack (5 + c.env.length) 0
    let sp := (sp + word - (5 + c.env.length + 1) * 4) % word
    if ← copyout c.null d sz sp ((4 + c.env.length + 1) * 4) (words ustack) then
      return some (sp, ustack)
    else
      return none

/-- The strings of `argv` and the second copy of `ustack`. Gives the stack pointer. -/
def pushArgv (d sz : ℕ) (c : ExecCall) (sp : ℕ) (ustack : ℕ → UInt32) : RAct (Option ℕ) := do
  match ← pushStrings c.null d sz 4 (fun argc => MAXARG ≤ argc) 0 c.argv sp ustack with
  | none => return none
  | some (sp, ustack) =>
    let ustack := Function.update ustack 1 (UInt32.ofNat c.argv.length)
    let ustack :=
      Function.update ustack 2 (UInt32.ofNat ((sp + word - (c.argv.length + 1) * 4) % word))
    let ustack := Function.update ustack (4 + c.argv.length) 0
    let sp := (sp + word - (4 + c.argv.length + 1) * 4) % word
    if ← copyout c.null d sz sp ((4 + c.argv.length + 1) * 4) (words ustack) then
      return some sp
    else
      return none

/-- The part of `execve` that fills the stack. Gives the stack pointer. -/
def pushArguments (d sz : ℕ) (c : ExecCall) : RAct (Option ℕ) := do
  match ← pushEnv d sz c with
  | none => return none
  | some (sp, ustack) => pushArgv d sz c sp ustack

/-- The size of the new image and its stack pointer. -/
def buildImage (d : ℕ) (c : ExecCall) : RAct (Option (ℕ × ℕ)) := do
  match ← loadImage L d c.image with
  | none => return none
  | some sz =>
    match ← pushArguments d sz c with
    | none => return none
    | some sp => return some (sz, sp)

def execve (old : ℕ) (c : ExecCall) : RAct (Option Started) := do
  first (modify Machine.forget)
  if c.image.size < 52 ∨ c.image.magic ≠ ELF_MAGIC then
    return none
  else
    match ← first (setupkvm L) with
    | none => return none
    | some d =>
      match ← buildImage L d c with
      | none =>
        first (freevm L d)
        return none
      | some (sz, sp) =>
        first (freevm L old)
        return some ⟨d, sz, c.image.entry, sp⟩

/-! ## Without the bytes -/

theorem projects_put {α α' : Type} {k : α → α'} {f : ℕ} {g : Bytes → Bytes} {x : RAct α}
    {y : VAct α'}
    (h : Projects k x y) : Projects k (do put f g; x) y := by
  unfold put
  exact h.skip

theorem projects_allocFrom (d n a : ℕ) : Projects id (allocFrom d n a) (Vm.allocFrom d n a) := by
  induction n generalizing a with
  | zero => exact Projects.pure _
  | succ n ih =>
    refine Projects.bind (Projects.first _) fun r => ?_
    cases r with
    | none => exact Projects.pure _
    | some m =>
      exact Projects.bind (Projects.first _) fun _ =>
        projects_put (Projects.bind (Projects.first _) fun _ => ih (a + 1))

theorem projects_allocuvm (d oldsz newsz : ℕ) :
    Projects id (allocuvm L d oldsz newsz) (Vm.allocuvm L d oldsz newsz) := by
  refine Projects.ite (Projects.pure _) (Projects.ite (Projects.pure _) ?_)
  refine Projects.bind (projects_allocFrom _ _ _) fun ok => Projects.ite (Projects.pure _) ?_
  exact Projects.bind (Projects.first _) fun _ => Projects.pure _

theorem projects_copyFrom (d d' n i : ℕ) : Projects id (copyFrom d d' n i) (Vm.copyFrom d d' n i) := by
  induction n generalizing i with
  | zero => exact Projects.pure _
  | succ n ih =>
    refine Projects.bind (Projects.first _) fun r => ?_
    cases r with
    | none => exact Projects.first _
    | some x =>
      refine Projects.get fun r => ?_
      refine Projects.guard (Projects.first _) fun _ => Projects.bind (Projects.first _) fun m => ?_
      cases m with
      | none => exact Projects.pure _
      | some m =>
        exact Projects.bind (Projects.first _) fun _ => projects_put
          (Projects.bind (Projects.first _) fun _ => Projects.ite (ih (i + 1)) (Projects.pure _))

theorem projects_copyuvm (d sz : ℕ) : Projects id (copyuvm L d sz) (Vm.copyuvm L d sz) := by
  refine Projects.bind (Projects.first _) fun r => ?_
  cases r with
  | none => exact Projects.pure _
  | some d' =>
    refine Projects.bind (projects_copyFrom _ _ _ _) fun ok => Projects.ite (Projects.pure _) ?_
    exact Projects.bind (Projects.first _) fun _ => Projects.pure _

theorem projects_storeTo {through : Through} {d size page frame off n : ℕ} {src : Bytes} :
    Projects id (storeTo through d size page frame off n src) (Vm.storeTo through d size page frame) := by
  have h : Projects id (storeTo through d size page frame off n src)
      (Vm.storeTo through d size page frame >>= pure) :=
    Projects.bind (Projects.first _) fun _ _ => rfl
  rwa [bind_pure] at h

theorem projects_loadFrom {d addr off filesz size : ℕ} {img : Image} (n k : ℕ) :
    Projects id (loadFrom d addr img off filesz size n k) (Vm.loadFrom d addr img off filesz size n k) := by
  induction n generalizing k with
  | zero => exact Projects.pure _
  | succ n ih =>
    refine Projects.bind (Projects.first _) fun r => ?_
    cases r with
    | none => exact Projects.first _
    | some x =>
      refine Projects.get fun r => ?_
      cases img.readi ((off + k * PGSIZE) % word) (min (filesz - k * PGSIZE) PGSIZE) with
      | none => exact Projects.pure _
      | some count =>
        exact Projects.guard projects_storeTo fun _ => Projects.ite (ih (k + 1)) (Projects.pure _)

theorem projects_loaduvm {d addr off filesz size : ℕ} {img : Image} :
    Projects id (loaduvm d addr img off filesz size) (Vm.loaduvm d addr img off filesz size) :=
  Projects.guard (Projects.first _) fun _ => projects_loadFrom _ _

theorem projects_copyoutFrom {null : Pte} {d size : ℕ} (fuel va len : ℕ) (src : Bytes) :
    Projects id (copyoutFrom null d size fuel va len src) (Vm.copyoutFrom null d size fuel va len) := by
  induction fuel generalizing va len src with
  | zero => exact Projects.pure _
  | succ fuel ih =>
    refine Projects.ite (Projects.pure _) (Projects.bind (Projects.first _) fun r => ?_)
    cases r with
    | none => exact Projects.pure _
    | some frame => exact Projects.bind projects_storeTo fun _ => ih _ _ _

theorem projects_copyout {null : Pte} {d size va len : ℕ} {src : Bytes} :
    Projects id (copyout null d size va len src) (Vm.copyout null d size va len) :=
  projects_copyoutFrom _ _ _ _

theorem projects_loadSegments {d : ℕ} {img : Image} (n off sz : ℕ) :
    Projects id (loadSegments L d img n off sz) (Vm.loadSegments L d img n off sz) := by
  induction n generalizing off sz with
  | zero => exact Projects.pure _
  | succ n ih =>
    refine Projects.ite (Projects.pure _) (Projects.ite (ih _ _) (Projects.ite (Projects.pure _) ?_))
    refine Projects.bind (projects_allocuvm L _ _ _) fun sz => Projects.ite (Projects.pure _) ?_
    exact Projects.bind projects_loaduvm fun _ => Projects.ite (ih _ _) (Projects.pure _)

theorem projects_pushStrings {null : Pte} {d size base : ℕ} {stop : ℕ → Bool}
    (c : ℕ) (l : List (List UInt8)) (sp : ℕ) (ustack : ℕ → UInt32) :
    Projects (Option.map Prod.fst) (pushStrings null d size base stop c l sp ustack)
      (Vm.pushStrings null d size stop c (l.map List.length) sp) := by
  induction l generalizing c sp ustack with
  | nil => exact Projects.pure _
  | cons x l ih =>
    refine Projects.ite (Projects.pure _) (Projects.bind projects_copyout fun _ => ?_)
    exact Projects.ite (ih _ _ _) (Projects.pure _)

theorem projects_buildImage {d : ℕ} {c : ExecCall} :
    Projects (Option.map Prod.fst) (buildImage L d c) (Vm.buildImage L d c.args) := by
  rw [buildImage, loadImage, bind_assoc]
  refine Projects.bind (projects_loadSegments L _ _ _) fun r => ?_
  cases r with
  | none => exact Projects.pure _
  | some sz =>
    simp only [allocStack, bind_assoc]
    refine Projects.bind (projects_allocuvm L _ _ _) fun sz => ?_
    have henv : c.args.env.length = c.env.length := List.length_map ..
    have hargv : c.args.argv.length = c.argv.length := List.length_map ..
    rw [id, henv, hargv]
    by_cases hsz : sz = 0
    · rw [if_pos hsz, if_pos hsz]
      exact Projects.pure _
    rw [if_neg hsz, if_neg hsz]
    simp only [bind_assoc, pure_bind, pushArguments, pushEnv]
    refine Projects.bind (Projects.first _) fun _ => Projects.bind (projects_pushStrings _ _ _ _) fun r => ?_
    cases r with
    | none => exact Projects.pure _
    | some r =>
      simp only [bind_assoc]
      refine Projects.bind projects_copyout fun ok => ?_
      cases ok with
      | false => exact Projects.pure _
      | true =>
        simp only [if_true, pure_bind, pushArgv, bind_assoc]
        refine Projects.bind (projects_pushStrings _ _ _ _) fun r => ?_
        cases r with
        | none => exact Projects.pure _
        | some r =>
          simp only [bind_assoc]
          refine Projects.bind projects_copyout fun ok => ?_
          cases ok <;> exact Projects.pure _

theorem projects_execve (old : ℕ) (c : ExecCall) :
    Projects (Option.map fun x => (x.pgdir, x.sz)) (execve L old c) (Vm.execve L old c.args) := by
  refine Projects.bind (Projects.first _) fun _ => Projects.ite (Projects.pure _) ?_
  refine Projects.bind (Projects.first _) fun r => ?_
  cases r with
  | none => exact Projects.pure _
  | some d =>
    refine Projects.bind (projects_buildImage L) fun r => ?_
    cases r with
    | none => exact Projects.bind (Projects.first _) fun _ => Projects.pure _
    | some r => exact Projects.bind (Projects.first _) fun _ => Projects.pure _

end Ram

end Lainos.Vm
