import Lainos.Vm.Memory

/-!
# Loading a program

`execve` as far as memory goes: the new address space, the segments of the file, the
stack. The file is given by its bytes, the strings of `argv` and `env` by their lengths.
-/

namespace Lainos.Vm

open Library

/-- Addresses and sizes are 32-bit words. -/
def word : ℕ := 0x100000000

structure Image where
  bytes : Bytes
  size : ℕ
  /-- No file is longer than `MAXFILE` blocks. -/
  size_le : size ≤ 140 * 512

/-- The number of bytes `readi` transfers, `none` being the result `-1`. -/
def Image.readi (img : Image) (off n : ℕ) : Option ℕ :=
  if img.size < off ∨ word ≤ off + n then none else some (min n (img.size - off))

/-- Bytes are stored through `p2v`, which maps the frames of physical memory only. -/
def storeTo (through : Through) (d size page frame : ℕ) : VAct Unit := do
  if phystop ≤ frame then panic "trap"
  modify fun s => s.record ⟨through, page, frame, size, view s.mem d⟩

/-- The loop of `loaduvm` from its turn `k` on, for a segment of `filesz` bytes at `off` of
the file; `size` is the size of the new image. -/
def loadFrom (d addr : ℕ) (img : Image) (off filesz size : ℕ) : ℕ → ℕ → VAct Bool
  | 0, _ => return true
  | n + 1, k => do
    match ← walkpgdir d ((addr / PGSIZE + k) % top) false with
    | none => panic "loaduvm: address should exist"
    | some (t, i) =>
      let s ← get
      match img.readi ((off + k * PGSIZE) % word) (min (filesz - k * PGSIZE) PGSIZE) with
      | none => return false
      | some count =>
        if 0 < count then
          storeTo .loaduvm d size ((addr / PGSIZE + k) % top) (s.mem t i).addr
        if count = min (filesz - k * PGSIZE) PGSIZE then
          loadFrom d addr img off filesz size n (k + 1)
        else
          return false

def loaduvm (d addr : ℕ) (img : Image) (off filesz size : ℕ) : VAct Bool := do
  if addr % PGSIZE ≠ 0 then panic "loaduvm: addr must be page aligned"
  loadFrom d addr img off filesz size (pages filesz) 0

/-- The frame that `uva2ka` finds for page `v`. Without a page table it reads the entry at
address zero, where the calling process has the word `null`. -/
def uva2ka (null : Pte) (d v : ℕ) : VAct (Option ℕ) := do
  let slot ← walkpgdir d v false
  let s ← get
  let pte := match slot with
    | some (t, i) => s.mem t i
    | none => null
  if !pte.p || !pte.u then
    return none
  else
    return some pte.addr

/-- The loop of `copyout`, with as much fuel as there are bytes to copy. -/
def copyoutFrom (null : Pte) (d size : ℕ) : ℕ → ℕ → ℕ → VAct Bool
  | 0, _, _ => return true
  | fuel + 1, va, len => do
    if len = 0 then
      return true
    else
      match ← uva2ka null d (va / PGSIZE) with
      | none => return false
      | some frame =>
        storeTo .copyout d size (va / PGSIZE) frame
        copyoutFrom null d size fuel ((va / PGSIZE * PGSIZE + PGSIZE) % word)
          (len - min (PGSIZE - va % PGSIZE) len)

def copyout (null : Pte) (d size va len : ℕ) : VAct Bool := copyoutFrom null d size len va len

/-- The fields of a program header at `off` that `execve` uses. -/
structure Proghdr where
  type : ℕ
  off : ℕ
  vaddr : ℕ
  filesz : ℕ
  memsz : ℕ
deriving DecidableEq

def Image.proghdr (img : Image) (off : ℕ) : Proghdr where
  type := (get32 img.bytes off).toNat
  off := (get32 img.bytes (off + 4)).toNat
  vaddr := (get32 img.bytes (off + 8)).toNat
  filesz := (get32 img.bytes (off + 16)).toNat
  memsz := (get32 img.bytes (off + 20)).toNat

def Image.magic (img : Image) : ℕ := (get32 img.bytes 0).toNat
def Image.phoff (img : Image) : ℕ := (get32 img.bytes 28).toNat
def Image.phnum (img : Image) : ℕ := (get16 img.bytes 44).toNat

variable (L : Layout)

/-- The loop over the program headers, from the one at `off` on. Gives the size of the
image, or `none` if `execve` has to give up. -/
def loadSegments (d : ℕ) (img : Image) : ℕ → ℕ → ℕ → VAct (Option ℕ)
  | 0, _, sz => return some sz
  | n + 1, off, sz => do
    if img.readi off 32 ≠ some 32 then
      return none
    else
      let ph := img.proghdr off
      if ph.type ≠ 1 then
        loadSegments d img n ((off + 32) % word) sz
      else if ph.memsz < ph.filesz then
        return none
      else
        let sz ← allocuvm L d sz ((ph.vaddr + ph.memsz) % word)
        if sz = 0 then
          return none
        else if ← loaduvm d ph.vaddr img ph.off ph.filesz sz then
          loadSegments d img n ((off + 32) % word) sz
        else
          return none

/-- Pushes strings of the given lengths; `stop` is the check made before the `c`-th. -/
def pushStrings (null : Pte) (d size : ℕ) (stop : ℕ → Bool) :
    ℕ → List ℕ → ℕ → VAct (Option ℕ)
  | _, [], sp => return some sp
  | c, len :: l, sp => do
    if stop c then
      return none
    else
      let sp := (sp + word - (len + 1) % word) % word / 4 * 4
      if ← copyout null d size sp (len + 1) then
        pushStrings null d size stop (c + 1) l sp
      else
        return none

def MAXARG : ℕ := 32

structure ExecArgs where
  image : Image
  argv : List ℕ
  env : List ℕ
  /-- The word at address zero of the process that calls `execve`. -/
  null : Pte

/-- The part of `execve` between `setupkvm` and the commit. Gives the size of the new
image. -/
def buildImage (d : ℕ) (a : ExecArgs) : VAct (Option ℕ) := do
  match ← loadSegments L d a.image a.image.phnum a.image.phoff 0 with
  | none => return none
  | some sz =>
    let sz ← allocuvm L d (pages sz * PGSIZE) (pages sz * PGSIZE + 2 * PGSIZE)
    if sz = 0 then
      return none
    else
      clearpteu d (sz / PGSIZE - 2)
      -- The check in the loop over `env` is on the counter of the program headers.
      match ← pushStrings a.null d sz (fun _ => MAXARG ≤ a.image.phnum) 0 a.env sz with
      | none => return none
      | some sp =>
        let sp := (sp + word - (5 + a.env.length + 1) * 4) % word
        if ← copyout a.null d sz sp ((4 + a.env.length + 1) * 4) then
          match ← pushStrings a.null d sz (fun argc => MAXARG ≤ argc) 0 a.argv sp with
          | none => return none
          | some sp =>
            let sp := (sp + word - (4 + a.argv.length + 1) * 4) % word
            if ← copyout a.null d sz sp ((4 + a.argv.length + 1) * 4) then
              return some sz
            else
              return none
        else
          return none

def ELF_MAGIC : ℕ := 0x464C457F

/-- The new directory and size, if `execve` succeeds; the directory `old` is then gone.
The record of stores is of this call only. -/
def execve (old : ℕ) (a : ExecArgs) : VAct (Option (ℕ × ℕ)) := do
  modify Machine.forget
  if a.image.size < 52 ∨ a.image.magic ≠ ELF_MAGIC then
    return none
  else
    match ← setupkvm L with
    | none => return none
    | some d =>
      match ← buildImage L d a with
      | none =>
        freevm L d
        return none
      | some sz =>
        freevm L old
        return some (d, sz)

end Lainos.Vm
