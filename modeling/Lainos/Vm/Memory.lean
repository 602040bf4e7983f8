import Lainos.Library.Bytes
import Lainos.Library.Exec

/-!
# Physical memory and page tables

The frames of physical memory, the free list of `kalloc.c` and the page tables of
`vm.c`. Addresses that the code keeps page-aligned are given by their page number, and
sizes in bytes as the code has them. Of the contents of memory only page directories
and page tables matter here, so a frame is an array of entries.

`luck` decides which calls of `kalloc` are refused although there is a free frame, and
`starved` counts the calls of `walkpgdir` that found no frame for a page table. Every
store of `loaduvm` and `copyout` is recorded in `stores`.
-/

namespace Lainos.Vm

open Library

@[irreducible] def PGSIZE : ℕ := 4096

/-- Page numbers of `EXTMEM`, `KERNBASE`, `PHYSTOP` and `DEVSPACE`, and of the end of the
address space. -/
@[irreducible] def extmem : ℕ := 0x100
@[irreducible] def kernbase : ℕ := 0x80000
@[irreducible] def phystop : ℕ := 0xE000
@[irreducible] def devspace : ℕ := 0xFE000
@[irreducible] def top : ℕ := 0x100000

@[irreducible] def NPDENTRIES : ℕ := 1024

/-- `PGROUNDUP(n) / PGSIZE`. -/
def pages (n : ℕ) : ℕ := (n + 4095) / 4096

/-- An entry of a page directory or page table: `PTE_ADDR` as a frame number, and the
flags `PTE_P`, `PTE_W` and `PTE_U`. -/
structure Pte where
  addr : ℕ
  p : Bool
  w : Bool
  u : Bool
deriving DecidableEq

namespace Pte

def zero : Pte := ⟨0, false, false, false⟩

/-- An entry of a frame that `kfree` filled with ones. -/
def junk : Pte := ⟨0x1010, true, false, false⟩

end Pte

abbrev Memory := ℕ → ℕ → Pte

/-- Where the linker put the kernel: `data` is the frame of its data section and
`first` the first frame behind it. -/
structure Layout where
  data : ℕ
  first : ℕ
  text_lt : extmem < data
  data_le : data ≤ first
  first_le : first + 80 ≤ 0x400

/-- The entry for page `v` under directory `d`; a missing page table reads as zero. -/
def view (mem : Memory) (d v : ℕ) : Pte :=
  if (mem d (v / 1024)).p then mem (mem d (v / 1024)).addr (v % 1024) else .zero

inductive Through where
  | loaduvm
  | copyout
deriving DecidableEq

/-- A store into `frame`, reached through `page` of a directory that maps `view`, while
the new image has `size` bytes. -/
structure Store where
  through : Through
  page : ℕ
  frame : ℕ
  size : ℕ
  view : ℕ → Pte

structure Machine where
  mem : Memory
  free : List ℕ
  luck : ℕ → Bool
  starved : ℕ
  stores : List Store

/-- The message of a panic, and the stores made before it. -/
structure Halt where
  why : String
  stores : List Store

abbrev VAct := Exec Halt Machine

def panic {α : Type} (why : String) : VAct α := do
  let s ← get
  throw ⟨why, s.stores⟩

namespace Machine

@[simps -fullyApplied]
def setPage (s : Machine) (f : ℕ) (x : ℕ → Pte) : Machine := { s with mem := Function.update s.mem f x }

@[simps -fullyApplied]
def setPte (s : Machine) (f i : ℕ) (x : Pte) : Machine :=
  { s with mem := Function.update s.mem f (Function.update (s.mem f) i x) }

@[simps -fullyApplied]
def setFree (s : Machine) (l : List ℕ) : Machine := { s with free := l }

@[simps -fullyApplied]
def draw (s : Machine) : Machine := { s with luck := fun n => s.luck (n + 1) }

@[simps -fullyApplied]
def starve (s : Machine) : Machine := { s with starved := s.starved + 1 }

@[simps -fullyApplied]
def forget (s : Machine) : Machine := { s with stores := [] }

@[simps -fullyApplied]
def record (s : Machine) (x : Store) : Machine := { s with stores := x :: s.stores }

end Machine

/-! ## Frames -/

def kalloc : VAct (Option ℕ) := do
  let s ← get
  match s.free with
  | [] =>
    set s.draw
    return none
  | f :: l =>
    if s.luck 0 then
      set (s.draw.setFree l)
      return some f
    else
      set s.draw
      return none

variable (L : Layout)

def kfree (f : ℕ) : VAct Unit := do
  if f < L.first ∨ phystop ≤ f then panic "kfree"
  modify fun s => (s.setPage f fun _ => .junk).setFree (f :: s.free)

/-! ## Page tables -/

/-- The frame and the index of the entry for page `v`. -/
def walkpgdir (d v : ℕ) (alloc : Bool) : VAct (Option (ℕ × ℕ)) := do
  let s ← get
  if (s.mem d (v / 1024)).p then
    return some ((s.mem d (v / 1024)).addr, v % 1024)
  else if alloc then
    match ← kalloc with
    | none =>
      modify Machine.starve
      return none
    | some t =>
      modify fun s => (s.setPage t fun _ => .zero).setPte d (v / 1024) ⟨t, true, true, true⟩
      return some (t, v % 1024)
  else
    return none

/-- One turn of the loop of `mappages`; `false` if there is no memory. -/
def mapPage (d v pa : ℕ) (w u : Bool) : VAct Bool := do
  match ← walkpgdir d v true with
  | none => return false
  | some (t, i) =>
    let s ← get
    if (s.mem t i).p then panic "remap"
    set (s.setPte t i ⟨pa, true, w, u⟩)
    return true

/-- Maps `n` pages from `v` on to the frames from `pa` on. -/
def mappages (d : ℕ) (w u : Bool) : ℕ → ℕ → ℕ → VAct Bool
  | 0, _, _ => return true
  | n + 1, v, pa => do
    if ← mapPage d v pa w u then
      mappages d w u n (v + 1) (pa + 1)
    else
      return false

structure Kmap where
  virt : ℕ
  physStart : ℕ
  physEnd : ℕ
  w : Bool

def kmap : List Kmap :=
  [⟨kernbase, 0, extmem, true⟩, ⟨kernbase + extmem, extmem, L.data, false⟩,
    ⟨kernbase + L.data, L.data, phystop, true⟩, ⟨devspace, devspace, 0, true⟩]

/-- Number of pages of an entry, the difference being taken in 32 bits. -/
def Kmap.count (k : Kmap) : ℕ := (k.physEnd + top - k.physStart) % top

def mapKernel (d : ℕ) : List Kmap → VAct Bool
  | [] => return true
  | k :: l => do
    if ← mappages d k.w false k.count k.virt k.physStart then
      mapKernel d l
    else
      return false

def setupkvm : VAct (Option ℕ) := do
  match ← kalloc with
  | none => return none
  | some d =>
    modify fun s => s.setPage d fun _ => .zero
    if kernbase + phystop > devspace then panic "PHYSTOP too high"
    if ← mapKernel d (kmap L) then
      return some d
    else
      return none

/-! ## User memory -/

/-- The loop of `deallocuvm` from page `a` on. A missing page table is skipped as a
whole, counted from `a`. -/
def deallocFrom (d last : ℕ) : ℕ → ℕ → VAct Unit
  | 0, _ => return ()
  | fuel + 1, a => do
    if a < last then
      match ← walkpgdir d a false with
      | none => deallocFrom d last fuel (a + 1024)
      | some (t, i) =>
        let s ← get
        if (s.mem t i).p then
          if (s.mem t i).addr = 0 then panic "kfree"
          kfree L (s.mem t i).addr
          modify fun s => s.setPte t i .zero
        deallocFrom d last fuel (a + 1)

def deallocuvm (d oldsz newsz : ℕ) : VAct ℕ := do
  if newsz ≥ oldsz then
    return oldsz
  else
    deallocFrom L d (pages oldsz) (pages oldsz - pages newsz) (pages newsz)
    return newsz

/-- The loop of `allocuvm`; `false` if there is no memory. What `mappages` returns is not
looked at. -/
def allocFrom (d : ℕ) : ℕ → ℕ → VAct Bool
  | 0, _ => return true
  | n + 1, a => do
    match ← kalloc with
    | none => return false
    | some m =>
      modify fun s => s.setPage m fun _ => .zero
      let _ ← mappages d true true 1 a m
      allocFrom d n (a + 1)

def allocuvm (d oldsz newsz : ℕ) : VAct ℕ := do
  if newsz ≥ kernbase * PGSIZE then
    return 0
  else if newsz < oldsz then
    return oldsz
  else if ← allocFrom d (pages newsz - pages oldsz) (pages oldsz) then
    return newsz
  else
    let _ ← deallocuvm L d newsz oldsz
    return 0

/-- The loop of `freevm` over the `n` entries of the directory from `i` on. -/
def freeTables (d : ℕ) : ℕ → ℕ → VAct Unit
  | 0, _ => return ()
  | n + 1, i => do
    let s ← get
    if (s.mem d i).p then kfree L (s.mem d i).addr
    freeTables d n (i + 1)

def freevm (d : ℕ) : VAct Unit := do
  let _ ← deallocuvm L d (kernbase * PGSIZE) 0
  freeTables L d NPDENTRIES 0
  kfree L d

/-- The loop of `copyuvm` from page `i` on. -/
def copyFrom (d d' : ℕ) : ℕ → ℕ → VAct Bool
  | 0, _ => return true
  | n + 1, i => do
    match ← walkpgdir d i false with
    | none => panic "copyuvm: pte should exist"
    | some (t, j) =>
      let s ← get
      let pte := s.mem t j
      if !pte.p then panic "copyuvm: page not present"
      match ← kalloc with
      | none => return false
      | some m =>
        modify fun s => s.setPage m (s.mem pte.addr)
        if ← mappages d' pte.w pte.u 1 i m then
          copyFrom d d' n (i + 1)
        else
          return false

def copyuvm (d sz : ℕ) : VAct (Option ℕ) := do
  match ← setupkvm L with
  | none => return none
  | some d' =>
    if ← copyFrom d d' (pages sz) 0 then
      return some d'
    else
      freevm L d'
      return none

def clearpteu (d v : ℕ) : VAct Unit := do
  match ← walkpgdir d v false with
  | none => panic "clearpteu"
  | some (t, i) => modify fun s => s.setPte t i { s.mem t i with u := false }

end Lainos.Vm
