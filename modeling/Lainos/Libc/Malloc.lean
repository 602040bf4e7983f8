import Lainos.Library.Exec
import Mathlib.Logic.Function.Basic
import Mathlib.Tactic.Simps.Basic

/-!
# The allocator of the C library

`malloc` and `free` of `malloc.c`. Addresses are in bytes; memory is given by the header
that starts at each address, which takes `unit` bytes. All of it lies below `KERNBASE`, so
that pointer arithmetic does not wrap around. `base` is the address of the header of that
name.
-/

namespace Lainos.Libc

open Library

/-- `sizeof(Header)` -/
def unit : ℕ := 8

def KERNBASE : ℕ := 0x80000000

structure Header where
  ptr : ℕ
  size : ℕ

/-- `gaps` says what `sbrk` will answer: -1, or a region that starts so many bytes above
all memory obtained before, which ends at `top`. The regions are kept with their lengths in
bytes, the last one first. `calls` are the increments that `sbrk` was called with, each with
the number of bytes that are taken to be obtained if it does not answer -1. -/
structure Arena where
  mem : ℕ → Header
  freep : ℕ
  top : ℕ
  gaps : ℕ → Option ℕ
  regions : List (ℕ × ℕ)
  calls : List (ℤ × ℕ)

/-- A loop was cut short. -/
inductive Stop where
  | fuel

abbrev HAct := Exec Stop Arena

namespace Arena

variable (s : Arena)

@[simps -fullyApplied] def setPtr (a ptr : ℕ) : Arena :=
  ⟨Function.update s.mem a ⟨ptr, (s.mem a).size⟩, s.freep, s.top, s.gaps, s.regions, s.calls⟩

@[simps -fullyApplied] def setSize (a size : ℕ) : Arena :=
  ⟨Function.update s.mem a ⟨(s.mem a).ptr, size⟩, s.freep, s.top, s.gaps, s.regions, s.calls⟩

@[simps -fullyApplied] def setFreep (a : ℕ) : Arena := ⟨s.mem, a, s.top, s.gaps, s.regions, s.calls⟩

@[simps -fullyApplied] def refused : Arena :=
  ⟨s.mem, s.freep, s.top, fun i => s.gaps (i + 1), s.regions, s.calls⟩

@[simps -fullyApplied] def granted (start n : ℕ) : Arena :=
  ⟨s.mem, s.freep, start + n, fun i => s.gaps (i + 1), (start, n) :: s.regions, s.calls⟩

@[simps -fullyApplied] def lowered (top : ℕ) : Arena :=
  ⟨s.mem, s.freep, top, fun i => s.gaps (i + 1), s.regions, s.calls⟩

@[simps -fullyApplied] def called (n : ℤ) (nbytes : ℕ) : Arena :=
  ⟨s.mem, s.freep, s.top, s.gaps, s.regions, (n, nbytes) :: s.calls⟩

end Arena

/-- An unsigned number as the `int` with the same bits. -/
def toInt (n : ℕ) : ℤ := if n < 2 ^ 31 then n else n - 2 ^ 32

/-- `sbrk(n)`. From `2 ^ 31` on the number is negative for the kernel, which then gives
memory back, unless that were more than there is; it fails if nothing would be left. -/
def sbrk (n : ℕ) : HAct (Option ℕ) := do
  let s ← get
  match s.gaps 0 with
  | none =>
    set s.refused
    return none
  | some gap =>
    let brk := s.top + gap
    if n < 2 ^ 31 then
      if brk + n < KERNBASE then do
        set (s.granted brk n)
        return some brk
      else do
        set s.refused
        return none
    else if 2 ^ 32 - n = brk then do
      set s.refused
      return none
    else do
      set (s.lowered (if 2 ^ 32 - n < brk then brk - (2 ^ 32 - n) else brk))
      return some brk

/-- The loop of `free`: the block behind which `bp` belongs. -/
def findGap (bp : ℕ) : ℕ → ℕ → HAct ℕ
  | 0, _ => throw .fuel
  | fuel + 1, p => do
    let s ← get
    if p < bp ∧ bp < (s.mem p).ptr then return p
    else if (s.mem p).ptr ≤ p ∧ (p < bp ∨ bp < (s.mem p).ptr) then return p
    else findGap bp fuel (s.mem p).ptr

/-- Join the block `bp` to the one that follows `p`, or link it to that. -/
def joinNext (p bp : ℕ) : HAct Unit := modify fun s =>
  let q := (s.mem p).ptr
  if bp + unit * (s.mem bp).size = q then
    (s.setSize bp ((s.mem bp).size + (s.mem q).size)).setPtr bp (s.mem q).ptr
  else s.setPtr bp q

/-- Join the block `bp` to `p`, or link `p` to it. -/
def joinPrev (p bp : ℕ) : HAct Unit := modify fun s =>
  if p + unit * (s.mem p).size = bp then
    (s.setSize p ((s.mem p).size + (s.mem bp).size)).setPtr p (s.mem bp).ptr
  else s.setPtr p bp

def free (fuel ap : ℕ) : HAct Unit := do
  let bp := ap - unit
  let s ← get
  let p ← findGap bp fuel s.freep
  joinNext p bp
  joinPrev p bp
  modify fun s => s.setFreep p

/-- The value of `freep` afterwards, or `none` if there is no memory. -/
def morecore (fuel nu : ℕ) : HAct (Option ℕ) := do
  let nu := if nu < 4096 then 4096 else nu
  modify fun s => s.called (toInt (nu * unit % 2 ^ 32)) (nu * unit)
  match ← sbrk (nu * unit % 2 ^ 32) with
  | none => return none
  | some p => do
    modify fun s => s.setSize p nu
    free fuel (p + unit)
    let s ← get
    return some s.freep

/-- The loop of `malloc`. -/
def search (nunits : ℕ) : ℕ → ℕ → ℕ → HAct (Option ℕ)
  | 0, _, _ => throw .fuel
  | fuel + 1, prevp, p => do
    let s ← get
    let size := (s.mem p).size
    if nunits ≤ size then
      if size = nunits then do
        set ((s.setPtr prevp (s.mem p).ptr).setFreep prevp)
        return some (p + unit)
      else do
        let q := p + unit * (size - nunits)
        set (((s.setSize p (size - nunits)).setSize q nunits).setFreep prevp)
        return some (q + unit)
    else if p = s.freep then do
      match ← morecore fuel nunits with
      | none => return none
      | some p => do
        let s ← get
        search nunits fuel p (s.mem p).ptr
    else search nunits fuel p (s.mem p).ptr

/-- `nunits` for a request of `nbytes`. -/
def unitsFor (nbytes : ℕ) : ℕ := (nbytes + unit - 1) % 2 ^ 32 / unit + 1

def malloc (base fuel nbytes : ℕ) : HAct (Option ℕ) := do
  modify fun s =>
    if s.freep = 0 then ((s.setPtr base base).setSize base 0).setFreep base else s
  let s ← get
  search (unitsFor nbytes) fuel s.freep (s.mem s.freep).ptr

/-- The word at `a` when the bytes from `lo` up to `hi` are zero and it was `v` before. -/
def clearWord (lo hi a v : ℕ) : ℕ :=
  ((List.range 4).map fun i =>
    if lo ≤ a + i ∧ a + i < hi then 0 else v / 256 ^ i % 256 * 256 ^ i).sum

/-- `memset(p, 0, n)`. -/
@[simps -fullyApplied] def Arena.cleared (s : Arena) (p n : ℕ) : Arena where
  mem a := if p < a + unit ∧ a < p + n then
      ⟨clearWord p (p + n) a (s.mem a).ptr, clearWord p (p + n) (a + 4) (s.mem a).size⟩
    else s.mem a
  freep := s.freep
  top := s.top
  gaps := s.gaps
  regions := s.regions
  calls := s.calls

def calloc (base fuel nmemb size : ℕ) : HAct (Option ℕ) := do
  match ← malloc base fuel (nmemb * size % 2 ^ 32) with
  | none => return none
  | some rc => do
    modify fun s => s.cleared rc (nmemb * size % 2 ^ 32)
    return some rc

end Lainos.Libc
