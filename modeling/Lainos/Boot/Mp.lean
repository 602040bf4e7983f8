import Lainos.Library.Bytes

/-!
# The configuration table of the firmware

`mpinit` of `kernel/mp.c` looks for the MP configuration table in physical memory and scans
its entries for processors. Which tables it copes with: the scan stays where it is at an
entry of unknown type, and counts processors without a bound.
-/

namespace Lainos.Boot

open Library

def NCPU : ℕ := 8

/-! ## Finding the table -/

/-- The low byte of the sum of `len` bytes. -/
def sum (mem : Bytes) (addr len : ℕ) : ℕ :=
  ((List.range len).map fun i => (mem (addr + i)).toNat).sum % 256

/-- `memcmp` of four bytes. -/
def hasSignature (mem : Bytes) (addr : ℕ) (sig : List UInt8) : Bool :=
  (List.range 4).map (fun i => mem (addr + i)) = sig

/-- The first of the `struct mp`, 16 bytes each, with signature and checksum. -/
def mpsearch1 (mem : Bytes) (a len : ℕ) : Option ℕ :=
  ((List.range (len / 16)).map fun i => a + 16 * i).find? fun p =>
    hasSignature mem p [95, 77, 80, 95] && sum mem p 16 = 0

/-- `mpsearch`: the extended BIOS data area or the end of base memory, and then the ROM. -/
def mpsearch (mem : Bytes) : Option ℕ :=
  let ebda := ((mem 0x40f).toNat * 256 + (mem 0x40e).toNat) * 16
  let base := ((mem 0x414).toNat * 256 + (mem 0x413).toNat) * 1024
  let first :=
    if ebda ≠ 0 then mpsearch1 mem ebda 1024
    else mpsearch1 mem ((base + (2 ^ 32 - 1024)) % 2 ^ 32) 1024
  first.or (mpsearch1 mem 0xf0000 0x10000)

/-- The field `length` of the table. -/
def tableLength (mem : Bytes) (conf : ℕ) : ℕ := (get16 mem (conf + 4)).toNat

/-- `mpconfig`: the floating pointer and the table, if that is as it should be. -/
def mpconfig (mem : Bytes) : Option (ℕ × ℕ) :=
  match mpsearch mem with
  | none => none
  | some mp =>
    let conf := (get32 mem (mp + 4)).toNat
    if conf = 0 then none
    else if hasSignature mem conf [80, 67, 77, 80] = false then none
    else if mem (conf + 6) ≠ 1 ∧ mem (conf + 6) ≠ 4 then none
    else if sum mem conf (tableLength mem conf) ≠ 0 then none
    else some (mp, conf)

/-! ## Scanning the table -/

/-- What is printed. -/
inductive Message where
  | apicid (ncpu : ℕ) (apicid : UInt8)
  | unknown (type : UInt8)

/-- The variables that `mpinit` sets. `written` are the elements of `cpus` that were
assigned to, the last one first, and `imcr` says that the interrupt mode was changed. -/
structure Found where
  ncpu : ℕ
  ismp : Bool
  bcpu : ℕ
  ioapicid : UInt8
  lapic : UInt32
  written : List ℕ
  imcr : Bool
  printed : List Message

/-- Before the call. -/
def Found.init : Found := ⟨0, false, 0, 0, 0, [], false, []⟩

/-- At the beginning of the scan. -/
def Found.start (mem : Bytes) (conf : ℕ) : Found :=
  { Found.init with ismp := true, lapic := get32 mem (conf + 36) }

/-- A processor entry at `p`. -/
def Found.processor (mem : Bytes) (p : ℕ) (s : Found) : Found :=
  let differs : Bool := s.ncpu ≠ (mem (p + 1)).toNat
  { s with
    printed := if differs then .apicid s.ncpu (mem (p + 1)) :: s.printed else s.printed
    ismp := s.ismp && !differs
    bcpu := if (mem (p + 3)).toNat.testBit 1 then s.ncpu else s.bcpu
    written := s.ncpu :: s.written
    ncpu := s.ncpu + 1 }

/-- The loop over the entries from `p` to `e`. -/
def scan (mem : Bytes) (e : ℕ) : ℕ → ℕ → Found → Option Found
  | 0, _, _ => none
  | fuel + 1, p, s =>
    if e ≤ p then some s
    else if mem p = 0 then scan mem e fuel (p + 20) (s.processor mem p)
    else if mem p = 2 then scan mem e fuel (p + 8) { s with ioapicid := mem (p + 1) }
    else if mem p = 1 ∨ mem p = 3 ∨ mem p = 4 then scan mem e fuel (p + 8) s
    -- the default case does not move the pointer
    else scan mem e fuel p { s with printed := .unknown (mem p) :: s.printed, ismp := false }

/-- What follows the loop. -/
def Found.finish (mem : Bytes) (mp : ℕ) (s : Found) : Found :=
  if s.ismp = false then { s with ncpu := 1, lapic := 0, ioapicid := 0 }
  else { s with imcr := mem (mp + 12) ≠ 0 }

def mpinit (fuel : ℕ) (mem : Bytes) : Option Found :=
  match mpconfig mem with
  | none => some Found.init
  | some (mp, conf) =>
    (scan mem (conf + tableLength mem conf) fuel (conf + 44) (Found.start mem conf)).map
      (Found.finish mem mp)

/-! ## Tables that are scanned to their end -/

/-- The size of an entry by its type, if that is known. -/
def entrySize (type : UInt8) : Option ℕ :=
  if type = 0 then some 20 else if type = 1 ∨ type = 2 ∨ type = 3 ∨ type = 4 then some 8 else none

/-- The entries from `p` to `e` begin at the places `ps`, and all have a known type. -/
inductive Entries (mem : Bytes) (e : ℕ) : ℕ → List ℕ → Prop
  | done {p} : e ≤ p → Entries mem e p []
  | next {p n ps} : p < e → entrySize (mem p) = some n → Entries mem e (p + n) ps →
      Entries mem e p (p :: ps)

/-- The number of processor entries. -/
def processors (mem : Bytes) (ps : List ℕ) : ℕ := ps.countP fun p => mem p = 0

variable {mem : Bytes} {e p n fuel mp conf : ℕ} {ps : List ℕ} {s s' : Found}

/-- The elements written are those of the processors counted, and only a processor entry
can make the kernel give up on the others. -/
structure Counted (s : Found) : Prop where
  written : s.written = (List.range s.ncpu).reverse
  none : s.ncpu = 0 → s.ismp = true

theorem Counted.processor (h : Counted s) (mem : Bytes) (p : ℕ) : Counted (s.processor mem p) := by
  refine ⟨?_, fun hzero => absurd hzero (Nat.succ_ne_zero _)⟩
  change s.ncpu :: s.written = (List.range (s.ncpu + 1)).reverse
  rw [h.written, List.range_succ, List.reverse_append]
  rfl

/-- One step at an entry of known type. -/
theorem scan_next (fuel : ℕ) (s : Found) (hp : p < e) (hsize : entrySize (mem p) = some n) :
    ∃ t, scan mem e (fuel + 1) p s = scan mem e fuel (p + n) t ∧
      t.ncpu = s.ncpu + (if mem p = 0 then 1 else 0) ∧ (Counted s → Counted t) := by
  rw [scan, if_neg (by omega)]
  unfold entrySize at hsize
  split_ifs at hsize with hzero hother
  · cases hsize
    rw [if_pos hzero, if_pos hzero]
    exact ⟨_, rfl, rfl, fun h => h.processor mem p⟩
  · cases hsize
    rw [if_neg hzero, if_neg hzero]
    by_cases htwo : mem p = 2
    · rw [if_pos htwo]
      exact ⟨_, rfl, rfl, fun h => ⟨h.written, h.none⟩⟩
    · rw [if_neg htwo, if_pos (by tauto)]
      exact ⟨s, rfl, rfl, id⟩

/-- At an entry of unknown type the scan stays for ever. -/
theorem scan_unknown (hp : p < e) (hsize : entrySize (mem p) = none) :
    scan mem e fuel p s = none := by
  unfold entrySize at hsize
  split_ifs at hsize with hzero hother
  rw [not_or, not_or, not_or] at hother
  induction fuel generalizing s with
  | zero => rfl
  | succ fuel ih =>
    rw [scan, if_neg (by omega), if_neg hzero, if_neg hother.2.1, if_neg (by tauto)]
    exact ih

/-- A scan that ends went through entries of known types. -/
theorem scan_some (h : scan mem e fuel p s = some s') (hs : Counted s) :
    ∃ ps, Entries mem e p ps ∧ s'.ncpu = s.ncpu + processors mem ps ∧ Counted s' := by
  induction fuel generalizing p s with
  | zero => cases h
  | succ fuel ih =>
    by_cases hp : p < e
    · cases hsize : entrySize (mem p) with
      | none =>
        rw [scan_unknown hp hsize] at h
        cases h
      | some n =>
        obtain ⟨t, hstep, hncpu, ht⟩ := scan_next fuel s hp hsize
        rw [hstep] at h
        obtain ⟨ps, hps, hcount, hs'⟩ := ih h (ht hs)
        refine ⟨p :: ps, .next hp hsize hps, ?_, hs'⟩
        rw [hcount, hncpu, processors, processors, List.countP_cons]
        simp only [decide_eq_true_eq]
        omega
    · rw [scan, if_pos (by omega)] at h
      cases h
      exact ⟨[], .done (by omega), rfl, hs⟩

/-- Entries of known types are scanned to the end. -/
theorem scan_of_entries (s : Found) (h : Entries mem e p ps) (hfuel : ps.length < fuel) :
    ∃ s', scan mem e fuel p s = some s' := by
  induction h generalizing fuel s with
  | done hp =>
    obtain ⟨fuel, rfl⟩ : ∃ k, fuel = k + 1 := ⟨fuel - 1, by omega⟩
    exact ⟨s, by rw [scan, if_pos hp]⟩
  | next hp hsize _ ih =>
    obtain ⟨fuel, rfl⟩ : ∃ k, fuel = k + 1 := ⟨fuel - 1, by omega⟩
    obtain ⟨t, hstep, -⟩ := scan_next fuel s hp hsize
    rw [hstep]
    exact ih t (by simpa using hfuel)

theorem Entries.unique {ps' : List ℕ} (h : Entries mem e p ps) (h' : Entries mem e p ps') :
    ps = ps' := by
  induction h generalizing ps' with
  | done hp =>
    cases h' with
    | done => rfl
    | next hp' => omega
  | next hp hsize _ ih =>
    cases h' with
    | done hp' => omega
    | next hp' hsize' hrest =>
      rw [hsize, Option.some.injEq] at hsize'
      subst hsize'
      rw [ih hrest]

theorem finish_of_ismp (h : s.ismp = true) :
    s.finish mem mp = { s with imcr := mem (mp + 12) ≠ 0 } := by
  rw [Found.finish, h, if_neg (by decide)]

@[simp] theorem finish_written (s : Found) : (s.finish mem mp).written = s.written := by
  unfold Found.finish
  split <;> rfl

@[simp] theorem finish_ismp (s : Found) : (s.finish mem mp).ismp = s.ismp := by
  unfold Found.finish
  split <;> rfl

/-- `mpinit` ends, stays within `cpus` and leaves a number of processors that fits. -/
def Copes (mem : Bytes) : Prop :=
  ∃ fuel s, mpinit fuel mem = some s ∧ (∀ i ∈ s.written, i < NCPU) ∧
    (s.ismp = true → 1 ≤ s.ncpu ∧ s.ncpu ≤ NCPU)

/-- The tables that `mpinit` copes with: all entries have known types, and there are between
1 and `NCPU` processors. -/
theorem mpinit_copes_iff (h : mpconfig mem = some (mp, conf)) :
    Copes mem ↔ ∃ ps, Entries mem (conf + tableLength mem conf) (conf + 44) ps ∧
      1 ≤ processors mem ps ∧ processors mem ps ≤ NCPU := by
  have hinit : Counted (Found.start mem conf) := ⟨rfl, fun _ => rfl⟩
  constructor
  · rintro ⟨fuel, s, hrun, hwritten, hncpu⟩
    rw [mpinit, h] at hrun
    obtain ⟨t, hscan, rfl⟩ := Option.map_eq_some_iff.mp hrun
    obtain ⟨ps, hps, hcount, ht⟩ := scan_some hscan hinit
    change t.ncpu = 0 + processors mem ps at hcount
    rw [Nat.zero_add] at hcount
    refine ⟨ps, hps, ?_, ?_⟩
    · by_contra hzero
      have hismp := ht.none (by omega)
      rw [finish_of_ismp hismp] at hncpu
      have hpos : 1 ≤ t.ncpu := (hncpu hismp).1
      omega
    · by_contra hmany
      rw [finish_written, ht.written] at hwritten
      have := hwritten NCPU (by simp; omega)
      omega
  · rintro ⟨ps, hps, hlow, hhigh⟩
    obtain ⟨t, hscan⟩ := scan_of_entries (Found.start mem conf) hps (Nat.lt_succ_self _)
    obtain ⟨ps', hps', hcount, ht⟩ := scan_some hscan hinit
    change t.ncpu = 0 + processors mem ps' at hcount
    rw [Nat.zero_add, hps'.unique hps] at hcount
    refine ⟨ps.length + 1, t.finish mem mp, ?_, ?_, fun hismp => ?_⟩
    · rw [mpinit, h]
      exact congrArg (Option.map (Found.finish mem mp)) hscan
    · rw [finish_written, ht.written]
      simp only [List.mem_reverse, List.mem_range]
      omega
    · rw [finish_ismp] at hismp
      rw [finish_of_ismp hismp]
      exact ⟨hcount ▸ hlow, hcount ▸ hhigh⟩

/-- A floating pointer at 16, found through the BIOS data area, and a table at 32 with one
entry. -/
def firmware (length checksum type : UInt8) : Bytes := fun i =>
  if i = 0x40e then 1
  else if i = 76 then type
  else (List.replicate 16 0 ++ [95, 77, 80, 95, 32, 0, 0, 0, 1, 1, 131, 0, 0, 0, 0, 0,
    80, 67, 77, 80, length, 0, 1, checksum]).getD i 0

theorem mpinit_copes_one : Copes (firmware 64 143 0) := by
  have hconf : mpconfig (firmware 64 143 0) = some (16, 32) := by decide
  refine (mpinit_copes_iff hconf).mpr ⟨[76], ?_, by decide, by decide⟩
  exact .next (by decide) rfl (.done (by decide))

/-- A table with one entry, of type 9: the scan does not end. -/
theorem mpinit_hangs :
    mpconfig (firmware 45 153 9) = some (16, 32) ∧
      ∀ fuel, mpinit fuel (firmware 45 153 9) = none := by
  have hconf : mpconfig (firmware 45 153 9) = some (16, 32) := by decide
  refine ⟨hconf, fun fuel => ?_⟩
  have hscan : scan (firmware 45 153 9) 77 fuel 76 (Found.start (firmware 45 153 9) 32) = none :=
    scan_unknown (by decide) rfl
  rw [mpinit, hconf]
  exact congrArg (Option.map (Found.finish (firmware 45 153 9) 16)) hscan

end Lainos.Boot
