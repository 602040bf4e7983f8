import Lainos.Libc.Sequences

/-!
# Requests of any size

Rounding up to units, the number of bytes asked of `sbrk` and the product in `calloc` are
all taken modulo `2 ^ 32`, and `sbrk` takes a signed number. What `malloc` and `calloc`
return for each request, and when it is as large as it was asked to be.
-/

namespace Lainos.Libc

open Library

variable {base fuel n p nbytes : ℕ} {s s' : Arena} {fs blocks : List Block} {r : Option ℕ}

/-! ## The calls of sbrk -/

/-- The units that `morecore` asks for. -/
def unitsAsked (nunits : ℕ) : ℕ := if nunits < 4096 then 4096 else nunits

/-- A call of `sbrk` for so many units. -/
def request (nunits : ℕ) : ℤ × ℕ :=
  (toInt (unitsAsked nunits * unit % 2 ^ 32), unitsAsked nunits * unit)

/-- The kernel is asked for the bytes that are then taken to be obtained. -/
def IsExact (c : ℤ × ℕ) : Prop := c.1 = c.2

theorem request_exact_iff (hn : n < 2 ^ 30) : IsExact (request n) ↔ n < 2 ^ 28 := by
  simp only [IsExact, request, toInt, unitsAsked, unit]
  split_ifs <;> omega

theorem findGap_state {bp fuel p : ℕ} {r : ℕ × Arena} (h : findGap bp fuel p s = .ok r) :
    r.2 = s := by
  induction fuel generalizing p with
  | zero => cases h
  | succ fuel ih =>
    rw [findGap_succ] at h
    split_ifs at h
    · cases h
      rfl
    · cases h
      rfl
    · exact ih h

theorem joinNext_calls {p bp : ℕ} {u : Unit × Arena} (h : joinNext p bp s = .ok u) :
    u.2.calls = s.calls := by
  cases h
  dsimp only
  split_ifs <;> rfl

theorem joinPrev_calls {p bp : ℕ} {u : Unit × Arena} (h : joinPrev p bp s = .ok u) :
    u.2.calls = s.calls := by
  cases h
  dsimp only
  split_ifs <;> rfl

theorem free_calls {ap : ℕ} {u : Unit × Arena} (h : free fuel ap s = .ok u) :
    u.2.calls = s.calls := by
  rw [free, Exec.bind_of_ok Exec.get_run] at h
  obtain ⟨p, t, hfind, hjoin⟩ := Exec.bind_eq_ok.mp h
  have ht : t = s := findGap_state hfind
  obtain ⟨_, t₁, hnext, hjoin⟩ := Exec.bind_eq_ok.mp hjoin
  obtain ⟨_, t₂, hprev, hjoin⟩ := Exec.bind_eq_ok.mp hjoin
  have hnext' : t₁.calls = t.calls := joinNext_calls hnext
  have hprev' : t₂.calls = t₁.calls := joinPrev_calls hprev
  cases hjoin
  rw [← ht, ← hnext']
  exact hprev'

theorem sbrk_calls {a : Option ℕ × Arena} (h : sbrk n s = .ok a) : a.2.calls = s.calls := by
  rw [sbrk, Exec.bind_of_ok Exec.get_run] at h
  cases hgap : s.gaps 0 with
  | none =>
    rw [hgap] at h
    cases h
    rfl
  | some gap =>
    rw [hgap] at h
    dsimp only at h
    split_ifs at h <;> cases h <;> rfl

theorem morecore_calls {a : Option ℕ × Arena} (h : morecore fuel n s = .ok a) :
    a.2.calls = request n :: s.calls := by
  rw [morecore, Exec.bind_of_ok (Exec.modify_run _)] at h
  obtain ⟨b, t, hsbrk, h⟩ := Exec.bind_eq_ok.mp h
  have ht : t.calls = request n :: s.calls := sbrk_calls hsbrk
  cases b with
  | none =>
    cases h
    exact ht
  | some q =>
    dsimp only at h
    rw [Exec.bind_of_ok (Exec.modify_run _)] at h
    obtain ⟨_, u, hfree, h⟩ := Exec.bind_eq_ok.mp h
    cases h
    exact (free_calls hfree).trans ht

/-- What the loop adds to the calls, and the header of what it finds. -/
theorem search_some {prevp p : ℕ} (h : search n fuel prevp p s = .ok (r, s')) :
    (∃ new, s'.calls = new ++ s.calls ∧ ∀ c ∈ new, c = request n) ∧
      ∀ q, r = some q → unit ≤ q ∧ (s'.mem (q - unit)).size = n := by
  induction fuel generalizing prevp p s with
  | zero => cases h
  | succ fuel ih =>
    rw [search, Exec.bind_of_ok Exec.get_run] at h
    dsimp only at h
    split_ifs at h with hle heq hend
    · cases h
      refine ⟨⟨[], rfl, by simp⟩, ?_⟩
      rintro _ ⟨⟩
      refine ⟨Nat.le_add_left .., ?_⟩
      rw [Nat.add_sub_cancel, ← heq]
      by_cases hp : p = prevp
      · simp [hp]
      · simp [hp]
    · cases h
      refine ⟨⟨[], rfl, by simp⟩, ?_⟩
      rintro _ ⟨⟩
      refine ⟨Nat.le_add_left .., ?_⟩
      simp
    · obtain ⟨a, t, hmore, h⟩ := Exec.bind_eq_ok.mp h
      have ht := morecore_calls hmore
      cases a with
      | none =>
        cases h
        exact ⟨⟨[request n], ht, by simp⟩, by simp⟩
      | some q =>
        dsimp only at h
        rw [Exec.bind_of_ok Exec.get_run] at h
        obtain ⟨⟨new, hnew, hall⟩, hsize⟩ := ih h
        refine ⟨⟨new ++ [request n], by rw [hnew, ht]; simp, ?_⟩, hsize⟩
        simp only [List.mem_append, List.mem_singleton]
        rintro c (hc | rfl)
        · exact hall c hc
        · rfl
    · exact ih h

theorem malloc_some (h : malloc base fuel nbytes s = .ok (r, s')) :
    (∃ new, s'.calls = new ++ s.calls ∧ ∀ c ∈ new, c = request (unitsFor nbytes)) ∧
      ∀ q, r = some q → unit ≤ q ∧ (s'.mem (q - unit)).size = unitsFor nbytes := by
  rw [malloc, Exec.bind_of_ok (Exec.modify_run _), Exec.bind_of_ok Exec.get_run] at h
  obtain ⟨hcalls, hsize⟩ := search_some h
  refine ⟨?_, hsize⟩
  split_ifs at hcalls
  · exact hcalls
  · exact hcalls

/-! ## Large requests -/

/-- All calls of `sbrk` since then were exact. -/
def ExactSince (s s' : Arena) : Prop := ∃ new, s'.calls = new ++ s.calls ∧ ∀ c ∈ new, IsExact c

theorem unitsFor_lt_iff (hn : nbytes ≤ 2 ^ 32 - unit) :
    unitsFor nbytes < 2 ^ 28 ↔ nbytes ≤ 2 ^ 31 - 16 := by
  simp only [unitsFor, unit] at *
  omega

theorem unitsFor_wrapped (hn : 2 ^ 32 - unit < nbytes) (hlt : nbytes < 2 ^ 32) :
    unitsFor nbytes = 1 := by
  simp only [unitsFor, unit] at *
  omega

theorem unitsFor_le (nbytes : ℕ) : unitsFor nbytes ≤ 2 ^ 29 := by
  simp only [unitsFor, unit]
  omega

/-- A request for less than `2 ^ 28` units makes exact calls only. -/
theorem malloc_exact (hn : unitsFor nbytes < 2 ^ 28) (h : malloc base fuel nbytes s = .ok (r, s')) :
    ExactSince s s' := by
  obtain ⟨⟨new, hnew, hall⟩, -⟩ := malloc_some h
  refine ⟨new, hnew, fun c hc => ?_⟩
  rw [hall c hc]
  exact (request_exact_iff (by omega)).mpr hn

/-- No block of a heap below `KERNBASE` has `2 ^ 28` units. -/
theorem Consistent.size_lt (h : Consistent base s fs blocks) (htop : s.top ≤ KERNBASE) {b : Block}
    (hb : b ∈ fs ++ blocks) : b.2 < 2 ^ 28 := by
  have hbounds := h.bounds hb
  have hpos := h.base_pos
  simp only [unit, KERNBASE] at *
  omega

theorem extend_calls (h : extend n fuel s = .ok (r, s')) :
    ∃ new, s'.calls = new ++ request n :: s.calls := by
  obtain ⟨a, t, hmore, h⟩ := Exec.bind_eq_ok.mp h
  have ht := morecore_calls hmore
  cases a with
  | none =>
    cases h
    exact ⟨[], ht⟩
  | some q =>
    dsimp only at h
    rw [Exec.bind_of_ok Exec.get_run] at h
    obtain ⟨⟨new, hnew, -⟩, -⟩ := search_some h
    exact ⟨new, by rw [hnew, ht]⟩

/-- A request for more units than there can be asks `sbrk` for them. -/
theorem malloc_inexact (h : Wellformed base s fs blocks) (htop : s.top ≤ KERNBASE)
    (hn : 2 ^ 28 ≤ unitsFor nbytes) (hrun : malloc base fuel nbytes s = .ok (r, s')) :
    ¬ ExactSince s s' := by
  have hmore := malloc_mono (show fuel ≤ max fuel (fs.length + 1) by omega) hrun
  obtain ⟨t, ht, htop', -, hcalls, hstart⟩ := h.start (max fuel (fs.length + 1)) nbytes
  rw [hstart] at hmore
  have hpos : 0 < unitsFor nbytes := Nat.succ_pos _
  obtain ⟨q, _, _, -, -, -, c, hc, hfits, -⟩ | ⟨-, hextend⟩ :=
    search_freep ht hpos (show fs.length < max fuel (fs.length + 1) by omega)
  · have := ht.size_lt (htop'.trans_le htop) (List.mem_append_left blocks hc)
    omega
  · rw [hextend] at hmore
    obtain ⟨new, hnew⟩ := extend_calls hmore
    rintro ⟨new', hnew', hall⟩
    rw [hcalls, ← List.singleton_append, ← List.append_assoc, hnew', List.append_cancel_right_eq]
      at hnew
    have hexact := hall (request (unitsFor nbytes)) (by simp [hnew])
    rw [request_exact_iff (by have := unitsFor_le nbytes; omega)] at hexact
    omega

/-! ## What the callers get -/

/-- The block at `p` has room for `n` bytes, and the heap is in order with it in use beside
the other blocks. -/
def Roomy (base : ℕ) (s : Arena) (blocks : List Block) (p n : ℕ) : Prop :=
  ∃ q k fs, p = q + unit ∧ Consistent base s fs ((q, k) :: blocks) ∧ n + unit ≤ unit * k

/-- The byte at `x`. -/
def Arena.byte (s : Arena) (x : ℕ) : ℕ := (s.mem x).ptr % 256

/-- `malloc(nbytes)` returns NULL or a block that is large enough, and its calls of `sbrk`
are exact. -/
def MallocMeets (base nbytes : ℕ) (s : Arena) (blocks : List Block) : Prop :=
  ∃ fuel r s', malloc base fuel nbytes s = .ok (r, s') ∧
    (∀ p, r = some p → Roomy base s' blocks p nbytes) ∧ ExactSince s s'

/-- The same of `calloc(nmemb, size)`, for the product without a bound, and the bytes are
zero. -/
def CallocMeets (base nmemb size : ℕ) (s : Arena) (blocks : List Block) : Prop :=
  ∃ fuel r s', calloc base fuel nmemb size s = .ok (r, s') ∧
    (∀ p, r = some p → Roomy base s' blocks p (nmemb * size) ∧
      ∀ x, p ≤ x → x < p + nmemb * size → s'.byte x = 0) ∧ ExactSince s s'

/-- `malloc(nbytes)` returns NULL. -/
def ReturnsNull (base nbytes : ℕ) (s : Arena) : Prop :=
  ∃ fuel s', malloc base fuel nbytes s = .ok (none, s')

theorem malloc_roomy (h : Wellformed base s fs blocks) (hn : nbytes ≤ 2 ^ 31 - 16) :
    ∃ fuel r s', malloc base fuel nbytes s = .ok (r, s') ∧
      ∀ p, r = some p → Roomy base s' blocks p nbytes := by
  have hunits : unitsFor nbytes < 2 ^ 28 := (unitsFor_lt_iff (by rw [unit]; omega)).mpr hn
  have hroom : nbytes + unit ≤ unit * unitsFor nbytes := by
    simp only [unitsFor, unit]
    omega
  have hspec := malloc_spec h hunits (show 2 * fs.length + 2 < 2 * fs.length + 3 by omega)
  generalize hout : malloc base (2 * fs.length + 3) nbytes s = out at hspec
  cases hspec with
  | refused => exact ⟨_, _, _, hout, by simp⟩
  | @taken q s' fs' hs' _ =>
    refine ⟨_, _, _, hout, ?_⟩
    rintro _ ⟨⟩
    exact ⟨q, _, fs', rfl, hs', hroom⟩
  | @extended q s' fs' _ _ hs' _ _ _ =>
    refine ⟨_, _, _, hout, ?_⟩
    rintro _ ⟨⟩
    exact ⟨q, _, fs', rfl, hs', hroom⟩

/-- The header of a block tells its room. -/
theorem Roomy.le {blocks : List Block} (h : Roomy base s blocks p n) :
    n + unit ≤ unit * (s.mem (p - unit)).size := by
  obtain ⟨q, k, fs, rfl, hs, hk⟩ := h
  rw [Nat.add_sub_cancel, (hs.size (q, k) (by simp)).1]
  exact hk

/-- The sizes for which the calls of `sbrk` are exact in every heap. -/
def ExactSize (nbytes : ℕ) : Prop := nbytes ≤ 2 ^ 31 - 16 ∨ 2 ^ 32 - unit < nbytes

theorem exactSince_iff (h : Wellformed base s fs blocks) (htop : s.top ≤ KERNBASE)
    (hn : nbytes < 2 ^ 32) (hrun : malloc base fuel nbytes s = .ok (r, s')) :
    ExactSince s s' ↔ ExactSize nbytes := by
  constructor
  · intro hexact
    by_contra hsize
    rw [ExactSize, not_or, not_le, not_lt] at hsize
    refine malloc_inexact h htop ?_ hrun hexact
    rw [← not_lt, unitsFor_lt_iff hsize.2, not_le]
    exact hsize.1
  · rintro (hsize | hsize)
    · exact malloc_exact ((unitsFor_lt_iff (by rw [unit]; omega)).mpr hsize) hrun
    · refine malloc_exact ?_ hrun
      rw [unitsFor_wrapped hsize hn]
      norm_num

theorem mallocMeets_iff (h : Wellformed base s fs blocks) (htop : s.top ≤ KERNBASE)
    (hn : nbytes < 2 ^ 32) :
    MallocMeets base nbytes s blocks ↔
      nbytes ≤ 2 ^ 31 - 16 ∨ ExactSize nbytes ∧ ReturnsNull base nbytes s := by
  constructor
  · rintro ⟨fuel, r, s', hrun, hroom, hexact⟩
    have hsize := (exactSince_iff h htop hn hrun).mp hexact
    cases r with
    | none => exact .inr ⟨hsize, fuel, s', hrun⟩
    | some p =>
      refine hsize.imp_right fun hsize => ?_
      have hle := (hroom p rfl).le
      rw [((malloc_some hrun).2 p rfl).2, unitsFor_wrapped hsize hn, unit] at hle
      omega
  · rintro (hsize | ⟨hsize, fuel, s', hrun⟩)
    · obtain ⟨fuel, r, s', hrun, hroom⟩ := malloc_roomy h hsize
      exact ⟨fuel, r, s', hrun, hroom, (exactSince_iff h htop hn hrun).mpr (.inl hsize)⟩
    · exact ⟨fuel, none, s', hrun, by simp, (exactSince_iff h htop hn hrun).mpr hsize⟩

theorem calloc_eq_ok {nmemb size : ℕ} :
    calloc base fuel nmemb size s = .ok (r, s') ↔
      ∃ t, malloc base fuel (nmemb * size % 2 ^ 32) s = .ok (r, t) ∧
        s' = r.elim t fun p => t.cleared p (nmemb * size % 2 ^ 32) := by
  constructor
  · intro h
    obtain ⟨a, t, hrun, h⟩ := Exec.bind_eq_ok.mp h
    cases a with
    | none =>
      cases h
      exact ⟨_, hrun, rfl⟩
    | some p =>
      cases h
      exact ⟨_, hrun, rfl⟩
  · rintro ⟨t, hrun, rfl⟩
    rw [calloc, Exec.bind_of_ok hrun]
    cases r with
    | none => rfl
    | some p => rfl

theorem elim_cleared_calls (r : Option ℕ) (t : Arena) (n : ℕ) :
    (r.elim t fun p => t.cleared p n).calls = t.calls := by
  cases r <;> rfl

/-- Setting the bytes of a block to zero leaves the heap in order. -/
theorem Roomy.cleared (h : Roomy base s blocks p n) : Roomy base (s.cleared p n) blocks p n := by
  obtain ⟨q, k, fs, rfl, hs, hk⟩ := h
  refine ⟨q, k, fs, rfl, hs.store fun a ha => ⟨(q, k), List.mem_cons_self, ?_⟩, hk⟩
  by_contra hout
  refine ha (if_neg fun hin => hout ?_)
  rw [unit] at *
  dsimp only
  omega

theorem clearWord_mod {lo hi a : ℕ} (v : ℕ) (hlo : lo ≤ a) (hhi : a < hi) :
    clearWord lo hi a v % 256 = 0 := by
  simp only [clearWord, List.range_succ, List.range_zero, List.nil_append, List.cons_append,
    List.map_cons, List.map_nil, List.sum_cons, List.sum_nil, Nat.add_zero]
  rw [if_pos ⟨hlo, hhi⟩]
  split_ifs <;> omega

theorem cleared_byte {x : ℕ} (hp : p ≤ x) (hx : x < p + n) : (s.cleared p n).byte x = 0 := by
  have hin : p < x + unit ∧ x < p + n := ⟨by rw [unit]; omega, hx⟩
  rw [Arena.byte, Arena.cleared_mem]
  dsimp only
  rw [if_pos hin]
  exact clearWord_mod _ hp hx

theorem callocMeets_iff {nmemb size : ℕ} (h : Wellformed base s fs blocks)
    (htop : s.top ≤ KERNBASE) :
    CallocMeets base nmemb size s blocks ↔
      nmemb * size ≤ 2 ^ 31 - 16 ∨
        ExactSize (nmemb * size % 2 ^ 32) ∧ ReturnsNull base (nmemb * size % 2 ^ 32) s := by
  have hn : nmemb * size % 2 ^ 32 < 2 ^ 32 := Nat.mod_lt _ (by norm_num)
  constructor
  · rintro ⟨fuel, r, s', hrun, hroom, hexact⟩
    obtain ⟨t, hmalloc, rfl⟩ := calloc_eq_ok.mp hrun
    have hexact' : ExactSince s t := by
      rw [ExactSince, elim_cleared_calls] at hexact
      exact hexact
    have hsize := (exactSince_iff h htop hn hmalloc).mp hexact'
    cases r with
    | none => exact .inr ⟨hsize, fuel, t, hmalloc⟩
    | some p =>
      left
      obtain ⟨hp, hunits⟩ := (malloc_some hmalloc).2 p rfl
      have hle := (hroom p rfl).1.le
      have hheader : (t.cleared p (nmemb * size % 2 ^ 32)).mem (p - unit) = t.mem (p - unit) :=
        if_neg (by omega)
      have hcap := unitsFor_le (nmemb * size % 2 ^ 32)
      rw [Option.elim_some, hheader, hunits] at hle
      -- the block has less than `2 ^ 32` bytes, so the product did not wrap around
      have hmod : nmemb * size % 2 ^ 32 = nmemb * size := Nat.mod_eq_of_lt (by rw [unit] at hle; omega)
      rw [hmod] at hsize hle hn
      refine hsize.resolve_right fun hsize => ?_
      rw [unitsFor_wrapped hsize hn, unit] at hle
      rw [unit] at hsize
      omega
  · rintro (hsize | ⟨hsize, fuel, s', hrun⟩)
    · have hmod : nmemb * size % 2 ^ 32 = nmemb * size := Nat.mod_eq_of_lt (by omega)
      obtain ⟨fuel, r, t, hrun, hroom⟩ := malloc_roomy h hsize
      have hexact := (exactSince_iff h htop (by omega) hrun).mpr (.inl hsize)
      refine ⟨fuel, r, _, calloc_eq_ok.mpr ⟨t, by rw [hmod]; exact hrun, rfl⟩, ?_, ?_⟩
      · rintro p rfl
        rw [Option.elim_some, hmod]
        exact ⟨(hroom p rfl).cleared, fun x hp hx => cleared_byte hp hx⟩
      · rw [ExactSince, elim_cleared_calls]
        exact hexact
    · exact ⟨fuel, none, s', calloc_eq_ok.mpr ⟨s', hrun, rfl⟩, by simp,
        (exactSince_iff h htop hn hrun).mpr hsize⟩

theorem wellformed_fresh : Wellformed 8 (fresh 16) [] [] :=
  .inl ⟨by decide, by decide, rfl, rfl, rfl, rfl⟩

theorem not_returnsNull (h : malloc base fuel nbytes s = .ok (some p, s')) :
    ¬ ReturnsNull base nbytes s := by
  rintro ⟨fuel', t, hnull⟩
  have hboth := malloc_mono (le_max_right fuel fuel') hnull
  rw [malloc_mono (le_max_left fuel fuel') h] at hboth
  cases hboth

end Lainos.Libc
