import Lainos.Vm.Ram
import Lainos.Vm.Dealloc

/-!
# Copying into user memory

`copyout` cuts a range of addresses at page boundaries and looks each page up. What it
should do is stated byte by byte, for page tables in which a frame may be mapped more than
once. It is correct as long as `uva2ka` finds a page table for the first page that may not
be written to.
-/

namespace Lainos.Vm

open Library Exec

@[simps -fullyApplied]
def Machine.setStores (s : Machine) (l : List Store) : Machine := { s with stores := l }

/-- Page `v` is present and may be used by user code. -/
def User (mem : Memory) (d v : ℕ) : Prop := (view mem d v).p = true ∧ (view mem d v).u = true

instance (mem : Memory) (d v : ℕ) : Decidable (User mem d v) := instDecidableAnd

/-- The frame of address `x` and the offset in it. -/
def place (mem : Memory) (d x : ℕ) : ℕ × ℕ := ((view mem d (x / PGSIZE)).addr, x % PGSIZE)

/-- The pages that user code may use are frames of physical memory. -/
def InRam (mem : Memory) (d : ℕ) : Prop :=
  ∀ v < top, User mem d v → (view mem d v).addr < phystop

theorem uva2ka_of_table {s : Machine} {d v : ℕ} (null : Pte) (h : (s.mem d (v / 1024)).p = true) :
    uva2ka null d v s = .ok (if User s.mem d v then some (view s.mem d v).addr else none, s) := by
  rw [uva2ka, bind_of_ok (walkpgdir_eq s d v), if_pos h, bind_of_ok get_run]
  simp only [← view_of_table h]
  by_cases huser : User s.mem d v
  · simp [huser, huser.1, huser.2]
  · have hflags : (!(view s.mem d v).p || !(view s.mem d v).u) = true := by
      cases hp : (view s.mem d v).p with
      | false => rfl
      | true =>
        cases hu : (view s.mem d v).u with
        | false => rfl
        | true => exact (huser ⟨hp, hu⟩).elim
    rw [if_pos hflags, if_neg huser, pure_run]

theorem uva2ka_of_no_table {s : Machine} {d v : ℕ} {null : Pte} (h : (s.mem d (v / 1024)).p = false)
    (hp : null.p = true) (hu : null.u = true) : uva2ka null d v s = .ok (some null.addr, s) := by
  rw [uva2ka, bind_of_ok (walkpgdir_eq s d v), if_neg (by rw [h]; exact Bool.false_ne_true),
    bind_of_ok get_run]
  simp [hp, hu]

namespace Ram

variable {r t u : Ram} {d va k n len size : ℕ} {src : Bytes} {null : Pte}

theorem byte_eq (r : Ram) (d x : ℕ) :
    r.byte d x = r.2 (place r.1.mem d x).1 (place r.1.mem d x).2 := rfl

/-- The `k` bytes from `va` on were replaced by those of `src`, and no others. Where two of
the addresses are at one place, the last one decides. -/
structure CopiedOut (r t : Ram) (d va k : ℕ) (src : Bytes) : Prop where
  machine : ∃ l, t.1 = r.1.setStores l
  inside : ∀ x, va ≤ x → x < va + k →
    (∀ y, x < y → y < va + k → place r.1.mem d y ≠ place r.1.mem d x) → t.byte d x = src (x - va)
  outside : ∀ f o, (∀ x, va ≤ x → x < va + k → place r.1.mem d x ≠ (f, o)) → t.2 f o = r.2 f o

theorem same_page {x : ℕ} (hfit : va % PGSIZE + k ≤ PGSIZE) (hlo : va ≤ x) (hhi : x < va + k) :
    x / PGSIZE = va / PGSIZE ∧ x % PGSIZE = va % PGSIZE + (x - va) := by
  unfold PGSIZE at *
  omega

namespace CopiedOut

theorem refl (r : Ram) (d va : ℕ) (src : Bytes) : CopiedOut r r d va 0 src where
  machine := ⟨r.1.stores, rfl⟩
  inside x hlo hhi := by omega
  outside _ _ _ := rfl

theorem mem_eq (h : CopiedOut r t d va k src) : t.1.mem = r.1.mem := by
  obtain ⟨l, hl⟩ := h.machine
  rw [hl, Machine.setStores_mem]

theorem trans (h₁ : CopiedOut r t d va k src) (h₂ : CopiedOut t u d (va + k) n (shift src k)) :
    CopiedOut r u d va (k + n) src where
  machine := by
    obtain ⟨l₁, hl₁⟩ := h₁.machine
    obtain ⟨l₂, hl₂⟩ := h₂.machine
    exact ⟨l₂, by rw [hl₂, hl₁]; rfl⟩
  inside x hlo hhi hlast := by
    have hmem := h₁.mem_eq
    by_cases hx : va + k ≤ x
    · rw [h₂.inside x hx (by omega) (by rw [hmem]; exact fun y hxy hy => hlast y hxy (by omega)), shift]
      congr 1
      omega
    · -- The second part of the copy does not come back to the place of `x`.
      have hkept : u.byte d x = t.byte d x := by
        rw [byte_eq, byte_eq, h₂.mem_eq]
        refine h₂.outside _ _ fun y hy hyn => ?_
        rw [hmem]
        exact hlast y (by omega) (by omega)
      rw [hkept]
      exact h₁.inside x hlo (by omega) fun y hxy hy => hlast y hxy (by omega)
  outside f o hout := by
    have hmem := h₁.mem_eq
    rw [h₂.outside f o (by rw [hmem]; exact fun x hlo hhi => hout x (by omega) (by omega))]
    exact h₁.outside f o fun x hlo hhi => hout x hlo (by omega)

/-- Where nothing is copied, it does not matter where to. -/
theorem empty (h : CopiedOut r t d va 0 src) (va' : ℕ) (src' : Bytes) : CopiedOut r t d va' 0 src' where
  machine := h.machine
  inside x hlo hhi := by omega
  outside f o _ := h.outside f o fun x hlo hhi => by omega

/-- A store into one page. -/
theorem page {l : List Store} (hfit : va % PGSIZE + k ≤ PGSIZE) :
    CopiedOut r (r.1.setStores l, Function.update r.2 (view r.1.mem d (va / PGSIZE)).addr
      (splice (r.2 (view r.1.mem d (va / PGSIZE)).addr) (va % PGSIZE) k src)) d va k src where
  machine := ⟨l, rfl⟩
  inside x hlo hhi _ := by
    obtain ⟨hdiv, hmod⟩ := same_page hfit hlo hhi
    rw [byte, hdiv, hmod]
    refine (congrFun (Function.update_self ..) _).trans ((splice_inside (by omega) (by omega)).trans ?_)
    rw [Nat.add_sub_cancel_left]
  outside f o hout := by
    by_cases hf : f = (view r.1.mem d (va / PGSIZE)).addr
    · rw [hf]
      refine (congrFun (Function.update_self ..) o).trans (splice_outside ?_)
      by_contra hin
      push Not at hin
      obtain ⟨hdiv, hmod⟩ := same_page (x := va + (o - va % PGSIZE)) hfit (by omega) (by omega)
      refine hout (va + (o - va % PGSIZE)) (by omega) (by omega) ?_
      rw [place, hdiv, hmod, hf, Prod.mk.injEq]
      exact ⟨rfl, by omega⟩
    · exact congrFun (Function.update_of_ne hf ..) o

end CopiedOut

/-- What `copyout` should do: succeed exactly if all pages of the range may be written to,
and write to no others. -/
structure Checked (r : Ram) (d va len : ℕ) (src : Bytes) (ok : Bool) (t : Ram) : Prop where
  result : ok = true ↔ ∀ x, va ≤ x → x < va + len → User r.1.mem d (x / PGSIZE)
  machine : ∃ l, t.1 = r.1.setStores l
  copied : ok = true → CopiedOut r t d va len src
  confined : ∀ f o, t.2 f o ≠ r.2 f o →
    ∃ x, va ≤ x ∧ x < va + len ∧ User r.1.mem d (x / PGSIZE) ∧ place r.1.mem d x = (f, o)

/-- There is a page table for the first page of the range that may not be written to. -/
def Walkable (mem : Memory) (d va len : ℕ) : Prop :=
  ∀ x, va ≤ x → x < va + len → (∀ y, va ≤ y → y < x → User mem d (y / PGSIZE)) →
    (mem d (x / PGSIZE / 1024)).p = true

theorem Checked.empty (r : Ram) (d va : ℕ) (src : Bytes) : Checked r d va 0 src true r where
  result := ⟨fun _ x hlo hhi => by omega, fun _ => rfl⟩
  machine := ⟨r.1.stores, rfl⟩
  copied _ := CopiedOut.refl ..
  confined _ _ hne := (hne rfl).elim

theorem Checked.refused (hlen : 0 < len) (h : ¬ User r.1.mem d (va / PGSIZE)) :
    Checked r d va len src false r where
  result := ⟨fun hfalse => (by cases hfalse), fun hall => (h (hall va le_rfl (by omega))).elim⟩
  machine := ⟨r.1.stores, rfl⟩
  copied hfalse := by cases hfalse
  confined _ _ hne := (hne rfl).elim

/-- A page that may be written to, and then the rest of the range. -/
theorem Checked.cons {ok : Bool} (hk : k ≤ len) (hfit : va % PGSIZE + k ≤ PGSIZE)
    (huser : User r.1.mem d (va / PGSIZE)) (h₁ : CopiedOut r t d va k src)
    (h₂ : Checked t d (va + k) (len - k) (shift src k) ok u) : Checked r d va len src ok u where
  result := by
    rw [h₂.result, h₁.mem_eq]
    constructor
    · intro hall x hlo hhi
      by_cases hx : x < va + k
      · rwa [(same_page hfit hlo hx).1]
      · exact hall x (by omega) (by omega)
    · intro hall x hlo hhi
      exact hall x (by omega) (by omega)
  machine := by
    obtain ⟨l₁, hl₁⟩ := h₁.machine
    obtain ⟨l₂, hl₂⟩ := h₂.machine
    exact ⟨l₂, by rw [hl₂, hl₁]; rfl⟩
  copied hok := by
    have h := h₁.trans (h₂.copied hok)
    rwa [Nat.add_sub_of_le hk] at h
  confined f o hne := by
    by_cases hsame : u.2 f o = t.2 f o
    · have hex : ¬ ∀ x, va ≤ x → x < va + k → place r.1.mem d x ≠ (f, o) := fun hout =>
        hne (hsame.trans (h₁.outside f o hout))
      push Not at hex
      obtain ⟨x, hlo, hhi, hplace⟩ := hex
      exact ⟨x, hlo, by omega, by rwa [(same_page hfit hlo hhi).1], hplace⟩
    · obtain ⟨x, hlo, hhi, hx, hplace⟩ := h₂.confined f o hsame
      rw [h₁.mem_eq] at hx hplace
      exact ⟨x, by omega, by omega, hx, hplace⟩

theorem Walkable.tail (h : Walkable r.1.mem d va len) (hk : k ≤ len) (hfit : va % PGSIZE + k ≤ PGSIZE)
    (huser : User r.1.mem d (va / PGSIZE)) : Walkable r.1.mem d (va + k) (len - k) := by
  intro x hlo hhi hall
  refine h x (by omega) (by omega) fun y hy hyx => ?_
  by_cases hyk : y < va + k
  · rwa [(same_page hfit hy hyk).1]
  · exact hall y (by omega) hyx

theorem ends_storeTo_page {through : Through} {page : ℕ}
    (hframe : (view r.1.mem d (va / PGSIZE)).addr < phystop) (hfit : va % PGSIZE + k ≤ PGSIZE) :
    Ends (storeTo through d size page (view r.1.mem d (va / PGSIZE)).addr (va % PGSIZE) k src)
      (fun _ t => CopiedOut r t d va k src) (fun _ => False) r := by
  rw [storeTo, Vm.storeTo, if_neg (Nat.not_le.mpr hframe)]
  exact CopiedOut.page hfit

@[simp] theorem copyoutFrom_zero (fuel va : ℕ) :
    copyoutFrom null d size fuel va 0 src = pure true := by
  cases fuel with
  | zero => rfl
  | succ fuel => rw [copyoutFrom, if_pos rfl]

/-- The rest of the range after its first page. -/
theorem next_page (hlen : 0 < len) (hva : va + len ≤ word) :
    len - min (PGSIZE - va % PGSIZE) len = 0 ∨
      (va / PGSIZE * PGSIZE + PGSIZE) % word = va + min (PGSIZE - va % PGSIZE) len ∧
        len - min (PGSIZE - va % PGSIZE) len < len := by
  unfold PGSIZE word at *
  omega

theorem first_page (hlen : 0 < len) (hva : va + len ≤ word) :
    va / PGSIZE < top ∧ va % PGSIZE + min (PGSIZE - va % PGSIZE) len ≤ PGSIZE := by
  have := constants
  unfold PGSIZE word at *
  omega

theorem copyoutFrom_checked {fuel : ℕ} (hram : InRam r.1.mem d) (hva : va + len ≤ word)
    (hfuel : len ≤ fuel) (hwalk : Walkable r.1.mem d va len) :
    Ends (copyoutFrom null d size fuel va len src) (Checked r d va len src) (fun _ => False) r := by
  induction fuel generalizing r va len src with
  | zero =>
    obtain rfl : len = 0 := by omega
    exact Checked.empty r d va src
  | succ fuel ih =>
    by_cases hlen : len = 0
    · rw [hlen, copyoutFrom_zero]
      exact Checked.empty r d va src
    have htable := hwalk va le_rfl (by omega) fun y hy hyx => by omega
    rw [copyoutFrom, if_neg hlen, ends_bind, ends_first, ends_of_ok (uva2ka_of_table null htable)]
    by_cases huser : User r.1.mem d (va / PGSIZE)
    swap
    · rw [if_neg huser]
      exact Checked.refused (by omega) huser
    obtain ⟨hv, hfit⟩ := first_page (Nat.pos_of_ne_zero hlen) hva
    rw [if_pos huser, ends_bind]
    refine (ends_storeTo_page (hram _ hv huser) hfit).mono (fun _ t hpage => ?_) fun _ he => he
    refine Ends.mono ?_ (fun ok t h => Checked.cons (min_le_right ..) hfit huser hpage h) fun _ he => he
    have hmem := hpage.mem_eq
    obtain hdone | ⟨hnext, hless⟩ := next_page (Nat.pos_of_ne_zero hlen) hva
    · rw [hdone, copyoutFrom_zero]
      exact Checked.empty ..
    · rw [hnext]
      exact ih (by rwa [hmem]) (by omega) (by omega)
        (by rw [hmem]; exact hwalk.tail (min_le_right ..) hfit huser)

theorem Walkable.of_first (htable : (r.1.mem d (va / PGSIZE / 1024)).p = true)
    (huser : ¬ User r.1.mem d (va / PGSIZE)) : Walkable r.1.mem d va len := by
  intro x hlo hhi hall
  by_cases hx : x = va
  · rwa [hx]
  · exact (huser (hall va le_rfl (by omega))).elim

theorem Walkable.cons (hk : k ≤ len) (hfit : va % PGSIZE + k ≤ PGSIZE)
    (htable : (r.1.mem d (va / PGSIZE / 1024)).p = true)
    (h : Walkable r.1.mem d (va + k) (len - k)) : Walkable r.1.mem d va len := by
  intro x hlo hhi hall
  by_cases hx : x < va + k
  · rwa [(same_page hfit hlo hx).1]
  · exact h x (by omega) (by omega) fun y hy hyx => hall y (by omega) hyx

/-- An entry at address zero that is present, for user code, and not in physical memory. -/
def trapEntry : Pte := ⟨phystop, true, true, true⟩

/-- With `trapEntry` at address zero, `copyout` returns only if it does not look there. -/
theorem copyoutFrom_trapEntry {fuel : ℕ} (hram : InRam r.1.mem d) (hva : va + len ≤ word)
    (hfuel : len ≤ fuel) :
    Ends (copyoutFrom trapEntry d size fuel va len src) (fun _ _ => Walkable r.1.mem d va len)
      (fun _ => True) r := by
  induction fuel generalizing r va len src with
  | zero =>
    intro x hlo hhi _
    omega
  | succ fuel ih =>
    by_cases hlen : len = 0
    · rw [hlen, copyoutFrom_zero]
      intro x hlo hhi _
      omega
    rw [copyoutFrom, if_neg hlen, ends_bind, ends_first]
    cases htable : (r.1.mem d (va / PGSIZE / 1024)).p with
    | false =>
      rw [ends_of_ok (uva2ka_of_no_table htable rfl rfl), ends_bind, storeTo, Vm.storeTo, trapEntry,
        if_pos le_rfl]
      trivial
    | true =>
      rw [ends_of_ok (uva2ka_of_table trapEntry htable)]
      by_cases huser : User r.1.mem d (va / PGSIZE)
      swap
      · rw [if_neg huser]
        exact Walkable.of_first htable huser
      rw [if_pos huser, ends_bind]
      obtain ⟨hv, hfit⟩ := first_page (Nat.pos_of_ne_zero hlen) hva
      refine (ends_storeTo_page (hram _ hv huser) hfit).mono (fun _ t hpage => ?_) fun _ _ => trivial
      have hmem := hpage.mem_eq
      refine Ends.mono ?_ (fun _ _ h => Walkable.cons (min_le_right ..) hfit htable h) fun _ he => he
      obtain hdone | ⟨hnext, hless⟩ := next_page (Nat.pos_of_ne_zero hlen) hva
      · rw [hdone, copyoutFrom_zero]
        intro x hlo hhi _
        omega
      · rw [hnext, ← hmem]
        exact ih (by rwa [hmem]) (by omega) (by omega)

/-- `copyout` does what it should, whatever is at address zero, if and only if there is a
page table for the first page that may not be written to. -/
theorem copyout_checked_iff (hram : InRam r.1.mem d) (hva : va + len ≤ word) :
    (∀ null size, Ends (copyout null d size va len src) (Checked r d va len src) (fun _ => False) r) ↔
      Walkable r.1.mem d va len := by
  constructor
  · intro h
    cases hrun : copyout trapEntry d 0 va len src r with
    | error e => exact ((h trapEntry 0).error hrun).elim
    | ok x => exact (copyoutFrom_trapEntry hram hva le_rfl : Ends (copyout trapEntry d 0 va len src)
        (fun _ _ => Walkable r.1.mem d va len) (fun _ => True) r).ok hrun
  · intro hwalk null size
    exact copyoutFrom_checked hram hva le_rfl hwalk

/-- One page is mapped at 4 MiB. The copy runs over its end, into a page that is absent but
has a page table. -/
theorem copyout_checked_iff_jump :
    (InRam (singleMachine 1 0).mem 0x1FF ∧ 0x400FFE + 4 ≤ word) ∧
    ((∀ null size, Ends (copyout null 0x1FF size 0x400FFE 4 (fun _ => 7))
      (Checked (singleMachine 1 0, fun _ _ => 0) 0x1FF 0x400FFE 4 (fun _ => 7)) (fun _ => False)
        (singleMachine 1 0, fun _ _ => 0)) ↔ Walkable (singleMachine 1 0).mem 0x1FF 0x400FFE 4) := by
  have hram : InRam (singleMachine 1 0).mem 0x1FF := by
    intro v _ hv
    rw [User, singleMachine_view] at hv
    have hc := constants
    rw [singleMachine_view]
    split_ifs at hv ⊢ with h
    · change 0x201 < phystop
      omega
    · exact absurd hv.1 Bool.false_ne_true
  have hva : 0x400FFE + 4 ≤ word := by
    rw [word]
    omega
  exact ⟨⟨hram, hva⟩, copyout_checked_iff (r := (singleMachine 1 0, fun _ _ => 0)) hram hva⟩

/-- Nothing is mapped, and the word at address zero is the entry of frame `0x150`. Then
`copyout` succeeds and writes there. -/
theorem copyout_without_table : ¬ User smallMachine.mem 0x1FF 0 ∧
    ∃ t : Ram, copyout ⟨0x150, true, true, true⟩ 0x1FF 0 0 1 (fun _ => 7)
      (smallMachine, fun _ _ => 0) = .ok (true, t) ∧ t.2 0x150 0 = 7 := by
  refine ⟨fun h => absurd h.1 Bool.false_ne_true, ?_⟩
  have hc := constants
  have hfound : (first (uva2ka ⟨0x150, true, true, true⟩ 0x1FF (0 / PGSIZE)) : RAct (Option ℕ))
      (smallMachine, fun _ _ => 0) = .ok (some 0x150, smallMachine, fun _ _ => 0) := by
    rw [first, uva2ka_of_no_table rfl rfl rfl]
  have hstore : ∃ t : Ram, storeTo .copyout 0x1FF 0 (0 / PGSIZE) 0x150 (0 % PGSIZE)
      (min (PGSIZE - 0 % PGSIZE) 1) (fun _ => 7) (smallMachine, fun _ _ => 0) = .ok ((), t) ∧
        t.2 0x150 0 = 7 := by
    rw [storeTo, Vm.storeTo, if_neg (by omega)]
    refine ⟨_, rfl, ?_⟩
    simp [splice, PGSIZE]
  obtain ⟨t, hstored, hbyte⟩ := hstore
  refine ⟨t, ?_, hbyte⟩
  rw [copyout, copyoutFrom, if_neg one_ne_zero, bind_of_ok hfound]
  exact bind_of_ok hstored

end Ram

end Lainos.Vm
