import Lainos.Vm.Segments

/-!
# Strings on the new stack

The strings of `env` and `argv` go on the stack page one below the other. A copy that would
leave the page runs into the page below, which user code cannot use, or into the last page
of the address space, which is the kernel's.
-/

namespace Lainos.Vm

open Library Exec

/-! ## Room on the stack -/

/-- The bytes that a string takes with its terminator, in whole words. -/
def room (x : List UInt8) : ℕ := (x.length + 4) / 4 * 4

def rooms (l : List (List UInt8)) : ℕ := (l.map room).sum

/-- The addresses of strings that are pushed one after the other. -/
def addrs : ℕ → List (List UInt8) → List ℕ
  | _, [] => []
  | sp, x :: l => (sp - room x) :: addrs (sp - room x) l

/-- `ustack` after addresses were stored from index `i` on. -/
def storeAddrs (w : ℕ → UInt32) : ℕ → List ℕ → ℕ → UInt32
  | _, [] => w
  | i, p :: l => storeAddrs (Function.update w i (UInt32.ofNat p)) (i + 1) l

/-- The strings are in memory, below `sp` and one below the other. -/
def Strings (b : Bytes) : ℕ → List (List UInt8) → Prop
  | _, [] => True
  | sp, x :: l => (∀ j ≤ x.length, b (sp - room x + j) = cstring x j) ∧ Strings b (sp - room x) l

@[simp] theorem rooms_nil : rooms [] = 0 := rfl

@[simp] theorem rooms_cons (x : List UInt8) (l : List (List UInt8)) :
    rooms (x :: l) = room x + rooms l := by
  rw [rooms, List.map_cons, List.sum_cons, rooms]

theorem length_lt_room (x : List UInt8) : x.length < room x := by
  rw [room]
  omega

theorem room_le_rooms {x : List UInt8} {l : List (List UInt8)} (h : x ∈ l) : room x ≤ rooms l :=
  List.le_sum_of_mem (List.mem_map_of_mem h)

theorem Strings.congr {b b' : Bytes} {sp : ℕ} {l : List (List UInt8)} (h : Strings b sp l)
    (hroom : rooms l ≤ sp) (hsame : ∀ x, sp - rooms l ≤ x → x < sp → b' x = b x) : Strings b' sp l := by
  induction l generalizing sp with
  | nil => trivial
  | cons x l ih =>
    rw [rooms_cons] at hroom hsame
    have hlt := length_lt_room x
    refine ⟨fun j hj => ?_, ih h.2 (by omega) fun y hlo hhi => hsame y (by omega) (by omega)⟩
    rw [hsame _ (by omega) (by omega)]
    exact h.1 j hj

theorem length_addrs (sp : ℕ) (l : List (List UInt8)) : (addrs sp l).length = l.length := by
  induction l generalizing sp with
  | nil => rfl
  | cons x l ih => rw [addrs, List.length_cons, ih, List.length_cons]

theorem storeAddrs_outside {w : ℕ → UInt32} {i j : ℕ} {l : List ℕ} (h : j < i ∨ i + l.length ≤ j) :
    storeAddrs w i l j = w j := by
  induction l generalizing w i with
  | nil => rfl
  | cons p l ih =>
    rw [List.length_cons] at h
    rw [storeAddrs, ih (by omega)]
    exact Function.update_of_ne (by omega) ..

theorem storeAddrs_inside {w : ℕ → UInt32} {i k : ℕ} {l : List ℕ} (h : k < l.length) :
    storeAddrs w i l (i + k) = UInt32.ofNat l[k] := by
  induction l generalizing w i k with
  | nil => exact absurd h (Nat.not_lt_zero k)
  | cons p l ih =>
    cases k with
    | zero =>
      rw [storeAddrs, storeAddrs_outside (Or.inl (by omega)), Nat.add_zero, Function.update_self]
      rfl
    | succ k =>
      rw [storeAddrs, ← Nat.add_assoc, Nat.add_right_comm]
      exact ih (Nat.lt_of_succ_lt_succ h)

theorem kview_u (L : Layout) (u : ℕ) : (kview L u).u = false := by
  rw [kview]
  split_ifs <;> rfl

/-- `uva2ka` only looks. -/
theorem uva2ka_keeps (null : Pte) (d v : ℕ) (s : Machine) : ∃ f, uva2ka null d v s = .ok (f, s) := by
  rw [uva2ka, bind_of_ok (walkpgdir_eq s d v), bind_of_ok get_run]
  split_ifs <;> exact ⟨_, rfl⟩

namespace Ram

variable {L : Layout} {r t : Ram} {d e va len size x : ℕ} {src : Bytes} {null : Pte}

/-! ## Copying onto the stack -/

theorem Fenced.inRam (h : Fenced L r d e) : InRam r.1.mem d := by
  intro v hv huser
  by_cases hk : v < kernbase
  · exact h.good.frame_lt hk huser.1
  · have hu := huser.2
    rw [h.kernel v hv (by omega), kview_u] at hu
    cases hu

theorem SameTables.fenced (hsame : SameTables r t) (h : Fenced L r d e) : Fenced L t d e := by
  obtain ⟨l, hl⟩ := hsame
  constructor
  · rw [hl]
    exact h.good
  · rw [hl]
    exact h.kernel
  · exact h.size
  · rw [hl]
    exact h.guard
  · rw [hl]
    exact h.table

theorem stack_page (hlo : (pages e + 1) * PGSIZE ≤ x) (hhi : x < (pages e + 2) * PGSIZE) :
    x / PGSIZE = pages e + 1 :=
  Nat.div_eq_of_lt_le hlo hhi

/-- A copy that stays on the stack page. -/
theorem Fenced.copyout_inside (h : Fenced L r d e) (hstack : User r.1.mem d (pages e + 1))
    (hlo : (pages e + 1) * PGSIZE ≤ va) (hhi : va + len ≤ (pages e + 2) * PGSIZE) :
    Ends (copyout null d size va len src) (fun ok t => ok = true ∧ CopiedOut r t d va len src)
      (fun _ => False) r := by
  have hpage : ∀ x, va ≤ x → x < va + len → x / PGSIZE = pages e + 1 := fun x hx hx' =>
    stack_page (by omega) (by omega)
  have hword : va + len ≤ word := by
    have hk : (pages e + 2) * PGSIZE ≤ kernbase * PGSIZE := Nat.mul_le_mul_right _ h.size
    have hw : kernbase * PGSIZE ≤ word := by
      rw [kernbase, PGSIZE, word]
      omega
    omega
  have hwalk : Walkable r.1.mem d va len := fun x hx hx' _ => by
    rw [hpage x hx hx']
    exact table_of_present hstack.1
  refine (copyoutFrom_checked h.inRam hword le_rfl hwalk).mono (fun ok t hchecked => ?_) fun _ he => he
  have hok : ok = true := hchecked.result.mpr fun x hx hx' => by rwa [hpage x hx hx']
  exact ⟨hok, hchecked.copied hok⟩

/-- Page `v` is known and user code cannot use it. -/
def Blocked (mem : Memory) (d v : ℕ) : Prop := (mem d (v / 1024)).p = true ∧ ¬ User mem d v

/-- A copy over a blocked page fails. Nothing is read through address zero if and only if the
page tables on the way are there. -/
theorem copyoutFrom_blocked {fuel : ℕ} (hram : InRam r.1.mem d) (hfuel : len ≤ fuel) (hlo : va ≤ x)
    (hhi : x < va + len) (hx : x < word) (hblocked : Blocked r.1.mem d (x / PGSIZE)) :
    Ends (copyoutFrom null d size fuel va len src)
      (fun ok _ => ok = false ∧ (null = trapEntry → Walkable r.1.mem d va len))
      (fun _ => ¬ Walkable r.1.mem d va len) r := by
  induction fuel generalizing r va len src with
  | zero => omega
  | succ fuel ih =>
    have hfirst : va / PGSIZE < top ∧ va % PGSIZE + min (PGSIZE - va % PGSIZE) len ≤ PGSIZE := by
      have hc := constants
      unfold PGSIZE word at *
      omega
    rw [copyoutFrom, if_neg (by omega), ends_bind, ends_first]
    -- The rest of the copy begins at the next page.
    have hrest : va / PGSIZE ≠ x / PGSIZE → ∀ t, SameTables r t →
        Ends (copyoutFrom null d size fuel ((va / PGSIZE * PGSIZE + PGSIZE) % word)
          (len - min (PGSIZE - va % PGSIZE) len) (shift src (min (PGSIZE - va % PGSIZE) len)))
          (fun ok _ => ok = false ∧ (null = trapEntry → Walkable r.1.mem d
            (va + min (PGSIZE - va % PGSIZE) len) (len - min (PGSIZE - va % PGSIZE) len)))
          (fun _ => ¬ Walkable r.1.mem d (va + min (PGSIZE - va % PGSIZE) len)
            (len - min (PGSIZE - va % PGSIZE) len)) t := fun hpage t hsame => by
      have hnext : (va / PGSIZE * PGSIZE + PGSIZE) % word = va + min (PGSIZE - va % PGSIZE) len ∧
          va + min (PGSIZE - va % PGSIZE) len ≤ x ∧ 0 < min (PGSIZE - va % PGSIZE) len ∧
            min (PGSIZE - va % PGSIZE) len ≤ len := by
        unfold PGSIZE word at *
        omega
      rw [hnext.1, ← hsame.mem_eq]
      refine ih ?_ (by omega) hnext.2.1 (by omega) ?_
      · rwa [hsame.mem_eq]
      · rwa [Blocked, User, hsame.mem_eq]
    cases htable : (r.1.mem d (va / PGSIZE / 1024)).p with
    | false =>
      have hnot : ¬ Walkable r.1.mem d va len := fun hwalk => by
        rw [hwalk va le_rfl (by omega) fun y hy hy' => by omega] at htable
        cases htable
      by_cases htrap : null = trapEntry
      · rw [htrap, ends_of_ok (uva2ka_of_no_table htable rfl rfl), ends_bind, storeTo, Vm.storeTo,
          trapEntry, if_pos le_rfl]
        exact hnot
      obtain ⟨f, hf⟩ := uva2ka_keeps null d (va / PGSIZE) r.1
      rw [ends_of_ok hf]
      cases f with
      | none => exact ⟨rfl, fun heq => (htrap heq).elim⟩
      | some frame =>
        rw [ends_bind]
        refine (sameTables_storeTo r).mono (fun _ t hsame => ?_) fun _ _ => hnot
        have hpage : va / PGSIZE ≠ x / PGSIZE := fun heq => by
          rw [heq, hblocked.1] at htable
          cases htable
        exact (hrest hpage t hsame).mono (fun _ _ h => ⟨h.1, fun heq => (htrap heq).elim⟩) fun _ _ => hnot
    | true =>
      rw [ends_of_ok (uva2ka_of_table null htable)]
      by_cases huser : User r.1.mem d (va / PGSIZE)
      swap
      · rw [if_neg huser]
        exact ⟨rfl, fun _ => Walkable.of_first htable huser⟩
      rw [if_pos huser, ends_bind]
      refine (ends_storeTo_page (hram _ hfirst.1 huser) hfirst.2).mono (fun _ t hcopied => ?_) fun _ he => he.elim
      have hpage : va / PGSIZE ≠ x / PGSIZE := fun heq => hblocked.2 (heq ▸ huser)
      refine (hrest hpage t hcopied.machine).mono (fun _ _ h => ⟨h.1, fun heq => ?_⟩) fun _ he hwalk => ?_
      · exact Walkable.cons (min_le_right ..) hfirst.2 htable (h.2 heq)
      · exact he (hwalk.tail (min_le_right ..) hfirst.2 huser)

/-- The page below the stack page is blocked. -/
theorem Fenced.blocked (h : Fenced L r d e) : Blocked r.1.mem d (pages e) := by
  refine ⟨h.table, fun huser => ?_⟩
  rw [User, h.guard] at huser
  exact absurd huser.2 Bool.false_ne_true

theorem Fenced.walkable_guard (h : Fenced L r d e) (hge : pages e * PGSIZE ≤ va)
    (hlt : va < (pages e + 1) * PGSIZE) : Walkable r.1.mem d va len := by
  have hblocked := h.blocked
  rw [← Nat.div_eq_of_lt_le hge hlt] at hblocked
  exact Walkable.of_first hblocked.1 hblocked.2

/-- A copy from below the stack page that ends near the stack pointer runs into the page
between. -/
theorem Fenced.copyout_below {sp : ℕ} (h : Fenced L r d e) (hsp : (pages e + 1) * PGSIZE ≤ sp)
    (hsp' : sp ≤ (pages e + 2) * PGSIZE) (hva : va < (pages e + 1) * PGSIZE)
    (hnear : sp < va + len + PGSIZE) (hlen : 0 < len) :
    Ends (copyout null d size va len src)
      (fun ok _ => ok = false ∧ (null = trapEntry → Walkable r.1.mem d va len))
      (fun _ => ¬ Walkable r.1.mem d va len) r := by
  have hmul : (pages e + 1) * PGSIZE = pages e * PGSIZE + PGSIZE := Nat.succ_mul ..
  have hk : (pages e + 2) * PGSIZE ≤ kernbase * PGSIZE := Nat.mul_le_mul_right _ h.size
  have hw : kernbase * PGSIZE ≤ word := by
    rw [kernbase, PGSIZE, word]
    omega
  have hpos : 0 < PGSIZE := by
    rw [PGSIZE]
    omega
  obtain ⟨x, hlo, hhi, hge, hlt⟩ : ∃ x, va ≤ x ∧ x < va + len ∧ pages e * PGSIZE ≤ x ∧
      x < (pages e + 1) * PGSIZE := by
    by_cases hcase : va + len ≤ (pages e + 1) * PGSIZE
    · exact ⟨va + len - 1, by omega, by omega, by omega, by omega⟩
    · exact ⟨(pages e + 1) * PGSIZE - 1, by omega, by omega, by omega, by omega⟩
  refine copyoutFrom_blocked h.inRam le_rfl hlo hhi (by omega) ?_
  rw [Nat.div_eq_of_lt_le hge hlt]
  exact h.blocked

/-- A copy that does not end below the end of the address space runs into the kernel. -/
theorem Fenced.copyout_wraps (h : Fenced L r d e) (hva : va < word) (hwrap : word ≤ va + len) :
    Ends (copyout null d size va len src)
      (fun ok _ => ok = false ∧ (null = trapEntry → Walkable r.1.mem d va len))
      (fun _ => ¬ Walkable r.1.mem d va len) r := by
  have hc := constants
  have hlast : (word - 1) / PGSIZE = top - 1 := by
    rw [word, PGSIZE, top]
  have hview : view r.1.mem d (top - 1) = kview L (top - 1) := h.kernel _ (by omega) (by omega)
  refine copyoutFrom_blocked h.inRam le_rfl (show va ≤ word - 1 by omega) (by omega) (by omega) ?_
  rw [hlast]
  refine ⟨table_of_present ?_, fun huser => ?_⟩
  · rw [hview, kview, if_neg (by omega), if_pos (by omega)]
  · rw [User, hview, kview_u] at huser
    exact absurd huser.2 Bool.false_ne_true

/-! ## Pushing strings -/

/-- The address of the next string, if there is room for it. -/
theorem next_address {sp : ℕ} {y : List UInt8} (halign : sp % 4 = 0) (hroom : room y ≤ sp)
    (hsp : sp < word) : (sp + word - (y.length + 1) % word) % word / 4 * 4 = sp - room y := by
  unfold room word at *
  omega

/-- Only bytes of the stack page have changed. -/
structure StackOnly (r t : Ram) (d e : ℕ) : Prop where
  same : SameTables r t
  other : ∀ f ≠ (view r.1.mem d (pages e + 1)).addr, t.2 f = r.2 f

theorem StackOnly.refl (r : Ram) (d e : ℕ) : StackOnly r r d e := ⟨SameTables.refl r, fun _ _ => rfl⟩

theorem StackOnly.trans {u : Ram} (h₁ : StackOnly r t d e) (h₂ : StackOnly t u d e) : StackOnly r u d e :=
  ⟨h₁.same.trans h₂.same, fun f hf => by
    rw [h₂.other f (by rwa [h₁.same.mem_eq]), h₁.other f hf]⟩

/-- A copy onto the stack page. -/
structure Placed (r t : Ram) (d e va len : ℕ) (src : Bytes) : Prop where
  only : StackOnly r t d e
  inside : ∀ i < len, t.byte d (va + i) = src i
  outside : ∀ x, (pages e + 1) * PGSIZE ≤ x → x < (pages e + 2) * PGSIZE → x < va ∨ va + len ≤ x →
    t.byte d x = r.byte d x

theorem Fenced.copyout_placed (h : Fenced L r d e) (hstack : User r.1.mem d (pages e + 1))
    (hlo : (pages e + 1) * PGSIZE ≤ va) (hhi : va + len ≤ (pages e + 2) * PGSIZE) :
    Ends (copyout null d size va len src) (fun ok t => ok = true ∧ Placed r t d e va len src)
      (fun _ => False) r := by
  refine (h.copyout_inside hstack hlo hhi).mono (fun ok t ht => ⟨ht.1, ?_⟩) fun _ he => he
  have hmapped : ∀ x, (pages e + 1) * PGSIZE ≤ x → x < (pages e + 2) * PGSIZE → r.Mapped d x :=
    fun x hx hx' => by
      have hsize := h.size
      rw [Mapped, stack_page hx hx']
      exact ⟨by omega, hstack.1⟩
  have hrange : ∀ x, va ≤ x → x < va + len → r.Mapped d x := fun x hx hx' =>
    hmapped x (by omega) (by omega)
  refine ⟨⟨ht.2.machine, fun f hf => ?_⟩, fun i hi => ?_, fun x hx hx' hout => ?_⟩
  · funext o
    refine ht.2.outside f o fun x hx hx' heq => hf ?_
    rw [place, stack_page (e := e) (by omega) (by omega), Prod.mk.injEq] at heq
    exact heq.1.symm
  · rw [ht.2.byte_inside h.good hrange (by omega) (by omega), Nat.add_sub_cancel_left]
  · exact ht.2.byte_outside h.good hrange (hmapped x hx hx') hout

/-- The address that a string gets from the stack pointer `sp`, in 32 bits. -/
def startOf (sp : ℕ) (x : List UInt8) : ℕ := (sp + word - (x.length + 1) % word) % word / 4 * 4

/-- Each copy of a string, up to the first one for which there is no room above `lo`, finds the
page tables on its way. -/
def Traced (mem : Memory) (d lo : ℕ) : ℕ → List (List UInt8) → Prop
  | _, [] => True
  | sp, x :: l => Walkable mem d (startOf sp x) (x.length + 1) ∧
      (lo + room x ≤ sp → Traced mem d lo (sp - room x) l)

theorem Walkable.on_stack (hstack : User r.1.mem d (pages e + 1)) (hlo : (pages e + 1) * PGSIZE ≤ va)
    (hhi : va + len ≤ (pages e + 2) * PGSIZE) : Walkable r.1.mem d va len := fun x hx hx' _ => by
  rw [stack_page (e := e) (by omega) (by omega)]
  exact table_of_present hstack.1

theorem traced_of_fits {sp : ℕ} {l : List (List UInt8)} (hstack : User r.1.mem d (pages e + 1))
    (halign : sp % 4 = 0) (hword : (pages e + 2) * PGSIZE < word)
    (hroom : (pages e + 1) * PGSIZE + rooms l ≤ sp) (hhi : sp ≤ (pages e + 2) * PGSIZE) :
    Traced r.1.mem d ((pages e + 1) * PGSIZE) sp l := by
  induction l generalizing sp with
  | nil => trivial
  | cons y l ih =>
    rw [rooms_cons] at hroom
    have hlt := length_lt_room y
    have halign' : (sp - room y) % 4 = 0 := by
      unfold room
      omega
    refine ⟨?_, fun _ => ih halign' (by omega) (by omega)⟩
    rw [startOf, next_address halign (by omega) (by omega)]
    exact Walkable.on_stack hstack (by omega) (by omega)

/-- Strings that do not fit do not go on the stack. -/
theorem pushStrings_none {base c sp : ℕ} {stop : ℕ → Bool} {l : List (List UInt8)} {w : ℕ → UInt32}
    (h : Fenced L r d e) (hstop : ∀ i < l.length, stop (c + i) = false) (halign : sp % 4 = 0)
    (hlo : (pages e + 1) * PGSIZE ≤ sp) (hhi : sp ≤ (pages e + 2) * PGSIZE)
    (hroom : sp < (pages e + 1) * PGSIZE + rooms l)
    (hstack : User r.1.mem d (pages e + 1) ∨ ∀ y ∈ l.head?, sp < (pages e + 1) * PGSIZE + room y) :
    Ends (pushStrings null d size base stop c l sp w)
      (fun y _ => y = none ∧ (null = trapEntry → Traced r.1.mem d ((pages e + 1) * PGSIZE) sp l))
      (fun _ => ¬ Traced r.1.mem d ((pages e + 1) * PGSIZE) sp l) r := by
  have hk : (pages e + 2) * PGSIZE ≤ kernbase * PGSIZE := Nat.mul_le_mul_right _ h.size
  have hw : kernbase * PGSIZE < word := by
    rw [kernbase, PGSIZE, word]
    omega
  have hend : (pages e + 1) * PGSIZE = pages e * PGSIZE + PGSIZE := Nat.succ_mul ..
  have hsize : 4 ≤ PGSIZE := by
    rw [PGSIZE]
    omega
  have halign' : (pages e + 1) * PGSIZE % 4 = 0 := by
    rw [PGSIZE]
    omega
  induction l generalizing r c sp w with
  | nil =>
    rw [rooms_nil] at hroom
    omega
  | cons y l ih =>
    rw [rooms_cons] at hroom
    have hfree : ¬ stop c = true := by
      have hzero := hstop 0 (Nat.succ_pos _)
      rw [Nat.add_zero] at hzero
      rw [hzero]
      exact Bool.false_ne_true
    rw [pushStrings, if_neg hfree, Traced]
    have hlt := length_lt_room y
    rw [ends_bind]
    by_cases hfits : (pages e + 1) * PGSIZE + room y ≤ sp
    · replace hstack : User r.1.mem d (pages e + 1) :=
        hstack.resolve_right fun hout => absurd (hout y rfl) (by omega)
      have hstart := next_address (y := y) halign (by omega) (by omega)
      have hwalk : Walkable r.1.mem d (startOf sp y) (y.length + 1) := by
        rw [startOf, hstart]
        exact Walkable.on_stack hstack (by omega) (by omega)
      rw [hstart]
      refine (h.copyout_placed hstack (by omega) (by omega)).mono ?_ fun _ he => he.elim
      rintro ok t ⟨rfl, hplaced⟩
      have hsame := hplaced.only.same
      have hsp : (sp - room y) % 4 = 0 := by
        unfold room
        omega
      have hrest := @ih t (c + 1) (sp - room y)
        (Function.update w (base + c) (UInt32.ofNat (sp - room y))) (hsame.fenced h)
        (fun i hi => by rw [Nat.add_right_comm]; exact hstop (i + 1) (Nat.succ_lt_succ hi)) hsp
        (by omega) (by omega) (by omega) (Or.inl (by rwa [User, hsame.mem_eq]))
      rw [hsame.mem_eq] at hrest
      exact hrest.mono (fun _ _ hy => ⟨hy.1, fun heq => ⟨hwalk, fun _ => hy.2 heq⟩⟩)
        fun _ he htraced => he (htraced.2 hfits)
    · have hout : Ends (copyout null d size (startOf sp y) (y.length + 1) (cstring y))
          (fun ok _ => ok = false ∧ (null = trapEntry → Walkable r.1.mem d (startOf sp y) (y.length + 1)))
          (fun _ => ¬ Walkable r.1.mem d (startOf sp y) (y.length + 1)) r := by
        by_cases hlong : y.length + 1 ≤ sp
        · have hva : startOf sp y = (sp - (y.length + 1)) / 4 * 4 := by
            unfold startOf word at *
            omega
          rw [hva]
          unfold room at hfits hlt
          exact h.copyout_below hlo hhi (by omega) (by omega) (by omega)
        · refine h.copyout_wraps ?_ ?_
          · unfold startOf word
            omega
          · unfold startOf word at *
            omega
      refine hout.mono ?_ fun _ he htraced => he htraced.1
      rintro ok t ⟨rfl, hwalk⟩
      exact ⟨rfl, fun heq => ⟨hwalk heq, fun hle => (hfits hle).elim⟩⟩

/-- Strings were pushed from `sp` down. -/
structure Pushed (r t : Ram) (d e sp : ℕ) (l : List (List UInt8)) : Prop where
  only : StackOnly r t d e
  strings : Strings (t.byte d) sp l
  kept : ∀ x, (pages e + 1) * PGSIZE ≤ x → x < (pages e + 2) * PGSIZE →
    x < sp - rooms l ∨ sp ≤ x → t.byte d x = r.byte d x

theorem Pushed.cons {u : Ram} {sp : ℕ} {y : List UInt8} {l : List (List UInt8)}
    (hlo : (pages e + 1) * PGSIZE + (room y + rooms l) ≤ sp) (hhi : sp ≤ (pages e + 2) * PGSIZE)
    (h₁ : Placed r t d e (sp - room y) (y.length + 1) (cstring y))
    (h₂ : Pushed t u d e (sp - room y) l) : Pushed r u d e sp (y :: l) := by
  have hlt := length_lt_room y
  refine ⟨h₁.only.trans h₂.only, ⟨fun j hj => ?_, h₂.strings⟩, fun x hx hx' hout => ?_⟩
  · rw [h₂.kept _ (by omega) (by omega) (Or.inr (by omega)), h₁.inside j (by omega)]
  · rw [rooms_cons] at hout
    rw [h₂.kept x hx hx' (by omega), h₁.outside x hx hx' (by omega)]

theorem pushStrings_fits {base c sp : ℕ} {stop : ℕ → Bool} {l : List (List UInt8)} {w : ℕ → UInt32}
    (h : Fenced L r d e) (hstack : User r.1.mem d (pages e + 1))
    (hstop : ∀ i < l.length, stop (c + i) = false) (halign : sp % 4 = 0)
    (hlo : (pages e + 1) * PGSIZE + rooms l ≤ sp) (hhi : sp ≤ (pages e + 2) * PGSIZE) :
    Ends (pushStrings null d size base stop c l sp w) (fun y t =>
      y = some (sp - rooms l, storeAddrs w (base + c) (addrs sp l)) ∧ Pushed r t d e sp l)
      (fun _ => False) r := by
  have hk : (pages e + 2) * PGSIZE ≤ kernbase * PGSIZE := Nat.mul_le_mul_right _ h.size
  have hw : kernbase * PGSIZE < word := by
    rw [kernbase, PGSIZE, word]
    omega
  induction l generalizing r c sp w with
  | nil => exact ⟨rfl, StackOnly.refl r d e, trivial, fun _ _ _ _ => rfl⟩
  | cons y l ih =>
    rw [rooms_cons] at hlo
    have hlt := length_lt_room y
    have hgo : ¬ stop c = true := by
      have hfirst := hstop 0 (Nat.succ_pos _)
      rw [Nat.add_zero] at hfirst
      rw [hfirst]
      exact Bool.false_ne_true
    rw [pushStrings, if_neg hgo, ends_bind, next_address halign (by omega) (by omega)]
    refine (h.copyout_placed hstack (by omega) (by omega)).mono ?_ fun _ he => he
    rintro ok t ⟨rfl, hplaced⟩
    have hsame := hplaced.only.same
    refine (ih (hsame.fenced h) (by rwa [User, hsame.mem_eq]) (fun i hi => ?_) (by unfold room; omega)
      (by omega) (by omega)).mono ?_ fun _ he => he
    · rw [Nat.add_assoc, Nat.add_comm 1]
      exact hstop (i + 1) (Nat.succ_lt_succ hi)
    · rintro y' u ⟨rfl, hpushed⟩
      refine ⟨?_, Pushed.cons hlo hhi hplaced hpushed⟩
      rw [rooms_cons, Nat.sub_sub, addrs, storeAddrs, Nat.add_assoc]

end Ram

end Lainos.Vm
