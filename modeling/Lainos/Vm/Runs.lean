import Lainos.Vm.Boot

/-!
# Runs of system calls

What holds between any two calls, however many are made and whenever `kalloc` fails.
-/

namespace Lainos.Vm

open Library Exec Finset

variable {L : Layout} {s s' : System} {p : ℕ} {c : Call}

/-- Calls that give everything back when they fail. -/
def Call.Restores : Call → Prop
  | .fork | .execve _ | .pipe => True
  | _ => False

/-- What a call must meet for the sizes of processes to be right afterwards: `sbrk` does
not shrink a process to nothing, `sbrk` and `execve` get the page tables they ask for,
and `execve` stores nowhere but into the new image. -/
def Call.Orderly (p : ℕ) (s s' : System) : Call → Prop
  | .sbrk n => (n.toInt < 0 → (s.proc p).sz + n.toInt ≠ 0) ∧ s'.vm.starved = s.vm.starved
  | .execve _ => s'.vm.starved = s.vm.starved ∧ ∀ x ∈ s'.vm.stores, x.Confined s.vm
  | _ => True

theorem Outcome.weaken {C C' : Prop} (h : Outcome L s s' C) (hC : C' → C) : Outcome L s s' C' :=
  ⟨h.effect, h.valid, fun hC' => h.sized (hC hC')⟩

theorem Call.outcome (hv : Valid L s) (hp : p < NPROC) (hrun : (s.proc p).state = .runnable)
    (c : Call) :
    Ends (c.run L p) (fun ok s' => Outcome L s s' (c.Orderly p s s') ∧
      (c.Restores → ok = false → s'.owners = s.owners))
      (fun e => s.Sized → e.why ∉ mappingPanics) s := by
  cases c with
  | fork => exact (fork_outcome hv hp hrun).mono (fun _ _ h => ⟨h.1, fun _ => h.2⟩) fun _ he => he
  | exit =>
    exact (exit_outcome hv hp hrun).mono (fun _ _ h => ⟨h, fun hfalse => hfalse.elim⟩)
      fun _ he _ => he
  | wait =>
    exact (wait_outcome hv).mono (fun _ _ h => ⟨h, fun hfalse => hfalse.elim⟩)
      fun _ hfalse => hfalse.elim
  | sbrk n =>
    have hn : -0x80000000 ≤ n.toInt := by
      have := BitVec.le_two_mul_toInt (x := n)
      omega
    exact (growproc_outcome hv hp hrun hn).mono (fun _ _ h => ⟨h, fun hfalse => hfalse.elim⟩)
      fun _ he => he
  | execve a =>
    exact (sysExecve_outcome hv hp hrun).mono (fun _ _ h => ⟨h.1.weaken And.left, fun _ => h.2⟩)
      fun _ he _ => he
  | pipe =>
    exact (sysPipe_outcome hv hp hrun).mono (fun _ _ h => ⟨h.1, fun _ => h.2⟩)
      fun _ hfalse => hfalse.elim
  | close fd =>
    exact (sysClose_outcome hv hp hrun).mono (fun _ _ h => ⟨h, fun hfalse => hfalse.elim⟩)
      fun _ hfalse => hfalse.elim

/-! ## Frames -/

/-- Every frame is free, owned or lost. Frames are lost if and only if `walkpgdir` was
refused a page table. -/
structure Accounted (L : Layout) (s : System) : Prop where
  valid : Valid L s
  balance : ∃ lost : Multiset ℕ, s.vm.heap.total (s.owners + lost) = (Ico L.first phystop).val ∧
    s.vm.starved ≤ lost.card ∧ (s.vm.starved = 0 → lost = 0)

theorem Accounted.step {C : Prop} (h : Accounted L s) (ho : Outcome L s s' C) : Accounted L s' := by
  obtain ⟨lost, htotal, hcard, hzero⟩ := h.balance
  obtain ⟨more, hmoves, hle, hmore, hnone⟩ := ho.effect
  refine ⟨ho.valid, lost + more, ?_, ?_, fun hfed => ?_⟩
  · rw [← htotal, (hmoves.add lost).total]
    congr 1
    abel
  · rw [Multiset.card_add]
    omega
  · rw [hzero (by omega), hnone (by omega), add_zero]

theorem Booted.withLuck_valid (h : Booted L s) (luck : ℕ → Bool) : Valid L (s.withLuck luck) :=
  ⟨h.valid.good, h.valid.filed, h.valid.idle, h.valid.size⟩

theorem Booted.accounted (h : Booted L s) (luck : ℕ → Bool) : Accounted L (s.withLuck luck) := by
  refine ⟨h.withLuck_valid luck, 0, ?_, ?_, fun _ => rfl⟩
  · rw [add_zero]
    exact h.total
  · exact h.starved.le

theorem Reach.accounted (h : Reach L s) : Accounted L s := by
  induction h with
  | boot luck hn hboot => exact ((boot_spec L hn).ok hboot).accounted luck
  | call h hp hrun hc ih => exact ih.step ((Call.outcome ih.valid hp hrun _).ok hc).1

theorem Accounted.all_held_iff (h : Accounted L s) :
    (∀ f, L.first ≤ f → f < phystop → f ∈ (s.vm.free : Multiset ℕ) + s.owners) ↔
      s.vm.starved = 0 := by
  obtain ⟨lost, htotal, hcard, hzero⟩ := h.balance
  rw [Heap.total, ← add_assoc] at htotal
  change (s.vm.free : Multiset ℕ) + s.owners + lost = _ at htotal
  constructor
  · intro hall
    -- A lost frame would be counted twice in the whole range.
    have hnodup := (Ico L.first phystop).nodup
    rw [← htotal, Multiset.nodup_add] at hnodup
    have hlost : lost = 0 := by
      refine Multiset.eq_zero_of_forall_notMem fun f hf => ?_
      have hmem : f ∈ (Ico L.first phystop).val := htotal ▸ Multiset.mem_add.mpr (Or.inr hf)
      obtain ⟨hlo, hhi⟩ := mem_Ico.mp (mem_val.mp hmem)
      exact Multiset.disjoint_left.mp hnodup.2.2 (hall f hlo hhi) hf
    rw [hlost, Multiset.card_zero] at hcard
    omega
  · intro hfed f hlo hhi
    rw [hzero hfed, add_zero] at htotal
    rw [htotal]
    exact mem_val.mpr (mem_Ico.mpr ⟨hlo, hhi⟩)

/-- A frame is never in two places. All frames are in some place as long as `walkpgdir`
was not refused a page table. -/
theorem frames_owned_iff (h : Reach L s) :
    (∀ f, ((s.vm.free : Multiset ℕ) + s.owners).count f ≤ 1) ∧
      ((∀ f, L.first ≤ f → f < phystop → ((s.vm.free : Multiset ℕ) + s.owners).count f = 1) ↔
        s.vm.starved = 0) := by
  have hnodup : ((s.vm.free : Multiset ℕ) + s.owners).Nodup := h.accounted.valid.good.nodup
  refine ⟨Multiset.nodup_iff_count_le_one.mp hnodup, ?_⟩
  rw [← h.accounted.all_held_iff]
  refine forall₃_congr fun f _ _ => ⟨fun hone => ?_, Multiset.count_eq_one_of_mem hnodup⟩
  exact Multiset.count_pos.mp (by omega)

theorem Outcome.free_eq_iff {C : Prop} (h : Outcome L s s' C) (howners : s'.owners = s.owners) :
    (s'.vm.free : Multiset ℕ) = s.vm.free ↔ s'.vm.starved = s.vm.starved := by
  obtain ⟨lost, hmoves, hle, hcard, hzero⟩ := h.effect
  have htotal := hmoves.total
  rw [howners, add_comm s.owners, Heap.total, Heap.total, ← add_assoc, add_left_inj] at htotal
  change (s.vm.free : Multiset ℕ) = s'.vm.free + lost at htotal
  constructor
  · intro hsame
    rw [hsame, left_eq_add] at htotal
    rw [htotal, Multiset.card_zero] at hcard
    omega
  · intro hfed
    rw [hzero hfed, add_zero] at htotal
    exact htotal.symm

/-- A frame that is not free has an owner, and calls that fail give back what they took,
as long as `walkpgdir` is not refused a page table. -/
theorem frames_kept_iff (h : Reach L s) :
    ((∀ f, L.first ≤ f → f < phystop → f ∉ s.vm.free → f ∈ s.owners) ↔ s.vm.starved = 0) ∧
      ∀ p < NPROC, (s.proc p).state = .runnable → ∀ c : Call, c.Restores → ∀ s',
        c.run L p s = .ok (false, s') →
          ((s'.vm.free : Multiset ℕ) = s.vm.free ↔ s'.vm.starved = s.vm.starved) := by
  refine ⟨?_, fun p hp hrun c hc s' hs' => ?_⟩
  · rw [← h.accounted.all_held_iff]
    refine forall₃_congr fun f _ _ => ?_
    rw [Multiset.mem_add, Multiset.mem_coe, or_iff_not_imp_left]
  · obtain ⟨houtcome, hrestores⟩ := (Call.outcome h.accounted.valid hp hrun c).ok hs'
    exact houtcome.free_eq_iff (hrestores hc rfl)

/-! ## Sizes -/

/-- The states between calls when every call was orderly. -/
inductive OrderlyReach (L : Layout) : System → Prop where
  | boot {s : System} {n : ℕ} (luck : ℕ → Bool) (hn : n < NCPU)
      (h : Vm.boot L n System.init = .ok ((), s)) : OrderlyReach L (s.withLuck luck)
  | call {s s' : System} {p : ℕ} {c : Call} {ok : Bool} (h : OrderlyReach L s) (hp : p < NPROC)
      (hrun : (s.proc p).state = .runnable) (hc : c.run L p s = .ok (ok, s'))
      (ho : c.Orderly p s s') : OrderlyReach L s'

theorem OrderlyReach.invariant (h : OrderlyReach L s) : Valid L s ∧ s.Sized := by
  induction h with
  | boot luck hn hboot =>
    have hbooted := (boot_spec L hn).ok hboot
    exact ⟨hbooted.withLuck_valid luck, hbooted.sized⟩
  | call h hp hrun hc ho ih =>
    have houtcome := ((Call.outcome ih.1 hp hrun _).ok hc).1
    exact ⟨houtcome.valid, houtcome.sized ho ih.2⟩

theorem setupkvm_refused {m : Machine} {d : ℕ} {l : List ℕ} (hfree : m.free = d :: l)
    (hluck : m.luck 0 = true) (hluck' : m.luck 1 = false) :
    Ends (setupkvm L) (fun r m' => r = none ∧ m'.starved = m.starved + 1) (fun _ => False) m := by
  have hc := constants
  have hcount : (⟨kernbase, 0, extmem, true⟩ : Kmap).count = 255 + 1 := by
    have hcounts := kmap_counts L
    simp only [kmap, List.map_cons, List.cons.injEq] at hcounts
    rw [hcounts.1]
    omega
  have hrun : kalloc m = .ok (some d, m.draw.setFree l) := by
    rw [kalloc, bind_of_ok get_run, hfree]
    simp only [hluck, if_true]
    rfl
  rw [setupkvm, ends_bind, Ends, hrun]
  simp only [ends_bind, ends_modify]
  rw [if_neg (by omega), ends_bind, kmap, mapKernel, ends_bind, hcount, mappages, ends_bind, mapPage,
    ends_bind, walkpgdir, ends_bind, ends_get]
  have hempty : ((m.draw.setFree l).setPage d fun _ => Pte.zero).mem d (kernbase / 1024) = .zero := by
    rw [Machine.setPage_mem, Function.update_self]
  rw [hempty]
  simp only [Pte.zero, Bool.false_eq_true, if_false, if_true, ends_bind]
  rw [Ends, kalloc_refused (Or.inr hluck')]
  exact ⟨rfl, rfl⟩

/-- The first process, after the start. -/
theorem exists_booted (L : Layout) : ∃ s, boot L 0 System.init = .ok ((), s) ∧ Booted L s := by
  have hends := boot_spec L (show 0 < NCPU by decide)
  cases hrun : boot L 0 System.init with
  | ok r => exact ⟨r.2, rfl, hends.ok hrun⟩
  | error e => exact (hends.error hrun).elim

/-- `kalloc` succeeds twice and then fails. -/
def twice (n : ℕ) : Bool := n < 2

/-- A fork of the first process that gets a kernel stack and a page directory, but no
page table. -/
theorem fork_refused (h : Booted L s) :
    ∃ s', Call.run L 0 .fork (s.withLuck twice) = .ok (false, s') ∧ s'.vm.starved = 1 := by
  have hends : Ends (fork L 0) (fun ok s' => ok = false ∧ s'.vm.starved = 1) (fun _ => False)
      (s.withLuck twice) := by
    rw [fork, ends_bind]
    refine (allocproc_spec (s.withLuck twice)).mono ?_ fun _ hfalse => hfalse
    rintro r s₁ (⟨-, -, hall⟩ | ⟨q, hq, hslot, -, ⟨-, hwhy, -⟩ | ⟨k, l, hfree, rfl, rfl⟩⟩)
    · exact absurd (h.first.others 1 (by decide)) (hall 1 (by decide))
    · have hlen := h.ample.free
      rcases hwhy with hnil | hluck
      · rw [show s.vm.free = [] from hnil, List.length_nil] at hlen
        omega
      · cases hluck
    have hqp : 0 ≠ q := by
      rintro rfl
      have hrunnable := h.first.runnable
      rw [show (s.proc 0).state = .unused from hslot] at hrunnable
      cases hrunnable
    have hlen := h.ample.free
    rw [show s.vm.free = k :: l from hfree, List.length_cons] at hlen
    obtain ⟨d, l', hl⟩ := List.exists_cons_of_length_pos (show 0 < l.length by omega)
    have hk : L.first ≤ k ∧ k < phystop := by
      refine h.valid.good.managed k (Multiset.mem_add.mpr (Or.inl (Multiset.mem_coe.mpr ?_)))
      change k ∈ s.vm.free
      rw [show s.vm.free = k :: l from hfree]
      exact List.mem_cons_self
    simp only [ends_bind, ends_get, ends_onVm, copyuvm]
    refine (setupkvm_refused (m := (s.withLuck twice).vm.draw.setFree l) hl rfl rfl).mono ?_
      fun _ hfalse => hfalse
    rintro r m ⟨rfl, hstarved⟩
    simp only [ends_pure, ends_bind, ends_onVm, System.setProc_proc, Function.update_self]
    refine (kfree_spec hk).mono ?_ fun _ hfalse => hfalse
    rintro _ m' rfl
    exact ⟨trivial, hstarved.trans (congrArg (· + 1) h.starved)⟩
  cases hrun : fork L 0 (s.withLuck twice) with
  | ok r =>
    obtain ⟨ok, s'⟩ := r
    obtain ⟨rfl, hstarved⟩ := hends.ok hrun
    exact ⟨s', hrun, hstarved⟩
  | error e => exact (hends.error hrun).elim

theorem exists_fork_refused (L : Layout) : ∃ s s', Reach L s ∧ s.vm.starved = 0 ∧
    (s.proc 0).state = .runnable ∧ Call.run L 0 .fork s = .ok (false, s') ∧ s'.vm.starved = 1 := by
  obtain ⟨s, hboot, hbooted⟩ := exists_booted L
  obtain ⟨s', hrun, hstarved⟩ := fork_refused hbooted
  exact ⟨s.withLuck twice, s', Reach.boot twice (by decide) hboot, hbooted.starved,
    hbooted.first.runnable, hrun, hstarved⟩

/-- The directory of such a fork is neither free nor in use. -/
theorem fork_loses_frame : ∃ s, Reach smallLayout s ∧ ∃ f, smallLayout.first ≤ f ∧ f < phystop ∧
    f ∉ (s.vm.free : Multiset ℕ) + s.owners := by
  obtain ⟨s, s', hreach, -, hrunnable, hrun, hstarved⟩ := exists_fork_refused smallLayout
  have hreach' := Reach.call hreach (by decide) hrunnable hrun
  refine ⟨s', hreach', ?_⟩
  by_contra hnone
  have hall := hreach'.accounted.all_held_iff.mp fun f hlo hhi => by
    by_contra hf
    exact hnone ⟨f, hlo, hhi, hf⟩
  omega

theorem failed_fork_keeps_frames : ∃ s s', Reach smallLayout s ∧
    Call.run smallLayout 0 .fork s = .ok (false, s') ∧ (s'.vm.free : Multiset ℕ) ≠ s.vm.free := by
  obtain ⟨s, s', hreach, hfed, hrunnable, hrun, hstarved⟩ := exists_fork_refused smallLayout
  refine ⟨s, s', hreach, hrun, fun hsame => ?_⟩
  obtain ⟨houtcome, hrestores⟩ :=
    (Call.outcome hreach.accounted.valid (by decide) hrunnable .fork).ok hrun
  have := (houtcome.free_eq_iff (hrestores trivial rfl)).mp hsame
  omega

theorem frames_owned_iff_booted : ∃ s, Reach smallLayout s ∧
    (∀ f, ((s.vm.free : Multiset ℕ) + s.owners).count f ≤ 1) ∧
      ((∀ f, smallLayout.first ≤ f → f < phystop →
        ((s.vm.free : Multiset ℕ) + s.owners).count f = 1) ↔ s.vm.starved = 0) := by
  obtain ⟨s, s', hreach, -⟩ := exists_fork_refused smallLayout
  exact ⟨s, hreach, frames_owned_iff hreach⟩

theorem frames_kept_iff_booted : ∃ s, Reach smallLayout s ∧
    ((∀ f, smallLayout.first ≤ f → f < phystop → f ∉ s.vm.free → f ∈ s.owners) ↔
      s.vm.starved = 0) := by
  obtain ⟨s, s', hreach, -⟩ := exists_fork_refused smallLayout
  exact ⟨s, hreach, (frames_kept_iff hreach).1⟩

/-! ## A process that shrinks to nothing -/

theorem deallocFrom_ample {m : Machine} {d last fuel a k : ℕ} (h : Ample m k) :
    Ends (deallocFrom L d last fuel a) (fun _ m' => Ample m' k) (fun _ => True) m := by
  induction fuel generalizing m a with
  | zero => exact h
  | succ fuel ih =>
    rw [deallocFrom, ends_ite]
    refine ⟨fun _ => ?_, fun _ => h⟩
    rw [ends_bind, Ends, walkpgdir_eq]
    cases htable : (m.mem d (a / 1024)).p with
    | false => exact ih h
    | true =>
      simp only [if_true, ends_bind, ends_get, ends_ite, ends_panic, kfree, ends_modify, implies_true,
        true_and]
      refine ⟨fun _ _ _ => ih ⟨h.luck, ?_⟩, fun _ => ih h⟩
      exact h.free.trans (Nat.le_succ _)

theorem deallocuvm_ample {m : Machine} {d oldsz newsz k : ℕ} (h : Ample m k) :
    Ends (deallocuvm L d oldsz newsz) (fun _ m' => Ample m' k) (fun _ => True) m := by
  rw [deallocuvm, ends_ite]
  exact ⟨fun _ => h, fun _ => ends_bind.mpr (deallocFrom_ample h)⟩

/-- The first process gives its only page back; `sbrk` reports failure and leaves the
size as it was. -/
theorem sbrk_all (h : Booted L s) :
    ∃ s', Call.run L 0 (.sbrk (-4096)) (s.withLuck fun _ => true) = .ok (false, s') ∧
      (s'.proc 0).state = .runnable ∧ (s'.proc 0).sz = PGSIZE ∧
      (∀ q, q ≠ 0 → (s'.proc q).state = .unused) ∧
      (view s'.vm.mem (s'.proc 0).pgdir 0).p = false ∧ Ample s'.vm 70 := by
  have hc := constants
  set s₀ := s.withLuck fun _ => true with hs₀
  have hv : Valid L s₀ := h.withLuck_valid _
  have hrunnable : (s₀.proc 0).state = .runnable := h.first.runnable
  have hused : (s₀.proc 0).state ≠ .unused := by simp [hrunnable]
  have hsz : (s₀.proc 0).sz = PGSIZE := h.first.size
  have hample : Ample s₀.vm 70 := ⟨fun _ => rfl, h.ample.free⟩
  have hends : Ends (growproc L 0 (-4096)) (fun ok s' => ok = false ∧
      (s'.proc 0).state = .runnable ∧ (s'.proc 0).sz = PGSIZE ∧
      (∀ q, q ≠ 0 → (s'.proc q).state = .unused) ∧
      (view s'.vm.mem (s'.proc 0).pgdir 0).p = false ∧ Ample s'.vm 70) (fun _ => False) s₀ := by
    have hnew : (((s₀.proc 0).sz + (-4096 : ℤ)) % word).toNat = 0 := by
      rw [hsz, PGSIZE]
      decide
    rw [growproc, ends_bind, ends_get, if_neg (by decide), ends_bind, ends_onVm, hnew,
      if_neg (by decide)]
    refine ((deallocuvm_spec (hv.good_space (by decide) hused) (hv.size 0 (by decide) hused)).and
      (deallocuvm_ample hample)).mono ?_ fun _ hfalse => hfalse.1
    rintro r m ⟨⟨hle, -⟩ | ⟨-, rfl, hdealloc⟩, hample'⟩
    · rw [hsz, PGSIZE] at hle
      omega
    · rw [if_pos rfl, ends_pure]
      refine ⟨rfl, h.first.runnable, h.first.size, h.first.others, ?_, hample'⟩
      have hpages : pages (s₀.proc 0).sz = 1 := by
        rw [hsz, PGSIZE]
        rfl
      rw [hpages] at hdealloc
      exact hdealloc.swept (Or.inl rfl) 0 le_rfl (by omega)
  cases hrun : growproc L 0 (-4096) s₀ with
  | ok r =>
    obtain ⟨ok, s'⟩ := r
    obtain ⟨rfl, hrest⟩ := hends.ok hrun
    exact ⟨s', hrun, hrest⟩
  | error e => exact (hends.error hrun).elim

/-- A process that lacks its first page cannot be copied. -/
theorem copyuvm_missing {m : Machine} {d sz : ℕ} (hgood : Good L (m.heap.total (frames m.mem d)))
    (hample : Ample m 65) (hsz : 0 < pages sz) (hview : (view m.mem d 0).p = false) :
    Ends (copyuvm L d sz) (fun _ _ => False) (fun e => e.why ∈ mappingPanics) m := by
  have hc := constants
  have hgood₀ : Good L (m.heap.total 0) := by
    refine hgood.mono ?_
    rw [Heap.total, Heap.total, add_zero]
    exact Multiset.le_add_right ..
  obtain ⟨n, hn⟩ := Nat.exists_eq_succ_of_ne_zero (Nat.pos_iff_ne_zero.mp hsz)
  rw [copyuvm, ends_bind]
  refine (setupkvm_ample (k := 0) hgood₀ hample).mono ?_ fun _ hfalse => hfalse.elim
  rintro r m₁ ⟨d', rfl, hfresh, -⟩
  have hview₁ : (view m₁.mem d 0).p = false := by
    have hsame : ∀ f ∈ skeleton m.mem d, m₁.mem f = m.mem f := fun f hf =>
      hfresh.moves.mem_eq (by rw [zero_add]; exact hgood.nodup) (Multiset.mem_add.mpr (Or.inl hf))
    rw [view_congr hsame (by omega)]
    exact hview
  rw [ends_bind, hn, copyFrom, ends_bind, Ends, walkpgdir_eq]
  cases htable : (m₁.mem d (0 / 1024)).p with
  | false => exact List.mem_cons_self
  | true =>
    simp only [if_true, ends_bind, ends_get]
    rw [← view_of_table htable, hview₁]
    exact List.mem_cons_of_mem _ List.mem_cons_self

theorem fork_missing (hv : Valid L s) (hrun : (s.proc 0).state = .runnable)
    (hslot : (s.proc 1).state = .unused) (hample : Ample s.vm 70) (hsz : 0 < pages (s.proc 0).sz)
    (hview : (view s.vm.mem (s.proc 0).pgdir 0).p = false) :
    Ends (fork L 0) (fun _ _ => False) (fun e => e.why ∈ mappingPanics) s := by
  have hused : (s.proc 0).state ≠ .unused := by simp [hrun]
  rw [fork, ends_bind]
  refine (allocproc_spec s).mono ?_ fun _ hfalse => hfalse.elim
  rintro r s₁ (⟨-, -, hall⟩ | ⟨q, hq, hunused, -, ⟨-, hwhy, -⟩ | ⟨k, l, hfree, rfl, rfl⟩⟩)
  · exact absurd hslot (hall 1 (by decide))
  · have hlen := hample.free
    rcases hwhy with hnil | hluck
    · rw [hnil, List.length_nil] at hlen
      omega
    · rw [hample.luck] at hluck
      cases hluck
  have hqp : 0 ≠ q := by
    rintro rfl
    exact hused hunused
  have hample₁ : Ample (s.vm.draw.setFree l) 65 := by
    have hlen := hample.free
    rw [hfree, List.length_cons] at hlen
    exact ⟨fun n => hample.luck (n + 1), by rw [Machine.setFree_free]; omega⟩
  have hgood : Good L ((s.vm.draw.setFree l).heap.total (frames s.vm.mem (s.proc 0).pgdir)) := by
    refine ((hv.good_space (by decide) hused).of_moves
      (((kalloc_takes hfree).add _).cast (zero_add _) rfl)).mono (add_le_add_right ?_ _)
    exact Multiset.le_add_left ..
  simp only [ends_bind, ends_get, ends_onVm, System.setProc_proc, Function.update_of_ne hqp,
    System.setVm_proc]
  exact (copyuvm_missing hgood hample₁ hsz hview).mono (fun _ _ hfalse => hfalse.elim) fun _ he => he

end Lainos.Vm
