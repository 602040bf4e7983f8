import Lainos.Vm.Image
import Lainos.Vm.Plenty

/-!
# Where a new image is written

Every store of `execve` goes into a frame that the call took from the free list and
mapped below the size of the new image, as long as the page it is addressed by lies below
that size and is mapped. `loaduvm` does not check either, and `copyout` does not see that
a page table is missing.
-/

namespace Lainos.Vm

open Library Exec Finset

variable {L : Layout} {s₀ s s' : Machine} {null : Pte} {d sz : ℕ} {x : Store}

/-- The frame was free when the call began, and is mapped below the size of the image. -/
def Store.Confined (s₀ : Machine) (x : Store) : Prop :=
  x.frame ∈ s₀.free ∧ ∃ v < pages x.size, (x.view v).p = true ∧ (x.view v).addr = x.frame

/-- The store was addressed by a page of the new image that is mapped. Failing that,
`loaduvm` may have used the address at which the kernel sees such a page, and `copyout` a
null pointer to an entry that happens to name one. -/
def Store.Addressed (null : Pte) (x : Store) : Prop :=
  match x.through with
  | .loaduvm => (x.page < pages x.size ∧ (x.view x.page).p = true) ∨
      (kernbase ≤ x.page ∧ x.page < kernbase + phystop ∧
        ∃ v < pages x.size, (x.view v).p = true ∧ (x.view v).addr = x.page - kernbase)
  | .copyout => (x.view x.page).p = true ∨
      ∃ v < pages x.size, (x.view v).p = true ∧ (x.view v).addr = null.addr

def Judged (s₀ : Machine) (null : Pte) (l : List Store) : Prop :=
  ∀ x ∈ l, x.Confined s₀ ↔ x.Addressed null

/-- The panics of `copyuvm` and `mappages` about a page that is missing or already there. -/
def mappingPanics : List String :=
  ["copyuvm: pte should exist", "copyuvm: page not present", "remap"]

def Stopped (s₀ : Machine) (null : Pte) (e : Halt) : Prop :=
  Judged s₀ null e.stores ∧ e.why ∉ mappingPanics

/-- The new address space `d`, of which nothing is known but that its frames are those
the call took. -/
structure Begun (s₀ : Machine) (null : Pte) (s : Machine) (d : ℕ) : Prop where
  effect : Effect s₀ s 0 (frames s.mem d)
  judged : Judged s₀ null s.stores

/-- The new address space `d` on the way, with an image of `sz` bytes so far. -/
structure Building (L : Layout) (s₀ : Machine) (null : Pte) (s : Machine) (d sz : ℕ) : Prop
    extends Begun s₀ null s d where
  kernel : ∀ u < top, kernbase ≤ u → Vm.view s.mem d u = kview L u
  user : ∀ u < kernbase, Vm.view s.mem d u = .zero ∨ ((Vm.view s.mem d u).p = true ∧ u < pages sz)
  size : sz ≤ kernbase * PGSIZE
  fed : s.starved = s₀.starved → ∀ u < pages sz, (Vm.view s.mem d u).p = true

namespace Building

variable {v : ℕ}

theorem free_of_present (h : Building L s₀ null s d sz) (hv : v < kernbase)
    (hp : (Vm.view s.mem d v).p = true) : (Vm.view s.mem d v).addr ∈ s₀.free := by
  obtain ⟨lost, hmoves, -⟩ := h.effect
  have htotal := hmoves.total
  rw [Heap.total, add_zero] at htotal
  rw [← Multiset.mem_coe]
  change _ ∈ (s₀.heap.free : Multiset ℕ)
  rw [htotal, Heap.total, Multiset.mem_add, Multiset.mem_add, frames, Multiset.mem_add]
  exact Or.inr (Or.inl (Or.inr (mem_userFrames hv hp)))

theorem good (h : Building L s₀ null s d sz) (hgood : Good L (s₀.heap.total 0)) :
    Good L (s.heap.total (frames s.mem d)) :=
  h.effect.good hgood

theorem stopped (h : Building L s₀ null s d sz) {why : String} (hwhy : why ∉ mappingPanics) :
    Stopped s₀ null ⟨why, s.stores⟩ :=
  ⟨h.judged, hwhy⟩

theorem pages_le (h : Building L s₀ null s d sz) : pages sz ≤ kernbase := pages_le_kernbase h.size

theorem confined_loaduvm (h : Building L s₀ null s d sz) (hgood : Good L (s₀.heap.total 0))
    (hv : v < top) :
    Store.Confined s₀ ⟨.loaduvm, v, (Vm.view s.mem d v).addr, sz, Vm.view s.mem d⟩ ↔
      Store.Addressed null ⟨.loaduvm, v, (Vm.view s.mem d v).addr, sz, Vm.view s.mem d⟩ := by
  have hle := h.pages_le
  have hc := constants
  have hL := L.bounds
  constructor
  · rintro ⟨hfree, w, hw, hp, haddr⟩
    simp only at hfree hw hp haddr
    have hmanaged := hgood.managed _ (by
      rw [Heap.total, add_zero]
      exact Multiset.mem_coe.mpr hfree)
    by_cases hk : v < kernbase
    · obtain hzero | ⟨hpv, hlt⟩ := h.user v hk
      · rw [hzero, Pte.zero] at hmanaged
        simp only at hmanaged
        omega
      · exact Or.inl ⟨hlt, hpv⟩
    · rw [h.kernel v hv (by omega)] at hmanaged haddr
      by_cases hram : kernbase ≤ v ∧ v < kernbase + phystop
      · rw [kview, if_pos hram] at haddr
        exact Or.inr ⟨hram.1, hram.2, w, hw, hp, haddr⟩
      · rw [kview, if_neg hram] at hmanaged
        by_cases hdev : devspace ≤ v ∧ v < top
        · rw [if_pos hdev] at hmanaged
          simp only at hmanaged
          omega
        · rw [if_neg hdev, Pte.zero] at hmanaged
          simp only at hmanaged
          omega
  · rintro (⟨hlt, hp⟩ | ⟨hlo, hhi, w, hw, hp, haddr⟩)
    · simp only at hlt hp
      exact ⟨h.free_of_present (by omega) hp, v, hlt, hp, rfl⟩
    · simp only at hlo hhi hw hp haddr
      have hframe : (Vm.view s.mem d v).addr = (Vm.view s.mem d w).addr := by
        rw [haddr, h.kernel v hv hlo, kview, if_pos ⟨hlo, hhi⟩]
      refine ⟨?_, w, hw, hp, hframe.symm⟩
      simp only [hframe]
      exact h.free_of_present (by omega) hp

theorem confined_copyout (h : Building L s₀ null s d sz) (hv : v < top)
    (hp : (Vm.view s.mem d v).p = true) (hu : (Vm.view s.mem d v).u = true) :
    Store.Confined s₀ ⟨.copyout, v, (Vm.view s.mem d v).addr, sz, Vm.view s.mem d⟩ := by
  have hk : v < kernbase := by
    by_contra hk
    rw [h.kernel v hv (by omega), kview] at hu
    split_ifs at hu
    cases hu
  obtain hzero | ⟨-, hlt⟩ := h.user v hk
  · rw [hzero] at hp
    cases hp
  · exact ⟨h.free_of_present hk hp, v, hlt, hp, rfl⟩

theorem confined_null (h : Building L s₀ null s d sz) (hv : (Vm.view s.mem d v).p = false) :
    Store.Confined s₀ ⟨.copyout, v, null.addr, sz, Vm.view s.mem d⟩ ↔
      Store.Addressed null ⟨.copyout, v, null.addr, sz, Vm.view s.mem d⟩ := by
  have hle := h.pages_le
  constructor
  · rintro ⟨-, w, hw, hp, haddr⟩
    exact Or.inr ⟨w, hw, hp, haddr⟩
  · rintro (hp | ⟨w, hw, hp, haddr⟩)
    · simp only [hv] at hp
      cases hp
    · simp only at hw hp haddr
      refine ⟨?_, w, hw, hp, haddr⟩
      simp only [← haddr]
      exact h.free_of_present (by omega) hp

theorem record (h : Building L s₀ null s d sz) (hx : x.Confined s₀ ↔ x.Addressed null) :
    Building L s₀ null (s.record x) d sz where
  effect := h.effect
  kernel := h.kernel
  user := h.user
  size := h.size
  fed := h.fed
  judged y hy := by
    rcases List.mem_cons.mp hy with rfl | hy
    · exact hx
    · exact h.judged y hy

theorem storeTo {through : Through} {frame : ℕ} (h : Building L s₀ null s d sz)
    (hx : Store.Confined s₀ ⟨through, v, frame, sz, Vm.view s.mem d⟩ ↔
      Store.Addressed null ⟨through, v, frame, sz, Vm.view s.mem d⟩) :
    Ends (storeTo through d sz v frame) (fun _ s' => Building L s₀ null s' d sz)
      (Stopped s₀ null) s := by
  rw [Vm.storeTo, ends_ite]
  refine ⟨fun _ => h.stopped (by decide), fun _ => ?_⟩
  exact h.record hx

theorem loadFrom {addr off filesz n k : ℕ} {img : Image} (h : Building L s₀ null s d sz)
    (hgood : Good L (s₀.heap.total 0)) :
    Ends (loadFrom d addr img off filesz sz n k) (fun _ s' => Building L s₀ null s' d sz)
      (Stopped s₀ null) s := by
  induction n generalizing s k with
  | zero => exact h
  | succ n ih =>
    have hv : (addr / PGSIZE + k) % top < top := Nat.mod_lt _ (by have := constants; omega)
    rw [Vm.loadFrom, ends_bind, Ends, walkpgdir_eq]
    cases htable : (s.mem d ((addr / PGSIZE + k) % top / 1024)).p with
    | false => exact h.stopped (by decide)
    | true =>
      simp only [if_true, ends_bind, ends_get]
      rw [← view_of_table htable]
      cases img.readi ((off + k * PGSIZE) % word) (min (filesz - k * PGSIZE) PGSIZE) with
      | none => exact h
      | some count =>
        simp only [ends_ite, ends_bind, ends_pure]
        refine ⟨fun _ => (h.storeTo (h.confined_loaduvm hgood hv)).mono ?_ fun _ he => he,
          fun _ => ⟨fun _ => ih h, fun _ => h⟩⟩
        exact fun _ s₁ hs₁ => ⟨fun _ => ih hs₁, fun _ => hs₁⟩

theorem loaduvm {addr off filesz : ℕ} {img : Image} (h : Building L s₀ null s d sz)
    (hgood : Good L (s₀.heap.total 0)) :
    Ends (loaduvm d addr img off filesz sz) (fun _ s' => Building L s₀ null s' d sz)
      (Stopped s₀ null) s := by
  rw [Vm.loaduvm, ends_ite]
  exact ⟨fun _ => h.stopped (by decide), fun _ => h.loadFrom hgood⟩

theorem copyoutFrom {fuel va len : ℕ} (h : Building L s₀ null s d sz) (hva : va < word) :
    Ends (copyoutFrom null d sz fuel va len) (fun _ s' => Building L s₀ null s' d sz)
      (Stopped s₀ null) s := by
  induction fuel generalizing s va len with
  | zero => exact h
  | succ fuel ih =>
    have hv : va / PGSIZE < top := by
      have := constants
      rw [PGSIZE]
      simp only [word] at hva
      omega
    rw [Vm.copyoutFrom, ends_ite]
    refine ⟨fun _ => h, fun _ => ?_⟩
    rw [ends_bind, uva2ka, ends_bind, Ends, walkpgdir_eq]
    have hnext : ∀ s₁, Building L s₀ null s₁ d sz → Ends (Vm.copyoutFrom null d sz fuel
        ((va / PGSIZE * PGSIZE + PGSIZE) % word) (len - min (PGSIZE - va % PGSIZE) len))
        (fun _ s' => Building L s₀ null s' d sz) (Stopped s₀ null) s₁ :=
      fun s₁ hs₁ => ih hs₁ (Nat.mod_lt _ (by decide))
    cases htable : (s.mem d (va / PGSIZE / 1024)).p with
    | true =>
      simp only [if_true, ends_bind, ends_get]
      rw [← view_of_table htable]
      simp only [ends_ite, ends_pure, Bool.or_eq_true, Bool.not_eq_true', not_or,
        Bool.not_eq_false]
      refine ⟨fun _ => h, fun hpu => ends_bind.mpr ((h.storeTo ?_).mono
        (fun _ s₁ hs₁ => hnext s₁ hs₁) fun _ he => he)⟩
      exact iff_of_true (h.confined_copyout hv hpu.1 hpu.2) (Or.inl hpu.1)
    | false =>
      have habsent : (Vm.view s.mem d (va / PGSIZE)).p = false := by
        rw [view_of_no_table htable]
        rfl
      simp only [Bool.false_eq_true, if_false, ends_bind, ends_get, ends_ite, ends_pure]
      exact ⟨fun _ => h, fun _ => (h.storeTo (h.confined_null habsent)).mono
        (fun _ s₁ hs₁ => hnext s₁ hs₁) fun _ he => he⟩

theorem pushStrings {stop : ℕ → Bool} {c sp : ℕ} {l : List ℕ} (h : Building L s₀ null s d sz) :
    Ends (pushStrings null d sz stop c l sp) (fun _ s' => Building L s₀ null s' d sz)
      (Stopped s₀ null) s := by
  induction l generalizing s c sp with
  | nil => exact h
  | cons len l ih =>
    rw [Vm.pushStrings, ends_ite]
    refine ⟨fun _ => h, fun _ => ?_⟩
    simp only [ends_bind]
    refine (h.copyoutFrom ?_).mono (fun ok s₁ hs₁ => ?_) fun _ he => he
    · have hlt : (sp + word - (len + 1) % word) % word < word := Nat.mod_lt _ (by decide)
      omega
    · cases ok with
      | true => exact ih hs₁
      | false => exact hs₁

theorem allocuvm {newsz : ℕ} (h : Building L s₀ null s d sz) (hgood : Good L (s₀.heap.total 0)) :
    Ends (allocuvm L d sz newsz) (fun r s' => Begun s₀ null s' d ∧
      (r ≠ 0 → Building L s₀ null s' d r)) (Stopped s₀ null) s := by
  have htop : kernbase ≤ top := by
    have := constants
    omega
  refine (allocuvm_spec (h.good hgood)).mono ?_ fun e he => ?_
  swap
  · -- A page to be mapped lies above the size, where nothing is mapped.
    obtain ⟨-, hnew, u, hlo, hhi, hp⟩ := he
    have hlast := pages_le_kernbase hnew.le
    obtain hzero | ⟨-, hlt⟩ := h.user u (by omega)
    · rw [hzero] at hp
      cases hp
    · omega
  rintro r s' ((⟨-, rfl, rfl⟩ | ⟨-, -, rfl, rfl⟩) | ⟨hnew, hsize, ⟨rfl, hgrown⟩ | ⟨rfl, hundone⟩⟩)
  · exact ⟨h.toBegun, fun hne => absurd rfl hne⟩
  · exact ⟨h.toBegun, fun _ => h⟩
  · have hmono := pages_le_of_le hsize
    have hlast := pages_le_kernbase hnew.le
    have hbegun : Begun s₀ null s' d :=
      ⟨h.effect.trans hgrown.effect, by rw [hgrown.stores]; exact h.judged⟩
    refine ⟨hbegun, fun _ => ⟨hbegun, fun u hu hk => ?_, fun u hu => ?_, hnew.le, fun hs u hu => ?_⟩⟩
    · rw [hgrown.outside u hu (by omega), h.kernel u hu hk]
    · obtain hsame | ⟨f, hf⟩ := hgrown.inside u (by omega)
      · rw [hsame]
        exact (h.user u hu).imp_right fun hp => ⟨hp.1, by omega⟩
      · by_cases hin : u < pages r
        · exact Or.inr ⟨by rw [hf], hin⟩
        · rw [hgrown.outside u (by omega) (by omega)]
          exact (h.user u hu).imp_right fun hp => ⟨hp.1, by omega⟩
    · have hle₁ := h.effect.starved_le
      have hle₂ := hgrown.effect.starved_le
      by_cases hold : u < pages sz
      · rw [hgrown.outside u (by omega) (Or.inl hold)]
        exact h.fed (by omega) u hold
      · obtain ⟨f, hf⟩ := hgrown.fed (by omega) u (by omega) (by omega) (by omega)
        rw [hf]
  · exact ⟨⟨h.effect.trans hundone.effect, by rw [hundone.stores]; exact h.judged⟩,
      fun hne => absurd rfl hne⟩

theorem clearpteu (h : Building L s₀ null s d sz) (hgood : Good L (s₀.heap.total 0))
    (hv : v < kernbase) :
    Ends (clearpteu d v) (fun _ s' => Building L s₀ null s' d sz)
      (Stopped s₀ null) s := by
  refine (clearpteu_spec (h.good hgood) hv).mono (fun _ s₁ hclosed => ?_) ?_
  · have hself : Vm.view s₁.mem d v = { Vm.view s.mem d v with u := false } := by
      rw [hclosed.view v (lt_top_of_lt_kernbase hv), if_pos rfl]
    refine ⟨⟨h.effect.trans (Effect.of_moves hclosed.moves hclosed.starved), ?_⟩, fun u hu hk => ?_,
      fun u hu => ?_, h.size, fun hs u hu => ?_⟩
    · rw [hclosed.stores]
      exact h.judged
    · rw [hclosed.view_of_ne hu (by omega), h.kernel u hu hk]
    · by_cases huv : u = v
      · subst huv
        rw [hself]
        exact (h.user u hu).imp (fun hz => by rw [hz]; rfl) id
      · rw [hclosed.view_of_ne (lt_top_of_lt_kernbase hu) huv]
        exact h.user u hu
    · have hpages := h.pages_le
      have hp := h.fed (by rw [← hs, hclosed.starved]) u hu
      by_cases huv : u = v
      · subst huv
        rw [hself]
        exact hp
      · rw [hclosed.view_of_ne (lt_top_of_lt_kernbase (by omega)) huv]
        exact hp
  · rintro e ⟨rfl, -⟩
    exact h.stopped (by decide)

theorem loadSegments {n off : ℕ} {img : Image} (h : Building L s₀ null s d sz)
    (hgood : Good L (s₀.heap.total 0)) :
    Ends (loadSegments L d img n off sz) (fun r s' => Begun s₀ null s' d ∧
      ∀ sz', r = some sz' → Building L s₀ null s' d sz') (Stopped s₀ null) s := by
  have hnone : ∀ s', Begun s₀ null s' d → Begun s₀ null s' d ∧
      ∀ sz', (none : Option ℕ) = some sz' → Building L s₀ null s' d sz' :=
    fun _ hs' => ⟨hs', fun _ hfalse => by cases hfalse⟩
  induction n generalizing s off sz with
  | zero => exact ⟨h.toBegun, fun sz' heq => Option.some.inj heq ▸ h⟩
  | succ n ih =>
    rw [Vm.loadSegments, ends_ite]
    refine ⟨fun _ => hnone s h.toBegun, fun _ => ?_⟩
    simp only [ends_ite]
    refine ⟨fun _ => ih h, fun _ => ⟨fun _ => hnone s h.toBegun, fun _ => ?_⟩⟩
    rw [ends_bind]
    refine (h.allocuvm hgood).mono ?_ fun _ he => he
    rintro r s₁ ⟨hbegun, hbuilding⟩
    rw [ends_ite]
    refine ⟨fun _ => hnone s₁ hbegun, fun hr => ?_⟩
    rw [ends_bind]
    refine ((hbuilding hr).loaduvm hgood).mono ?_ fun _ he => he
    intro ok s₂ hs₂
    cases ok with
    | true => exact ih hs₂
    | false => exact hnone s₂ hs₂.toBegun

end Building

theorem Building.roundUp (h : Building L s₀ null s d sz) :
    Building L s₀ null s d (pages sz * PGSIZE) where
  effect := h.effect
  kernel := h.kernel
  user := by rw [pages_mul_PGSIZE]; exact h.user
  size := Nat.mul_le_mul_right _ h.pages_le
  fed := by rw [pages_mul_PGSIZE]; exact h.fed
  judged := h.judged

theorem buildImage_judged {a : ExecArgs} (h : Building L s₀ a.null s d 0)
    (hgood : Good L (s₀.heap.total 0)) :
    Ends (buildImage L d a) (fun r s' => Begun s₀ a.null s' d ∧
      ∀ sz, r = some sz → Building L s₀ a.null s' d sz)
      (Stopped s₀ a.null) s := by
  have hnone : ∀ s', Begun s₀ a.null s' d → Begun s₀ a.null s' d ∧
      ∀ sz, (none : Option ℕ) = some sz → Building L s₀ a.null s' d sz :=
    fun _ hs' => ⟨hs', fun _ hfalse => by cases hfalse⟩
  have hword : ∀ n, n % word < word := fun n => Nat.mod_lt _ (by decide)
  rw [buildImage, ends_bind]
  refine (h.loadSegments hgood).mono ?_ fun _ he => he
  rintro r s₁ ⟨hbegun, hsome⟩
  cases r with
  | none => exact hnone s₁ hbegun
  | some sz =>
    simp only [ends_bind]
    refine ((hsome sz rfl).roundUp.allocuvm hgood).mono ?_ fun _ he => he
    rintro sz₂ s₂ ⟨hbegun₂, hbuilding⟩
    rw [ends_ite]
    refine ⟨fun _ => hnone s₂ hbegun₂, fun hne => ?_⟩
    have h₂ := hbuilding hne
    have hguard : sz₂ / PGSIZE - 2 < kernbase := by
      have hle : sz₂ / PGSIZE ≤ kernbase := Nat.div_le_of_le_mul (by rw [mul_comm]; exact h₂.size)
      have := constants
      omega
    simp only [ends_bind]
    refine (h₂.clearpteu hgood hguard).mono (fun _ s₃ h₃ => ?_) fun _ he => he
    refine h₃.pushStrings.mono (fun sp s₄ h₄ => ?_) fun _ he => he
    cases sp with
    | none => exact hnone s₄ h₄.toBegun
    | some sp =>
      simp only [ends_bind]
      refine (h₄.copyoutFrom (hword _)).mono (fun ok s₅ h₅ => ?_) fun _ he => he
      cases ok with
      | false => exact hnone s₅ h₅.toBegun
      | true =>
        simp only [if_true, ends_bind]
        refine h₅.pushStrings.mono (fun sp s₆ h₆ => ?_) fun _ he => he
        cases sp with
        | none => exact hnone s₆ h₆.toBegun
        | some sp =>
          simp only [ends_bind]
          refine (h₆.copyoutFrom (hword _)).mono (fun ok s₇ h₇ => ?_) fun _ he => he
          cases ok with
          | false => exact hnone s₇ h₇.toBegun
          | true => exact ⟨h₇.toBegun, fun _ heq => Option.some.inj heq ▸ h₇⟩

theorem Fresh.building (h : Fresh L s₀ s d) (hstores : s₀.stores = []) :
    Building L s₀ null s d 0 where
  effect := Effect.of_moves h.moves h.starved
  kernel u hu _ := h.view u hu
  user u hu := by
    rw [h.view u (lt_top_of_lt_kernbase hu), kview_of_lt hu]
    exact Or.inl rfl
  size := Nat.zero_le _
  fed _ u hu := absurd hu (by rw [pages]; omega)
  judged y hy := by
    rw [h.stores, hstores] at hy
    cases hy

/-- The stores of a call of `execve`, whatever becomes of it. -/
def execStores (L : Layout) (old : ℕ) (a : ExecArgs) (s : Machine) : List Store :=
  match execve L old a s with
  | .ok (_, s') => s'.stores
  | .error e => e.stores

/-- The address space `old` was replaced by `d`. -/
structure Replaced (s s' : Machine) (old d sz : ℕ) : Prop where
  effect : Effect s s' (frames s.mem old) (frames s'.mem d)
  size : sz ≤ kernbase * PGSIZE
  fed : s'.starved = s.starved →
    ∀ u < kernbase, (Vm.view s'.mem d u).p = decide (u < pages sz)

theorem Building.replaced {old : ℕ} (h : Building L s₀ null s d sz)
    (hgood : Good L (s₀.heap.total (frames s₀.mem old)))
    (hmoves : Moves s.heap s'.heap (frames s.mem old) 0) (hstarved : s'.starved = s.starved) :
    Replaced s₀ s' old d sz := by
  have hold : frames s.mem old = frames s₀.mem old := h.effect.frames_eq (by rwa [zero_add])
  have heffect : Effect s₀ s (frames s₀.mem old) (frames s.mem old + frames s.mem d) :=
    (h.effect.add _).cast (zero_add _) (by rw [hold, add_comm])
  have hboth := heffect.good hgood
  have hsame : ∀ f ∈ skeleton s.mem d, s'.mem f = s.mem f := fun f hf =>
    hmoves.mem_eq hboth.nodup (Multiset.mem_add.mpr (Or.inl hf))
  refine ⟨?_, h.size, fun hs u hu => ?_⟩
  · rw [frames_congr hsame]
    exact heffect.trans (Effect.of_moves ((hmoves.add _).cast rfl (zero_add _)) hstarved)
  · rw [view_congr hsame (lt_top_of_lt_kernbase hu)]
    by_cases hlt : u < pages sz
    · rw [h.fed (by omega) u hlt, decide_eq_true hlt]
    · obtain hzero | ⟨-, hlt'⟩ := h.user u hu
      · rw [hzero, decide_eq_false hlt]
        rfl
      · exact absurd hlt' hlt

theorem execve_spec {old : ℕ} {a : ExecArgs} (h : Good L (s.heap.total (frames s.mem old))) :
    Ends (execve L old a) (fun r s' => Judged s a.null s'.stores ∧
      ((r = none ∧ Effect s s' 0 0) ∨ ∃ d sz, r = some (d, sz) ∧ Replaced s s' old d sz))
      (Stopped s a.null) s := by
  have hempty : Judged s a.null [] := fun x hx => by cases hx
  have hgood : Good L (s.forget.heap.total 0) := by
    refine h.mono ?_
    rw [Heap.total, add_zero]
    exact Multiset.le_add_right ..
  rw [execve, ends_bind, ends_modify, ends_ite]
  refine ⟨fun _ => ⟨hempty, Or.inl ⟨rfl, Effect.refl s 0⟩⟩, fun _ => ?_⟩
  rw [ends_bind]
  refine (setupkvm_spec hgood).mono ?_ fun _ hfalse => hfalse.elim
  rintro r s₁ (⟨d, rfl, hfresh⟩ | ⟨rfl, heffect, hstores⟩)
  swap
  · rw [ends_pure, hstores]
    exact ⟨hempty, Or.inl ⟨rfl, heffect⟩⟩
  simp only [ends_bind]
  refine (buildImage_judged (hfresh.building rfl) hgood).mono ?_ fun _ he => he
  rintro r s₂ ⟨hbegun, hbuilding⟩
  cases r with
  | none =>
    rw [ends_bind]
    refine (freevm_spec (hbegun.effect.good hgood)).mono ?_ fun _ hfalse => hfalse.elim
    rintro _ s₃ ⟨hmoves, hstarved, hstores⟩
    rw [ends_pure, hstores]
    exact ⟨hbegun.judged, Or.inl ⟨rfl, hbegun.effect.trans (Effect.of_moves hmoves hstarved)⟩⟩
  | some sz =>
    rw [ends_bind]
    refine (freevm_spec (hbegun.effect.good_other h)).mono ?_ fun _ hfalse => hfalse.elim
    rintro _ s₃ ⟨hmoves, hstarved, hstores⟩
    rw [ends_pure, hstores]
    obtain ⟨heffect, hsize, hfed⟩ := (hbuilding sz rfl).replaced h hmoves hstarved
    exact ⟨hbegun.judged, Or.inr ⟨d, sz, rfl, heffect, hsize, hfed⟩⟩

/-- An ELF header with one program header: a segment of 200 bytes in the file and
`0x7ff01000` in memory, for the address `0x80100000`. -/
def wrapBytes : Bytes :=
  put32 (put32 (put32 (put32 (put32 (put32 (put32 (fun _ => 0) 0 0x464C457F) 28 52) 44 1) 52 1)
    60 0x80100000) 68 200) 72 0x7FF01000

theorem hundred_le_maxfile : 100 ≤ 140 * 512 := by decide

def wrapImage : Image := ⟨wrapBytes, 100, hundred_le_maxfile⟩

def wrapArgs : ExecArgs := ⟨wrapImage, [], [], .zero⟩

theorem wrapImage_header : wrapImage.magic = ELF_MAGIC ∧ wrapImage.phoff = 52 ∧
    wrapImage.phnum = 1 ∧ wrapImage.proghdr 52 = ⟨1, 0, 0x80100000, 200, 0x7FF01000⟩ := by
  decide

theorem allocuvm_one_page (hgood : Good L (s.heap.total (frames s.mem d)))
    (hluck : ∀ n, s.luck n = true) (hfree : s.free ≠ []) (habsent : (Vm.view s.mem d 0).p = false) :
    Ends (allocuvm L d 0 4096) (fun r s' => r = 4096 ∧ Grown s s' d 0 1) (fun _ => False) s := by
  have hc := constants
  have hp0 : pages 0 = 0 := rfl
  have hp1 : pages 4096 = 1 := rfl
  have hbig : ¬ (4096 ≥ kernbase * PGSIZE) := by
    rw [PGSIZE]
    omega
  have hok : Ends (allocuvm L d 0 4096) (fun r _ => r = 4096) (fun _ => True) s := by
    rw [allocuvm, if_neg hbig, if_neg (by omega), hp0, hp1, ends_bind]
    obtain ⟨m, l, -, hkalloc⟩ := kalloc_granted (hluck 0) hfree
    rw [allocFrom, ends_bind, Ends, hkalloc]
    simp only [ends_bind, ends_modify]
    refine ends_iff.mpr ⟨fun ok s₁ _ => ?_, fun _ _ => trivial⟩
    exact rfl
  refine ((allocuvm_spec hgood).and hok).mono ?_ ?_
  · rintro r s' ⟨(⟨hge, -⟩ | ⟨-, hlt, -⟩) | ⟨-, -, ⟨-, hgrown⟩ | ⟨rfl, -⟩⟩, hr⟩
    · omega
    · omega
    · exact ⟨hr, hgrown⟩
    · cases hr
  · rintro e ⟨⟨-, -, u, -, hu, hp⟩, -⟩
    rw [hp1, Nat.lt_one_iff] at hu
    rw [hu, habsent] at hp
    cases hp

/-- Whatever memory is like, `execve` of this file stores into the frame of the kernel's
first page. -/
theorem execve_wrapArgs {old : ℕ} (h : Good L (s.heap.total (frames s.mem old)))
    (hluck : ∀ n, s.luck n = true) (hfree : 66 ≤ s.free.length) :
    Ends (execve L old wrapArgs) (fun _ s' => ∃ x ∈ s'.stores, x.frame = extmem) (fun _ => False)
      s := by
  have hc := constants
  obtain ⟨hmagic, hphoff, hphnum, hph⟩ := wrapImage_header
  have hgood : Good L (s.forget.heap.total 0) := by
    refine h.mono ?_
    rw [Heap.total, add_zero]
    exact Multiset.le_add_right ..
  obtain ⟨d, s₁, hsetup, hfresh, hluck₁, hfree₁⟩ := setupkvm_granted hgood hluck (k := 1) hfree
  have hgood₁ : Good L (s₁.heap.total (frames s₁.mem d)) := hgood.of_moves hfresh.moves
  rw [execve, ends_bind, ends_modify, if_neg (by rw [wrapArgs, hmagic]; decide), ends_bind, Ends,
    hsetup]
  simp only [ends_bind]
  have hload : Ends (loadSegments L d wrapImage 1 52 0) (fun r s' => r = none ∧
      Good L (s'.heap.total (frames s'.mem d)) ∧ ∃ x ∈ s'.stores, x.frame = extmem)
      (fun _ => False) s₁ := by
    have hzero : (Vm.view s₁.mem d 0).p = false := by
      rw [hfresh.view 0 (by omega), kview_of_lt (by omega)]
      rfl
    rw [loadSegments, if_neg (by decide)]
    simp only [hph]
    rw [if_neg (by decide), if_neg (by decide), ends_bind]
    change Ends (allocuvm L d 0 4096) _ _ _
    refine (allocuvm_one_page hgood₁ hluck₁ (List.ne_nil_of_length_pos hfree₁) hzero).mono ?_
      fun _ hfalse => hfalse
    rintro r s₂ ⟨rfl, hgrown⟩
    rw [if_neg (by decide), ends_bind, loaduvm, if_neg (by rw [PGSIZE]; decide),
      show pages 200 = 1 from rfl, loadFrom, ends_bind, Ends, walkpgdir_eq]
    have hpage : (0x80100000 / PGSIZE + 0) % top = kernbase + extmem := by
      rw [PGSIZE, hc.2.2.2.2]
      omega
    have hview : Vm.view s₂.mem d (kernbase + extmem) = kview L (kernbase + extmem) := by
      rw [hgrown.outside _ (by omega) (by omega), hfresh.view _ (by omega)]
    rw [kview, if_pos (by omega)] at hview
    have htable := table_of_present (show (Vm.view s₂.mem d (kernbase + extmem)).p = true by rw [hview])
    have hframe : (Vm.view s₂.mem d (kernbase + extmem)).addr = extmem := by
      rw [hview]
      exact Nat.add_sub_cancel_left ..
    have hread : wrapImage.readi ((0 + 0 * PGSIZE) % word) (min (200 - 0 * PGSIZE) PGSIZE) =
        some 100 := by
      rw [PGSIZE]
      decide
    rw [hpage, if_pos htable]
    simp only [ends_bind, ends_get, hread]
    rw [← view_of_table htable, hframe, if_pos (by decide), ends_bind, storeTo,
      if_neg (by omega), ends_modify, if_neg (by rw [PGSIZE]; decide)]
    exact ⟨rfl, hgrown.effect.good hgood₁, _, List.mem_cons_self, rfl⟩
  have hbuild : Ends (buildImage L d wrapArgs) (fun r s' => r = none ∧
      Good L (s'.heap.total (frames s'.mem d)) ∧ ∃ x ∈ s'.stores, x.frame = extmem)
      (fun _ => False) s₁ := by
    rw [buildImage, ends_bind]
    change Ends (loadSegments L d wrapImage wrapImage.phnum wrapImage.phoff 0) _ _ _
    rw [hphnum, hphoff]
    refine hload.mono ?_ fun _ hfalse => hfalse
    rintro r s₂ ⟨rfl, hs₂⟩
    exact ⟨rfl, hs₂⟩
  refine hbuild.mono ?_ fun _ hfalse => hfalse
  rintro r s₂ ⟨rfl, hgood₂, hstored⟩
  rw [ends_bind]
  refine (freevm_spec hgood₂).mono ?_ fun _ hfalse => hfalse
  rintro _ s₃ ⟨-, -, hstores⟩
  rw [ends_pure, hstores]
  exact hstored

/-! ## A small machine -/

/-- A hundred free frames, and one that holds an empty directory. -/
def smallMachine : Machine where
  mem _ _ := .zero
  free := List.range' 0x200 100
  luck _ := true
  starved := 0
  stores := []

theorem extmem_lt_small : extmem < 0x110 := by
  simp only [extmem]
  omega

theorem small_data_le : 0x110 ≤ 0x120 := by decide

theorem small_first_le : 0x120 + 80 ≤ 0x400 := by decide

def smallLayout : Layout where
  data := 0x110
  first := 0x120
  text_lt := extmem_lt_small
  data_le := small_data_le
  first_le := small_first_le

theorem good_smallMachine :
    Good smallLayout (smallMachine.heap.total (frames smallMachine.mem 0x1FF)) := by
  have hframes : frames smallMachine.mem 0x1FF = {0x1FF} := by
    rw [frames, skeleton_of_empty rfl, userFrames_of_view_zero, add_zero]
    intro u _
    rw [view_of_empty rfl]
    rfl
  have htotal : smallMachine.heap.total (frames smallMachine.mem 0x1FF) =
      ((0x1FF :: List.range' 0x200 100 : List ℕ) : Multiset ℕ) := by
    rw [hframes, Heap.total, ← Multiset.cons_coe, ← Multiset.singleton_add, add_comm]
    rfl
  have hc := constants
  rw [htotal]
  refine ⟨Multiset.coe_nodup.mpr ?_, fun f hf => ?_⟩
  · rw [List.nodup_cons, List.mem_range'_1]
    exact ⟨by omega, List.nodup_range'⟩
  · rw [Multiset.mem_coe, List.mem_cons, List.mem_range'_1] at hf
    simp only [smallLayout]
    omega

end Lainos.Vm
