import Mathlib.Tactic

/-!
# Sequential code that may get stuck

State passing with failure. `Exec ε σ` computations either finish with a value
and a new state or stop with an `ε`. The inversion lemmas take a finished run of
a compound computation apart into finished runs of its pieces.
-/

namespace Lainos.Library

abbrev Exec (ε σ : Type) := StateT σ (Except ε)

namespace Exec

variable {ε σ α β : Type} {s t : σ}

theorem bind_eq_ok {x : Exec ε σ α} {f : α → Exec ε σ β} {r : β × σ} :
    (x >>= f) s = .ok r ↔ ∃ a u, x s = .ok (a, u) ∧ f a u = .ok r := by
  change (Except.bind (x s) fun p => f p.1 p.2) = .ok r ↔ _
  cases h : x s with
  | error e => simp [Except.bind]
  | ok p => simp [Except.bind, Prod.ext_iff, and_assoc]

/-- Running the first half of a sequence that is known to finish. -/
theorem bind_of_ok {x : Exec ε σ α} {f : α → Exec ε σ β} {a : α} (h : x s = .ok (a, t)) :
    (x >>= f) s = f a t := by
  change (Except.bind (x s) fun p => f p.1 p.2) = _
  rw [h]
  rfl

theorem bind_of_error {x : Exec ε σ α} {f : α → Exec ε σ β} {e : ε} (h : x s = .error e) :
    (x >>= f) s = .error e := by
  change (Except.bind (x s) fun p => f p.1 p.2) = _
  rw [h]
  rfl

theorem bind_eq_error {x : Exec ε σ α} {f : α → Exec ε σ β} {e : ε} :
    (x >>= f) s = .error e ↔ x s = .error e ∨ ∃ a u, x s = .ok (a, u) ∧ f a u = .error e := by
  change (Except.bind (x s) fun p => f p.1 p.2) = .error e ↔ _
  cases h : x s with
  | error e => simp [Except.bind]
  | ok p => simp [Except.bind, Prod.ext_iff, and_assoc]

@[simp] theorem pure_run (a : α) : (pure a : Exec ε σ α) s = .ok (a, s) := rfl

@[simp] theorem get_run : (get : Exec ε σ σ) s = .ok (s, s) := rfl

@[simp] theorem set_run : (set t : Exec ε σ PUnit) s = .ok (⟨⟩, t) := rfl

@[simp] theorem modify_run (f : σ → σ) : (modify f : Exec ε σ PUnit) s = .ok (⟨⟩, f s) := rfl

@[simp] theorem throw_run (e : ε) : (throw e : Exec ε σ α) s = .error e := rfl

/-! ## Outcomes -/

/-- What holds after a run: `Q` of a result and the state, or `E` of the reason it
stopped. -/
def Ends (x : Exec ε σ α) (Q : α → σ → Prop) (E : ε → Prop) (s : σ) : Prop :=
  match x s with
  | .ok (a, t) => Q a t
  | .error e => E e

variable {x : Exec ε σ α} {f : α → Exec ε σ β} {E E' : ε → Prop}

theorem ends_iff {Q : α → σ → Prop} :
    Ends x Q E s ↔ (∀ a t, x s = .ok (a, t) → Q a t) ∧ ∀ e, x s = .error e → E e := by
  unfold Ends
  cases h : x s with
  | error e => simp
  | ok p => simp [Prod.ext_iff]

theorem Ends.ok {Q : α → σ → Prop} {a : α} (h : Ends x Q E s) (hx : x s = .ok (a, t)) : Q a t :=
  (ends_iff.mp h).1 a t hx

theorem Ends.error {Q : α → σ → Prop} {e : ε} (h : Ends x Q E s) (hx : x s = .error e) : E e :=
  (ends_iff.mp h).2 e hx

/-- A program without errors ends. -/
theorem Ends.exists_ok {Q : α → σ → Prop} (h : Ends x Q (fun _ => False) s) :
    ∃ a t, x s = .ok (a, t) ∧ Q a t := by
  cases hx : x s with
  | error e => exact (h.error hx).elim
  | ok p => exact ⟨p.1, p.2, rfl, h.ok hx⟩

theorem ends_of_ok {Q : α → σ → Prop} {a : α} (hx : x s = .ok (a, t)) : Ends x Q E s ↔ Q a t := by
  rw [Ends, hx]

theorem Ends.mono {Q Q' : α → σ → Prop} (h : Ends x Q E s) (hQ : ∀ a t, Q a t → Q' a t)
    (hE : ∀ e, E e → E' e) : Ends x Q' E' s := by
  unfold Ends at *
  cases hx : x s with
  | error e =>
    rw [hx] at h
    exact hE e h
  | ok p =>
    rw [hx] at h
    exact hQ _ _ h

theorem Ends.and {Q Q' : α → σ → Prop} (h : Ends x Q E s) (h' : Ends x Q' E' s) :
    Ends x (fun a t => Q a t ∧ Q' a t) (fun e => E e ∧ E' e) s :=
  ends_iff.mpr ⟨fun _ _ hx => ⟨h.ok hx, h'.ok hx⟩, fun _ hx => ⟨h.error hx, h'.error hx⟩⟩

@[simp] theorem ends_bind {Q : β → σ → Prop} :
    Ends (x >>= f) Q E s ↔ Ends x (fun a t => Ends (f a) Q E t) E s := by
  unfold Ends
  change (match Except.bind (x s) fun p => f p.1 p.2 with
    | .ok (a, t) => Q a t | .error e => E e) ↔ _
  cases x s <;> rfl

@[simp] theorem ends_pure {Q : α → σ → Prop} {a : α} :
    Ends (pure a : Exec ε σ α) Q E s ↔ Q a s := Iff.rfl

@[simp] theorem ends_map {Q : β → σ → Prop} {k : α → β} :
    Ends (k <$> x) Q E s ↔ Ends x (fun a t => Q (k a) t) E s := by
  rw [map_eq_pure_bind, ends_bind]
  rfl

@[simp] theorem ends_throw {Q : α → σ → Prop} {e : ε} :
    Ends (throw e : Exec ε σ α) Q E s ↔ E e := Iff.rfl

@[simp] theorem ends_get {Q : σ → σ → Prop} : Ends (get : Exec ε σ σ) Q E s ↔ Q s s := Iff.rfl

@[simp] theorem ends_set {Q : PUnit → σ → Prop} :
    Ends (set t : Exec ε σ PUnit) Q E s ↔ Q ⟨⟩ t := Iff.rfl

@[simp] theorem ends_modify {Q : PUnit → σ → Prop} {g : σ → σ} :
    Ends (modify g : Exec ε σ PUnit) Q E s ↔ Q ⟨⟩ (g s) := Iff.rfl

@[simp] theorem ends_ite {Q : α → σ → Prop} {c : Prop} [Decidable c] {y : Exec ε σ α} :
    Ends (if c then x else y) Q E s ↔ (c → Ends x Q E s) ∧ (¬ c → Ends y Q E s) := by
  by_cases h : c <;> simp [h]

/-! ## What a computation may change -/

/-- Every finished run takes the state to a related one, and every other run stops
for a reason in `E`. -/
def Within (R : σ → σ → Prop) (E : ε → Prop) (x : Exec ε σ α) : Prop :=
  ∀ s, Ends x (fun _ t => R s t) E s

namespace Within

variable {R : σ → σ → Prop} {E : ε → Prop}

theorem mono {R' : σ → σ → Prop} (h : Within R E x) (hR : ∀ s t, R s t → R' s t) :
    Within R' E x := fun s => (h s).mono (fun _ _ => hR s _) fun _ he => he

theorem pure (hrefl : ∀ s, R s s) (a : α) : Within R E (Pure.pure a : Exec ε σ α) := fun s => hrefl s

theorem bind (htrans : ∀ s t u, R s t → R t u → R s u) (hx : Within R E x)
    (hf : ∀ a, Within R E (f a)) : Within R E (x >>= f) := by
  intro s
  rw [ends_bind]
  refine (hx s).mono (fun a t ht => ?_) fun _ he => he
  exact (hf a t).mono (fun _ u hu => htrans _ _ _ ht hu) fun _ he => he

theorem ite {c : Prop} [Decidable c] {y : Exec ε σ α} (hx : c → Within R E x)
    (hy : ¬ c → Within R E y) : Within R E (if c then x else y) := by
  by_cases hc : c
  · rw [if_pos hc]
    exact hx hc
  · rw [if_neg hc]
    exact hy hc

theorem modify {g : σ → σ} (h : ∀ s, R s (g s)) : Within R E (modify g : Exec ε σ PUnit) :=
  fun s => h s

theorem get (hrefl : ∀ s, R s s) : Within R E (MonadState.get : Exec ε σ σ) := fun s => hrefl s

end Within

end Exec
end Lainos.Library
