import Lainos.Library.Exec

/-!
# Threads over a shared state

A thread is a sequence of atomic steps, each an `Exec` computation on the shared
state. `Thread.run` runs one thread alone; a `Pool` interleaves the steps of
many. `Safe` is a rule for pools that looks at one thread at a time: a step has
to keep an invariant of the shared state and a ghost state, and may change only
the thread's own part of the ghost state.
-/

namespace Lainos.Library

inductive Thread (ε σ α : Type) : Type 1 where
  | done (a : α)
  | step {β : Type} (act : Exec ε σ β) (next : β → Thread ε σ α)

namespace Thread

variable {ε σ α β δ : Type}

def bind : Thread ε σ α → (α → Thread ε σ β) → Thread ε σ β
  | done a, f => f a
  | step act next, f => step act fun b => (next b).bind f

instance : Monad (Thread ε σ) where
  pure := done
  bind := bind

/-- A single step. -/
instance : MonadLift (Exec ε σ) (Thread ε σ) where
  monadLift act := step act done

@[simp] theorem pure_eq (a : α) : (pure a : Thread ε σ α) = done a := rfl

@[simp] theorem done_bind (a : α) (f : α → Thread ε σ β) : (done a >>= f) = f a := rfl

@[simp] theorem step_bind (act : Exec ε σ δ) (next : δ → Thread ε σ α) (f : α → Thread ε σ β) :
    (step act next >>= f) = step act fun b => next b >>= f := rfl

/-! ## One thread alone -/

def run : Thread ε σ α → Exec ε σ α
  | done a => pure a
  | step act next => act >>= fun b => (next b).run

@[simp] theorem run_done (a : α) : (done a : Thread ε σ α).run = pure a := rfl

@[simp] theorem run_pure (a : α) : (pure a : Thread ε σ α).run = pure a := rfl

@[simp] theorem run_step (act : Exec ε σ β) (next : β → Thread ε σ α) :
    (step act next).run = act >>= fun b => (next b).run := rfl

@[simp] theorem run_lift (act : Exec ε σ α) :
    (liftM act : Thread ε σ α).run = act := by
  change (act >>= fun a => pure a) = act
  exact bind_pure act

@[simp] theorem run_bind (t : Thread ε σ α) (f : α → Thread ε σ β) :
    (t >>= f).run = t.run >>= fun a => (f a).run := by
  induction t with
  | done a => rfl
  | step act next ih =>
    rw [step_bind, run_step, run_step, bind_assoc]
    exact bind_congr ih

/-- Every step of the thread takes the shared state to a related one. -/
def Steps (R : σ → σ → Prop) : Thread ε σ α → Prop
  | done _ => True
  | step act next => (∀ s b s', act s = .ok (b, s') → R s s') ∧ ∀ b, (next b).Steps R

theorem Steps.pure {R : σ → σ → Prop} (a : α) : (Pure.pure a : Thread ε σ α).Steps R := trivial

theorem Steps.lift {R : σ → σ → Prop} {act : Exec ε σ α}
    (h : ∀ s b s', act s = .ok (b, s') → R s s') : (liftM act : Thread ε σ α).Steps R :=
  ⟨h, fun _ => trivial⟩

theorem Steps.bind {R : σ → σ → Prop} {t : Thread ε σ α} {f : α → Thread ε σ β} (ht : t.Steps R)
    (hf : ∀ a, (f a).Steps R) : (t >>= f).Steps R := by
  induction t with
  | done a => exact hf a
  | step act next ih => exact ⟨ht.1, fun b => ih b (ht.2 b)⟩

end Thread

/-! ## Many threads -/

/-- The shared state, and for each process the call it is in, if any. -/
structure Pool (ι ε σ : Type) : Type 1 where
  state : σ
  thread : ι → Option (Thread ε σ Unit)

namespace Pool

variable {ι ε σ : Type} [DecidableEq ι] {start : ι → σ → Thread ε σ Unit → Prop} {P : σ → Prop}
  {c c' c₀ : Pool ι ε σ}

/-- Some process enters a call, takes the next step of its call, or returns. -/
inductive Step (start : ι → σ → Thread ε σ Unit → Prop) : Pool ι ε σ → Pool ι ε σ → Prop
  | call {c : Pool ι ε σ} (i : ι) (t : Thread ε σ Unit) :
    c.thread i = none → start i c.state t → Step start c ⟨c.state, Function.update c.thread i (some t)⟩
  | act {c : Pool ι ε σ} {β : Type} (i : ι) (act : Exec ε σ β) (next : β → Thread ε σ Unit) (b : β)
    (s' : σ) : c.thread i = some (.step act next) → act c.state = .ok (b, s') →
    Step start c ⟨s', Function.update c.thread i (some (next b))⟩
  | ret {c : Pool ι ε σ} (i : ι) :
    c.thread i = some (.done ()) → Step start c ⟨c.state, Function.update c.thread i none⟩

/-- Pools reached from `c₀` through states that satisfy `P`. -/
inductive Reach (start : ι → σ → Thread ε σ Unit → Prop) (P : σ → Prop) (c₀ : Pool ι ε σ) :
    Pool ι ε σ → Prop
  | refl : Reach start P c₀ c₀
  | step {c c' : Pool ι ε σ} : Reach start P c₀ c → Step start c c' → P c'.state →
    Reach start P c₀ c'

theorem of_update_eq_some {α : Type*} {f : ι → Option α} {o : Option α} {i j : ι} {a : α}
    (h : Function.update f j o i = some a) : o = some a ∨ f i = some a := by
  by_cases hij : i = j
  · subst hij
    rw [Function.update_self] at h
    exact Or.inl h
  · rw [Function.update_of_ne hij] at h
    exact Or.inr h

theorem Reach.steps {R : σ → σ → Prop} (hstart : ∀ i s t, start i s t → t.Steps R)
    (hidle : ∀ i, c₀.thread i = none) (h : Reach start P c₀ c) :
    ∀ i t, c.thread i = some t → t.Steps R := by
  induction h with
  | refl =>
    intro i t ht
    rw [hidle] at ht
    cases ht
  | step _ hstep _ ih =>
    intro i t ht
    cases hstep with
    | call j u _ hcall =>
      obtain hu | ht := of_update_eq_some ht
      · exact Option.some.inj hu ▸ hstart _ _ _ hcall
      · exact ih i t ht
    | act j act next b s' hthread _ =>
      obtain hb | ht := of_update_eq_some ht
      · exact Option.some.inj hb ▸ (ih j _ hthread).2 b
      · exact ih i t ht
    | ret j _ =>
      obtain hnone | ht := of_update_eq_some ht
      · cases hnone
      · exact ih i t ht

/-- If the steps of all calls are in `R`, so is every step of the pool. -/
theorem Reach.step_related {R : σ → σ → Prop} (hrefl : ∀ s, R s s)
    (hstart : ∀ i s t, start i s t → t.Steps R) (hidle : ∀ i, c₀.thread i = none)
    (h : Reach start P c₀ c) (hstep : Step start c c') : R c.state c'.state := by
  cases hstep with
  | call => exact hrefl _
  | ret => exact hrefl _
  | act i act next b s' hthread hact => exact (h.steps hstart hidle i _ hthread).1 _ _ _ hact

/-- Some process is about to take a step that stops with `e`. -/
def Stops (c : Pool ι ε σ) (e : ε) : Prop :=
  ∃ (i : ι) (β : Type) (act : Exec ε σ β) (next : β → Thread ε σ Unit),
    c.thread i = some (.step act next) ∧ act c.state = .error e

/-- The process `i` is about to take a step that stops with `e`. -/
def StopsAt (c : Pool ι ε σ) (i : ι) (e : ε) : Prop :=
  ∃ (β : Type) (act : Exec ε σ β) (next : β → Thread ε σ Unit),
    c.thread i = some (.step act next) ∧ act c.state = .error e

end Pool

/-! ## Reasoning about one thread at a time -/

/-- An invariant of the shared state and a ghost state, and the part of the ghost
state that belongs to each thread. -/
structure Outline (ι σ γ L : Type) where
  inv : σ → γ → Prop
  own : γ → ι → L

section Safe

variable {ι ε σ γ L α β : Type} (O : Outline ι σ γ L) (P : σ → Prop) (bad : L → ε → Prop) (i : ι)

/-- From any shared state that satisfies the invariant with the thread's own part
being `l`, each step of the thread keeps the invariant and the other threads'
parts, no step stops for a bad reason, and in the end `Q` holds. -/
def Safe (Q : α → L → Prop) : Thread ε σ α → L → Prop
  | .done a, l => Q a l
  | .step act next, l => ∀ s g, O.inv s g → O.own g i = l →
      Exec.Ends act (fun b s' => P s' → ∃ g', O.inv s' g' ∧ (∀ j, j ≠ i → O.own g' j = O.own g j) ∧
        Safe Q (next b) (O.own g' i)) (fun e => ¬ bad l e) s

variable {O P bad i} {Q Q' : α → L → Prop} {l : L}

theorem Safe.mono {t : Thread ε σ α} (h : Safe O P bad i Q t l) (hQ : ∀ a l, Q a l → Q' a l) :
    Safe O P bad i Q' t l := by
  induction t generalizing l with
  | done a => exact hQ a l h
  | step act next ih =>
    intro s g hinv hown
    refine (h s g hinv hown).mono ?_ fun e he => he
    intro b s' hb hP
    obtain ⟨g', hinv', hothers, hnext⟩ := hb hP
    exact ⟨g', hinv', hothers, ih b hnext⟩

theorem Safe.bind {t : Thread ε σ α} {f : α → Thread ε σ β} {R : β → L → Prop}
    (h : Safe O P bad i (fun a l => Safe O P bad i R (f a) l) t l) :
    Safe O P bad i R (t >>= f) l := by
  induction t generalizing l with
  | done a => exact h
  | step act next ih =>
    intro s g hinv hown
    refine (h s g hinv hown).mono ?_ fun e he => he
    intro b s' hb hP
    obtain ⟨g', hinv', hothers, hnext⟩ := hb hP
    exact ⟨g', hinv', hothers, ih b hnext⟩

theorem Safe.pure {a : α} (h : Q a l) : Safe O P bad i Q (Pure.pure a : Thread ε σ α) l := h

theorem Safe.lift {act : Exec ε σ α} (h : ∀ s g, O.inv s g → O.own g i = l →
    Exec.Ends act (fun a s' => P s' → ∃ g', O.inv s' g' ∧ (∀ j, j ≠ i → O.own g' j = O.own g j) ∧
      Q a (O.own g' i)) (fun e => ¬ bad l e) s) :
    Safe O P bad i Q (liftM act : Thread ε σ α) l := h

end Safe

section Reach

variable {ι ε σ γ L : Type} {O : Outline ι σ γ L} {P : σ → Prop} {bad : L → ε → Prop}
  {rest : ι → L → Prop} {start : ι → σ → Thread ε σ Unit → Prop} {c c' c₀ : Pool ι ε σ}

/-- What is known of a process: it is at rest, or safe in its call. -/
def Going (O : Outline ι σ γ L) (P : σ → Prop) (bad : L → ε → Prop) (rest : ι → L → Prop) (i : ι)
    (l : L) : Option (Thread ε σ Unit) → Prop
  | none => rest i l
  | some t => Safe O P bad i (fun _ l => rest i l) t l

def Pool.Sound (O : Outline ι σ γ L) (P : σ → Prop) (bad : L → ε → Prop) (rest : ι → L → Prop)
    (c : Pool ι ε σ) : Prop :=
  ∃ g, O.inv c.state g ∧ ∀ i, Going O P bad rest i (O.own g i) (c.thread i)

/-- Replacing one thread of a pool. -/
theorem going_update [DecidableEq ι] {g g' : γ} {thread : ι → Option (Thread ε σ Unit)} {i : ι}
    {t : Option (Thread ε σ Unit)} (h : ∀ j, Going O P bad rest j (O.own g j) (thread j))
    (hothers : ∀ j, j ≠ i → O.own g' j = O.own g j) (ht : Going O P bad rest i (O.own g' i) t)
    (j : ι) : Going O P bad rest j (O.own g' j) (Function.update thread i t j) := by
  by_cases hji : j = i
  · subst hji
    rw [Function.update_self]
    exact ht
  · rw [Function.update_of_ne hji, hothers j hji]
    exact h j

/-- The rule for entering a call: the process may update its own part. -/
def SafeStart (O : Outline ι σ γ L) (P : σ → Prop) (bad : L → ε → Prop) (rest : ι → L → Prop)
    (start : ι → σ → Thread ε σ Unit → Prop) : Prop :=
  ∀ i s g t, O.inv s g → rest i (O.own g i) → start i s t → ∃ g', O.inv s g' ∧
    (∀ j, j ≠ i → O.own g' j = O.own g j) ∧ Safe O P bad i (fun _ l => rest i l) t (O.own g' i)

/-- A step of one process changes its own part of the ghost state only. -/
theorem Pool.Sound.step [DecidableEq ι] {g : γ} (hstart : SafeStart O P bad rest start)
    (hinv : O.inv c.state g) (hgoing : ∀ i, Going O P bad rest i (O.own g i) (c.thread i))
    (hstep : Pool.Step start c c') (hP : P c'.state) : ∃ i g', O.inv c'.state g' ∧
      (∀ j, j ≠ i → c'.thread j = c.thread j) ∧ (∀ j, j ≠ i → O.own g' j = O.own g j) ∧
      ∀ j, Going O P bad rest j (O.own g' j) (c'.thread j) := by
  have hthreads : ∀ (i : ι) (t : Option (Thread ε σ Unit)) (j : ι), j ≠ i →
      Function.update c.thread i t j = c.thread j := fun i t j hj => Function.update_of_ne hj ..
  cases hstep with
  | call i t hidle hcall =>
    have hrest := hgoing i
    rw [hidle] at hrest
    obtain ⟨g', hinv', hothers, hsafe⟩ := hstart i _ g t hinv hrest hcall
    exact ⟨i, g', hinv', hthreads i _, hothers, going_update hgoing hothers hsafe⟩
  | act i act next b s' hthread hact =>
    have hsafe := hgoing i
    rw [hthread] at hsafe
    obtain ⟨g', hinv', hothers, hnext⟩ := (hsafe c.state g hinv rfl).ok hact hP
    exact ⟨i, g', hinv', hthreads i _, hothers, going_update hgoing hothers hnext⟩
  | ret i hthread =>
    have hrest := hgoing i
    rw [hthread] at hrest
    exact ⟨i, g, hinv, hthreads i _, fun _ _ => rfl, going_update hgoing (fun _ _ => rfl) hrest⟩

/-- A record `a` can be kept along the run that leads to a pool: it describes every
pool on the way, and each step changes only the part of the process that takes it. -/
inductive Pool.Tracked [DecidableEq ι] {A B : Type} (start : ι → σ → Thread ε σ Unit → Prop)
    (P : σ → Prop) (describes : Pool ι ε σ → A → Prop) (part : A → ι → B) (c₀ : Pool ι ε σ) :
    Pool ι ε σ → A → Prop
  | init {a : A} : describes c₀ a → Tracked start P describes part c₀ c₀ a
  | step {c c' : Pool ι ε σ} {a a' : A} (i : ι) : Tracked start P describes part c₀ c a →
    Pool.Step start c c' → P c'.state → (∀ j, j ≠ i → c'.thread j = c.thread j) →
    (∀ j, j ≠ i → part a' j = part a j) → describes c' a' → Tracked start P describes part c₀ c' a'

theorem Pool.Tracked.describes [DecidableEq ι] {A B : Type} {D : Pool ι ε σ → A → Prop}
    {part : A → ι → B} {a : A} (h : Pool.Tracked start P D part c₀ c a) : D c a := by
  cases h with
  | init ha => exact ha
  | step i _ _ _ _ _ ha => exact ha

/-- A record computed from a record. -/
theorem Pool.Tracked.map [DecidableEq ι] {A B A' B' : Type} {D : Pool ι ε σ → A → Prop}
    {D' : Pool ι ε σ → A' → Prop} {part : A → ι → B} {part' : A' → ι → B'} {a : A} (f : A → A')
    (hD : ∀ c a, D c a → D' c (f a))
    (hpart : ∀ a a' j, part a' j = part a j → part' (f a') j = part' (f a) j)
    (h : Pool.Tracked start P D part c₀ c a) : Pool.Tracked start P D' part' c₀ c (f a) := by
  induction h with
  | init ha => exact .init (hD _ _ ha)
  | step i _ hstep hP hthreads hothers ha ih =>
    exact .step i ih hstep hP hthreads (fun j hj => hpart _ _ j (hothers j hj)) (hD _ _ ha)

/-- The ghost state can be kept as a record. -/
theorem Pool.Reach.tracked [DecidableEq ι] (hstart : SafeStart O P bad rest start)
    (h₀ : c₀.Sound O P bad rest) (h : Pool.Reach start P c₀ c) :
    ∃ g, Pool.Tracked start P (fun c g => O.inv c.state g ∧
      ∀ i, Going O P bad rest i (O.own g i) (c.thread i)) O.own c₀ c g := by
  induction h with
  | refl =>
    obtain ⟨g, hg⟩ := h₀
    exact ⟨g, .init hg⟩
  | step _ hstep hP ih =>
    obtain ⟨g, hg⟩ := ih
    obtain ⟨hinv, hgoing⟩ := hg.describes
    obtain ⟨i, g', hinv', hthreads, hothers, hgoing'⟩ :=
      Pool.Sound.step hstart hinv hgoing hstep hP
    exact ⟨g', .step i hg hstep hP hthreads hothers ⟨hinv', hgoing'⟩⟩

theorem Pool.Reach.sound [DecidableEq ι] (hstart : SafeStart O P bad rest start)
    (h₀ : c₀.Sound O P bad rest) (h : Pool.Reach start P c₀ c) : c.Sound O P bad rest := by
  obtain ⟨g, hg⟩ := h.tracked hstart h₀
  exact ⟨g, hg.describes⟩

/-- No step stops for a reason that is bad in view of the process's own part. -/
theorem Going.not_bad {g : γ} {i : ι} {e : ε} (hinv : O.inv c.state g)
    (h : Going O P bad rest i (O.own g i) (c.thread i)) (hstop : c.StopsAt i e) :
    ¬ bad (O.own g i) e := by
  obtain ⟨β, act, next, hthread, hact⟩ := hstop
  rw [hthread] at h
  exact (h c.state g hinv rfl).error hact

end Reach

end Lainos.Library
