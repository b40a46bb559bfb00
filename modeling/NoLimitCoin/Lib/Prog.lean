import Mathlib.Order.Defs.Unbundled

/-!
# Programs over a state

Rules for `EStateM ε σ`: a program changes a state and returns a value or an error, and an
error keeps the state the program had reached.

Results:

1. `Keeps`: a reflexive and transitive relation that a program keeps between its first and its
   last state, whether it succeeds or not.
2. Inversion of successful runs: `bind_eq_ok`.
-/

namespace Prog

variable {ε σ α β : Type}

/-- The state a run ends in. -/
def endState : EStateM.Result ε σ α → σ
  | .ok _ s => s
  | .error _ s => s

/-- Run a program and hand its outcome on as a value. -/
def attempt (x : EStateM ε σ α) : EStateM ε σ (Except ε α) := fun s =>
  match x s with
  | .ok a s' => .ok (.ok a) s'
  | .error e s' => .ok (.error e) s'

/-- A pure computation that may fail. -/
def fromExcept (x : Except ε α) : EStateM ε σ α :=
  match x with
  | .ok a => pure a
  | .error e => throw e

/-! ## Equations -/

theorem pure_run (a : α) (s : σ) : (pure a : EStateM ε σ α) s = .ok a s := rfl

theorem throw_run (e : ε) (s : σ) : (throw e : EStateM ε σ α) s = .error e s := rfl

theorem bind_run (x : EStateM ε σ α) (f : α → EStateM ε σ β) (s : σ) :
    (x >>= f) s = match x s with
      | .ok a s' => f a s'
      | .error e s' => .error e s' := rfl

/-! ## Successful runs -/

theorem error_ne_ok {e : ε} {a : α} {s s' : σ} :
    (EStateM.Result.error e s : EStateM.Result ε σ α) ≠ .ok a s' :=
  fun h => by cases h

theorem bind_eq_ok {x : EStateM ε σ α} {f : α → EStateM ε σ β} {s s'' : σ} {b : β} :
    (x >>= f) s = .ok b s'' ↔ ∃ a s', x s = .ok a s' ∧ f a s' = .ok b s'' := by
  rw [bind_run]
  cases hx : x s with
  | ok a s' =>
    refine ⟨fun h => ⟨a, s', rfl, h⟩, ?_⟩
    rintro ⟨a', t, heq, h⟩
    obtain ⟨rfl, rfl⟩ := EStateM.Result.ok.inj heq
    exact h
  | error e s' => simp

theorem bind_eq_error {x : EStateM ε σ α} {f : α → EStateM ε σ β} {s s'' : σ} {e : ε} :
    (x >>= f) s = .error e s'' ↔
      x s = .error e s'' ∨ ∃ a s', x s = .ok a s' ∧ f a s' = .error e s'' := by
  rw [bind_run]
  cases hx : x s with
  | ok a s' =>
    refine ⟨fun h => .inr ⟨a, s', rfl, h⟩, ?_⟩
    rintro (h | ⟨a', t, heq, h⟩)
    · exact absurd h (by simp)
    · obtain ⟨rfl, rfl⟩ := EStateM.Result.ok.inj heq
      exact h
  | error e' s' => simp

theorem adaptExcept_eq_ok {x : EStateM ε σ α} {f : ε → ε} {s s' : σ} {a : α} :
    x.adaptExcept f s = .ok a s' ↔ x s = .ok a s' := by
  unfold EStateM.adaptExcept
  cases x s <;> simp

theorem adaptExcept_eq_error {x : EStateM ε σ α} {f : ε → ε} {s s' : σ} {e : ε} :
    x.adaptExcept f s = .error e s' ↔ ∃ e', x s = .error e' s' ∧ f e' = e := by
  unfold EStateM.adaptExcept
  cases x s with
  | ok a t => simp
  | error e' t =>
    constructor
    · intro h
      obtain ⟨rfl, rfl⟩ := EStateM.Result.error.inj h
      exact ⟨e', rfl, rfl⟩
    · rintro ⟨e'', h, rfl⟩
      obtain ⟨rfl, rfl⟩ := EStateM.Result.error.inj h
      rfl

theorem pure_eq_ok {a b : α} {s s' : σ} :
    (pure a : EStateM ε σ α) s = .ok b s' ↔ b = a ∧ s' = s := by
  rw [pure_run]
  simp [eq_comm]

theorem fromExcept_eq_ok {x : Except ε α} {a : α} {s s' : σ} :
    (fromExcept x : EStateM ε σ α) s = .ok a s' ↔ x = .ok a ∧ s' = s := by
  cases x with
  | ok b => simp [fromExcept, pure_run, eq_comm]
  | error e => simp [fromExcept, throw_run]

theorem attempt_eq_ok {x : EStateM ε σ α} {r : Except ε α} {s s' : σ} :
    attempt x s = .ok r s' ↔
      (∃ a, r = .ok a ∧ x s = .ok a s') ∨ ∃ e, r = .error e ∧ x s = .error e s' := by
  unfold attempt
  cases hx : x s with
  | ok a t =>
    constructor
    · intro h
      obtain ⟨rfl, rfl⟩ := EStateM.Result.ok.inj h
      exact .inl ⟨a, rfl, rfl⟩
    · rintro (⟨b, rfl, hb⟩ | ⟨e, -, he⟩)
      · obtain ⟨rfl, rfl⟩ := EStateM.Result.ok.inj hb
        rfl
      · exact absurd he (by simp)
  | error e t =>
    constructor
    · intro h
      obtain ⟨rfl, rfl⟩ := EStateM.Result.ok.inj h
      exact .inr ⟨e, rfl, rfl⟩
    · rintro (⟨b, -, hb⟩ | ⟨e', rfl, he⟩)
      · exact absurd hb (by simp)
      · obtain ⟨rfl, rfl⟩ := EStateM.Result.error.inj he
        rfl

theorem attempt_ne_error {x : EStateM ε σ α} {s s' : σ} {e : ε} : attempt x s ≠ .error e s' := by
  unfold attempt
  cases x s <;> simp

/-- Whether a run succeeds with an outcome that passes a test. -/
def succeeds (p : α → σ → Bool) : EStateM.Result ε σ α → Bool
  | .ok a s => p a s
  | .error _ _ => false

theorem succeeds_iff {p : α → σ → Bool} {r : EStateM.Result ε σ α} :
    succeeds p r = true ↔ ∃ a s, r = .ok a s ∧ p a s = true := by
  cases r with
  | ok a s =>
    refine ⟨fun h => ⟨a, s, rfl, h⟩, ?_⟩
    rintro ⟨a', s', heq, h⟩
    obtain ⟨rfl, rfl⟩ := EStateM.Result.ok.inj heq
    exact h
  | error e s => simp [succeeds]

/-! ## Relations kept by a program -/

/-- Whatever the outcome, the last state stands in relation `r` to the first. -/
def Keeps (r : σ → σ → Prop) (x : EStateM ε σ α) : Prop := ∀ s, r s (endState (x s))

namespace Keeps

variable {r r' : σ → σ → Prop} {x : EStateM ε σ α} {f : α → EStateM ε σ β}

theorem ok (h : Keeps r x) {s s' : σ} {a : α} (hx : x s = .ok a s') : r s s' := by
  have := h s
  rwa [hx] at this

theorem error (h : Keeps r x) {s s' : σ} {e : ε} (hx : x s = .error e s') : r s s' := by
  have := h s
  rwa [hx] at this

theorem mono (h : Keeps r x) (hr : ∀ s s', r s s' → r' s s') : Keeps r' x :=
  fun s => hr _ _ (h s)

theorem pure [Std.Refl r] (a : α) : Keeps r (Pure.pure a : EStateM ε σ α) := fun s =>
  Std.Refl.refl (r := r) s

theorem throw [Std.Refl r] (e : ε) : Keeps r (MonadExcept.throw e : EStateM ε σ α) := fun s =>
  Std.Refl.refl (r := r) s

theorem fromExcept [Std.Refl r] (e : Except ε α) :
    Keeps r (Prog.fromExcept e : EStateM ε σ α) := by
  cases e with
  | ok a => exact Keeps.pure a
  | error e => exact Keeps.throw e

theorem bind [IsTrans σ r] (hx : Keeps r x) (hf : ∀ a, Keeps r (f a)) : Keeps r (x >>= f) := by
  intro s
  rw [bind_run]
  cases hrun : x s with
  | ok a t => exact IsTrans.trans _ _ _ (hx.ok hrun) (hf a t)
  | error e t => exact hx.error hrun

theorem attempt (hx : Keeps r x) : Keeps r (Prog.attempt x) := by
  intro s
  unfold Prog.attempt
  cases hrun : x s with
  | ok a t => exact hx.ok hrun
  | error e t => exact hx.error hrun

theorem foldlM [Std.Refl r] [IsTrans σ r] {g : α → β → EStateM ε σ α}
    (h : ∀ a y, Keeps r (g a y)) (xs : List β) (a : α) : Keeps r (xs.foldlM g a) := by
  induction xs generalizing a with
  | nil => exact Keeps.pure a
  | cons y ys ih =>
    rw [List.foldlM_cons]
    exact Keeps.bind (h a y) fun a' => ih a'

theorem ite {b : Prop} [Decidable b] {y : EStateM ε σ α} (hx : Keeps r x) (hy : Keeps r y) :
    Keeps r (if b then x else y) := by
  split
  · exact hx
  · exact hy

end Keeps

end Prog
