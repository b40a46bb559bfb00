import Mathlib.Data.List.Infix

/-!
# Readers

A program that takes a value off a stream is a state computation that asks the stream for so
many items at a time.  A view of a stream says which items it holds and how many of them it can
still address; a program reads exactly some items when it returns a value from every stream
that holds them first, leaves the rest, and throws on every stream that ends before they do.

Results: `Takes.next`, `Takes.pure`, `Takes.bind` build such programs; `Preserves.bind` is the rule
for what every read of a stream preserves.
-/

/-- A stream: how it gives its next items. -/
abbrev ReadFn (β ε σ : Type) := Nat → StateT σ (Except ε) (List β)

variable {α β γ ε σ : Type} {read : ReadFn β ε σ}

/-- What the states of a stream hold: `Holds limit s items` when `items` are to come and the
next `limit` of them, as far as they exist, can be read. -/
structure View (read : ReadFn β ε σ) where
  Holds : Nat → σ → List β → Prop
  Throws : ε → Prop
  read_ok : ∀ {limit s items rest}, Holds (items.length + limit) s (items ++ rest) →
    ∃ s', read items.length s = .ok (items, s') ∧ Holds limit s' rest
  read_error : ∀ {limit s items n}, Holds limit s items → items.length < n → n ≤ limit →
    ∃ e, Throws e ∧ read n s = .error e

/-- A computation that returns a value has returned one from each of its steps. -/
theorem reader_bind_eq_ok {prog : StateT σ (Except ε) α} {next : α → StateT σ (Except ε) γ}
    {s s' : σ} {b : γ} : (prog >>= next) s = .ok (b, s') ↔
      ∃ a s₁, prog s = .ok (a, s₁) ∧ next a s₁ = .ok (b, s') := by
  have hrun : (prog >>= next) s = (prog s >>= fun r => next r.1 r.2) := rfl
  rw [hrun]
  cases prog s with
  | error e =>
    constructor
    · intro h
      cases h
    · rintro ⟨_, _, h, -⟩
      cases h
  | ok r =>
    obtain ⟨a, s₁⟩ := r
    constructor
    · intro h
      exact ⟨a, s₁, rfl, h⟩
    · rintro ⟨_, _, h, hnext⟩
      cases h
      exact hnext

theorem reader_map_eq_ok {prog : StateT σ (Except ε) α} {f : α → γ} {s s' : σ} {b : γ} :
    (f <$> prog) s = .ok (b, s') ↔ ∃ a, prog s = .ok (a, s') ∧ b = f a := by
  rw [map_eq_pure_bind, reader_bind_eq_ok]
  constructor
  · rintro ⟨a, s₁, hprog, h⟩
    cases h
    exact ⟨a, hprog, rfl⟩
  · rintro ⟨a, hprog, rfl⟩
    exact ⟨a, s', hprog, rfl⟩

/-- The program reads exactly `items` and returns `a`. -/
structure Takes (view : View read) (prog : StateT σ (Except ε) α) (items : List β) (a : α) :
    Prop where
  complete : ∀ {limit s rest}, view.Holds (items.length + limit) s (items ++ rest) →
    ∃ s', prog s = .ok (a, s') ∧ view.Holds limit s' rest
  truncated : ∀ {limit s start}, start <+: items → start ≠ items → items.length ≤ limit →
    view.Holds limit s start → ∃ e, view.Throws e ∧ prog s = .error e

namespace Takes

variable {view : View read} {prog : StateT σ (Except ε) α} {items items' : List β} {a : α} {b : γ}

theorem pure (a : α) : Takes view (Pure.pure a : StateT σ (Except ε) α) [] a where
  complete {limit s rest} h := by
    rw [List.length_nil, Nat.zero_add, List.nil_append] at h
    exact ⟨s, rfl, h⟩
  truncated hstart hne := absurd (List.prefix_nil.mp hstart) hne

/-- A read of the stream gives the items it asks for. -/
theorem next (view : View read) (items : List β) :
    Takes view (read items.length) items items where
  complete h := view.read_ok h
  truncated hstart hne hlimit h := by
    refine view.read_error h ?_ hlimit
    exact lt_of_le_of_ne hstart.length_le fun heq => hne (hstart.eq_of_length heq)

/-- One program after another reads their items one after the other. -/
theorem bind {next : α → StateT σ (Except ε) γ} (h : Takes view prog items a)
    (hnext : Takes view (next a) items' b) : Takes view (prog >>= next) (items ++ items') b where
  complete {limit s rest} hholds := by
    rw [List.length_append, Nat.add_assoc, List.append_assoc] at hholds
    obtain ⟨s₁, hprog, hholds⟩ := h.complete hholds
    obtain ⟨s₂, hrun, hholds⟩ := hnext.complete hholds
    refine ⟨s₂, ?_, hholds⟩
    show (prog s >>= fun r => next r.1 r.2) = _
    rw [hprog]
    exact hrun
  truncated {limit s start} hstart hne hlimit hholds := by
    rw [List.length_append] at hlimit
    show ∃ e, view.Throws e ∧ (prog s >>= fun r => next r.1 r.2) = .error e
    by_cases hitems : items <+: start
    · -- the stream ends within the items of the second program
      obtain ⟨start', rfl⟩ := hitems
      obtain ⟨more, rfl⟩ := Nat.exists_eq_add_of_le (Nat.le_trans (Nat.le_add_right _ _) hlimit)
      obtain ⟨s₁, hprog, hholds⟩ := h.complete hholds
      obtain ⟨e, he, hrun⟩ := hnext.truncated ((List.prefix_append_right_inj _).mp hstart)
        (fun heq => hne (by rw [heq])) (Nat.le_of_add_le_add_left hlimit) hholds
      refine ⟨e, he, ?_⟩
      rw [hprog]
      exact hrun
    · have hstart : start <+: items := (List.prefix_or_prefix_of_prefix hstart
        (List.prefix_append items items')).resolve_right hitems
      obtain ⟨e, he, hrun⟩ := h.truncated hstart (fun heq => hitems (heq ▸ List.prefix_rfl))
        (Nat.le_trans (Nat.le_add_right _ _) hlimit) hholds
      refine ⟨e, he, ?_⟩
      rw [hrun]
      rfl

theorem map (f : α → γ) (h : Takes view prog items a) : Takes view (f <$> prog) items (f a) := by
  rw [map_eq_pure_bind, ← List.append_nil items]
  exact h.bind (.pure (f a))

end Takes

/-- Whatever the program returns, the property is kept. -/
def Preserves (I : σ → Prop) (prog : StateT σ (Except ε) α) : Prop :=
  ∀ s s' a, I s → prog s = .ok (a, s') → I s'

namespace Preserves

variable {I : σ → Prop} {prog : StateT σ (Except ε) α}

theorem pure (a : α) : Preserves I (Pure.pure a : StateT σ (Except ε) α) := by
  intro s s' b hs h
  cases h
  exact hs

theorem throw (e : ε) : Preserves I (throw e : StateT σ (Except ε) α) := by
  intro s s' b hs h
  cases h

theorem bind {next : α → StateT σ (Except ε) γ} (h : Preserves I prog)
    (hnext : ∀ a, Preserves I (next a)) : Preserves I (prog >>= next) := by
  intro s s' b hs hrun
  obtain ⟨a, s₁, hprog, hrest⟩ := reader_bind_eq_ok.mp hrun
  exact hnext a _ _ _ (h _ _ _ hs hprog) hrest

theorem map (f : α → γ) (h : Preserves I prog) : Preserves I (f <$> prog) := by
  rw [map_eq_pure_bind]
  exact h.bind fun a => .pure (f a)

end Preserves
