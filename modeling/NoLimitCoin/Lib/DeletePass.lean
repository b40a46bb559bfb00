import Mathlib.Data.List.Count

/-!
# Deleting copies of a list in one pass

One pass from left to right that drops every copy of a list it meets, and starts again behind
the copy.

Results:

1. `DeletePass.unique`: the pass has one result.
2. `DeletePass.filter`: a list of one element is dropped wherever it stands.
-/

variable {α : Type}

/-- From `l`, the pass drops `n` copies of `b` and leaves `l'`. -/
inductive DeletePass (b : List α) : List α → Nat → List α → Prop where
  | nil : DeletePass b [] 0 []
  | drop {l l' : List α} {n : Nat} (h : DeletePass b l n l') : DeletePass b (b ++ l) (n + 1) l'
  | keep {x : α} {l l' : List α} {n : Nat} (hcopy : ¬ b <+: x :: l) (h : DeletePass b l n l') :
      DeletePass b (x :: l) n (x :: l')

namespace DeletePass

variable {b l l' : List α} {n : Nat}

/-- A pass over nothing. -/
theorem of_nil (hb : b ≠ []) (h : DeletePass b [] n l') : n = 0 ∧ l' = [] := by
  generalize hl : ([] : List α) = l at h
  cases h with
  | nil => exact ⟨rfl, rfl⟩
  | drop h => exact absurd (List.append_eq_nil_iff.mp hl.symm).1 hb
  | keep hcopy h => cases hl

/-- The pass over a copy drops it. -/
theorem of_append (hb : b ≠ []) (h : DeletePass b (b ++ l) n l') :
    ∃ m, n = m + 1 ∧ DeletePass b l m l' := by
  generalize hl : b ++ l = l₀ at h
  cases h with
  | nil => exact absurd (List.append_eq_nil_iff.mp hl).1 hb
  | drop h =>
    obtain rfl := List.append_cancel_left hl
    exact ⟨_, rfl, h⟩
  | keep hcopy h => exact absurd (hl ▸ List.prefix_append b l) hcopy

/-- The pass over anything else keeps the first element. -/
theorem of_cons {x : α} (hcopy : ¬ b <+: x :: l) (h : DeletePass b (x :: l) n l') :
    ∃ r, l' = x :: r ∧ DeletePass b l n r := by
  generalize hl : x :: l = l₀ at h
  cases h with
  | nil => cases hl
  | drop h => exact absurd (hl ▸ List.prefix_append b _) hcopy
  | keep hcopy' h =>
    cases hl
    exact ⟨_, rfl, h⟩

theorem unique (hb : b ≠ []) {m : Nat} {r : List α} (h : DeletePass b l n l')
    (h' : DeletePass b l m r) : m = n ∧ r = l' := by
  induction h generalizing m r with
  | nil => exact h'.of_nil hb
  | drop _ ih =>
    obtain ⟨k, rfl, hk⟩ := h'.of_append hb
    obtain ⟨rfl, rfl⟩ := ih hk
    exact ⟨rfl, rfl⟩
  | keep hcopy _ ih =>
    obtain ⟨r', rfl, hr⟩ := h'.of_cons hcopy
    obtain ⟨rfl, rfl⟩ := ih hr
    exact ⟨rfl, rfl⟩

theorem filter [DecidableEq α] {x : α} (h : DeletePass [x] l n l') :
    l' = l.filter (· ≠ x) ∧ n = l.count x := by
  induction h with
  | nil => exact ⟨rfl, rfl⟩
  | drop _ ih => simpa using ih
  | @keep y l l' n hcopy _ ih =>
    have hne : y ≠ x := by
      rintro rfl
      exact hcopy ⟨l, rfl⟩
    simpa [hne] using ih

end DeletePass
