import Mathlib.Algebra.BigOperators.Group.List.Basic

/-!
# Elements that a mask selects

A subset of a list as a list of flags, one for each element.

Results:

1. `selected_sublist`: what is selected stands in the list, in its order.
2. `sum_selected_set`: selecting one more element adds it to the sum.
-/

variable {α β : Type}

/-- The elements of a list that a mask selects. -/
def selected : List α → List Bool → List α
  | x :: xs, flag :: mask => if flag then x :: selected xs mask else selected xs mask
  | _, _ => []

theorem selected_sublist (xs : List α) (mask : List Bool) : (selected xs mask).Sublist xs := by
  induction xs generalizing mask with
  | nil => exact List.Sublist.refl _
  | cons x xs ih =>
    cases mask with
    | nil => exact List.nil_sublist _
    | cons flag mask =>
      rw [selected]
      split
      · exact (ih mask).cons_cons x
      · exact (ih mask).cons x

theorem selected_map (f : α → β) (xs : List α) (mask : List Bool) :
    selected (xs.map f) mask = (selected xs mask).map f := by
  induction xs generalizing mask with
  | nil => rfl
  | cons x xs ih =>
    cases mask with
    | nil => rfl
    | cons flag mask =>
      cases flag with
      | true => exact congrArg (f x :: ·) (ih mask)
      | false => exact ih mask

theorem selected_all (xs : List α) : selected xs (List.replicate xs.length true) = xs := by
  induction xs with
  | nil => rfl
  | cons x xs ih => exact congrArg (x :: ·) ih

theorem selected_none (xs : List α) (n : Nat) : selected xs (List.replicate n false) = [] := by
  induction xs generalizing n with
  | nil => rfl
  | cons x xs ih =>
    cases n with
    | zero => rfl
    | succ n => exact ih n

/-- Selecting one more element adds it to the sum. -/
theorem sum_selected_set [AddCommMonoid α] {xs : List α} {mask : List Bool} {i : Nat} {x : α}
    (hx : xs[i]? = some x) (hmask : mask[i]? = some false) :
    (selected xs (mask.set i true)).sum = (selected xs mask).sum + x := by
  induction xs generalizing mask i with
  | nil => exact absurd hx (by simp)
  | cons y xs ih =>
    cases mask with
    | nil => exact absurd hmask (by simp)
    | cons flag mask =>
      cases i with
      | zero =>
        obtain rfl : y = x := Option.some.inj hx
        obtain rfl : flag = false := Option.some.inj hmask
        show (y :: selected xs mask).sum = (selected xs mask).sum + y
        rw [List.sum_cons, add_comm]
      | succ i =>
        have hrest := @ih mask i hx hmask
        cases flag with
        | true =>
          show (y :: selected xs (mask.set i true)).sum = (y :: selected xs mask).sum + x
          rw [List.sum_cons, List.sum_cons, hrest, add_assoc]
        | false => exact hrest
