import Mathlib.Logic.Equiv.Basic
import Mathlib.Data.List.Perm.Basic
import Mathlib.Data.List.Basic

/-!
# Shuffling a prefix in place

Round `i` exchanges place `i` with a place that is drawn from the rest.  A place that has had
its round is never touched again, so that the prefix holds what was drawn, in order.

Results:
1. `getElem?_swapped`: an exchange in a list is an exchange of places.
2. `origin_eq_of_lt`: what a round has drawn stays.
-/

namespace Shuffle

variable {α : Type*}

theorem getElem?_swapped {l : List α} {i j : Nat} (hi : i < l.length) (hj : j < l.length)
    (k : Nat) : ((l.set j l[i]).set i l[j])[k]? = l[Equiv.swap i j k]? := by
  have hi' : i < (l.set j l[i]).length := by rw [List.length_set]; exact hi
  by_cases hik : i = k
  · subst hik
    rw [List.getElem?_set_self hi', Equiv.swap_apply_left, List.getElem?_eq_getElem hj]
  rw [List.getElem?_set_ne hik]
  by_cases hjk : j = k
  · subst hjk
    rw [List.getElem?_set_self hj, Equiv.swap_apply_right, List.getElem?_eq_getElem hi]
  · rw [List.getElem?_set_ne hjk, Equiv.swap_apply_of_ne_of_ne (Ne.symm hik) (Ne.symm hjk)]

/-- Where the element at place `j` was before the first `n` rounds, which draw from `pos`. -/
def origin (pos : Nat → Nat) : (n : Nat) → Nat → Nat
  | 0, j => j
  | n + 1, j => origin pos n (Equiv.swap n (pos n) j)

variable {pos : Nat → Nat}

/-- What a round has drawn stays. -/
theorem origin_eq_of_lt (hpos : ∀ i, i ≤ pos i) {i n : Nat} (h : i < n) :
    origin pos n i = origin pos (i + 1) i := by
  induction n with
  | zero => exact absurd h (Nat.not_lt_zero i)
  | succ n ih =>
    rcases Nat.lt_succ_iff_lt_or_eq.mp h with hlt | rfl
    · have hne : i ≠ pos n := Nat.ne_of_lt (Nat.lt_of_lt_of_le hlt (hpos n))
      rw [origin, Equiv.swap_apply_of_ne_of_ne (Nat.ne_of_lt hlt) hne]
      exact ih hlt
    · rfl

end Shuffle
