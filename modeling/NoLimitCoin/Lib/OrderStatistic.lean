import Mathlib.Data.List.Sort

/-!
# Elements of a sorted list

What stands at a place of a sorted list is decided by how many elements are smaller.

Results:
1. `le_sorted_iff`: a bound lies below place `i` when at most `i` elements are below the bound.
2. `sorted_mono`: fewer small elements and a later place give a larger element.
-/

namespace OrderStatistic

variable {α : Type} [LinearOrder α]

theorem countP_lt_of_le {xs : List α} (hsorted : xs.Pairwise (· ≤ ·)) {i : Nat} {x m : α}
    (hx : xs[i]? = some x) (hle : m ≤ x) : xs.countP (· < m) ≤ i := by
  induction xs generalizing i with
  | nil => cases hx
  | cons y xs ih =>
    obtain ⟨hfirst, hrest⟩ := List.pairwise_cons.mp hsorted
    cases i with
    | zero =>
      obtain rfl := Option.some.inj hx
      refine Nat.le_of_eq (List.countP_eq_zero.mpr fun z hz => ?_)
      rw [decide_eq_true_eq, not_lt]
      rcases List.mem_cons.mp hz with rfl | hz
      · exact hle
      · exact hle.trans (hfirst z hz)
    | succ i =>
      rw [List.countP_cons]
      have hcount := ih hrest hx
      split
      · omega
      · omega

theorem countP_lt_of_lt {xs : List α} (hsorted : xs.Pairwise (· ≤ ·)) {i : Nat} {x m : α}
    (hx : xs[i]? = some x) (hlt : x < m) : i < xs.countP (· < m) := by
  induction xs generalizing i with
  | nil => cases hx
  | cons y xs ih =>
    obtain ⟨hfirst, hrest⟩ := List.pairwise_cons.mp hsorted
    cases i with
    | zero =>
      obtain rfl := Option.some.inj hx
      rw [List.countP_cons, if_pos (decide_eq_true hlt)]
      exact Nat.succ_pos _
    | succ i =>
      have hy : y < m := (hfirst x (List.mem_of_getElem? hx)).trans_lt hlt
      rw [List.countP_cons, if_pos (decide_eq_true hy)]
      exact Nat.succ_lt_succ (ih hrest hx)

/-- A bound lies below a place when no more elements are smaller than it than stand before. -/
theorem le_sorted_iff {xs : List α} {i : Nat} {x m : α}
    (hx : (xs.insertionSort (· ≤ ·))[i]? = some x) : m ≤ x ↔ xs.countP (· < m) ≤ i := by
  have hsorted := List.pairwise_insertionSort (· ≤ ·) xs
  rw [← (List.perm_insertionSort (· ≤ ·) xs).countP_eq]
  constructor
  · exact countP_lt_of_le hsorted hx
  · intro hcount
    by_contra hlt
    exact absurd (countP_lt_of_lt hsorted hx (not_le.mp hlt)) (Nat.not_lt.mpr hcount)

/-- Fewer small elements, and a place that is not earlier. -/
theorem sorted_mono {xs ys : List α} {i j : Nat} {x y : α}
    (hx : (xs.insertionSort (· ≤ ·))[i]? = some x) (hy : (ys.insertionSort (· ≤ ·))[j]? = some y)
    (hcount : ys.countP (· < x) ≤ xs.countP (· < x)) (hij : i ≤ j) : x ≤ y :=
  (le_sorted_iff hy).mpr (hcount.trans (((le_sorted_iff hx).mp (le_refl x)).trans hij))

end OrderStatistic
