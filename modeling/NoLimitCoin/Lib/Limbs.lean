import Mathlib.Algebra.Order.Ring.Nat
import Mathlib.Data.List.GetD
import Mathlib.Tactic.Ring

/-!
# Numbers in limbs

A number as words of `w` bits, the least significant one first.

Results:
1. `value_append`, `value_lt`, `value_inj`: the number and its limbs.
2. `add_mul_mod`: how a remainder is carried from limb to limb.
3. `testBit_value`, `value_eq`, `value_zipWith`: a number is known from the bits of its limbs.
4. `value_concat_lt`: the last limb decides between numbers of one length.
-/

namespace Limbs

variable {w : Nat} {xs ys : List (BitVec w)}

def value : List (BitVec w) → Nat
  | [] => 0
  | x :: xs => x.toNat + 2 ^ w * value xs

theorem value_append (xs ys : List (BitVec w)) :
    value (xs ++ ys) = value xs + 2 ^ (w * xs.length) * value ys := by
  induction xs with
  | nil => simp [value]
  | cons x xs ih =>
    rw [List.cons_append, value, value, ih, List.length_cons, Nat.mul_succ, Nat.pow_add]
    ring

theorem value_lt (xs : List (BitVec w)) : value xs < 2 ^ (w * xs.length) := by
  induction xs with
  | nil => exact Nat.one_pos
  | cons x xs ih =>
    have hx : x.toNat < 2 ^ w := x.isLt
    have hmul := Nat.mul_le_mul_left (2 ^ w) (Nat.succ_le_of_lt ih)
    rw [value, List.length_cons, Nat.mul_succ, Nat.pow_add, Nat.mul_comm (2 ^ (w * xs.length))]
    rw [Nat.mul_succ] at hmul
    omega

/-- The first limb of a remainder, and what is carried to the others. -/
theorem add_mul_mod (w m v k : Nat) : (m + 2 ^ w * v) % 2 ^ (w * (k + 1)) =
    m % 2 ^ w + 2 ^ w * ((v + m / 2 ^ w) % 2 ^ (w * k)) := by
  rw [Nat.mul_succ, Nat.pow_add, Nat.mul_comm (2 ^ (w * k)), Nat.mod_mul,
    Nat.add_mul_mod_self_left, Nat.add_mul_div_left _ _ (Nat.two_pow_pos w), Nat.add_comm v]

theorem value_inj (hlength : xs.length = ys.length) (h : value xs = value ys) : xs = ys := by
  induction xs generalizing ys with
  | nil => exact (List.eq_nil_of_length_eq_zero hlength.symm).symm
  | cons x xs ih =>
    cases ys with
    | nil => cases hlength
    | cons y ys =>
      have hlow := congrArg (· % 2 ^ w) h
      have hhigh := congrArg (· / 2 ^ w) h
      simp only [value, Nat.add_mul_mod_self_left, Nat.mod_eq_of_lt (BitVec.isLt _)] at hlow
      simp only [value, Nat.add_mul_div_left _ _ (Nat.two_pow_pos w),
        Nat.div_eq_of_lt (BitVec.isLt _), Nat.zero_add] at hhigh
      rw [BitVec.eq_of_toNat_eq hlow, ih (Nat.succ.inj hlength) hhigh]

theorem testBit_value (xs : List (BitVec w)) (i : Nat) {r : Nat} (hr : r < w) :
    (value xs).testBit (w * i + r) = (xs.getD i 0).getLsbD r := by
  induction xs generalizing i with
  | nil => simp [value]
  | cons x xs ih =>
    rw [value, Nat.add_comm, Nat.testBit_two_pow_mul_add _ x.isLt]
    cases i with
    | zero => simp [hr, BitVec.getLsbD]
    | succ i =>
      have hge : ¬ w * (i + 1) + r < w := by
        rw [Nat.mul_succ]
        omega
      have hsub : w * (i + 1) + r - w = w * i + r := by
        rw [Nat.mul_succ]
        omega
      rw [if_neg hge, hsub, ih, List.getD_cons_succ]

/-- A number with the bits of the limbs is their value. -/
theorem value_eq (hw : 0 < w) {n : Nat}
    (h : ∀ i r, r < w → (xs.getD i 0).getLsbD r = n.testBit (w * i + r)) : value xs = n := by
  refine Nat.eq_of_testBit_eq fun j => ?_
  rw [← Nat.div_add_mod j w, testBit_value _ _ (Nat.mod_lt j hw), h _ _ (Nat.mod_lt j hw)]

/-- An operation on all the bits is done limb by limb. -/
theorem value_zipWith (hw : 0 < w) {f : BitVec w → BitVec w → BitVec w} {op : Nat → Nat → Nat}
    {g : Bool → Bool → Bool} (hg : g false false = false)
    (hf : ∀ x y r, r < w → (f x y).getLsbD r = g (x.getLsbD r) (y.getLsbD r))
    (hop : ∀ m n i, (op m n).testBit i = g (m.testBit i) (n.testBit i))
    (hlength : xs.length = ys.length) :
    value (List.zipWith f xs ys) = op (value xs) (value ys) := by
  refine value_eq hw fun i r hr => ?_
  rw [hop, testBit_value xs i hr, testBit_value ys i hr]
  by_cases hi : i < xs.length
  · have hi' : i < ys.length := hlength ▸ hi
    rw [List.getD_eq_getElem _ _ (by simpa using ⟨hi, hi'⟩), List.getElem_zipWith, hf _ _ _ hr,
      List.getD_eq_getElem _ _ hi, List.getD_eq_getElem _ _ hi']
  · have hge : xs.length ≤ i := Nat.le_of_not_lt hi
    rw [List.getD_eq_default _ _ (by simp [hge]), List.getD_eq_default _ _ hge,
      List.getD_eq_default _ _ (hlength ▸ hge)]
    simp [hg]

theorem value_concat_lt {x y : BitVec w} (hlength : xs.length = ys.length) (h : x < y) :
    value (xs ++ [x]) < value (ys ++ [y]) := by
  have hlow := value_lt xs
  have hmul := Nat.mul_le_mul_left (2 ^ (w * ys.length)) (Nat.succ_le_of_lt (BitVec.lt_def.mp h))
  rw [value_append, value_append, hlength]
  rw [hlength] at hlow
  simp only [value, Nat.mul_zero, Nat.add_zero]
  rw [Nat.mul_succ] at hmul
  omega

end Limbs
