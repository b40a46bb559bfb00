import NoLimitCoin.Lib.Limbs

/-!
# Numbers of a fixed width

`base_uint` of `uint256.h`, which `uint160` and `uint256` are with 5 and 8 limbs.  Its operators
work limb by limb; together they are arithmetic modulo a power of two.

Results:
1. `val_add`, `val_neg`, `val_sub`, `val_inc`, `val_dec`: the carries.
2. `val_shl`, `val_shr`, `val_xor`, `val_and`, `val_or`, `val_not`: the bits.
3. `lt_eq_decide`, `le_eq_decide`, `gt_eq_decide`, `ge_eq_decide`, `eq_eq_decide`,
   `ne_eq_decide`: the comparisons.
-/

namespace NoLimitCoin

/-- `base_uint`: `pn`, the least significant limb first. -/
structure BaseUint (width : Nat) where
  pn : List (BitVec 32)
  length_pn : pn.length = width
deriving DecidableEq

namespace BaseUint

variable {width : Nat}

/-- The number that the limbs stand for. -/
def val (a : BaseUint width) : Nat := Limbs.value a.pn

theorem val_lt (a : BaseUint width) : a.val < 2 ^ (32 * width) := by
  have h := Limbs.value_lt a.pn
  rwa [a.length_pn] at h

theorem val_inj {a b : BaseUint width} (h : a.val = b.val) : a = b := by
  obtain ⟨xs, hxs⟩ := a
  obtain ⟨ys, hys⟩ := b
  obtain rfl : xs = ys := Limbs.value_inj (hxs.trans hys.symm) h
  rfl

/-! ## The code -/

/-- `operator~`. -/
def not (a : BaseUint width) : BaseUint width :=
  ⟨a.pn.map fun x => ~~~x, by rw [List.length_map, a.length_pn]⟩

theorem length_zipWith_pn (f : BitVec 32 → BitVec 32 → BitVec 32) (a b : BaseUint width) :
    (List.zipWith f a.pn b.pn).length = width := by
  rw [List.length_zipWith, a.length_pn, b.length_pn, Nat.min_self]

/-- `operator^=`. -/
def xor (a b : BaseUint width) : BaseUint width :=
  ⟨List.zipWith (fun x y => x ^^^ y) a.pn b.pn, length_zipWith_pn _ a b⟩

/-- `operator&=`. -/
def and (a b : BaseUint width) : BaseUint width :=
  ⟨List.zipWith (fun x y => x &&& y) a.pn b.pn, length_zipWith_pn _ a b⟩

/-- `operator|=`. -/
def or (a b : BaseUint width) : BaseUint width :=
  ⟨List.zipWith (fun x y => x ||| y) a.pn b.pn, length_zipWith_pn _ a b⟩

/-- `pn[i] |= x`. -/
def orAt (pn : List (BitVec 32)) (i : Nat) (x : BitVec 32) : List (BitVec 32) :=
  pn.modify i fun y => y ||| x

/-- One round of the loop of `<<=`: limb `i` of `a` goes to two limbs of `pn`. -/
def shlRound (width : Nat) (a : List (BitVec 32)) (k shift : Nat) (pn : List (BitVec 32)) (i : Nat) :
    List (BitVec 32) :=
  let pn := if i + k + 1 < width ∧ shift ≠ 0 then
    orAt pn (i + k + 1) (a.getD i 0 >>> (32 - shift)) else pn
  if i + k < width then orAt pn (i + k) (a.getD i 0 <<< shift) else pn

/-- One round of the loop of `>>=`. -/
def shrRound (a : List (BitVec 32)) (k shift : Nat) (pn : List (BitVec 32)) (i : Nat) :
    List (BitVec 32) :=
  let pn := if (i : Int) - k - 1 ≥ 0 ∧ shift ≠ 0 then
    orAt pn (i - k - 1) (a.getD i 0 <<< (32 - shift)) else pn
  if (i : Int) - k ≥ 0 then orAt pn (i - k) (a.getD i 0 >>> shift) else pn

@[simp] theorem length_orAt (pn : List (BitVec 32)) (i : Nat) (x : BitVec 32) :
    (orAt pn i x).length = pn.length := List.length_modify _ _ _

@[simp] theorem length_shlRound (a : List (BitVec 32)) (k shift : Nat) (pn : List (BitVec 32))
    (i : Nat) : (shlRound width a k shift pn i).length = pn.length := by
  unfold shlRound
  split <;> split <;> simp

@[simp] theorem length_shrRound (a : List (BitVec 32)) (k shift : Nat) (pn : List (BitVec 32))
    (i : Nat) : (shrRound a k shift pn i).length = pn.length := by
  unfold shrRound
  split <;> split <;> simp

/-- A loop over the limbs that starts with zeros keeps their number. -/
theorem length_rounds {round : List (BitVec 32) → Nat → List (BitVec 32)}
    (h : ∀ pn i, (round pn i).length = pn.length) (m : Nat) :
    ((List.range m).foldl round (List.replicate width 0)).length = width := by
  induction m with
  | zero => exact List.length_replicate
  | succ m ih => rw [List.range_succ, List.foldl_append, List.foldl_cons, List.foldl_nil, h, ih]

/-- `operator<<=`. -/
def shl (a : BaseUint width) (shift : Nat) : BaseUint width :=
  ⟨(List.range width).foldl (shlRound width a.pn (shift / 32) (shift % 32))
    (List.replicate width 0), length_rounds (length_shlRound _ _ _) _⟩

/-- `operator>>=`. -/
def shr (a : BaseUint width) (shift : Nat) : BaseUint width :=
  ⟨(List.range width).foldl (shrRound a.pn (shift / 32) (shift % 32))
    (List.replicate width 0), length_rounds (length_shrRound _ _ _) _⟩

/-- The loop of `+=`, where the sum has 64 bits. -/
def addLoop : List (BitVec 32) → List (BitVec 32) → (carry : BitVec 64) → List (BitVec 32)
  | x :: xs, y :: ys, carry =>
    let n := carry + x.setWidth 64 + y.setWidth 64
    (n &&& 0xffffffff).setWidth 32 :: addLoop xs ys (n >>> 32)
  | _, _, _ => []

theorem length_addLoop (xs ys : List (BitVec 32)) (carry : BitVec 64) :
    (addLoop xs ys carry).length = min xs.length ys.length := by
  induction xs generalizing ys carry with
  | nil => simp [addLoop]
  | cons x xs ih =>
    cases ys with
    | nil => rfl
    | cons y ys => simp [addLoop, ih]

/-- `operator+=`. -/
def add (a b : BaseUint width) : BaseUint width :=
  ⟨addLoop a.pn b.pn 0, by rw [length_addLoop, a.length_pn, b.length_pn, Nat.min_self]⟩

/-- `while (++pn[i] == 0 && i < WIDTH-1) i++`. -/
def incLoop : List (BitVec 32) → List (BitVec 32)
  | [] => []
  | x :: xs => if x + 1 = 0 ∧ xs ≠ [] then (x + 1) :: incLoop xs else (x + 1) :: xs

/-- `while (--pn[i] == -1 && i < WIDTH-1) i++`. -/
def decLoop : List (BitVec 32) → List (BitVec 32)
  | [] => []
  | x :: xs => if x - 1 = -1 ∧ xs ≠ [] then (x - 1) :: decLoop xs else (x - 1) :: xs

theorem length_incLoop (xs : List (BitVec 32)) : (incLoop xs).length = xs.length := by
  induction xs with
  | nil => rfl
  | cons x xs ih => unfold incLoop; split <;> simp [ih]

theorem length_decLoop (xs : List (BitVec 32)) : (decLoop xs).length = xs.length := by
  induction xs with
  | nil => rfl
  | cons x xs ih => unfold decLoop; split <;> simp [ih]

/-- `operator++`. -/
def inc (a : BaseUint width) : BaseUint width :=
  ⟨incLoop a.pn, (length_incLoop a.pn).trans a.length_pn⟩

/-- `operator--`. -/
def dec (a : BaseUint width) : BaseUint width :=
  ⟨decLoop a.pn, (length_decLoop a.pn).trans a.length_pn⟩

/-- The unary `operator-`. -/
def neg (a : BaseUint width) : BaseUint width := a.not.inc

/-- `operator-=`. -/
def sub (a b : BaseUint width) : BaseUint width := a.add b.neg

/-- The loop of an order, from the last limb down: where two limbs differ, `first` decides. -/
def compareLoop (first : BitVec 32 → BitVec 32 → Bool) (same : Bool) :
    List (BitVec 32) → List (BitVec 32) → Bool
  | x :: xs, y :: ys =>
    if first x y then true else if first y x then false else compareLoop first same xs ys
  | _, _ => same

/-- `operator<`. -/
def lt (a b : BaseUint width) : Bool :=
  compareLoop (fun x y => decide (x < y)) false a.pn.reverse b.pn.reverse

/-- `operator<=`. -/
def le (a b : BaseUint width) : Bool :=
  compareLoop (fun x y => decide (x < y)) true a.pn.reverse b.pn.reverse

/-- `operator>`. -/
def gt (a b : BaseUint width) : Bool :=
  compareLoop (fun x y => decide (x > y)) false a.pn.reverse b.pn.reverse

/-- `operator>=`. -/
def ge (a b : BaseUint width) : Bool :=
  compareLoop (fun x y => decide (x > y)) true a.pn.reverse b.pn.reverse

def eqLoop : List (BitVec 32) → List (BitVec 32) → Bool
  | x :: xs, y :: ys => if x ≠ y then false else eqLoop xs ys
  | _, _ => true

/-- `operator==`. -/
def eq (a b : BaseUint width) : Bool := eqLoop a.pn b.pn

/-- `operator!=`. -/
def ne (a b : BaseUint width) : Bool := !(a.eq b)

/-! ## Carries -/

/-- The sum of two limbs and a carry does not wrap around. -/
theorem toNat_limbSum {carry : BitVec 64} (h : carry.toNat ≤ 1) (x y : BitVec 32) :
    (carry + x.setWidth 64 + y.setWidth 64).toNat = x.toNat + y.toNat + carry.toNat := by
  have hx := x.isLt
  have hy := y.isLt
  simp only [BitVec.toNat_add, BitVec.toNat_setWidth]
  omega

theorem value_addLoop {xs ys : List (BitVec 32)} (hlength : xs.length = ys.length)
    {carry : BitVec 64} (hcarry : carry.toNat ≤ 1) :
    Limbs.value (addLoop xs ys carry) =
      (Limbs.value xs + Limbs.value ys + carry.toNat) % 2 ^ (32 * xs.length) := by
  induction xs generalizing ys carry with
  | nil =>
    rw [List.length_nil, Nat.mul_zero, Nat.pow_zero, Nat.mod_one]
    rfl
  | cons x xs ih =>
    cases ys with
    | nil => cases hlength
    | cons y ys =>
      have hn := toNat_limbSum hcarry x y
      have hx := x.isLt
      have hy := y.isLt
      rw [addLoop]
      generalize carry + x.setWidth 64 + y.setWidth 64 = n at hn ⊢
      have hhigh : (n >>> 32).toNat = n.toNat / 2 ^ 32 := by
        rw [BitVec.toNat_ushiftRight, Nat.shiftRight_eq_div_pow]
      have hlow : ((n &&& 0xffffffff).setWidth 32).toNat = n.toNat % 2 ^ 32 := by
        rw [BitVec.toNat_setWidth, BitVec.toNat_and]
        exact (congrArg (· % 2 ^ 32) (Nat.and_two_pow_sub_one_eq_mod n.toNat 32)).trans
          (Nat.mod_mod _ _)
      -- the number of the tails, and a carry of at most one
      have hrest := ih (Nat.succ.inj hlength) (show (n >>> 32).toNat ≤ 1 by omega)
      have hsum : Limbs.value (x :: xs) + Limbs.value (y :: ys) + carry.toNat =
          n.toNat + 2 ^ 32 * (Limbs.value xs + Limbs.value ys) := by
        rw [Limbs.value, Limbs.value, hn]
        ring
      rw [Limbs.value, hrest, hlow, hhigh, hsum, List.length_cons, Limbs.add_mul_mod]

theorem val_add (a b : BaseUint width) :
    (a.add b).val = (a.val + b.val) % 2 ^ (32 * width) := by
  have hlength := a.length_pn.trans b.length_pn.symm
  have h := value_addLoop hlength (show (0 : BitVec 64).toNat ≤ 1 by decide)
  rwa [a.length_pn] at h

theorem value_incLoop (xs : List (BitVec 32)) :
    Limbs.value (incLoop xs) = (Limbs.value xs + 1) % 2 ^ (32 * xs.length) := by
  induction xs with
  | nil => rfl
  | cons x xs ih =>
    have hx := x.isLt
    have hv := Limbs.value_lt xs
    have hlow : (x + 1).toNat = (x.toNat + 1) % 2 ^ 32 := BitVec.toNat_add x 1
    have hsum : Limbs.value (x :: xs) + 1 = x.toNat + 1 + 2 ^ 32 * Limbs.value xs := by
      rw [Limbs.value]
      omega
    unfold incLoop
    rw [hsum, List.length_cons, Limbs.add_mul_mod]
    split
    · next h =>
      have hcarry : (x.toNat + 1) / 2 ^ 32 = 1 := by
        rw [h.1] at hlow
        have hzero : (0 : BitVec 32).toNat = 0 := rfl
        omega
      rw [Limbs.value, hlow, hcarry, ih]
    · next h =>
      rw [Limbs.value, hlow]
      cases xs with
      | nil => simp [Limbs.value, Nat.mod_one]
      | cons y ys =>
        have hne : x + 1 ≠ 0 := fun hzero => h ⟨hzero, List.cons_ne_nil y ys⟩
        have hcarry : (x.toNat + 1) / 2 ^ 32 = 0 := by
          by_contra hcarry
          refine hne (BitVec.eq_of_toNat_eq (hlow.trans ?_))
          show _ = 0
          omega
        rw [hcarry, Nat.add_zero (Limbs.value (y :: ys)), Nat.mod_eq_of_lt hv]

theorem val_inc (a : BaseUint width) : a.inc.val = (a.val + 1) % 2 ^ (32 * width) := by
  have h := value_incLoop a.pn
  rwa [a.length_pn] at h

theorem value_decLoop (xs : List (BitVec 32)) :
    Limbs.value (decLoop xs) =
      (Limbs.value xs + (2 ^ (32 * xs.length) - 1)) % 2 ^ (32 * xs.length) := by
  induction xs with
  | nil => rfl
  | cons x xs ih =>
    have hx := x.isLt
    have hv := Limbs.value_lt xs
    have hpos := Nat.two_pow_pos (32 * xs.length)
    have hlow : (x - 1).toNat = (x.toNat + (2 ^ 32 - 1)) % 2 ^ 32 := by
      rw [BitVec.toNat_sub, Nat.add_comm]
      rfl
    have hsum : Limbs.value (x :: xs) + (2 ^ (32 * (xs.length + 1)) - 1) = x.toNat + (2 ^ 32 - 1) +
        2 ^ 32 * (Limbs.value xs + (2 ^ (32 * xs.length) - 1)) := by
      rw [Limbs.value, Nat.mul_succ, Nat.pow_add]
      omega
    unfold decLoop
    rw [List.length_cons, hsum, Limbs.add_mul_mod]
    split
    · next h =>
      have hcarry : (x.toNat + (2 ^ 32 - 1)) / 2 ^ 32 = 0 := by
        rw [h.1] at hlow
        have hlast : (-1 : BitVec 32).toNat = 2 ^ 32 - 1 := rfl
        omega
      rw [Limbs.value, hlow, hcarry, ih, Nat.add_zero]
    · next h =>
      rw [Limbs.value, hlow]
      cases xs with
      | nil => simp [Limbs.value, Nat.mod_one]
      | cons y ys =>
        have hne : x - 1 ≠ -1 := fun hlast => h ⟨hlast, List.cons_ne_nil y ys⟩
        have hcarry : (x.toNat + (2 ^ 32 - 1)) / 2 ^ 32 = 1 := by
          by_contra hcarry
          refine hne (BitVec.eq_of_toNat_eq (hlow.trans ?_))
          show _ = 2 ^ 32 - 1
          omega
        rw [hcarry, Nat.add_assoc, Nat.sub_add_cancel hpos, Nat.add_mod_right,
          Nat.mod_eq_of_lt hv]

theorem val_dec (a : BaseUint width) :
    a.dec.val = (a.val + (2 ^ (32 * width) - 1)) % 2 ^ (32 * width) := by
  have h := value_decLoop a.pn
  rwa [a.length_pn] at h

theorem val_not (a : BaseUint width) : a.not.val = 2 ^ (32 * width) - 1 - a.val := by
  obtain ⟨xs, rfl⟩ := a
  show Limbs.value (xs.map fun x => ~~~x) = 2 ^ (32 * xs.length) - 1 - Limbs.value xs
  induction xs with
  | nil => rfl
  | cons x xs ih =>
    have hx := x.isLt
    have hv := Limbs.value_lt xs
    rw [List.map_cons, Limbs.value, Limbs.value, ih, BitVec.toNat_not, List.length_cons,
      Nat.mul_succ, Nat.pow_add]
    omega

theorem val_neg (a : BaseUint width) :
    a.neg.val = (2 ^ (32 * width) - a.val) % 2 ^ (32 * width) := by
  have h := a.val_lt
  rw [neg, val_inc, val_not]
  congr 1
  omega

theorem val_sub (a b : BaseUint width) :
    (a.sub b).val = (a.val + (2 ^ (32 * width) - b.val)) % 2 ^ (32 * width) := by
  rw [sub, val_add, val_neg, Nat.add_mod_mod]

/-! ## Bits -/

theorem val_xor (a b : BaseUint width) : (a.xor b).val = a.val ^^^ b.val :=
  Limbs.value_zipWith (by decide) rfl (fun _ _ _ _ => BitVec.getLsbD_xor) Nat.testBit_xor
    (a.length_pn.trans b.length_pn.symm)

theorem val_and (a b : BaseUint width) : (a.and b).val = a.val &&& b.val :=
  Limbs.value_zipWith (by decide) rfl (fun _ _ _ _ => BitVec.getLsbD_and) Nat.testBit_and
    (a.length_pn.trans b.length_pn.symm)

theorem val_or (a b : BaseUint width) : (a.or b).val = a.val ||| b.val :=
  Limbs.value_zipWith (by decide) rfl (fun _ _ _ _ => BitVec.getLsbD_or) Nat.testBit_or
    (a.length_pn.trans b.length_pn.symm)

theorem getD_orAt (pn : List (BitVec 32)) (i j : Nat) (x : BitVec 32) :
    (orAt pn i x).getD j 0 =
      if j = i ∧ j < pn.length then pn.getD j 0 ||| x else pn.getD j 0 := by
  unfold orAt
  by_cases hj : j < pn.length
  · rw [List.getD_eq_getElem _ _ (by simpa using hj), List.getElem_modify,
      List.getD_eq_getElem _ _ hj]
    by_cases hi : i = j
    · rw [if_pos hi, if_pos ⟨hi.symm, hj⟩]
    · rw [if_neg hi, if_neg fun h => hi h.1.symm]
  · rw [if_neg fun h => hj h.2, List.getD_eq_default _ _ (by simpa using hj),
      List.getD_eq_default _ _ (Nat.le_of_not_lt hj)]

@[simp] theorem length_orAt_ite (c : Prop) [Decidable c] (pn : List (BitVec 32)) (i : Nat)
    (x : BitVec 32) : (if c then orAt pn i x else pn).length = pn.length := by
  split <;> simp

theorem getD_orAt_ite (c : Prop) [Decidable c] (pn : List (BitVec 32)) (i j : Nat)
    (x : BitVec 32) : (if c then orAt pn i x else pn).getD j 0 =
      pn.getD j 0 ||| if c ∧ j = i ∧ j < pn.length then x else 0 := by
  by_cases hc : c
  · rw [if_pos hc, getD_orAt]
    split
    · next h => rw [if_pos ⟨hc, h⟩]
    · next h => simp [hc, h]
  · rw [if_neg hc, if_neg fun h => hc h.1]
    simp

/-- Rounds that each set the bits that come from one limb set all of them in the end. -/
theorem getLsbD_rounds {round : List (BitVec 32) → Nat → List (BitVec 32)}
    {source : Nat → Nat → Nat} {bit : Nat → Nat → Bool}
    (hlength : ∀ pn i, (round pn i).length = pn.length)
    (hround : ∀ pn i, pn.length = width → ∀ j r, r < 32 → ((round pn i).getD j 0).getLsbD r =
      ((pn.getD j 0).getLsbD r || decide (source j r = i) && bit j r))
    (m j : Nat) {r : Nat} (hr : r < 32) :
    (((List.range m).foldl round (List.replicate width 0)).getD j 0).getLsbD r =
      (decide (source j r < m) && bit j r) := by
  induction m with
  | zero =>
    have hzero : (List.replicate width (0 : BitVec 32)).getD j 0 = 0 := by
      by_cases hj : j < width
      · simp [hj]
      · rw [List.getD_eq_default _ _ (by simpa using hj)]
    rw [List.range_zero, List.foldl_nil, hzero]
    simp
  | succ m ih =>
    rw [List.range_succ, List.foldl_append, List.foldl_cons, List.foldl_nil,
      hround _ _ (length_rounds hlength m) j r hr, ih, ← Bool.and_or_distrib_right]
    congr 1
    rw [← Bool.decide_or, decide_eq_decide]
    omega

/-- The bits of a limb that goes down by `d` bits, where `c` holds. -/
theorem getLsbD_ite_ushiftRight (c : Prop) [Decidable c] (a : List (BitVec 32)) (i d r : Nat) :
    (if c then a.getD i 0 >>> d else 0).getLsbD r =
      (decide (c ∧ d + r < 32) && (Limbs.value a).testBit (32 * i + (d + r))) := by
  by_cases hc : c
  · rw [if_pos hc, BitVec.getLsbD_ushiftRight]
    by_cases hr : d + r < 32
    · simp [hc, hr, Limbs.testBit_value a i hr]
    · simp [hr, BitVec.getLsbD_of_ge _ _ (Nat.le_of_not_lt hr)]
  · simp [hc]

/-- The bits of a limb that goes up by `d` bits, where `c` holds. -/
theorem getLsbD_ite_shiftLeft (c : Prop) [Decidable c] (a : List (BitVec 32)) (i d : Nat) {r : Nat}
    (hr : r < 32) : (if c then a.getD i 0 <<< d else 0).getLsbD r =
      (decide (c ∧ d ≤ r) && (Limbs.value a).testBit (32 * i + (r - d))) := by
  by_cases hc : c
  · rw [if_pos hc, BitVec.getLsbD_shiftLeft, Limbs.testBit_value a i (by omega)]
    simp [hc, hr, ← decide_not]
  · simp [hc]

theorem shlRound_bit {a pn : List (BitVec 32)} (hpn : pn.length = width) (n i j : Nat) {r : Nat}
    (hr : r < 32) : ((shlRound width a (n / 32) (n % 32) pn i).getD j 0).getLsbD r =
      ((pn.getD j 0).getLsbD r || decide ((32 * j + r - n) / 32 = i) &&
        (decide (j < width ∧ n ≤ 32 * j + r) && (Limbs.value a).testBit (32 * j + r - n))) := by
  rw [shlRound, getD_orAt_ite, getD_orAt_ite, BitVec.getLsbD_or, BitVec.getLsbD_or, Bool.or_assoc,
    length_orAt_ite, hpn, getLsbD_ite_ushiftRight, getLsbD_ite_shiftLeft _ _ _ _ hr]
  congr 1
  -- a bit comes from limb `i` either into the next limb or into this one
  by_cases hbit : (32 * j + r - n) / 32 = i ∧ j < width ∧ n ≤ 32 * j + r
  · obtain ⟨hi, hj, hn⟩ := hbit
    rw [decide_eq_true hi, decide_eq_true (show j < width ∧ n ≤ 32 * j + r from ⟨hj, hn⟩)]
    by_cases hhigh : r < n % 32
    · have hsource : 32 * i + (32 - n % 32 + r) = 32 * j + r - n := by omega
      rw [hsource, decide_eq_true (by omega), decide_eq_false (by omega)]
      simp
    · have hsource : 32 * i + (r - n % 32) = 32 * j + r - n := by omega
      rw [hsource, decide_eq_false (by omega), decide_eq_true (by omega)]
      simp
  · rw [decide_eq_false (by omega), decide_eq_false (by omega), ← Bool.and_assoc,
      ← Bool.decide_and, decide_eq_false hbit]
    simp

theorem shrRound_bit {a pn : List (BitVec 32)} (hpn : pn.length = width) (n i j : Nat) {r : Nat}
    (hr : r < 32) : ((shrRound a (n / 32) (n % 32) pn i).getD j 0).getLsbD r =
      ((pn.getD j 0).getLsbD r || decide ((32 * j + r + n) / 32 = i) &&
        (decide (j < width) && (Limbs.value a).testBit (32 * j + r + n))) := by
  rw [shrRound, getD_orAt_ite, getD_orAt_ite, BitVec.getLsbD_or, BitVec.getLsbD_or, Bool.or_assoc,
    length_orAt_ite, hpn, getLsbD_ite_ushiftRight, getLsbD_ite_shiftLeft _ _ _ _ hr]
  congr 1
  by_cases hbit : (32 * j + r + n) / 32 = i ∧ j < width
  · obtain ⟨hi, hj⟩ := hbit
    rw [decide_eq_true hi, decide_eq_true hj]
    by_cases hhigh : n % 32 + r < 32
    · have hsource : 32 * i + (n % 32 + r) = 32 * j + r + n := by omega
      rw [hsource, decide_eq_false (by omega), decide_eq_true (by omega)]
      simp
    · have hsource : 32 * i + (r - (32 - n % 32)) = 32 * j + r + n := by omega
      rw [hsource, decide_eq_true (by omega), decide_eq_false (by omega)]
      simp
  · rw [decide_eq_false (by omega), decide_eq_false (by omega), ← Bool.and_assoc,
      ← Bool.decide_and, decide_eq_false hbit]
    simp

theorem val_shl (a : BaseUint width) (n : Nat) :
    (a.shl n).val = a.val * 2 ^ n % 2 ^ (32 * width) := by
  refine Limbs.value_eq (by decide) fun j r hr => ?_
  rw [shl, getLsbD_rounds (length_shlRound _ _ _)
    (fun pn i hpn j r hr => shlRound_bit hpn n i j hr) width j hr, Nat.testBit_mod_two_pow,
    ← Nat.shiftLeft_eq, Nat.testBit_shiftLeft, ← Bool.and_assoc, ← Bool.and_assoc]
  congr 1
  rw [← Bool.decide_and, ← Bool.decide_and, decide_eq_decide]
  omega

theorem val_shr (a : BaseUint width) (n : Nat) : (a.shr n).val = a.val / 2 ^ n := by
  refine Limbs.value_eq (by decide) fun j r hr => ?_
  rw [shr, getLsbD_rounds (length_shrRound _ _ _)
    (fun pn i hpn j r hr => shrRound_bit hpn n i j hr) width j hr, ← Nat.shiftRight_eq_div_pow,
    Nat.testBit_shiftRight, Nat.add_comm n, ← Bool.and_assoc, ← Bool.decide_and]
  by_cases hbit : a.val.testBit (32 * j + r + n)
  · have hlt : 32 * j + r + n < 32 * width := by
      by_contra hge
      have hsmall := Nat.pow_le_pow_right (show 0 < 2 by decide) (Nat.le_of_not_lt hge)
      rw [Nat.testBit_lt_two_pow (a.val_lt.trans_le hsmall)] at hbit
      cases hbit
    rw [decide_eq_true (show _ ∧ j < width by omega), Bool.true_and]
    rfl
  · have hbit' : (Limbs.value a.pn).testBit (32 * j + r + n) = false :=
      Bool.eq_false_of_not_eq_true hbit
    rw [hbit', Bool.and_false]
    exact hbit'.symm

/-! ## Comparisons -/

/-- The loop finds the order of the numbers. -/
theorem compareLoop_lt (same : Bool) {xs ys : List (BitVec 32)} (hlength : xs.length = ys.length) :
    compareLoop (fun x y => decide (x < y)) same xs ys =
      decide (Limbs.value xs.reverse < Limbs.value ys.reverse ∨
        same = true ∧ Limbs.value xs.reverse = Limbs.value ys.reverse) := by
  induction xs generalizing ys with
  | nil =>
    obtain rfl := List.eq_nil_of_length_eq_zero hlength.symm
    simp [compareLoop]
  | cons x xs ih =>
    cases ys with
    | nil => cases hlength
    | cons y ys =>
      have hlength' : xs.length = ys.length := Nat.succ.inj hlength
      have hreverse : xs.reverse.length = ys.reverse.length := by simpa using hlength'
      rw [compareLoop, List.reverse_cons, List.reverse_cons]
      by_cases hlt : x < y
      · have hvalue := Limbs.value_concat_lt hreverse hlt
        simp [hlt, hvalue]
      · by_cases hgt : y < x
        · have hvalue := Limbs.value_concat_lt hreverse.symm hgt
          have hne : ¬ (Limbs.value (xs.reverse ++ [x]) < Limbs.value (ys.reverse ++ [y]) ∨
              same = true ∧ Limbs.value (xs.reverse ++ [x]) = Limbs.value (ys.reverse ++ [y])) := by
            omega
          simp only [hlt, hgt, decide_false, decide_true, Bool.false_eq_true, if_false, if_true,
            decide_eq_false hne]
        · obtain rfl : x = y := BitVec.le_antisymm (BitVec.not_lt.mp hgt) (BitVec.not_lt.mp hlt)
          simp only [hlt, decide_false, Bool.false_eq_true, if_false, ih hlength',
            Limbs.value_append, hreverse, Nat.add_lt_add_iff_right, Nat.add_right_cancel_iff]

theorem compareLoop_gt (same : Bool) (xs ys : List (BitVec 32)) :
    compareLoop (fun x y => decide (x > y)) same xs ys =
      compareLoop (fun x y => decide (x < y)) same ys xs := by
  induction xs generalizing ys with
  | nil => cases ys <;> rfl
  | cons x xs ih =>
    cases ys with
    | nil => rfl
    | cons y ys =>
      rw [compareLoop, compareLoop, ih]

theorem length_reverse_pn (a b : BaseUint width) : a.pn.reverse.length = b.pn.reverse.length := by
  rw [List.length_reverse, List.length_reverse, a.length_pn, b.length_pn]

theorem lt_eq_decide (a b : BaseUint width) : a.lt b = decide (a.val < b.val) := by
  have h := compareLoop_lt false (length_reverse_pn a b)
  unfold lt val
  simpa using h

theorem le_eq_decide (a b : BaseUint width) : a.le b = decide (a.val ≤ b.val) := by
  have h := compareLoop_lt true (length_reverse_pn a b)
  unfold le val
  simpa [← Nat.le_iff_lt_or_eq] using h

theorem gt_eq_decide (a b : BaseUint width) : a.gt b = decide (a.val > b.val) :=
  (compareLoop_gt false _ _).trans (lt_eq_decide b a)

theorem ge_eq_decide (a b : BaseUint width) : a.ge b = decide (a.val ≥ b.val) :=
  (compareLoop_gt true _ _).trans (le_eq_decide b a)

theorem eqLoop_iff {xs ys : List (BitVec 32)} (hlength : xs.length = ys.length) :
    eqLoop xs ys = true ↔ xs = ys := by
  induction xs generalizing ys with
  | nil =>
    obtain rfl := List.eq_nil_of_length_eq_zero hlength.symm
    simp [eqLoop]
  | cons x xs ih =>
    cases ys with
    | nil => cases hlength
    | cons y ys =>
      rw [eqLoop, List.cons_eq_cons, ← ih (Nat.succ.inj hlength)]
      by_cases hxy : x = y <;> simp [hxy]

theorem eq_eq_decide (a b : BaseUint width) : a.eq b = decide (a.val = b.val) := by
  rw [Bool.eq_iff_iff, decide_eq_true_iff]
  refine (eqLoop_iff (a.length_pn.trans b.length_pn.symm)).trans ⟨fun h => ?_, fun h => ?_⟩
  · exact congrArg Limbs.value h
  · rw [val_inj h]

theorem ne_eq_decide (a b : BaseUint width) : a.ne b = decide (a.val ≠ b.val) := by
  rw [ne, eq_eq_decide, ← decide_not]

end BaseUint

end NoLimitCoin
