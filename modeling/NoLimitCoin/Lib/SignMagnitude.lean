import Mathlib.Data.Nat.Digits.Lemmas
import NoLimitCoin.Lib.BigEndian

/-!
# Numbers with a sign bit

The magnitude of a number, most significant byte first, with the sign in the top bit.  A zero byte
goes in front where the magnitude takes the top bit itself.

Results:
1. `value_bytes`: the bytes of a number stand for it.
2. `length_bytes_le`: no fewer bytes stand for it.
3. `bytes_unique`: no other bytes of that length do.
-/

namespace SignMagnitude

/-! ## Bytes of a magnitude -/

/-- The bytes of a magnitude, none for zero. -/
def magnitude (n : Nat) : List UInt8 := ((Nat.digits 256 n).map UInt8.ofNat).reverse

theorem toNat_ofDigit {d : Nat} (h : d < 256) : (UInt8.ofNat d).toNat = d := by
  rw [UInt8.toNat_ofNat']
  exact Nat.mod_eq_of_lt h

theorem value_reverse_map (digits : List Nat) (h : ∀ d ∈ digits, d < 256) :
    BigEndian.value (digits.map UInt8.ofNat).reverse = Nat.ofDigits 256 digits := by
  induction digits with
  | nil => rfl
  | cons d digits ih =>
    obtain ⟨hd, hrest⟩ := List.forall_mem_cons.mp h
    rw [List.map_cons, List.reverse_cons, BigEndian.value_append, ih hrest, Nat.ofDigits_cons,
      List.length_singleton, BigEndian.value, BigEndian.value, toNat_ofDigit hd]
    simp only [List.length_nil, Nat.pow_zero, Nat.pow_one, Nat.mul_one, Nat.add_zero]
    omega

theorem value_magnitude (n : Nat) : BigEndian.value (magnitude n) = n := by
  rw [magnitude, value_reverse_map _ fun d hd => Nat.digits_lt_base (by decide) hd]
  exact Nat.ofDigits_digits 256 n

theorem magnitude_zero : magnitude 0 = [] := by
  rw [magnitude, Nat.digits_zero]
  rfl

/-- No byte is wasted in front. -/
theorem pow_le_of_magnitude {n : Nat} (h : n ≠ 0) : 256 ^ ((magnitude n).length - 1) ≤ n := by
  rw [magnitude, List.length_reverse, List.length_map]
  have hpos : (Nat.digits 256 n).length ≠ 0 := fun hnil =>
    h (Nat.digits_eq_nil_iff_eq_zero.mp (List.eq_nil_of_length_eq_zero hnil))
  exact (Nat.lt_digits_length_iff (by decide) n).mp (by omega)

/-! ## The sign bit -/

theorem toNat_clearTop (b : UInt8) : (b &&& 0x7f).toNat = b.toNat % 128 := by
  have hall : ∀ n : Fin 256, (UInt8.ofFin n &&& 0x7f).toNat = (UInt8.ofFin n).toNat % 128 := by
    decide +kernel
  exact hall b.toFin

theorem setTop_spec {b : UInt8} (h : b < 0x80) :
    0x80 ≤ b ||| 0x80 ∧ (b ||| 0x80) &&& 0x7f = b := by
  have hall : ∀ n : Fin 256, UInt8.ofFin n < 0x80 →
      0x80 ≤ UInt8.ofFin n ||| 0x80 ∧ (UInt8.ofFin n ||| 0x80) &&& 0x7f = UInt8.ofFin n := by
    decide +kernel
  exact hall b.toFin h

theorem clearTop_of_lt {b : UInt8} (h : b < 0x80) : b &&& 0x7f = b := by
  rw [← UInt8.toNat_inj, toNat_clearTop]
  exact Nat.mod_eq_of_lt (UInt8.lt_iff_toNat_lt.mp h)

/-- The bytes without the sign. -/
def clearSign : List UInt8 → List UInt8
  | [] => []
  | b :: d => (b &&& 0x7f) :: d

/-- The bytes with the sign. -/
def setSign : List UInt8 → List UInt8
  | [] => []
  | b :: d => (b ||| 0x80) :: d

/-- Whether the top bit is set. -/
def topSet : List UInt8 → Bool
  | [] => false
  | b :: _ => decide (0x80 ≤ b)

/-- The number that bytes stand for. -/
def value (d : List UInt8) : Int :=
  if topSet d then -(BigEndian.value (clearSign d) : Int) else BigEndian.value d

/-- The bytes of a number. -/
def bytes (x : Int) : List UInt8 :=
  let d := magnitude x.natAbs
  let d := if topSet d then 0 :: d else d
  if x < 0 then setSign d else d

theorem length_setSign (d : List UInt8) : (setSign d).length = d.length := by
  cases d with
  | nil => rfl
  | cons b d => rfl

theorem clearSign_of_not_topSet {d : List UInt8} (h : topSet d = false) : clearSign d = d := by
  cases d with
  | nil => rfl
  | cons b d =>
    rw [clearSign, clearTop_of_lt (UInt8.not_le.mp (of_decide_eq_false h))]

theorem clearSign_setSign {d : List UInt8} (h : topSet d = false) : clearSign (setSign d) = d := by
  cases d with
  | nil => rfl
  | cons b d =>
    rw [setSign, clearSign, (setTop_spec (UInt8.not_le.mp (of_decide_eq_false h))).2]

theorem topSet_setSign {d : List UInt8} (h : topSet d = false) (hne : d ≠ []) :
    topSet (setSign d) = true := by
  cases d with
  | nil => exact absurd rfl hne
  | cons b d =>
    exact decide_eq_true (setTop_spec (UInt8.not_le.mp (of_decide_eq_false h))).1

theorem value_zero_cons (d : List UInt8) : BigEndian.value (0 :: d) = BigEndian.value d := by
  rw [BigEndian.value]
  exact (congrArg (· + _) (Nat.zero_mul _)).trans (Nat.zero_add _)

/-- The magnitude is what is left without the sign. -/
theorem natAbs_value (d : List UInt8) : (value d).natAbs = BigEndian.value (clearSign d) := by
  unfold value
  split
  · exact (Int.natAbs_neg _).trans (Int.natAbs_natCast _)
  · next htop =>
    rw [clearSign_of_not_topSet (Bool.eq_false_iff.mpr htop)]
    exact Int.natAbs_natCast _

/-- Bytes with a free top bit, and the same with the sign. -/
theorem value_of_not_topSet {d : List UInt8} (h : topSet d = false) :
    value d = BigEndian.value d := by
  rw [value, if_neg (Bool.eq_false_iff.mp h)]

theorem value_setSign {d : List UInt8} (h : topSet d = false) :
    value (setSign d) = -(BigEndian.value d : Int) := by
  cases d with
  | nil => rfl
  | cons b d =>
    rw [value, if_pos (topSet_setSign h (List.cons_ne_nil b d)), clearSign_setSign h]

/-- The bytes of a magnitude, with room for the sign. -/
def room (n : Nat) : List UInt8 := if topSet (magnitude n) then 0 :: magnitude n else magnitude n

theorem topSet_room (n : Nat) : topSet (room n) = false := by
  unfold room
  split
  · rfl
  · next h => exact Bool.eq_false_iff.mpr h

theorem value_room (n : Nat) : BigEndian.value (room n) = n := by
  unfold room
  split
  · rw [value_zero_cons, value_magnitude]
  · exact value_magnitude n

theorem bytes_eq (x : Int) :
    bytes x = if x < 0 then setSign (room x.natAbs) else room x.natAbs := rfl

/-- The bytes of a number stand for it. -/
theorem value_bytes (x : Int) : value (bytes x) = x := by
  rw [bytes_eq]
  split
  · next hneg =>
    rw [value_setSign (topSet_room _), value_room]
    omega
  · next hneg =>
    rw [value_of_not_topSet (topSet_room _), value_room]
    omega

theorem bytes_zero : bytes 0 = [] := by
  rw [bytes, Int.natAbs_zero, magnitude_zero]
  rfl

theorem clearSign_bytes (x : Int) : BigEndian.value (clearSign (bytes x)) = x.natAbs := by
  rw [← natAbs_value, value_bytes]

theorem length_bytes (x : Int) : (bytes x).length = (room x.natAbs).length := by
  rw [bytes_eq]
  split
  · exact length_setSign _
  · rfl

/-! ## The shortest bytes -/

theorem two_mul_value_lt (d : List UInt8) : 2 * BigEndian.value (clearSign d) < 256 ^ d.length := by
  cases d with
  | nil => exact Nat.mul_zero 2 ▸ Nat.one_pos
  | cons b d =>
    have hlt := BigEndian.value_lt d
    have hb : (b &&& 0x7f).toNat + 1 ≤ 128 := by
      rw [toNat_clearTop]
      exact Nat.mod_lt _ (by decide)
    have hmul := Nat.mul_le_mul_right (256 ^ d.length) hb
    rw [Nat.add_mul, Nat.one_mul] at hmul
    rw [clearSign, BigEndian.value, List.length_cons, Nat.pow_succ]
    omega

/-- A number needs all the bytes that it takes. -/
theorem pow_le_of_room {n : Nat} (h : n ≠ 0) : 256 ^ ((room n).length - 1) ≤ 2 * n := by
  unfold room
  split
  · next htop =>
    rw [List.length_cons, Nat.add_sub_cancel]
    have hvalue := value_magnitude n
    cases hd : magnitude n with
    | nil =>
      rw [hd] at htop
      cases htop
    | cons b d =>
      rw [hd] at htop hvalue
      have hb : 128 ≤ b.toNat := UInt8.le_iff_toNat_le.mp (of_decide_eq_true htop)
      have hmul := Nat.mul_le_mul_right (256 ^ d.length) hb
      rw [BigEndian.value] at hvalue
      rw [List.length_cons, Nat.pow_succ]
      omega
  · have hle := pow_le_of_magnitude h
    omega

theorem length_bytes_le (d : List UInt8) : (bytes (value d)).length ≤ d.length := by
  by_cases hzero : value d = 0
  · rw [hzero, bytes_zero]
    exact Nat.zero_le _
  have hneeded := pow_le_of_room (Int.natAbs_ne_zero.mpr hzero)
  have hbound := two_mul_value_lt d
  rw [← natAbs_value] at hbound
  have hlt := (Nat.pow_lt_pow_iff_right (by decide)).mp (hneeded.trans_lt hbound)
  rw [length_bytes]
  omega

theorem topSet_iff_neg {d : List UInt8} (h : value d ≠ 0) : topSet d = true ↔ value d < 0 := by
  unfold value at h ⊢
  split
  · next htop =>
    rw [if_pos htop] at h
    exact ⟨fun _ => by omega, fun _ => htop⟩
  · next htop => exact ⟨fun h => absurd h htop, fun h => by omega⟩

/-- Bytes of one length that stand for one number other than zero. -/
theorem value_inj {d e : List UInt8} (hlength : d.length = e.length) (hvalue : value d = value e)
    (hne : value d ≠ 0) : d = e := by
  have habs : BigEndian.value (clearSign d) = BigEndian.value (clearSign e) := by
    rw [← natAbs_value, ← natAbs_value, hvalue]
  have htop : topSet d = topSet e := by
    rw [Bool.eq_iff_iff, topSet_iff_neg hne, hvalue, ← topSet_iff_neg (hvalue ▸ hne)]
  cases d with
  | nil => exact (List.eq_nil_of_length_eq_zero hlength.symm).symm
  | cons b d =>
    cases e with
    | nil => cases hlength
    | cons c e =>
      have hclear : (b &&& 0x7f) :: d = (c &&& 0x7f) :: e :=
        BigEndian.value_inj (by exact hlength) habs
      obtain ⟨hhead, htail⟩ := List.cons.inj hclear
      have hmod := congrArg UInt8.toNat hhead
      rw [toNat_clearTop, toNat_clearTop] at hmod
      have hiff := decide_eq_decide.mp htop
      rw [UInt8.le_iff_toNat_le, UInt8.le_iff_toNat_le] at hiff
      have hb := b.toNat_lt
      have hc := c.toNat_lt
      have htopbit : (0x80 : UInt8).toNat = 128 := rfl
      rw [htopbit] at hiff
      rw [htail, UInt8.toNat_inj.mp (by omega : b.toNat = c.toNat)]

/-- The bytes of a number are the only ones as short. -/
theorem bytes_unique {d : List UInt8} {x : Int} (hvalue : value d = x)
    (hlength : d.length ≤ (bytes x).length) : d = bytes x := by
  subst hvalue
  by_cases hzero : value d = 0
  · rw [hzero, bytes_zero] at hlength ⊢
    exact List.eq_nil_of_length_eq_zero (Nat.le_zero.mp hlength)
  · exact value_inj (Nat.le_antisymm hlength (length_bytes_le d)) (value_bytes _).symm hzero

end SignMagnitude
