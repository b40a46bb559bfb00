import NoLimitCoin.Lib.BigEndian
import Mathlib.Data.List.Basic
import Mathlib.Data.List.TakeWhile
import Mathlib.Tactic.Ring

/-!
# Positional numbers

The number that digits of some base stand for, the most significant one first.

Results:
1. `value_append`, `value_lt`: the leading digits decide.
2. `value_inj`: digits of one length with one value are the same digits.
3. `ext`: so are digits with as many zeros in front and one value.
4. `Rebased.unique`: so digits of one base are written in another one in only one way.
-/

namespace Positional

variable {base : Nat} {digits more : List Nat}

def value (base : Nat) : List Nat → Nat
  | [] => 0
  | d :: digits => d * base ^ digits.length + value base digits

/-- Every digit is one of the base. -/
def Digits (base : Nat) (digits : List Nat) : Prop := ∀ d ∈ digits, d < base

theorem value_append (base : Nat) (digits more : List Nat) :
    value base (digits ++ more) = value base digits * base ^ more.length + value base more := by
  induction digits with
  | nil => rw [List.nil_append, value, Nat.zero_mul, Nat.zero_add]
  | cons d digits ih =>
    rw [List.cons_append, value, value, ih, List.length_append, Nat.pow_add]
    ring

theorem value_singleton (base d : Nat) : value base [d] = d := by
  rw [value, value, List.length_nil, Nat.pow_zero, Nat.mul_one, Nat.add_zero]

theorem value_lt (h : Digits base digits) : value base digits < base ^ digits.length := by
  induction digits with
  | nil => exact Nat.one_pos
  | cons d digits ih =>
    obtain ⟨hd, hrest⟩ := List.forall_mem_cons.mp h
    have hmul := Nat.mul_le_mul_right (base ^ digits.length) (Nat.succ_le_of_lt hd)
    have hlt := ih hrest
    rw [Nat.succ_mul] at hmul
    rw [value, List.length_cons, Nat.pow_succ, Nat.mul_comm _ base]
    omega

theorem value_replicate_zero (base k : Nat) : value base (List.replicate k 0) = 0 := by
  induction k with
  | zero => rfl
  | succ k ih => rw [List.replicate_succ, value, ih, Nat.zero_mul]

theorem value_inj (hdigits : Digits base digits) (hmore : Digits base more)
    (hlength : digits.length = more.length) (h : value base digits = value base more) :
    digits = more := by
  induction digits generalizing more with
  | nil => exact (List.eq_nil_of_length_eq_zero hlength.symm).symm
  | cons d digits ih =>
    cases more with
    | nil => cases hlength
    | cons e more =>
      obtain ⟨-, hdigits'⟩ := List.forall_mem_cons.mp hdigits
      obtain ⟨-, hmore'⟩ := List.forall_mem_cons.mp hmore
      have hlength' : digits.length = more.length := Nat.succ.inj hlength
      have hlow := value_lt hdigits'
      have hlow' := value_lt hmore'
      rw [value, value, ← hlength', Nat.mul_comm d, Nat.mul_comm e] at h
      rw [← hlength'] at hlow'
      have hpos : 0 < base ^ digits.length := Nat.lt_of_le_of_lt (Nat.zero_le _) hlow
      have hhead := congrArg (· / base ^ digits.length) h
      have htail := congrArg (· % base ^ digits.length) h
      rw [Nat.mul_add_div hpos, Nat.mul_add_div hpos, Nat.div_eq_of_lt hlow,
        Nat.div_eq_of_lt hlow'] at hhead
      rw [Nat.mul_add_mod, Nat.mul_add_mod, Nat.mod_eq_of_lt hlow,
        Nat.mod_eq_of_lt hlow'] at htail
      obtain rfl : d = e := by omega
      rw [ih hdigits' hmore' hlength' htail]

/-! ## Zeros in front -/

/-- How many zeros digits begin with. -/
def leadingZeros (digits : List Nat) : Nat := (digits.takeWhile (· = 0)).length

/-- Digits without a zero in front. -/
def Normal (digits : List Nat) : Prop := ∀ d ∈ digits.head?, d ≠ 0

theorem value_zeros_append (base z : Nat) (digits : List Nat) :
    value base (List.replicate z 0 ++ digits) = value base digits := by
  rw [value_append, value_replicate_zero, Nat.zero_mul, Nat.zero_add]

theorem leadingZeros_zeros_append {digits : List Nat} (z : Nat) (h : Normal digits) :
    leadingZeros (List.replicate z 0 ++ digits) = z := by
  have hzeros : ∀ d ∈ List.replicate z 0, decide (d = 0) = true := fun d hd =>
    decide_eq_true (List.eq_of_mem_replicate hd)
  have hrest : digits.takeWhile (· = 0) = [] := by
    cases digits with
    | nil => rfl
    | cons d digits => exact List.takeWhile_cons_of_neg (by simpa using h d rfl)
  rw [leadingZeros, List.takeWhile_append_of_pos hzeros, hrest, List.append_nil,
    List.length_replicate]

/-- Digits are zeros and digits without a zero in front. -/
theorem exists_normal (digits : List Nat) :
    ∃ rest, digits = List.replicate (leadingZeros digits) 0 ++ rest ∧ Normal rest := by
  induction digits with
  | nil => exact ⟨[], rfl, nofun⟩
  | cons d digits ih =>
    by_cases hd : d = 0
    · obtain ⟨rest, hdigits, hrest⟩ := ih
      have hzeros : leadingZeros (d :: digits) = leadingZeros digits + 1 := by
        rw [hd]
        rfl
      refine ⟨rest, ?_, hrest⟩
      rw [hzeros, List.replicate_succ, List.cons_append, ← hdigits, hd]
    · refine ⟨d :: digits, ?_, fun e he => Option.some.inj he ▸ hd⟩
      rw [leadingZeros, List.takeWhile_cons_of_neg (by simpa using hd)]
      rfl

theorem Normal.pow_le_value {d : Nat} (h : Normal (d :: digits)) :
    base ^ digits.length ≤ value base (d :: digits) := by
  have hmul := Nat.mul_le_mul_right (base ^ digits.length) (Nat.pos_of_ne_zero (h d rfl))
  rw [value]
  omega

/-- A number has no fewer digits than it takes. -/
theorem Normal.length_le (h : Normal more) (hbase : 0 < base) (hdigits : Digits base digits)
    (hvalue : value base more = value base digits) : more.length ≤ digits.length := by
  cases more with
  | nil => exact Nat.zero_le _
  | cons d more =>
    have hlow : base ^ more.length ≤ value base (d :: more) := h.pow_le_value
    have hhigh := value_lt hdigits
    by_contra hlt
    rw [List.length_cons] at hlt
    have hpow := Nat.pow_le_pow_right hbase (show digits.length ≤ more.length by omega)
    omega

/-- The zeros in front and the value are the digits. -/
theorem ext (hbase : 0 < base) (hdigits : Digits base digits) (hmore : Digits base more)
    (hzeros : leadingZeros digits = leadingZeros more) (h : value base digits = value base more) :
    digits = more := by
  obtain ⟨rest, hrest, hnormal⟩ := exists_normal digits
  obtain ⟨rest', hrest', hnormal'⟩ := exists_normal more
  have hsmall : Digits base rest := fun d hd => hdigits d (hrest ▸ List.mem_append_right _ hd)
  have hsmall' : Digits base rest' := fun d hd => hmore d (hrest' ▸ List.mem_append_right _ hd)
  have hvalue : value base rest = value base rest' := by
    rw [hrest, hrest', value_zeros_append, value_zeros_append] at h
    exact h
  have hlength := Nat.le_antisymm (hnormal.length_le hbase hsmall' hvalue)
    (hnormal'.length_le hbase hsmall hvalue.symm)
  rw [hrest, hrest', hzeros, value_inj hsmall hsmall' hlength hvalue]

/-- Digits of two bases for one number, with as many zeros in front. -/
structure Rebased (base base' : Nat) (digits digits' : List Nat) : Prop where
  small : Digits base digits
  small' : Digits base' digits'
  zeros : leadingZeros digits = leadingZeros digits'
  value : value base digits = value base' digits'

namespace Rebased

variable {base base' : Nat} {digits more digits' : List Nat}

theorem symm (h : Rebased base base' digits digits') : Rebased base' base digits' digits :=
  ⟨h.small', h.small, h.zeros.symm, h.value.symm⟩

theorem unique (hbase : 0 < base) (h : Rebased base base' digits digits')
    (h' : Rebased base base' more digits') : digits = more :=
  ext hbase h.small h'.small (h.zeros.trans h'.zeros.symm) (h.value.trans h'.value.symm)

end Rebased

/-! ## Bytes -/

theorem digits_bytes (bytes : List UInt8) : Digits 256 (bytes.map UInt8.toNat) := fun d hd => by
  obtain ⟨b, -, rfl⟩ := List.mem_map.mp hd
  exact b.toNat_lt

theorem value_bytes (bytes : List UInt8) :
    value 256 (bytes.map UInt8.toNat) = BigEndian.value bytes := by
  induction bytes with
  | nil => rfl
  | cons b bytes ih => rw [List.map_cons, value, BigEndian.value, List.length_map, ih]

end Positional
