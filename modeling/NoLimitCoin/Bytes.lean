import NoLimitCoin.Lib.BigEndian
import NoLimitCoin.Serialize

/-!
# Numbers and their bytes

Reading the bytes that `leBytes` writes.
-/

namespace NoLimitCoin

/-- The number that bytes stand for, the least significant first. -/
def leNat : List UInt8 → Nat
  | [] => 0
  | b :: bs => b.toNat + 256 * leNat bs

theorem leNat_leBytes (width n : Nat) : leNat (leBytes width n) = n % 256 ^ width := by
  induction width generalizing n with
  | zero => rw [leBytes, leNat, Nat.pow_zero, Nat.mod_one]
  | succ width ih =>
    have hbyte : (UInt8.ofNat (n % 256)).toNat = n % 256 := by
      rw [UInt8.toNat_ofNat']
      exact Nat.mod_mod n 256
    rw [leBytes, leNat, ih, hbyte, Nat.pow_succ', Nat.mod_mul]

theorem leNat_eq_value (bytes : List UInt8) : leNat bytes = BigEndian.value bytes.reverse := by
  induction bytes with
  | nil => rfl
  | cons b bytes ih =>
    rw [List.reverse_cons, BigEndian.value_append, leNat, ih, List.length_singleton,
      BigEndian.value, BigEndian.value, List.length_nil, Nat.pow_zero, Nat.pow_one, Nat.mul_one,
      Nat.add_zero, Nat.add_comm, Nat.mul_comm]

theorem leNat_append (m n : List UInt8) : leNat (m ++ n) = leNat m + 256 ^ m.length * leNat n := by
  induction m with
  | nil => simp [leNat]
  | cons b m ih =>
    rw [List.cons_append, leNat, leNat, ih, List.length_cons, Nat.pow_succ', Nat.mul_add,
      Nat.mul_assoc, Nat.add_assoc]

theorem leNat_lt (bytes : List UInt8) : leNat bytes < 256 ^ bytes.length := by
  have h := BigEndian.value_lt bytes.reverse
  rwa [← leNat_eq_value, List.length_reverse] at h

end NoLimitCoin
