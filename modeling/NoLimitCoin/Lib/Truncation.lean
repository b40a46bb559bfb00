import Mathlib.Data.Nat.Log
import Mathlib.Algebra.Order.Ring.Nat

/-!
# Numbers cut to their top bytes

A number with its sign takes as many bytes as its bits and the sign bit need.  Cutting it to the
`p` top bytes clears the others.

Results:

1. `truncate_le`, `sub_truncate_lt`: cutting rounds down, by less than the bytes that are cut.
2. `signedBytes_truncate`, `truncate_mono`: the length stays, and the order is kept.
-/

/-- The bytes of a number and of its sign bit; none for zero. -/
def signedBytes (n : Nat) : Nat := if n = 0 then 0 else (Nat.log2 n + 1) / 8 + 1

/-- What is below the `p` top bytes. -/
def belowTop (p n : Nat) : Nat := 2 ^ (8 * (signedBytes n - p))

/-- The number with everything below its `p` top bytes cleared. -/
def truncate (p n : Nat) : Nat := n / belowTop p n * belowTop p n

variable {p m n : Nat}

theorem lt_of_signedBytes (n : Nat) : 2 * n < 2 ^ (8 * signedBytes n) := by
  by_cases hn : n = 0
  · rw [hn]
    exact Nat.two_pow_pos _
  · have hlt : n < 2 ^ (Nat.log2 n + 1) := Nat.lt_log2_self
    have hle : 2 ^ (Nat.log2 n + 2) ≤ 2 ^ (8 * signedBytes n) := by
      refine Nat.pow_le_pow_right (by decide) ?_
      rw [signedBytes, if_neg hn]
      omega
    calc 2 * n < 2 * 2 ^ (Nat.log2 n + 1) := by omega
      _ = 2 ^ (Nat.log2 n + 2) := by rw [Nat.pow_succ 2 (Nat.log2 n + 1), Nat.mul_comm]
      _ ≤ 2 ^ (8 * signedBytes n) := hle

theorem le_of_signedBytes (hn : n ≠ 0) : 2 ^ (8 * (signedBytes n - 1)) ≤ 2 * n := by
  have hlow : 2 ^ Nat.log2 n ≤ n := Nat.log2_self_le hn
  calc 2 ^ (8 * (signedBytes n - 1)) ≤ 2 ^ (Nat.log2 n + 1) := by
        refine Nat.pow_le_pow_right (by decide) ?_
        rw [signedBytes, if_neg hn]
        omega
    _ = 2 * 2 ^ Nat.log2 n := by rw [Nat.pow_succ, Nat.mul_comm]
    _ ≤ 2 * n := Nat.mul_le_mul_left 2 hlow

theorem signedBytes_mono (h : m ≤ n) : signedBytes m ≤ signedBytes n := by
  by_cases hm : m = 0
  · rw [hm, signedBytes, if_pos rfl]
    exact Nat.zero_le _
  · have hn : n ≠ 0 := fun hn => hm (Nat.le_zero.mp (hn ▸ h))
    have hlog : Nat.log2 m ≤ Nat.log2 n := by
      rw [Nat.log2_eq_log_two, Nat.log2_eq_log_two]
      exact Nat.log_mono_right h
    rw [signedBytes, signedBytes, if_neg hm, if_neg hn]
    omega

theorem belowTop_pos (p n : Nat) : 0 < belowTop p n := Nat.two_pow_pos _

theorem truncate_le (p n : Nat) : truncate p n ≤ n := Nat.div_mul_le_self n _

theorem sub_truncate_lt (p n : Nat) : n - truncate p n < belowTop p n := by
  have hmod := Nat.mod_lt n (belowTop_pos p n)
  have hdiv := Nat.div_add_mod' n (belowTop p n)
  rw [truncate]
  omega

/-- The top bit stays. -/
theorem two_pow_log2_le_truncate (hp : 2 ≤ p) (hn : n ≠ 0) :
    2 ^ Nat.log2 n ≤ truncate p n := by
  have hexp : 8 * (signedBytes n - p) ≤ Nat.log2 n := by
    rw [signedBytes, if_neg hn]
    omega
  have hdvd : belowTop p n ∣ 2 ^ Nat.log2 n := Nat.pow_dvd_pow 2 hexp
  calc 2 ^ Nat.log2 n = 2 ^ Nat.log2 n / belowTop p n * belowTop p n :=
        (Nat.div_mul_cancel hdvd).symm
    _ ≤ truncate p n :=
        Nat.mul_le_mul_right _ (Nat.div_le_div_right (Nat.log2_self_le hn))

theorem log2_truncate (hp : 2 ≤ p) (hn : n ≠ 0) : Nat.log2 (truncate p n) = Nat.log2 n := by
  have hlow := two_pow_log2_le_truncate hp hn
  have hne : truncate p n ≠ 0 := fun h => by
    rw [h] at hlow
    exact absurd hlow (Nat.not_le.mpr (Nat.two_pow_pos _))
  rw [Nat.log2_eq_iff hne]
  exact ⟨hlow, (truncate_le p n).trans_lt Nat.lt_log2_self⟩

theorem truncate_ne_zero (hp : 2 ≤ p) (hn : n ≠ 0) : truncate p n ≠ 0 := fun h => by
  have hlow := two_pow_log2_le_truncate hp hn
  rw [h] at hlow
  exact absurd hlow (Nat.not_le.mpr (Nat.two_pow_pos _))

/-- The length stays. -/
theorem signedBytes_truncate (hp : 2 ≤ p) (n : Nat) :
    signedBytes (truncate p n) = signedBytes n := by
  by_cases hn : n = 0
  · rw [hn, truncate, Nat.zero_div, Nat.zero_mul]
  · rw [signedBytes, signedBytes, if_neg hn, if_neg (truncate_ne_zero hp hn), log2_truncate hp hn]

/-- The top bytes of a number that takes `signedBytes n` bytes. -/
theorem div_belowTop_lt (p n : Nat) : 2 * (n / belowTop p n) < 2 ^ (8 * p) := by
  have hlt := lt_of_signedBytes n
  have hle : 2 ^ (8 * signedBytes n) ≤ 2 ^ (8 * p) * belowTop p n := by
    rw [belowTop, ← Nat.pow_add]
    exact Nat.pow_le_pow_right (by decide) (by omega)
  have hmul : 2 * (n / belowTop p n) * belowTop p n ≤ 2 * n := by
    rw [Nat.mul_assoc]
    exact Nat.mul_le_mul_left 2 (Nat.div_mul_le_self n _)
  exact Nat.lt_of_mul_lt_mul_right ((hmul.trans_lt hlt).trans_le hle)

/-- The order is kept, also across the lengths. -/
theorem truncate_mono (hp : 2 ≤ p) (h : m ≤ n) : truncate p m ≤ truncate p n := by
  rcases (signedBytes_mono h).eq_or_lt with heq | hlt
  · have hbelow : belowTop p m = belowTop p n := by rw [belowTop, belowTop, heq]
    rw [truncate, truncate, hbelow]
    exact Nat.mul_le_mul_right _ (Nat.div_le_div_right h)
  · -- the longer number keeps its top bit, and the shorter one has none as high
    have hn : n ≠ 0 := fun hn => by
      rw [hn, show signedBytes 0 = 0 from rfl] at hlt
      exact absurd hlt (Nat.not_lt_zero _)
    have hshort := lt_of_signedBytes m
    have hlong : 2 ^ (8 * (signedBytes n - 1)) ≤ 2 * truncate p n := by
      have h := le_of_signedBytes (truncate_ne_zero hp hn)
      rwa [signedBytes_truncate hp] at h
    have hpow : 2 ^ (8 * signedBytes m) ≤ 2 ^ (8 * (signedBytes n - 1)) :=
      Nat.pow_le_pow_right (by decide) (by omega)
    have hle := truncate_le p m
    omega
