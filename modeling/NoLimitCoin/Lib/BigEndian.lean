import Mathlib.Algebra.Order.Ring.Nat
import Mathlib.Tactic.Ring
import Mathlib.Tactic.Linarith

/-!
# Big-endian numbers

Results:
1. `value_append`, `value_lt`: the leading bytes decide.
2. `value_inj`: bytes of one length with one value are the same bytes.
3. `Minimal.unique`: a number has only one minimal encoding without a sign bit.
-/

namespace BigEndian

def value : List UInt8 → Nat
  | [] => 0
  | b :: n => b.toNat * 256 ^ n.length + value n

theorem value_nil : value [] = 0 := rfl

theorem value_cons (b : UInt8) (n : List UInt8) :
    value (b :: n) = b.toNat * 256 ^ n.length + value n := rfl

theorem value_lt (n : List UInt8) : value n < 256 ^ n.length := by
  induction n with
  | nil => exact Nat.one_pos
  | cons b n ih =>
    have hb : b.toNat + 1 ≤ 256 := b.toNat_lt
    have hmul := Nat.mul_le_mul_right (256 ^ n.length) hb
    rw [Nat.add_mul, Nat.one_mul] at hmul
    rw [value_cons, List.length_cons, Nat.pow_succ, Nat.mul_comm (256 ^ n.length)]
    omega

theorem value_append (m n : List UInt8) :
    value (m ++ n) = value m * 256 ^ n.length + value n := by
  induction m with
  | nil => rw [List.nil_append, value_nil, Nat.zero_mul, Nat.zero_add]
  | cons b m ih =>
    rw [List.cons_append, value_cons, value_cons, ih, List.length_append, Nat.pow_add]
    ring

theorem value_pos_iff {n : List UInt8} : 0 < value n ↔ ∃ b ∈ n, b ≠ 0 := by
  induction n with
  | nil => exact ⟨fun h => absurd h (Nat.lt_irrefl 0), fun h => by obtain ⟨b, hb, -⟩ := h; cases hb⟩
  | cons b n ih =>
    simp only [value_cons, List.mem_cons, exists_eq_or_imp]
    by_cases hb : b = 0
    · subst hb
      have hzero : (0 : UInt8).toNat * 256 ^ n.length = 0 := Nat.zero_mul _
      rw [hzero, Nat.zero_add, ih]
      exact ⟨.inr, fun h => h.resolve_left fun hne => hne rfl⟩
    · have hpos : 0 < b.toNat := Nat.pos_of_ne_zero fun h => hb (UInt8.toNat_inj.mp h)
      have hprod := Nat.mul_pos hpos (Nat.pow_pos (n := n.length) (show 0 < 256 by decide))
      exact ⟨fun _ => .inl hb, fun _ => by omega⟩

/-- The first byte decides between numbers of one length. -/
theorem value_cons_lt {a b : UInt8} {m n : List UInt8} (hlength : m.length = n.length)
    (h : a < b) : value (a :: m) < value (b :: n) := by
  have hlt : a.toNat + 1 ≤ b.toNat := UInt8.lt_iff_toNat_lt.mp h
  have hmul := Nat.mul_le_mul_right (256 ^ n.length) hlt
  have hm := value_lt m
  rw [Nat.add_mul, Nat.one_mul] at hmul
  rw [value_cons, value_cons, hlength]
  rw [hlength] at hm
  omega

theorem value_inj {m n : List UInt8} (hlength : m.length = n.length) (h : value m = value n) :
    m = n := by
  induction m generalizing n with
  | nil => exact (List.eq_nil_of_length_eq_zero hlength.symm).symm
  | cons a m ih =>
    cases n with
    | nil => cases hlength
    | cons b n =>
      have hlength' : m.length = n.length := Nat.succ.inj hlength
      rcases Nat.lt_trichotomy a.toNat b.toNat with hlt | heq | hgt
      · exact absurd h (value_cons_lt hlength' (UInt8.lt_iff_toNat_lt.mpr hlt)).ne
      · obtain rfl := UInt8.toNat_inj.mp heq
        rw [value_cons, value_cons, hlength', Nat.add_left_cancel_iff] at h
        rw [ih hlength' h]
      · exact absurd h.symm (value_cons_lt hlength'.symm (UInt8.lt_iff_toNat_lt.mpr hgt)).ne

/-- An encoding without a sign bit that does not waste a byte on zero. -/
structure Minimal (n : List UInt8) : Prop where
  nonneg : ∃ b rest, n = b :: rest ∧ b < 0x80
  short : ∀ rest, n = 0 :: rest → rest = [] ∨ ∃ b more, rest = b :: more ∧ 0x80 ≤ b

namespace Minimal

variable {m n : List UInt8}

/-- A number of fewer bytes is smaller. -/
theorem value_lt (hm : Minimal m) (hn : Minimal n) (h : m.length < n.length) :
    value m < value n := by
  obtain ⟨a, m, rfl, ha⟩ := hm.nonneg
  obtain ⟨b, n, rfl, -⟩ := hn.nonneg
  have hlength : m.length + 1 ≤ n.length := Nat.lt_of_succ_lt_succ h
  have hpow : 256 ^ (m.length + 1) ≤ 256 ^ n.length := Nat.pow_le_pow_right (by decide) hlength
  have ha' : a.toNat + 1 ≤ 128 := UInt8.lt_iff_toNat_lt.mp ha
  have hsmall : value (a :: m) < 128 * 256 ^ m.length := by
    have hmul := Nat.mul_le_mul_right (256 ^ m.length) ha'
    have hrest := BigEndian.value_lt m
    rw [Nat.add_mul, Nat.one_mul] at hmul
    rw [value_cons]
    omega
  rw [Nat.pow_succ] at hpow
  by_cases hb : b = 0
  · subst hb
    -- the byte after the zero has the top bit
    rcases hn.short n rfl with rfl | ⟨c, n, rfl, hc⟩
    · exact absurd hlength (Nat.not_succ_le_zero _)
    · have hc' : 128 ≤ c.toNat := UInt8.le_iff_toNat_le.mp hc
      have hpow' : 256 ^ m.length ≤ 256 ^ n.length :=
        Nat.pow_le_pow_right (by decide) (Nat.le_of_succ_le_succ hlength)
      have hmul := Nat.mul_le_mul hc' hpow'
      refine hsmall.trans_le ?_
      rw [value_cons, value_cons]
      omega
  · have hpos : 1 ≤ b.toNat := Nat.pos_of_ne_zero fun h => hb (UInt8.toNat_inj.mp h)
    have hmul := Nat.mul_le_mul_right (256 ^ n.length) hpos
    rw [Nat.one_mul] at hmul
    refine hsmall.trans_le ?_
    rw [value_cons]
    omega

theorem unique (hm : Minimal m) (hn : Minimal n) (h : value m = value n) : m = n := by
  rcases Nat.lt_trichotomy m.length n.length with hlt | heq | hgt
  · exact absurd h (hm.value_lt hn hlt).ne
  · exact value_inj heq h
  · exact absurd h.symm (hn.value_lt hm hgt).ne

end Minimal

end BigEndian
