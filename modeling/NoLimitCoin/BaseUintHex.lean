import NoLimitCoin.BaseUint
import NoLimitCoin.Bytes
import NoLimitCoin.DumpText
import NoLimitCoin.Lib.Positional

/-!
# The hex text of a number

`GetHex` and `SetHex` of `uint256.h` go over the bytes of the limbs; the processor keeps the low
byte of a limb first.

Results:
1. `value_hexStr`, `leNat_bytes`: the digits that are written.
2. `val_setHex`: the digits that are read.
3. `uint_exact`: the operators and the text, as arithmetic modulo a power of two.
-/

namespace NoLimitCoin

def charZero : UInt8 := 48
def charX : UInt8 := 120

def isspace (c : UInt8) : Bool := (9 ≤ c && c ≤ 13) || c = charBlank

def tolower (c : UInt8) : UInt8 := if 65 ≤ c ∧ c ≤ 90 then c + 32 else c

namespace BaseUint

variable {width : Nat}

/-! ## The code -/

/-- The memory of `pn`. -/
def bytes (a : BaseUint width) : List UInt8 := a.pn.flatMap fun x => leBytes 4 x.toNat

/-- `GetHex`: `%02x` of each byte, from the last one down. -/
def getHex (a : BaseUint width) : List UInt8 := hexStr a.bytes.reverse

def phexdigits : List UInt8 :=
  List.replicate 48 0 ++ [0, 1, 2, 3, 4, 5, 6, 7, 8, 9, 0, 0, 0, 0, 0, 0] ++
    [0, 0xa, 0xb, 0xc, 0xd, 0xe, 0xf, 0, 0, 0, 0, 0, 0, 0, 0, 0] ++ List.replicate 16 0 ++
    [0, 0xa, 0xb, 0xc, 0xd, 0xe, 0xf]

/-- `phexdigit[c]`, with zeros behind the initializer. -/
def phexdigit (c : UInt8) : UInt8 := phexdigits.getD c.toNat 0

/-- `skip 0x`. -/
def skip0x (psz : List UInt8) : List UInt8 :=
  if psz.getD 0 0 = charZero ∧ tolower (psz.getD 1 0) = charX then psz.drop 2 else psz

/-- The characters from `pbegin` to where the loop over the digits stops. -/
def scanHex (psz : List UInt8) : List UInt8 :=
  (skip0x (psz.dropWhile isspace)).takeWhile fun c => phexdigit c ≠ 0 ∨ c = charZero

/-- The loop from `p1` to `pend`, `n` bytes, with the characters from `psz` back to `pbegin`. -/
def fillBytes : (n : Nat) → List UInt8 → List UInt8
  | 0, _ => []
  | n + 1, [] => 0 :: fillBytes n []
  | n + 1, [c] => phexdigit c :: fillBytes n []
  | n + 1, c :: d :: psz => (phexdigit c ||| phexdigit d <<< 4) :: fillBytes n psz

/-- The limbs of some memory. -/
def ofBytes : List UInt8 → List (BitVec 32)
  | b₀ :: b₁ :: b₂ :: b₃ :: bytes => BitVec.ofNat 32 (leNat [b₀, b₁, b₂, b₃]) :: ofBytes bytes
  | _ => []

theorem length_fillBytes (n : Nat) (psz : List UInt8) : (fillBytes n psz).length = n := by
  induction n, psz using fillBytes.induct with
  | case1 => rfl
  | case2 n ih => rw [fillBytes, List.length_cons, ih]
  | case3 n c ih => rw [fillBytes, List.length_cons, ih]
  | case4 n c d psz ih => rw [fillBytes, List.length_cons, ih]

theorem ofBytes_spec {bytes : List UInt8} {n : Nat} (h : bytes.length = 4 * n) :
    (ofBytes bytes).length = n ∧ Limbs.value (ofBytes bytes) = leNat bytes := by
  induction n generalizing bytes with
  | zero =>
    obtain rfl := List.eq_nil_of_length_eq_zero h
    exact ⟨rfl, rfl⟩
  | succ n ih =>
    obtain _ | ⟨b₀, _ | ⟨b₁, _ | ⟨b₂, _ | ⟨b₃, bytes⟩⟩⟩⟩ := bytes <;>
      simp only [List.length_cons, List.length_nil] at h <;> try omega
    obtain ⟨hlength, hvalue⟩ := ih (show bytes.length = 4 * n by omega)
    have hlt := leNat_lt [b₀, b₁, b₂, b₃]
    have hpow : 256 ^ [b₀, b₁, b₂, b₃].length = 2 ^ 32 := by norm_num
    have hword : (BitVec.ofNat 32 (leNat [b₀, b₁, b₂, b₃])).toNat = leNat [b₀, b₁, b₂, b₃] := by
      rw [BitVec.toNat_ofNat, ← hpow, Nat.mod_eq_of_lt hlt]
    refine ⟨by rw [ofBytes, List.length_cons, hlength], ?_⟩
    rw [ofBytes, Limbs.value, hword, hvalue, ← hpow, ← leNat_append]
    rfl

/-- `SetHex` of a C string. -/
def setHex (psz : List UInt8) : BaseUint width :=
  ⟨ofBytes (fillBytes (4 * width) (scanHex psz).reverse), (ofBytes_spec (length_fillBytes _ _)).1⟩

/-- `SetHex` of a string. -/
def setHexString (str : List UInt8) : BaseUint width := setHex (cStr str)

/-! ## The digits -/

/-- The value of a hex digit. -/
def hexDigit (c : UInt8) : Option Nat :=
  if 48 ≤ c ∧ c ≤ 57 then some (c.toNat - 48)
  else if 65 ≤ c ∧ c ≤ 70 then some (c.toNat - 55)
  else if 97 ≤ c ∧ c ≤ 102 then some (c.toNat - 87)
  else none

/-- The hex digits of a text behind white space and an optional `0x`. -/
def hexDigits (text : List UInt8) : List Nat :=
  let text := text.dropWhile isspace
  let text := if text.take 2 = [48, 120] ∨ text.take 2 = [48, 88] then text.drop 2 else text
  (text.takeWhile fun c => (hexDigit c).isSome).filterMap hexDigit

theorem phexdigit_lt : ∀ c, (phexdigit c).toNat < 16 := forall_character (by decide +kernel)

theorem toNat_or_shiftLeft {x y : UInt8} (hx : x.toNat < 16) (hy : y.toNat < 16) :
    (x ||| y <<< 4).toNat = x.toNat + 16 * y.toNat := by
  have hshift : (y <<< 4).toNat = y.toNat <<< 4 := by
    rw [UInt8.toNat_shiftLeft]
    refine Nat.mod_eq_of_lt ?_
    rw [Nat.shiftLeft_eq]
    show y.toNat * 16 < 256
    omega
  rw [UInt8.toNat_or, hshift, Nat.or_comm,
    ← Nat.shiftLeft_add_eq_or_of_lt (show x.toNat < 2 ^ 4 from hx), Nat.shiftLeft_eq]
  omega

/-- Digits are read from the end, two for a byte, as long as there is room. -/
theorem leNat_fillBytes (n : Nat) (psz : List UInt8) : leNat (fillBytes n psz) =
    Positional.value 16 (psz.reverse.map fun c => (phexdigit c).toNat) % 256 ^ n := by
  induction n, psz using fillBytes.induct with
  | case1 =>
    rw [Nat.pow_zero, Nat.mod_one]
    rfl
  | case2 n ih =>
    rw [fillBytes, leNat, ih]
    simp [Positional.value]
  | case3 n c ih =>
    have hc := phexdigit_lt c
    have hpow := Nat.pow_pos (n := n) (show 0 < 256 by decide)
    rw [fillBytes, leNat, ih]
    simp only [List.reverse_nil, List.map_nil, Positional.value, Nat.zero_mod, Nat.mul_zero,
      Nat.add_zero, List.reverse_cons, List.nil_append, List.map_cons, List.length_nil,
      Nat.pow_zero, Nat.mul_one]
    rw [Nat.pow_succ, Nat.mod_eq_of_lt]
    omega
  | case4 n c d psz ih =>
    have hc := phexdigit_lt c
    have hd := phexdigit_lt d
    have hvalue : Positional.value 16 ((c :: d :: psz).reverse.map fun c => (phexdigit c).toNat) =
        (phexdigit c).toNat + 16 * (phexdigit d).toNat + 256 *
          Positional.value 16 (psz.reverse.map fun c => (phexdigit c).toNat) := by
      simp only [List.reverse_cons, List.map_append, List.map_cons, List.map_nil,
        Positional.value_append, Positional.value_singleton, List.length_singleton]
      omega
    have hlt : (phexdigit c).toNat + 16 * (phexdigit d).toNat < 256 := by omega
    rw [fillBytes, leNat, ih, hvalue, toNat_or_shiftLeft hc hd, Nat.pow_succ', Nat.mod_mul,
      Nat.add_mul_mod_self_left, Nat.add_mul_div_left _ _ (by decide), Nat.mod_eq_of_lt hlt,
      Nat.div_eq_of_lt hlt, Nat.zero_add]

theorem val_setHex_scan (psz : List UInt8) : (setHex psz : BaseUint width).val =
    Positional.value 16 ((scanHex psz).map fun c => (phexdigit c).toNat) % 2 ^ (32 * width) := by
  have hpow : 256 ^ (4 * width) = 2 ^ (32 * width) := by
    rw [show 256 = 2 ^ 8 from rfl, ← Nat.pow_mul, ← Nat.mul_assoc]
  refine (ofBytes_spec (length_fillBytes _ _)).2.trans ?_
  rw [leNat_fillBytes, List.reverse_reverse, hpow]

theorem hexDigit_eq : ∀ c, hexDigit c =
    if phexdigit c ≠ 0 ∨ c = charZero then some (phexdigit c).toNat else none :=
  forall_character (by decide +kernel)

theorem tolower_eq : ∀ c, tolower c = charX ↔ c = 120 ∨ c = 88 :=
  forall_character (by decide +kernel)

theorem skip0x_eq (psz : List UInt8) : skip0x psz =
    if psz.take 2 = [48, 120] ∨ psz.take 2 = [48, 88] then psz.drop 2 else psz := by
  have hiff : (psz.getD 0 0 = charZero ∧ tolower (psz.getD 1 0) = charX) ↔
      (psz.take 2 = [48, 120] ∨ psz.take 2 = [48, 88]) := by
    rw [tolower_eq]
    obtain _ | ⟨a, _ | ⟨b, psz⟩⟩ := psz <;> simp [charZero, and_or_left]
  unfold skip0x
  simp only [hiff]

theorem takeWhile_hexDigit (text : List UInt8) :
    (text.takeWhile fun c => phexdigit c ≠ 0 ∨ c = charZero).map (fun c => (phexdigit c).toNat) =
      (text.takeWhile fun c => (hexDigit c).isSome).filterMap hexDigit := by
  induction text with
  | nil => rfl
  | cons c text ih =>
    have hc := hexDigit_eq c
    by_cases h : phexdigit c ≠ 0 ∨ c = charZero
    · rw [if_pos h] at hc
      rw [List.takeWhile_cons_of_pos (by simpa using h), List.takeWhile_cons_of_pos (by simp [hc]),
        List.map_cons, List.filterMap_cons_some hc, ih]
    · rw [if_neg h] at hc
      rw [List.takeWhile_cons_of_neg (by simpa using h), List.takeWhile_cons_of_neg (by simp [hc])]
      rfl

theorem scanHex_eq (psz : List UInt8) :
    (scanHex psz).map (fun c => (phexdigit c).toNat) = hexDigits psz := by
  unfold scanHex hexDigits
  rw [skip0x_eq, takeWhile_hexDigit]

theorem val_setHex (psz : List UInt8) : (setHex psz : BaseUint width).val =
    Positional.value 16 (hexDigits psz) % 2 ^ (32 * width) := by
  rw [val_setHex_scan, scanHex_eq]

theorem dropWhile_cStr (str : List UInt8) :
    (cStr str).dropWhile isspace = cStr (str.dropWhile isspace) := by
  induction str with
  | nil => rfl
  | cons c str ih =>
    by_cases hspace : isspace c = true
    · have hc : c ≠ 0 := by
        rintro rfl
        exact absurd hspace (by decide)
      rw [cStr, List.takeWhile_cons_of_pos (by simpa using hc), ← cStr,
        List.dropWhile_cons_of_pos hspace, List.dropWhile_cons_of_pos hspace, ih]
    · rw [List.dropWhile_cons_of_neg hspace]
      by_cases hc : c = 0
      · simp [cStr, hc]
      · rw [cStr, List.takeWhile_cons_of_pos (by simpa using hc),
          List.dropWhile_cons_of_neg hspace]

theorem skip0x_cStr (str : List UInt8) : skip0x (cStr str) = cStr (skip0x str) := by
  rw [skip0x_eq, skip0x_eq]
  obtain _ | ⟨a, _ | ⟨b, str⟩⟩ := str
  · rfl
  · by_cases ha : a = 0 <;> simp [cStr, ha]
  · by_cases ha : a = 0
    · simp [cStr, ha]
    · by_cases hb : b = 0
      · simp [cStr, ha, hb]
      · have hcStr : cStr (a :: b :: str) = a :: b :: cStr str := by simp [cStr, ha, hb]
        simp only [hcStr, List.take_succ_cons, List.take_zero, List.drop_succ_cons, List.drop_zero]
        split
        · rfl
        · exact hcStr.symm

/-- A string is read up to its first terminator, which no digit is. -/
theorem scanHex_cStr (str : List UInt8) : scanHex (cStr str) = scanHex str := by
  unfold scanHex
  rw [dropWhile_cStr, skip0x_cStr, cStr, List.takeWhile_takeWhile]
  congr 1
  funext c
  by_cases hc : c = 0
  · subst hc
    decide
  · simp [hc]

/-! ## The text of a number -/

theorem phexdigit_hexmap : ∀ c : UInt8, (phexdigit (hexmap (c >>> 4))).toNat * 16 +
    (phexdigit (hexmap (c &&& 15))).toNat = c.toNat := forall_character (by decide +kernel)

theorem length_hexStr (vch : List UInt8) : (hexStr vch).length = 2 * vch.length := by
  simp [hexStr, Nat.mul_comm]

theorem value_hexStr (vch : List UInt8) :
    Positional.value 16 ((hexStr vch).map fun c => (phexdigit c).toNat) = BigEndian.value vch := by
  induction vch with
  | nil => rfl
  | cons c vch ih =>
    have hpow : 256 ^ vch.length = 16 ^ (hexStr vch).length := by
      rw [length_hexStr, Nat.pow_mul]
    have hcons : hexStr (c :: vch) = hexmap (c >>> 4) :: hexmap (c &&& 15) :: hexStr vch := rfl
    rw [hcons, BigEndian.value, hpow, ← phexdigit_hexmap c, ← ih, List.map_cons, List.map_cons,
      Positional.value, Positional.value, List.length_cons, List.length_map]
    ring

theorem leNat_bytes (a : BaseUint width) : leNat a.bytes = a.val := by
  obtain ⟨pn, hpn⟩ := a
  show leNat (pn.flatMap fun x => leBytes 4 x.toNat) = Limbs.value pn
  clear hpn
  induction pn with
  | nil => rfl
  | cons x pn ih =>
    have hx := x.isLt
    have hpow : 256 ^ (leBytes 4 x.toNat).length = 2 ^ 32 := by
      rw [length_leBytes]
      norm_num
    rw [List.flatMap_cons, leNat_append, hpow, leNat_leBytes, ih, Limbs.value,
      show 256 ^ 4 = 2 ^ 32 by norm_num, Nat.mod_eq_of_lt hx]

theorem hexmap_spec : ∀ c : UInt8, (phexdigit (hexmap (c >>> 4)) ≠ 0 ∨ hexmap (c >>> 4) = charZero) ∧
    isspace (hexmap (c >>> 4)) = false ∧
    (phexdigit (hexmap (c &&& 15)) ≠ 0 ∨ hexmap (c &&& 15) = charZero) ∧
    tolower (hexmap (c &&& 15)) ≠ charX := forall_character (by decide +kernel)

/-- What is written has digits only. -/
theorem scanHex_hexStr (vch : List UInt8) : scanHex (hexStr vch) = hexStr vch := by
  have hall : ∀ vch, ∀ c ∈ hexStr vch, phexdigit c ≠ 0 ∨ c = charZero := by
    intro vch c hc
    obtain ⟨d, -, hd⟩ := List.mem_flatMap.mp hc
    obtain ⟨hhigh, -, hlow, -⟩ := hexmap_spec d
    simp only [List.mem_cons, List.not_mem_nil, or_false] at hd
    obtain rfl | rfl := hd
    · exact hhigh
    · exact hlow
  cases vch with
  | nil => rfl
  | cons c vch =>
    obtain ⟨-, hspace, -, hx⟩ := hexmap_spec c
    have hcons : hexStr (c :: vch) = hexmap (c >>> 4) :: hexmap (c &&& 15) :: hexStr vch := rfl
    have hskip : skip0x (hexStr (c :: vch)) = hexStr (c :: vch) := by
      rw [skip0x, hcons]
      exact if_neg fun h => hx h.2
    rw [scanHex, hcons, List.dropWhile_cons_of_neg (by simpa using hspace), ← hcons, hskip]
    exact List.takeWhile_eq_self_iff.mpr fun d hd => decide_eq_true (hall _ d hd)

theorem setHex_getHex (a : BaseUint width) : setHex a.getHex = a := by
  refine val_inj ?_
  rw [val_setHex_scan, getHex, scanHex_hexStr, value_hexStr, ← leNat_eq_value, leNat_bytes,
    Nat.mod_eq_of_lt a.val_lt]

theorem setHexString_eq (str : List UInt8) :
    (setHexString str : BaseUint width) = setHex str := by
  refine val_inj ?_
  rw [setHexString, val_setHex_scan, val_setHex_scan, scanHex_cStr]

/-- The remainder that a natural number stands for. -/
theorem cast_eq_emod {m n k : Nat} {z : Int} (h : k = n % m) (hz : (n : Int) = z + m) :
    (k : Int) = z % m := by
  rw [h, Int.natCast_emod, hz, Int.add_emod_right]

/-- The operators are arithmetic modulo the power of two that the width gives, and a number is read
from its text. -/
theorem uint_exact (a b : BaseUint width) :
    (a.add b).val = (a.val + b.val) % 2 ^ (32 * width) ∧
    ((a.sub b).val : Int) = ((a.val : Int) - b.val) % (2 ^ (32 * width) : Nat) ∧
    (a.neg.val : Int) = -(a.val : Int) % (2 ^ (32 * width) : Nat) ∧
    a.inc.val = (a.val + 1) % 2 ^ (32 * width) ∧
    (a.dec.val : Int) = ((a.val : Int) - 1) % (2 ^ (32 * width) : Nat) ∧
    (∀ shift, (a.shl shift).val = a.val * 2 ^ shift % 2 ^ (32 * width)) ∧
    (∀ shift, (a.shr shift).val = a.val / 2 ^ shift) ∧
    (a.xor b).val = a.val ^^^ b.val ∧ (a.and b).val = a.val &&& b.val ∧
    (a.or b).val = a.val ||| b.val ∧
    (a.not.val : Int) = (-(a.val : Int) - 1) % (2 ^ (32 * width) : Nat) ∧
    a.lt b = decide (a.val < b.val) ∧ a.le b = decide (a.val ≤ b.val) ∧
    a.gt b = decide (a.val > b.val) ∧ a.ge b = decide (a.val ≥ b.val) ∧
    a.eq b = decide (a.val = b.val) ∧ a.ne b = decide (a.val ≠ b.val) ∧
    setHex a.getHex = a ∧
    ∀ text, (setHexString text : BaseUint width).val =
      Positional.value 16 (hexDigits text) % 2 ^ (32 * width) := by
  have ha := a.val_lt
  have hb := b.val_lt
  have hnot : a.not.val = (2 ^ (32 * width) - 1 - a.val) % 2 ^ (32 * width) := by
    rw [val_not, Nat.mod_eq_of_lt]
    omega
  refine ⟨val_add a b, cast_eq_emod (val_sub a b) (by omega), cast_eq_emod (val_neg a) (by omega),
    val_inc a, cast_eq_emod (val_dec a) (by omega), val_shl a, val_shr a, val_xor a b, val_and a b,
    val_or a b, cast_eq_emod hnot (by omega), lt_eq_decide a b, le_eq_decide a b,
    gt_eq_decide a b, ge_eq_decide a b, eq_eq_decide a b, ne_eq_decide a b, setHex_getHex a,
    fun text => ?_⟩
  rw [setHexString_eq, val_setHex]

example : (setHexString "\t 0X1fG".toUTF8.toList : BaseUint 5).val = 0x1f := by decide +kernel

end BaseUint

end NoLimitCoin
