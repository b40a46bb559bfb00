import NoLimitCoin.Lib.TextCodec
import NoLimitCoin.Strings
import Mathlib.Tactic.IntervalCases

/-!
# Base64 and Base32

`util.cpp` encodes bytes with a mode and the bits left over, one `switch` for each direction; the
padding and the check of it go by the mode that the loop ends in.

Results:
1. `base64_laws`, `base32_laws`: every turn of the four loops keeps all bits.
2. `base64_base32_exact`: what is written is read back, and exactly the texts of the encoders are
   valid, with anything behind them that does not begin with a digit.
3. `not_encode_decode`: so a valid text is not always the one of its bytes.
-/

namespace NoLimitCoin

open Regroup

def charPad : UInt8 := 61

/-- The entry of a decoding table, `none` for -1. -/
def tableEntry (table : List Int) (c : UInt8) : Option Nat :=
  let dec := table.getD c.toNat (-1)
  if dec = -1 then none else some dec.toNat

/-! ## Base64 -/

def pbase64 (n : Nat) : UInt8 :=
  "ABCDEFGHIJKLMNOPQRSTUVWXYZabcdefghijklmnopqrstuvwxyz0123456789+/".toUTF8.toList.getD n 0

/-- The `switch` of `EncodeBase64`. -/
def encode64Step : EncodeStep
  | 0, _, enc => ([enc >>> 2], 1, (enc &&& 3) <<< 4)
  | 1, left, enc => ([left ||| enc >>> 4], 2, (enc &&& 15) <<< 2)
  | _, left, enc => ([left ||| enc >>> 6, enc &&& 63], 0, left)

/-- How much `EncodeBase64` pads. -/
def padding64 (mode : Nat) : Nat := if mode = 0 then 0 else if mode = 1 then 2 else 1

/-- `EncodeBase64`. -/
def encodeBase64 (pch : List UInt8) : List UInt8 :=
  encodeText encode64Step pbase64 charPad padding64 pch

def decode64Table : List Int :=
  [-1, -1, -1, -1, -1, -1, -1, -1, -1, -1, -1, -1, -1, -1, -1, -1, -1, -1, -1, -1,
    -1, -1, -1, -1, -1, -1, -1, -1, -1, -1, -1, -1, -1, -1, -1, -1, -1, -1, -1, -1,
    -1, -1, -1, 62, -1, -1, -1, 63, 52, 53, 54, 55, 56, 57, 58, 59, 60, 61, -1, -1,
    -1, -1, -1, -1, -1, 0, 1, 2, 3, 4, 5, 6, 7, 8, 9, 10, 11, 12, 13, 14,
    15, 16, 17, 18, 19, 20, 21, 22, 23, 24, 25, -1, -1, -1, -1, -1, -1, 26, 27, 28,
    29, 30, 31, 32, 33, 34, 35, 36, 37, 38, 39, 40, 41, 42, 43, 44, 45, 46, 47, 48,
    49, 50, 51, -1, -1, -1, -1, -1, -1, -1, -1, -1, -1, -1, -1, -1, -1, -1, -1, -1,
    -1, -1, -1, -1, -1, -1, -1, -1, -1, -1, -1, -1, -1, -1, -1, -1, -1, -1, -1, -1,
    -1, -1, -1, -1, -1, -1, -1, -1, -1, -1, -1, -1, -1, -1, -1, -1, -1, -1, -1, -1,
    -1, -1, -1, -1, -1, -1, -1, -1, -1, -1, -1, -1, -1, -1, -1, -1, -1, -1, -1, -1,
    -1, -1, -1, -1, -1, -1, -1, -1, -1, -1, -1, -1, -1, -1, -1, -1, -1, -1, -1, -1,
    -1, -1, -1, -1, -1, -1, -1, -1, -1, -1, -1, -1, -1, -1, -1, -1, -1, -1, -1, -1,
    -1, -1, -1, -1, -1, -1, -1, -1, -1, -1, -1, -1, -1, -1, -1, -1]

/-- The `switch` of `DecodeBase64`. -/
def decode64Step : DecodeStep
  | 0, _, dec => (none, 1, dec)
  | 1, left, dec => (some (left <<< 2 ||| dec >>> 4), 2, dec &&& 15)
  | 2, left, dec => (some (left <<< 4 ||| dec >>> 2), 3, dec &&& 3)
  | _, left, dec => (some (left <<< 6 ||| dec), 0, left)

/-- The padding that `DecodeBase64` requires, where there can be one. -/
def required64 (mode : Nat) : Option Nat :=
  if mode = 1 then none else if mode = 2 then some 2 else some 1

/-- `DecodeBase64`: the bytes and `*pfInvalid`. -/
def decodeBase64 (p : List UInt8) : List UInt8 × Bool :=
  decodeText (tableEntry decode64Table) decode64Step charPad required64 p

/-! ## Base32 -/

def pbase32 (n : Nat) : UInt8 := "abcdefghijklmnopqrstuvwxyz234567".toUTF8.toList.getD n 0

/-- The `switch` of `EncodeBase32`. -/
def encode32Step : EncodeStep
  | 0, _, enc => ([enc >>> 3], 1, (enc &&& 7) <<< 2)
  | 1, left, enc => ([left ||| enc >>> 6, enc >>> 1 &&& 31], 2, (enc &&& 1) <<< 4)
  | 2, left, enc => ([left ||| enc >>> 4], 3, (enc &&& 15) <<< 1)
  | 3, left, enc => ([left ||| enc >>> 7, enc >>> 2 &&& 31], 4, (enc &&& 3) <<< 3)
  | _, left, enc => ([left ||| enc >>> 5, enc &&& 31], 0, left)

/-- `nPadding`. -/
def padding32 (mode : Nat) : Nat := [0, 6, 4, 3, 1].getD mode 0

/-- `EncodeBase32`. -/
def encodeBase32 (pch : List UInt8) : List UInt8 :=
  encodeText encode32Step pbase32 charPad padding32 pch

def decode32Table : List Int :=
  [-1, -1, -1, -1, -1, -1, -1, -1, -1, -1, -1, -1, -1, -1, -1, -1, -1, -1, -1, -1,
    -1, -1, -1, -1, -1, -1, -1, -1, -1, -1, -1, -1, -1, -1, -1, -1, -1, -1, -1, -1,
    -1, -1, -1, -1, -1, -1, -1, -1, -1, -1, 26, 27, 28, 29, 30, 31, -1, -1, -1, -1,
    -1, -1, -1, -1, -1, 0, 1, 2, 3, 4, 5, 6, 7, 8, 9, 10, 11, 12, 13, 14,
    15, 16, 17, 18, 19, 20, 21, 22, 23, 24, 25, -1, -1, -1, -1, -1, -1, 0, 1, 2,
    3, 4, 5, 6, 7, 8, 9, 10, 11, 12, 13, 14, 15, 16, 17, 18, 19, 20, 21, 22,
    23, 24, 25, -1, -1, -1, -1, -1, -1, -1, -1, -1, -1, -1, -1, -1, -1, -1, -1, -1,
    -1, -1, -1, -1, -1, -1, -1, -1, -1, -1, -1, -1, -1, -1, -1, -1, -1, -1, -1, -1,
    -1, -1, -1, -1, -1, -1, -1, -1, -1, -1, -1, -1, -1, -1, -1, -1, -1, -1, -1, -1,
    -1, -1, -1, -1, -1, -1, -1, -1, -1, -1, -1, -1, -1, -1, -1, -1, -1, -1, -1, -1,
    -1, -1, -1, -1, -1, -1, -1, -1, -1, -1, -1, -1, -1, -1, -1, -1, -1, -1, -1, -1,
    -1, -1, -1, -1, -1, -1, -1, -1, -1, -1, -1, -1, -1, -1, -1, -1, -1, -1, -1, -1,
    -1, -1, -1, -1, -1, -1, -1, -1, -1, -1, -1, -1, -1, -1, -1, -1]

/-- The `switch` of `DecodeBase32`. -/
def decode32Step : DecodeStep
  | 0, _, dec => (none, 1, dec)
  | 1, left, dec => (some (left <<< 3 ||| dec >>> 2), 2, dec &&& 3)
  | 2, left, dec => (none, 3, left <<< 5 ||| dec)
  | 3, left, dec => (some (left <<< 1 ||| dec >>> 4), 4, dec &&& 15)
  | 4, left, dec => (some (left <<< 4 ||| dec >>> 1), 5, dec &&& 1)
  | 5, left, dec => (none, 6, left <<< 5 ||| dec)
  | 6, left, dec => (some (left <<< 2 ||| dec >>> 3), 7, dec &&& 7)
  | _, left, dec => (some (left <<< 5 ||| dec), 0, left)

/-- The padding that `DecodeBase32` requires, where there can be one. -/
def required32 (mode : Nat) : Option Nat :=
  if mode = 1 ∨ mode = 3 ∨ mode = 6 then none
  else if mode = 2 then some 6
  else if mode = 4 then some 4
  else if mode = 5 then some 3
  else some 1

/-- `DecodeBase32`: the bytes and `*pfInvalid`. -/
def decodeBase32 (p : List UInt8) : List UInt8 × Bool :=
  decodeText (tableEntry decode32Table) decode32Step charPad required32 p

/-- A character in lower case. -/
def toLower (c : UInt8) : UInt8 := if 65 ≤ c ∧ c ≤ 90 then c + 32 else c

/-! ## The laws of the four loops -/

/-- The bits `EncodeBase64` holds in a mode. -/
def encode64Bits (mode : Nat) : Nat := [0, 2, 4].getD mode 0

/-- The bits `DecodeBase64` holds in a mode. -/
def decode64Bits (mode : Nat) : Nat := [0, 6, 4, 2].getD mode 0

/-- The bits `EncodeBase32` holds in a mode. -/
def encode32Bits (mode : Nat) : Nat := [0, 3, 1, 4, 2].getD mode 0

/-- The bits `DecodeBase32` holds in a mode. -/
def decode32Bits (mode : Nat) : Nat := [0, 5, 2, 7, 4, 1, 6, 3].getD mode 0

theorem encode64_laws : EncoderLaws 6 3 encode64Bits encode64Step where
  width := by decide
  start := by decide
  room := by decide
  fresh := fun _ _ => rfl
  valid := by
    intro mode hmode left enc
    interval_cases mode <;> exact of_decide_eq_true rfl
  turn := by
    intro mode hmode left enc hleft
    interval_cases mode
    · rw [hleft rfl]
      exact ⟨congrArg (fun d => [d]) (Nat.zero_or _).symm, rfl, fun _ => rfl⟩
    · exact ⟨rfl, rfl, fun _ => rfl⟩
    · exact ⟨rfl, rfl, fun h => absurd rfl h⟩

theorem decode64_laws : DecoderLaws 6 4 decode64Bits decode64Step where
  start := by decide
  room := by decide
  fresh := fun _ _ => rfl
  valid := by
    intro mode hmode left dec
    interval_cases mode <;> exact of_decide_eq_true rfl
  turn := by
    intro mode hmode left dec hleft
    interval_cases mode
    · rw [hleft rfl]
      refine ⟨rfl, rfl, fun _ => ?_⟩
      exact (Nat.zero_or dec).symm.trans (congrArg (· ||| dec) (Nat.zero_shiftLeft 6).symm)
    · exact ⟨rfl, rfl, fun _ => rfl⟩
    · exact ⟨rfl, rfl, fun _ => rfl⟩
    · exact ⟨rfl, rfl, fun h => absurd rfl h⟩

theorem encode32_laws : EncoderLaws 5 5 encode32Bits encode32Step where
  width := by decide
  start := by decide
  room := by decide
  fresh := fun _ _ => rfl
  valid := by
    intro mode hmode left enc
    interval_cases mode <;> exact of_decide_eq_true rfl
  turn := by
    intro mode hmode left enc hleft
    interval_cases mode
    · rw [hleft rfl]
      exact ⟨congrArg (fun d => [d]) (Nat.zero_or _).symm, rfl, fun _ => rfl⟩
    · exact ⟨rfl, rfl, fun _ => rfl⟩
    · exact ⟨rfl, rfl, fun _ => rfl⟩
    · exact ⟨rfl, rfl, fun _ => rfl⟩
    · exact ⟨rfl, rfl, fun h => absurd rfl h⟩

theorem decode32_laws : DecoderLaws 5 8 decode32Bits decode32Step where
  start := by decide
  room := by decide
  fresh := fun _ _ => rfl
  valid := by
    intro mode hmode left dec
    interval_cases mode <;> exact of_decide_eq_true rfl
  turn := by
    intro mode hmode left dec hleft
    interval_cases mode
    · rw [hleft rfl]
      refine ⟨rfl, rfl, fun _ => ?_⟩
      exact (Nat.zero_or dec).symm.trans (congrArg (· ||| dec) (Nat.zero_shiftLeft 5).symm)
    · exact ⟨rfl, rfl, fun _ => rfl⟩
    · exact ⟨rfl, rfl, fun _ => rfl⟩
    · exact ⟨rfl, rfl, fun _ => rfl⟩
    · exact ⟨rfl, rfl, fun _ => rfl⟩
    · exact ⟨rfl, rfl, fun _ => rfl⟩
    · exact ⟨rfl, rfl, fun _ => rfl⟩
    · exact ⟨rfl, rfl, fun h => absurd rfl h⟩

/-- What a table has for the characters, from its entries. -/
theorem forall_tableEntry {table : List Int} {P : UInt8 → Nat → Prop}
    (h : ∀ e ∈ table.zipIdx, e.1 ≠ -1 → P (UInt8.ofNat e.2) e.1.toNat) (c : UInt8) :
    ∀ d ∈ tableEntry table c, P c d := by
  intro d hd
  unfold tableEntry at hd
  dsimp only at hd
  split at hd
  · cases hd
  · next hdigit =>
    obtain rfl := Option.some.inj hd
    rw [List.getD_eq_getElem?_getD] at hdigit ⊢
    cases hc : table[c.toNat]? with
    | none =>
      rw [hc] at hdigit
      exact absurd rfl hdigit
    | some dec =>
      rw [hc] at hdigit
      have hentry := h (dec, c.toNat) (List.mem_zipIdx_iff_getElem?.mpr hc) hdigit
      rwa [UInt8.ofNat_toNat] at hentry

theorem toLower_eq {c x : UInt8} (h : toLower c = x) : c = x ∨ c = x - 32 := by
  unfold toLower at h
  split at h
  · exact .inr (by rw [← h, UInt8.add_sub_cancel])
  · exact .inl h

/-- What the table of `DecodeBase64` has for each character, and which one stands for each digit. -/
theorem alphabet64 : Alphabet 6 pbase64 (tableEntry decode64Table) charPad id := by
  have hentries : ∀ c, ∀ d ∈ tableEntry decode64Table c, d < 64 ∧ c = pbase64 d :=
    forall_tableEntry (by decide +kernel)
  have hdigits : ∀ d < 64, tableEntry decode64Table (pbase64 d) = some d := by decide +kernel
  refine ⟨fun c d => ⟨hentries c d, ?_⟩, fun _ _ => rfl, by decide, by decide, fun _ => Iff.rfl⟩
  rintro ⟨hd, hchar⟩
  rw [id_eq] at hchar
  rw [hchar]
  exact hdigits d hd

theorem alphabet32 : Alphabet 5 pbase32 (tableEntry decode32Table) charPad toLower := by
  have hentries : ∀ c, ∀ d ∈ tableEntry decode32Table c, d < 32 ∧ toLower c = pbase32 d :=
    forall_tableEntry (by decide +kernel)
  have hboth : ∀ d < 32, tableEntry decode32Table (pbase32 d) = some d ∧
      (toLower (pbase32 d - 32) = pbase32 d →
        tableEntry decode32Table (pbase32 d - 32) = some d) := by decide +kernel
  have hdigits : ∀ c, ∀ d < 32, toLower c = pbase32 d → tableEntry decode32Table c = some d := by
    intro c d hd hchar
    rcases toLower_eq hchar with rfl | rfl
    · exact (hboth d hd).1
    · exact (hboth d hd).2 hchar
  have hpad : ∀ c, toLower c = charPad ↔ c = charPad := forall_character (by decide +kernel)
  exact ⟨fun c d => ⟨hentries c d, fun h => hdigits c d h.1 h.2⟩, by decide +kernel, by decide,
    by decide, hpad⟩

/-- `EncodeBase64` and `DecodeBase64` are a codec. -/
theorem base64_laws : CodecLaws 6 3 4 encode64Bits decode64Bits encode64Step decode64Step pbase64
    (tableEntry decode64Table) charPad id padding64 required64 where
  encoder := encode64_laws
  decoder := decode64_laws
  alphabet := alphabet64
  padding := by
    refine ⟨rfl, by decide, fun mode hmode mode' hmode' => ?_⟩
    interval_cases mode <;> interval_cases mode' <;> decide
  short := by decide

/-- `EncodeBase32` and `DecodeBase32` are a codec, up to the case of letters. -/
theorem base32_laws : CodecLaws 5 5 8 encode32Bits decode32Bits encode32Step decode32Step pbase32
    (tableEntry decode32Table) charPad toLower padding32 required32 where
  encoder := encode32_laws
  decoder := decode32_laws
  alphabet := alphabet32
  padding := by
    refine ⟨rfl, by decide, fun mode hmode mode' hmode' => ?_⟩
    interval_cases mode <;> interval_cases mode' <;> decide
  short := by decide

/-! ## Round trips -/

/-- What is written is read back, and a text is valid exactly when it is the one of its result with
anything behind it that does not begin with a digit. -/
theorem base64_base32_exact :
    (∀ b, decodeBase64 (encodeBase64 b) = (b, false)) ∧
    (∀ b, decodeBase32 (encodeBase32 b) = (b, false)) ∧
    (∀ s b, decodeBase64 s = (b, false) ↔
      ∃ rest, s = encodeBase64 b ++ rest ∧
        ∀ c ∈ rest.head?, tableEntry decode64Table c = none) ∧
    (∀ s b, decodeBase32 s = (b, false) ↔
      ∃ text rest, s = text ++ rest ∧ text.map toLower = encodeBase32 b ∧
        ∀ c ∈ rest.head?, tableEntry decode32Table c = none) := by
  refine ⟨base64_laws.decodeText_encodeText, base32_laws.decodeText_encodeText, fun s b => ?_,
    base32_laws.decodeText_valid_iff⟩
  have hvalid := base64_laws.decodeText_valid_iff s b
  constructor
  · intro h
    obtain ⟨text, rest, hs, htext, hrest⟩ := hvalid.mp h
    rw [List.map_id] at htext
    exact ⟨rest, by rw [hs, htext]; rfl, hrest⟩
  · rintro ⟨rest, hs, hrest⟩
    exact hvalid.mpr ⟨encodeBase64 b, rest, hs, List.map_id _, hrest⟩

example : decodeBase64 [81, 85, 74, 68] = ([65, 66, 67], false) := by decide +kernel

/-- `QUJD!` is valid, and `QUJD` is the text of its bytes. -/
theorem not_encode_decode :
    ¬ ∀ s, (decodeBase64 s).2 = false → encodeBase64 (decodeBase64 s).1 = s := by
  intro h
  have hsame := h [81, 85, 74, 68, 33] (by decide +kernel)
  exact absurd hsame (by decide +kernel)

end NoLimitCoin
