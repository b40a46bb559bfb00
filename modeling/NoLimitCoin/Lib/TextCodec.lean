import NoLimitCoin.Lib.Regroup

/-!
# Texts for bytes

A text has a character for each digit of the grouping of its bytes, and padding characters up to a
whole number of bytes.  A decoder stops at the first character that is not a digit, checks the
padding there and looks at one character more.

Results:
1. `decodeText_encodeText`: what an encoder writes is read back.
2. `decodeText_valid_iff`: exactly the texts of the encoder are valid, with anything behind them that
   does not begin with a digit.
3. `encodeText_whole`, `decodeText_whole`: where the bits of the digits are those of the bytes, there
   is no padding.
-/

namespace Regroup

/-- The text of bytes, with padding by the mode that the encoder ends in. -/
def encodeText (step : EncodeStep) (pbase : Nat → UInt8) (pad : UInt8) (nPadding : Nat → Nat)
    (bytes : List UInt8) : List UInt8 :=
  (encodeDigits step bytes).map pbase ++
    List.replicate (nPadding (encodeLoop step 0 0 bytes).2.1) pad

/-- Whether what a decoder has left over, or what stands where it stopped, is not the padding. -/
def paddingInvalid (table : UInt8 → Option Nat) (pad : UInt8) (left : Nat) (p : List UInt8) :
    Option Nat → Bool
  | none => true
  | some n =>
    decide (left ≠ 0 ∨ p.take n ≠ List.replicate n pad) || (table (p.getD n 0)).isSome

/-- The bytes of a text, and whether it is invalid, by the mode that the decoder ends in. -/
def decodeText (table : UInt8 → Option Nat) (step : DecodeStep) (pad : UInt8)
    (required : Nat → Option Nat) (p : List UInt8) : List UInt8 × Bool :=
  let last := decodeLoop table step 0 0 p
  (last.1, decide (last.2.1 ≠ 0) &&
    paddingInvalid table pad last.2.2.1 last.2.2.2 (required last.2.1))

/-- An alphabet with a table for it, where `fold` takes a character to the one of the alphabet. -/
structure Alphabet (k : Nat) (pbase : Nat → UInt8) (table : UInt8 → Option Nat) (pad : UInt8)
    (fold : UInt8 → UInt8) : Prop where
  table_iff : ∀ c d, table c = some d ↔ d < 2 ^ k ∧ fold c = pbase d
  fold_pbase : ∀ d < 2 ^ k, fold (pbase d) = pbase d
  pad_none : table pad = none
  terminator : table 0 = none
  fold_pad : ∀ c, fold c = pad ↔ c = pad

/-- The padding of an encoder is the one that its decoder requires. -/
structure PaddingLaws (k encodeModes : Nat) (encodeBits : Nat → Nat) (nPadding : Nat → Nat)
    (decodeModes : Nat) (decodeBits : Nat → Nat) (required : Nat → Option Nat) : Prop where
  zero : nPadding 0 = 0
  missing : ∀ mode < decodeModes, mode ≠ 0 → k ≤ decodeBits mode → required mode = none
  agrees : ∀ mode < encodeModes, ∀ mode' < decodeModes, mode ≠ 0 → mode' ≠ 0 →
    decodeBits mode' = k - encodeBits mode → required mode' = some (nPadding mode)

section

variable {k encodeModes decodeModes : Nat} {encodeBits decodeBits : Nat → Nat}
  {encode : EncodeStep} {decode : DecodeStep} {pbase : Nat → UInt8} {table : UInt8 → Option Nat}
  {pad : UInt8} {fold : UInt8 → UInt8} {nPadding : Nat → Nat} {required : Nat → Option Nat}

/-- A text is digits up to some place. -/
theorem exists_digits (halphabet : Alphabet k pbase table pad fold) (p : List UInt8) :
    ∃ text rest digits, p = text ++ rest ∧ text.map table = digits.map some ∧
      Positional.Digits (2 ^ k) digits ∧ ∀ c ∈ rest.head?, table c = none := by
  induction p with
  | nil => exact ⟨[], [], [], rfl, rfl, nofun, nofun⟩
  | cons c p ih =>
    cases htable : table c with
    | none =>
      refine ⟨[], c :: p, [], rfl, rfl, nofun, fun d hd => ?_⟩
      rw [← Option.some.inj hd]
      exact htable
    | some d =>
      obtain ⟨text, rest, digits, rfl, htext, hdigits, hrest⟩ := ih
      refine ⟨c :: text, rest, d :: digits, rfl, ?_, ?_, hrest⟩
      · rw [List.map_cons, List.map_cons, htable, htext]
      · exact List.forall_mem_cons.mpr ⟨((halphabet.table_iff c d).mp htable).1, hdigits⟩

/-- Characters that the table has are those of the alphabet, up to `fold`. -/
theorem map_table_iff (halphabet : Alphabet k pbase table pad fold) {text : List UInt8}
    {digits : List Nat} (hdigits : Positional.Digits (2 ^ k) digits) :
    text.map table = digits.map some ↔ text.map fold = digits.map pbase := by
  induction text generalizing digits with
  | nil =>
    rw [List.map_nil, List.map_nil, List.nil_eq, List.map_eq_nil_iff, List.nil_eq,
      List.map_eq_nil_iff]
  | cons c text ih =>
    cases digits with
    | nil => exact ⟨nofun, nofun⟩
    | cons d digits =>
      obtain ⟨hd, hrest⟩ := List.forall_mem_cons.mp hdigits
      rw [List.map_cons, List.map_cons, List.map_cons, List.map_cons, List.cons.injEq,
        List.cons.injEq, halphabet.table_iff, ih hrest]
      exact ⟨fun h => ⟨h.1.2, h.2⟩, fun h => ⟨⟨hd, h.1⟩, h.2⟩⟩

/-- Padding behind a fold is padding. -/
theorem map_fold_eq_replicate (halphabet : Alphabet k pbase table pad fold) {text : List UInt8}
    {n : Nat} : text.map fold = List.replicate n pad ↔ text = List.replicate n pad := by
  rw [List.eq_replicate_iff, List.eq_replicate_iff, List.length_map, List.forall_mem_map]
  exact and_congr_right fun _ => forall₂_congr fun c _ => halphabet.fold_pad c

theorem getD_eq_head (p : List UInt8) (n : Nat) : p.getD n 0 = ((p.drop n).head?).getD 0 := by
  rw [List.head?_drop, List.getD_eq_getElem?_getD]

theorem table_getD_iff (halphabet : Alphabet k pbase table pad fold) (p : List UInt8) (n : Nat) :
    (table (p.getD n 0)).isSome = false ↔ ∀ c ∈ (p.drop n).head?, table c = none := by
  rw [getD_eq_head, Option.isSome_eq_false_iff, Option.isNone_iff_eq_none]
  cases (p.drop n).head? with
  | none => exact ⟨fun _ => nofun, fun _ => halphabet.terminator⟩
  | some c => exact ⟨fun h d hd => Option.some.inj hd ▸ h, fun h => h c rfl⟩

/-- What the decoder returns where it stops. -/
theorem decodeText_eq {p vch rest : List UInt8} {mode left : Nat}
    (hloop : decodeLoop table decode 0 0 p = (vch, mode, left, rest)) :
    decodeText table decode pad required p =
      (vch, decide (mode ≠ 0) && paddingInvalid table pad left rest (required mode)) := by
  unfold decodeText
  rw [hloop]

theorem paddingInvalid_some (halphabet : Alphabet k pbase table pad fold) {left n : Nat}
    {p : List UInt8} : paddingInvalid table pad left p (some n) = false ↔
      left = 0 ∧ p.take n = List.replicate n pad ∧ ∀ c ∈ (p.drop n).head?, table c = none := by
  rw [paddingInvalid, Bool.or_eq_false_iff, decide_eq_false_iff_not, not_or, not_not, not_not,
    table_getD_iff halphabet, and_assoc]

/-- The laws of a codec: an encoder, its decoder, their alphabet and their padding. -/
structure CodecLaws (k encodeModes decodeModes : Nat) (encodeBits decodeBits : Nat → Nat)
    (encode : EncodeStep) (decode : DecodeStep) (pbase : Nat → UInt8)
    (table : UInt8 → Option Nat) (pad : UInt8) (fold : UInt8 → UInt8) (nPadding : Nat → Nat)
    (required : Nat → Option Nat) : Prop where
  encoder : EncoderLaws k encodeModes encodeBits encode
  decoder : DecoderLaws k decodeModes decodeBits decode
  alphabet : Alphabet k pbase table pad fold
  padding : PaddingLaws k encodeModes encodeBits nPadding decodeModes decodeBits required
  short : k ≤ 8

namespace CodecLaws

variable (laws : CodecLaws k encodeModes decodeModes encodeBits decodeBits encode decode pbase table
  pad fold nPadding required)

include laws

/-- Behind the digits of some bytes, the check passes exactly for their padding. -/
theorem padding_iff {bytes vch p rest : List UInt8} {mode left : Nat}
    (hloop : decodeLoop table decode 0 0 p = (vch, mode, left, rest))
    (hdecodes : Decodes k decodeModes decodeBits 0 0 (encodeDigits encode bytes) vch mode left)
    (hrest : ∀ c ∈ rest.head?, table c = none) :
    decodeText table decode pad required p = (bytes, false) ↔
      rest.take (nPadding (encodeLoop encode 0 0 bytes).2.1) =
          List.replicate (nPadding (encodeLoop encode 0 0 bytes).2.1) pad ∧
        ∀ c ∈ (rest.drop (nPadding (encodeLoop encode 0 0 bytes).2.1)).head?, table c = none := by
  have hgroups := laws.encoder.groups bytes
  obtain ⟨hbits, hwaiting⟩ := laws.decoder.room mode hdecodes.valid
  obtain ⟨rfl, hpad, hroom, hkept⟩ := (hdecodes.groups_iff laws.decoder.start.2 hbits laws.short
    hgroups.small).mp hgroups
  have hvalid := (laws.encoder.run laws.encoder.start_state bytes).state.valid
  obtain ⟨hencodeRoom, hencodeWaiting⟩ := laws.encoder.room _ hvalid
  rw [decodeText_eq hloop, Prod.mk.injEq]
  by_cases hmode : mode = 0
  · have hencodeMode : (encodeLoop encode 0 0 bytes).2.1 = 0 := by
      by_contra hne
      rw [if_neg hne, hmode, laws.decoder.start.2] at hpad
      omega
    rw [hencodeMode, laws.padding.zero, hmode]
    exact ⟨fun _ => ⟨rfl, hrest⟩, fun _ => ⟨rfl, rfl⟩⟩
  · have hencodeMode : (encodeLoop encode 0 0 bytes).2.1 ≠ 0 := by
      intro hzero
      have hpos := hwaiting hmode
      rw [if_pos hzero] at hpad
      omega
    rw [if_neg hencodeMode] at hpad
    have hrequired := laws.padding.agrees _ hvalid mode hdecodes.valid hencodeMode hmode hpad.symm
    rw [kept, if_neg hmode] at hkept
    rw [hrequired, decide_eq_true hmode, Bool.true_and, paddingInvalid_some laws.alphabet]
    exact ⟨fun h => h.2.2, fun h => ⟨rfl, hkept, h⟩⟩

/-- A valid text has the digits of its bytes. -/
theorem digits_of_valid {bytes vch p rest : List UInt8} {digits : List Nat} {mode left : Nat}
    (hloop : decodeLoop table decode 0 0 p = (vch, mode, left, rest))
    (hdecodes : Decodes k decodeModes decodeBits 0 0 digits vch mode left)
    (hdigits : Positional.Digits (2 ^ k) digits)
    (hvalid : decodeText table decode pad required p = (bytes, false)) :
    digits = encodeDigits encode bytes := by
  obtain ⟨hbits, -⟩ := laws.decoder.room mode hdecodes.valid
  rw [decodeText_eq hloop, Prod.mk.injEq] at hvalid
  obtain ⟨rfl, hcheck⟩ := hvalid
  have hgroups : Groups k vch digits (decodeBits mode) := by
    refine (hdecodes.groups_iff laws.decoder.start.2 hbits laws.short hdigits).mpr ⟨rfl, rfl, ?_⟩
    by_cases hmode : mode = 0
    · have hroom := (laws.encoder.room 0 laws.encoder.start.1).1
      rw [hmode, laws.decoder.start.2]
      exact ⟨Nat.zero_lt_of_lt hroom, if_pos rfl⟩
    · rw [decide_eq_true hmode, Bool.true_and] at hcheck
      cases hrequired : required mode with
      | none =>
        rw [hrequired] at hcheck
        cases hcheck
      | some n =>
        rw [hrequired, paddingInvalid_some laws.alphabet] at hcheck
        refine ⟨?_, (if_neg hmode).trans hcheck.1⟩
        by_contra hle
        rw [laws.padding.missing mode hdecodes.valid hmode (Nat.not_lt.mp hle)] at hrequired
        cases hrequired
  exact (hgroups.unique_digits (laws.encoder.groups vch)).1

/-- A text is valid exactly when it is one of the encoder, with anything behind it that does not
begin with a digit. -/
theorem decodeText_valid_iff (p bytes : List UInt8) :
    decodeText table decode pad required p = (bytes, false) ↔
      ∃ text rest, p = text ++ rest ∧ text.map fold = encodeText encode pbase pad nPadding bytes ∧
        ∀ c ∈ rest.head?, table c = none := by
  constructor
  · intro hvalid
    obtain ⟨text, rest, digits, rfl, htext, hdigits, hrest⟩ := exists_digits laws.alphabet p
    obtain ⟨vch, mode, left, hloop, hdecodes⟩ :=
      laws.decoder.run laws.decoder.start.1 laws.decoder.start_fits htext hdigits hrest
    obtain rfl := laws.digits_of_valid hloop hdecodes hdigits hvalid
    obtain ⟨htake, hdrop⟩ := (laws.padding_iff hloop hdecodes hrest).mp hvalid
    refine ⟨text ++ rest.take (nPadding (encodeLoop encode 0 0 bytes).2.1),
      rest.drop (nPadding (encodeLoop encode 0 0 bytes).2.1), ?_, ?_, hdrop⟩
    · rw [List.append_assoc, List.take_append_drop]
    · rw [List.map_append, (map_table_iff laws.alphabet hdigits).mp htext, htake,
        (map_fold_eq_replicate laws.alphabet).mpr rfl]
      rfl
  · rintro ⟨text, rest, rfl, htext, hrest⟩
    obtain ⟨digits, padding, rfl, hdigits, hpadding⟩ := List.map_eq_append_iff.mp htext
    rw [map_fold_eq_replicate laws.alphabet] at hpadding
    subst hpadding
    have hsmall := (laws.encoder.groups bytes).small
    rw [← map_table_iff laws.alphabet hsmall] at hdigits
    have hstop : ∀ c ∈ (List.replicate (nPadding (encodeLoop encode 0 0 bytes).2.1) pad ++
        rest).head?, table c = none := by
      cases nPadding (encodeLoop encode 0 0 bytes).2.1 with
      | zero => exact hrest
      | succ n => exact fun c hc => Option.some.inj hc ▸ laws.alphabet.pad_none
    obtain ⟨vch, mode, left, hloop, hdecodes⟩ :=
      laws.decoder.run laws.decoder.start.1 laws.decoder.start_fits hdigits hsmall hstop
    rw [List.append_assoc]
    refine (laws.padding_iff hloop hdecodes hstop).mpr ⟨?_, ?_⟩
    · exact List.take_left' List.length_replicate
    · rw [List.drop_left' List.length_replicate]
      exact hrest

/-- A text of the encoder is what it is up to `fold`. -/
theorem map_fold_encodeText (bytes : List UInt8) :
    (encodeText encode pbase pad nPadding bytes).map fold =
      encodeText encode pbase pad nPadding bytes := by
  have hsmall := (laws.encoder.groups bytes).small
  unfold encodeText
  rw [List.map_append, (map_fold_eq_replicate laws.alphabet).mpr rfl, List.map_map]
  congr 1
  exact List.map_congr_left fun d hd => laws.alphabet.fold_pbase d (hsmall d hd)

/-- What an encoder writes is read back. -/
theorem decodeText_encodeText (bytes : List UInt8) :
    decodeText table decode pad required (encodeText encode pbase pad nPadding bytes) =
      (bytes, false) :=
  (laws.decodeText_valid_iff _ bytes).mpr
    ⟨_, [], (List.append_nil _).symm, laws.map_fold_encodeText bytes, nofun⟩

/-- Bytes that fill their digits have no padding. -/
theorem encodeText_whole {bytes : List UInt8} (h : k ∣ 8 * bytes.length) :
    encodeText encode pbase pad nPadding bytes = (encodeDigits encode bytes).map pbase ∧
      k * (encodeDigits encode bytes).length = 8 * bytes.length := by
  have hgroups := laws.encoder.groups bytes
  have hpad := hgroups.pad
  have hlength := hgroups.length
  have hvalid := (laws.encoder.run laws.encoder.start_state bytes).state.valid
  obtain ⟨hroom, -⟩ := laws.encoder.room _ hvalid
  have hmode : (encodeLoop encode 0 0 bytes).2.1 = 0 := by
    by_contra hne
    rw [if_neg hne] at hpad hlength
    -- the zero bits behind the bytes would be a multiple of a digit
    have hdvd : k ∣ k - encodeBits (encodeLoop encode 0 0 bytes).2.1 := by
      have hsum : k ∣ 8 * bytes.length + (k - encodeBits (encodeLoop encode 0 0 bytes).2.1) :=
        hlength ▸ Nat.dvd_mul_right _ _
      exact (Nat.dvd_add_right h).mp hsum
    have hle := Nat.le_of_dvd (by omega) hdvd
    omega
  rw [hmode, if_pos rfl] at hlength
  refine ⟨?_, hlength⟩
  unfold encodeText
  rw [hmode, laws.padding.zero]
  exact List.append_nil _

/-- Digits that fill their bytes are valid. -/
theorem decodeText_whole {text : List UInt8} {digits : List Nat}
    (htext : text.map table = digits.map some) (hdigits : Positional.Digits (2 ^ k) digits)
    (hlength : k * text.length = 8 * (decodeText table decode pad required text).1.length) :
    (decodeText table decode pad required text).2 = false := by
  have hrest : ∀ c ∈ ([] : List UInt8).head?, table c = none := nofun
  obtain ⟨vch, mode, left, hloop, hdecodes⟩ :=
    laws.decoder.run laws.decoder.start.1 laws.decoder.start_fits htext hdigits hrest
  rw [List.append_nil] at hloop
  have hcount : text.length = digits.length := by
    simpa only [List.length_map] using congrArg List.length htext
  have hbits := hdecodes.length
  rw [decodeText_eq hloop, hcount] at hlength
  rw [laws.decoder.start.2, Nat.zero_add, hlength] at hbits
  have hmode : mode = 0 := by
    by_contra hne
    have hpos := (laws.decoder.room mode hdecodes.valid).2 hne
    dsimp only at hbits
    omega
  rw [decodeText_eq hloop, hmode]
  rfl

end CodecLaws

end

end Regroup
