import NoLimitCoin.Lib.Positional

/-!
# Bytes in groups of bits

A text for bytes is made of digits of a few bits each.  A coder walks over its input with a mode and
the bits that are left over; what it has put out and what it holds are together what it has read.

Results:
1. `Groups.unique_digits`: bytes have one grouping.
2. `EncoderLaws.run`, `DecoderLaws.run`: what a whole walk puts out.
3. `EncoderLaws.groups`: an encoder gives the grouping.
4. `Decodes.groups_iff`: a decoder has no bits left exactly when its digits are the grouping of what
   it gives.
-/

namespace Regroup

/-! ## Groupings -/

/-- Digits of `k` bits that stand for bytes, with `z` zero bits behind them. -/
structure Groups (k : Nat) (bytes : List UInt8) (digits : List Nat) (z : Nat) : Prop where
  small : Positional.Digits (2 ^ k) digits
  pad : z < k
  length : k * digits.length = 8 * bytes.length + z
  value : Positional.value (2 ^ k) digits = BigEndian.value bytes * 2 ^ z

namespace Groups

variable {k z z' : Nat} {bytes bytes' : List UInt8} {digits digits' : List Nat}

theorem unique_digits (h : Groups k bytes digits z) (h' : Groups k bytes digits' z') :
    digits = digits' ∧ z = z' := by
  have hpad := h.pad
  have hpad' := h'.pad
  have hlength := h.length
  have hlength' := h'.length
  have hcount : digits.length = digits'.length := by
    rcases Nat.lt_trichotomy digits.length digits'.length with hlt | heq | hgt
    · have hmul := Nat.mul_le_mul_left k (Nat.succ_le_of_lt hlt)
      rw [Nat.mul_succ] at hmul
      omega
    · exact heq
    · have hmul := Nat.mul_le_mul_left k (Nat.succ_le_of_lt hgt)
      rw [Nat.mul_succ] at hmul
      omega
  rw [hcount] at hlength
  obtain rfl : z = z' := by omega
  exact ⟨Positional.value_inj h.small h'.small hcount (h.value.trans h'.value.symm), rfl⟩

end Groups

/-! ## Encoders -/

/-- One turn of an encoder: the digits that it puts out, and its new mode and left-over bits. -/
abbrev EncodeStep := (mode left enc : Nat) → List Nat × Nat × Nat

/-- The turns of an encoder over bytes. -/
def encodeLoop (step : EncodeStep) : (mode left : Nat) → List UInt8 → List Nat × Nat × Nat
  | mode, left, [] => ([], mode, left)
  | mode, left, enc :: pch =>
    let turn := step mode left enc.toNat
    let rest := encodeLoop step turn.2.1 turn.2.2 pch
    (turn.1 ++ rest.1, rest.2)

/-- The digits of bytes: the last one has the bits that are left over. -/
def encodeDigits (step : EncodeStep) (bytes : List UInt8) : List Nat :=
  let last := encodeLoop step 0 0 bytes
  if last.2.1 ≠ 0 then last.1 ++ [last.2.2] else last.1

/-- The bits an encoder holds, which stand at the top of a digit. -/
def held (k : Nat) (bits : Nat → Nat) (mode left : Nat) : Nat :=
  if mode = 0 then 0 else left / 2 ^ (k - bits mode)

/-- A state that an encoder can be in. -/
structure EncoderState (k modes : Nat) (bits : Nat → Nat) (mode left : Nat) : Prop where
  valid : mode < modes
  aligned : mode ≠ 0 → left % 2 ^ (k - bits mode) = 0
  fits : held k bits mode left < 2 ^ bits mode

/-- What an encoder has put out and holds is what it held before and the bytes. -/
structure Encodes (k modes : Nat) (bits : Nat → Nat) (mode left : Nat) (bytes : List UInt8)
    (out : List Nat × Nat × Nat) : Prop where
  state : EncoderState k modes bits out.2.1 out.2.2
  small : Positional.Digits (2 ^ k) out.1
  length : k * out.1.length + bits out.2.1 = bits mode + 8 * bytes.length
  value : Positional.value (2 ^ k) out.1 * 2 ^ bits out.2.1 + held k bits out.2.1 out.2.2 =
    held k bits mode left * 256 ^ bytes.length + BigEndian.value bytes

/-- One walk after another. -/
theorem Encodes.append {k modes mode left : Nat} {bits : Nat → Nat} {bytes more : List UInt8}
    {out out' : List Nat × Nat × Nat} (h : Encodes k modes bits mode left bytes out)
    (h' : Encodes k modes bits out.2.1 out.2.2 more out') :
    Encodes k modes bits mode left (bytes ++ more) (out.1 ++ out'.1, out'.2) := by
  have hlength := h.length
  have hlength' := h'.length
  refine ⟨h'.state, ?_, ?_, ?_⟩
  · intro d hd
    rcases List.mem_append.mp hd with hd | hd
    · exact h.small d hd
    · exact h'.small d hd
  · dsimp only
    rw [List.length_append, List.length_append, Nat.mul_add, Nat.mul_add]
    omega
  · -- the digits of the second walk have the place of the bits held between the two
    have hplace : (2 ^ k) ^ out'.1.length * 2 ^ bits out'.2.1 =
        2 ^ bits out.2.1 * 256 ^ more.length := by
      rw [show (256 : Nat) = 2 ^ 8 by rfl, ← Nat.pow_mul, ← Nat.pow_mul, ← Nat.pow_add,
        ← Nat.pow_add, hlength']
    have hsum : Positional.value (2 ^ k) out.1 * (2 ^ k) ^ out'.1.length * 2 ^ bits out'.2.1 =
        Positional.value (2 ^ k) out.1 * 2 ^ bits out.2.1 * 256 ^ more.length := by
      rw [Nat.mul_assoc, hplace, Nat.mul_assoc]
    rw [Positional.value_append, Nat.add_mul, hsum, Nat.add_assoc, h'.value, BigEndian.value_append,
      List.length_append, Nat.pow_add, ← Nat.add_assoc, ← Nat.add_assoc, ← Nat.add_mul, h.value,
      Nat.add_mul, Nat.mul_assoc]

/-- The turn of an encoder that holds `m` bits at the top of `left`. -/
def encodeTurn (k m left enc : Nat) : List Nat × Nat × Nat :=
  let s := 8 + m - k
  if s < k then ([left ||| enc >>> s], s, (enc &&& 2 ^ s - 1) <<< (k - s))
  else
    ([left ||| enc >>> s, enc >>> (s - k) &&& 2 ^ k - 1], s - k,
      (enc &&& 2 ^ (s - k) - 1) <<< (k - (s - k)))

/-- The laws of an encoder into digits of `k` bits that holds `bits mode` bits. -/
structure EncoderLaws (k modes : Nat) (bits : Nat → Nat) (step : EncodeStep) : Prop where
  width : 4 ≤ k ∧ k ≤ 8
  start : 0 < modes ∧ bits 0 = 0
  room : ∀ mode < modes, bits mode < k ∧ (mode ≠ 0 → 0 < bits mode)
  fresh : ∀ left enc, step 0 left enc = step 0 0 enc
  valid : ∀ mode < modes, ∀ left enc, (step mode left enc).2.1 < modes
  turn : ∀ mode < modes, ∀ left enc, (mode = 0 → left = 0) →
    (step mode left enc).1 = (encodeTurn k (bits mode) left enc).1 ∧
      bits (step mode left enc).2.1 = (encodeTurn k (bits mode) left enc).2.1 ∧
        ((step mode left enc).2.1 ≠ 0 →
          (step mode left enc).2.2 = (encodeTurn k (bits mode) left enc).2.2)

/-- Bits put behind others. -/
theorem mul_or {b i : Nat} (a : Nat) (h : b < 2 ^ i) : a * 2 ^ i ||| b = a * 2 ^ i + b := by
  rw [← Nat.shiftLeft_eq, Nat.shiftLeft_add_eq_or_of_lt h]

/-- The bits of a byte are those that a turn puts out and those that it holds. -/
theorem encodeTurn_spec {k m v enc : Nat} (hk : 4 ≤ k ∧ k ≤ 8) (hm : m < k) (hv : v < 2 ^ m)
    (henc : enc < 256) :
    let turn := encodeTurn k m (v * 2 ^ (k - m)) enc
    ∃ v', v' < 2 ^ turn.2.1 ∧ turn.2.2 = v' * 2 ^ (k - turn.2.1) ∧ turn.2.1 < k ∧
      Positional.Digits (2 ^ k) turn.1 ∧ k * turn.1.length + turn.2.1 = m + 8 ∧
        Positional.value (2 ^ k) turn.1 * 2 ^ turn.2.1 + v' = v * 256 + enc := by
  obtain ⟨s, hs⟩ : ∃ s, s = 8 + m - k := ⟨_, rfl⟩
  have hplace : 2 ^ (k - m) * 2 ^ s = 256 := by
    rw [← Nat.pow_add, show k - m + s = 8 by omega]
  have htop : enc / 2 ^ s < 2 ^ (k - m) := by
    rw [Nat.div_lt_iff_lt_mul (Nat.two_pow_pos s), hplace]
    exact henc
  have hdigit : v * 2 ^ (k - m) + enc / 2 ^ s < 2 ^ k := by
    have hmul := Nat.mul_le_mul_right (2 ^ (k - m)) (Nat.succ_le_of_lt hv)
    rw [← Nat.pow_add, Nat.add_sub_cancel' (Nat.le_of_lt hm), Nat.succ_mul] at hmul
    omega
  have hfirst : (v * 2 ^ (k - m) + enc / 2 ^ s) * 2 ^ s + enc % 2 ^ s = v * 256 + enc := by
    rw [Nat.add_mul, Nat.mul_assoc, hplace, Nat.add_assoc, Nat.mul_comm (enc / 2 ^ s),
      Nat.div_add_mod]
  unfold encodeTurn
  dsimp only
  rw [← hs, Nat.shiftRight_eq_div_pow, mul_or v htop]
  split
  · next hlt =>
    dsimp only
    refine ⟨enc % 2 ^ s, Nat.mod_lt _ (Nat.two_pow_pos s), ?_, hlt, ?_, ?_, ?_⟩
    · rw [Nat.and_two_pow_sub_one_eq_mod, Nat.shiftLeft_eq]
    · exact fun d hd => by rw [List.mem_singleton.mp hd]; exact hdigit
    · rw [List.length_singleton]
      omega
    · rw [Positional.value_singleton, hfirst]
  · next hge =>
    -- eight bits and those held are two digits, and `s - k` bits are left
    have hsplit : (enc / 2 ^ (s - k) % 2 ^ k) * 2 ^ (s - k) + enc % 2 ^ (s - k) = enc % 2 ^ s := by
      rw [show 2 ^ s = 2 ^ (s - k) * 2 ^ k by rw [← Nat.pow_add, Nat.sub_add_cancel (by omega)],
        Nat.mod_mul, Nat.mul_comm, Nat.add_comm]
    dsimp only
    refine ⟨enc % 2 ^ (s - k), Nat.mod_lt _ (Nat.two_pow_pos _), ?_, by omega, ?_, ?_, ?_⟩
    · rw [Nat.and_two_pow_sub_one_eq_mod, Nat.shiftLeft_eq]
    · refine List.forall_mem_cons.mpr ⟨hdigit, fun d hd => ?_⟩
      rw [List.mem_singleton.mp hd, Nat.and_two_pow_sub_one_eq_mod]
      exact Nat.mod_lt _ (Nat.two_pow_pos k)
    · rw [List.length_cons, List.length_singleton]
      omega
    · rw [Positional.value, Positional.value_singleton, List.length_singleton, Nat.pow_one,
        Nat.and_two_pow_sub_one_eq_mod, Nat.shiftRight_eq_div_pow, Nat.add_mul, Nat.add_assoc,
        hsplit, Nat.mul_assoc, ← Nat.pow_add, Nat.add_sub_cancel' (by omega), hfirst]

namespace EncoderLaws

variable {k modes : Nat} {bits : Nat → Nat} {step : EncodeStep}

/-- A turn from any state; what a fresh encoder has left over from before does not matter. -/
theorem turn_state (laws : EncoderLaws k modes bits step) {mode left : Nat}
    (hstate : EncoderState k modes bits mode left) (enc : UInt8) :
    Encodes k modes bits mode left [enc] (step mode left enc.toNat) := by
  obtain ⟨v, hv, hleft⟩ : ∃ v, v < 2 ^ bits mode ∧ held k bits mode left = v ∧
      (mode ≠ 0 → left = v * 2 ^ (k - bits mode)) := by
    refine ⟨_, hstate.fits, rfl, fun hne => ?_⟩
    rw [held, if_neg hne]
    exact (Nat.div_mul_cancel (Nat.dvd_of_mod_eq_zero (hstate.aligned hne))).symm
  have hfresh : step mode left enc.toNat = step mode (v * 2 ^ (k - bits mode)) enc.toNat := by
    by_cases hzero : mode = 0
    · rw [hzero, laws.fresh left, laws.fresh (v * _)]
    · rw [← hleft.2 hzero]
  have hzero : mode = 0 → v * 2 ^ (k - bits mode) = 0 := by
    rintro rfl
    rw [← hleft.1, held, if_pos rfl, Nat.zero_mul]
  obtain ⟨v', hv', hleft', hlt, hdigits, hlength, hvalue⟩ := encodeTurn_spec laws.width
    (laws.room mode hstate.valid).1 hv (show enc.toNat < 256 from enc.toNat_lt)
  obtain ⟨hput, hbits, hkeeps⟩ :=
    laws.turn mode hstate.valid (v * 2 ^ (k - bits mode)) enc.toNat hzero
  have hvalid := laws.valid mode hstate.valid (v * 2 ^ (k - bits mode)) enc.toNat
  rw [hfresh]
  generalize encodeTurn k (bits mode) (v * 2 ^ (k - bits mode)) enc.toNat = turn at *
  generalize step mode (v * 2 ^ (k - bits mode)) enc.toNat = out at *
  have hheld : held k bits out.2.1 out.2.2 = v' := by
    by_cases hmode : out.2.1 = 0
    · rw [held, if_pos hmode]
      rw [← hbits, hmode, laws.start.2] at hv'
      omega
    · rw [held, if_neg hmode, hkeeps hmode, hleft', hbits]
      exact Nat.mul_div_cancel _ (Nat.two_pow_pos _)
  refine ⟨⟨hvalid, fun hmode => ?_, ?_⟩, ?_, ?_, ?_⟩
  · rw [hkeeps hmode, hleft', hbits]
    exact Nat.mul_mod_left _ _
  · rw [hheld, hbits]
    exact hv'
  · rw [hput]
    exact hdigits
  · rw [hput, hbits]
    exact hlength
  · rw [hput, hheld, hbits, hvalue, hleft.1, List.length_singleton, Nat.pow_one, BigEndian.value,
      BigEndian.value, List.length_nil, Nat.pow_zero, Nat.mul_one, Nat.add_zero]

theorem run (laws : EncoderLaws k modes bits step) {mode left : Nat}
    (hstate : EncoderState k modes bits mode left) (bytes : List UInt8) :
    Encodes k modes bits mode left bytes (encodeLoop step mode left bytes) := by
  induction bytes generalizing mode left with
  | nil =>
    refine ⟨hstate, nofun, Nat.add_comm _ _, ?_⟩
    rw [encodeLoop, Positional.value, Nat.zero_mul, Nat.zero_add, List.length_nil, Nat.pow_zero,
      Nat.mul_one]
    rfl
  | cons enc bytes ih =>
    have hturn := laws.turn_state hstate enc
    exact hturn.append (ih hturn.state)

theorem start_state (laws : EncoderLaws k modes bits step) : EncoderState k modes bits 0 0 := by
  refine ⟨laws.start.1, fun h => absurd rfl h, ?_⟩
  rw [held, if_pos rfl]
  exact Nat.two_pow_pos _

/-- An encoder gives the grouping of its bytes; the last digit is filled up with zeros. -/
theorem groups (laws : EncoderLaws k modes bits step) (bytes : List UInt8) :
    Groups k bytes (encodeDigits step bytes)
      (if (encodeLoop step 0 0 bytes).2.1 = 0 then 0
        else k - bits (encodeLoop step 0 0 bytes).2.1) := by
  have hrun := laws.run laws.start_state bytes
  obtain ⟨hroom, hwaiting⟩ := laws.room _ hrun.state.valid
  have hlength := hrun.length
  have hvalue := hrun.value
  rw [laws.start.2, Nat.zero_add] at hlength
  rw [held.eq_def k bits 0 0, if_pos rfl, Nat.zero_mul, Nat.zero_add] at hvalue
  unfold encodeDigits
  dsimp only
  generalize encodeLoop step 0 0 bytes = last at *
  by_cases hzero : last.2.1 = 0
  · rw [if_neg (not_not.mpr hzero), if_pos hzero]
    rw [hzero, laws.start.2, Nat.add_zero] at hlength
    rw [hzero, laws.start.2, held, if_pos rfl, Nat.add_zero] at hvalue
    exact ⟨hrun.small, Nat.zero_lt_of_lt hroom, hlength, by rw [← hvalue, Nat.pow_zero, Nat.mul_one,
      Nat.mul_one]⟩
  · have hpos := hwaiting hzero
    have haligned := hrun.state.aligned hzero
    have hfits := hrun.state.fits
    rw [held, if_neg hzero] at hvalue hfits
    have hsplit : 2 ^ bits last.2.1 * 2 ^ (k - bits last.2.1) = 2 ^ k := by
      rw [← Nat.pow_add, Nat.add_sub_cancel' (Nat.le_of_lt hroom)]
    have hback := Nat.div_mul_cancel (Nat.dvd_of_mod_eq_zero haligned)
    rw [if_pos hzero, if_neg hzero]
    refine ⟨?_, by omega, ?_, ?_⟩
    · intro d hd
      rcases List.mem_append.mp hd with hd | hd
      · exact hrun.small d hd
      · rw [List.mem_singleton.mp hd, ← hback, ← hsplit]
        exact Nat.mul_lt_mul_of_pos_right hfits (Nat.two_pow_pos _)
    · rw [List.length_append, List.length_singleton, Nat.mul_add, Nat.mul_one]
      omega
    · rw [Positional.value_append, List.length_singleton, Nat.pow_one, Positional.value_singleton,
        ← hvalue, Nat.add_mul, hback, Nat.mul_assoc, hsplit]

end EncoderLaws

/-! ## Decoders -/

/-- One turn of a decoder: the byte that it puts out, and its new mode and left-over bits. -/
abbrev DecodeStep := (mode left dec : Nat) → Option Nat × Nat × Nat

/-- The turns of a decoder over characters, up to one that the table does not have. -/
def decodeLoop (table : UInt8 → Option Nat) (step : DecodeStep) :
    (mode left : Nat) → List UInt8 → List UInt8 × Nat × Nat × List UInt8
  | mode, left, [] => ([], mode, left, [])
  | mode, left, c :: p =>
    match table c with
    | none => ([], mode, left, c :: p)
    | some dec =>
      let turn := step mode left dec
      let rest := decodeLoop table step turn.2.1 turn.2.2 p
      (turn.1.toList.map UInt8.ofNat ++ rest.1, rest.2)

/-- The bits a decoder holds; a fresh one holds none, whatever is left over from before. -/
def kept (mode left : Nat) : Nat := if mode = 0 then 0 else left

/-- What a decoder has put out and holds is what it held before and the digits. -/
structure Decodes (k modes : Nat) (bits : Nat → Nat) (mode left : Nat) (digits : List Nat)
    (vch : List UInt8) (mode' left' : Nat) : Prop where
  valid : mode' < modes
  fits : kept mode' left' < 2 ^ bits mode'
  length : 8 * vch.length + bits mode' = bits mode + k * digits.length
  value : BigEndian.value vch * 2 ^ bits mode' + kept mode' left' =
    kept mode left * (2 ^ k) ^ digits.length + Positional.value (2 ^ k) digits

theorem Decodes.append {k modes mode left mode' left' mode'' left'' : Nat} {bits : Nat → Nat}
    {digits more : List Nat} {vch vch' : List UInt8}
    (h : Decodes k modes bits mode left digits vch mode' left')
    (h' : Decodes k modes bits mode' left' more vch' mode'' left'') :
    Decodes k modes bits mode left (digits ++ more) (vch ++ vch') mode'' left'' := by
  have hlength := h.length
  have hlength' := h'.length
  refine ⟨h'.valid, h'.fits, ?_, ?_⟩
  · rw [List.length_append, List.length_append, Nat.mul_add, Nat.mul_add]
    omega
  · have hplace : 256 ^ vch'.length * 2 ^ bits mode'' = 2 ^ bits mode' * (2 ^ k) ^ more.length := by
      rw [show (256 : Nat) = 2 ^ 8 by rfl, ← Nat.pow_mul, ← Nat.pow_mul, ← Nat.pow_add,
        ← Nat.pow_add, hlength']
    rw [BigEndian.value_append, Nat.add_mul, Nat.mul_assoc, hplace, Nat.add_assoc, h'.value,
      Positional.value_append, List.length_append, Nat.pow_add, ← Nat.mul_assoc, ← Nat.mul_assoc,
      ← Nat.add_assoc, ← Nat.add_assoc, ← Nat.add_mul, ← Nat.add_mul, h.value]

/-- The turn of a decoder that holds `m` bits. -/
def decodeTurn (k m left dec : Nat) : Option Nat × Nat × Nat :=
  let s := m + k - 8
  if m + k < 8 then (none, m + k, left <<< k ||| dec)
  else (some (left <<< (8 - m) ||| dec >>> s), s, dec &&& 2 ^ s - 1)

/-- The laws of a decoder of digits of `k` bits that holds `bits mode` bits. -/
structure DecoderLaws (k modes : Nat) (bits : Nat → Nat) (step : DecodeStep) : Prop where
  start : 0 < modes ∧ bits 0 = 0
  room : ∀ mode < modes, bits mode < 8 ∧ (mode ≠ 0 → 0 < bits mode)
  fresh : ∀ left dec, step 0 left dec = step 0 0 dec
  valid : ∀ mode < modes, ∀ left dec, (step mode left dec).2.1 < modes
  turn : ∀ mode < modes, ∀ left dec, (mode = 0 → left = 0) →
    (step mode left dec).1 = (decodeTurn k (bits mode) left dec).1 ∧
      bits (step mode left dec).2.1 = (decodeTurn k (bits mode) left dec).2.1 ∧
        ((step mode left dec).2.1 ≠ 0 →
          (step mode left dec).2.2 = (decodeTurn k (bits mode) left dec).2.2)

/-- The bits of a digit go behind those that are held; a byte is put out when there are eight. -/
theorem decodeTurn_spec {k m left dec : Nat} (hm : m < 8) (hleft : left < 2 ^ m)
    (hdec : dec < 2 ^ k) :
    let turn := decodeTurn k m left dec
    turn.2.2 < 2 ^ turn.2.1 ∧ (∀ b ∈ turn.1, b < 256) ∧
      8 * turn.1.toList.length + turn.2.1 = m + k ∧
        Positional.value 256 turn.1.toList * 2 ^ turn.2.1 + turn.2.2 = left * 2 ^ k + dec := by
  unfold decodeTurn
  dsimp only
  split
  · next hlt =>
    have hbound := Nat.mul_le_mul_right (2 ^ k) (Nat.succ_le_of_lt hleft)
    rw [← Nat.pow_add, Nat.succ_mul] at hbound
    rw [Nat.shiftLeft_eq, mul_or left hdec]
    dsimp only
    refine ⟨by omega, nofun, Nat.zero_add _, ?_⟩
    exact (congrArg (· + _) (Nat.zero_mul _)).trans (Nat.zero_add _)
  · next hge =>
    obtain ⟨s, hs⟩ : ∃ s, s = m + k - 8 := ⟨_, rfl⟩
    have hplace : 2 ^ (8 - m) * 2 ^ s = 2 ^ k := by
      rw [← Nat.pow_add, show 8 - m + s = k by omega]
    have htop : dec / 2 ^ s < 2 ^ (8 - m) := by
      rw [Nat.div_lt_iff_lt_mul (Nat.two_pow_pos s), hplace]
      exact hdec
    have hbyte := Nat.mul_le_mul_right (2 ^ (8 - m)) (Nat.succ_le_of_lt hleft)
    rw [← Nat.pow_add, Nat.add_sub_cancel' (Nat.le_of_lt hm), Nat.succ_mul] at hbyte
    rw [← hs, Nat.shiftRight_eq_div_pow, Nat.shiftLeft_eq, mul_or left htop,
      Nat.and_two_pow_sub_one_eq_mod]
    dsimp only
    refine ⟨Nat.mod_lt _ (Nat.two_pow_pos s), fun b hb => ?_, ?_, ?_⟩
    · rw [← Option.some.inj hb]
      omega
    · rw [Option.toList_some, List.length_singleton]
      omega
    · rw [Option.toList_some, Positional.value_singleton, Nat.add_mul, Nat.mul_assoc, hplace,
        Nat.add_assoc, Nat.mul_comm (dec / 2 ^ s), Nat.div_add_mod]

namespace DecoderLaws

variable {k modes : Nat} {bits : Nat → Nat} {step : DecodeStep}

theorem turn_state (laws : DecoderLaws k modes bits step) {mode left dec : Nat}
    (hmode : mode < modes) (hfits : kept mode left < 2 ^ bits mode) (hdec : dec < 2 ^ k) :
    Decodes k modes bits mode left [dec] ((step mode left dec).1.toList.map UInt8.ofNat)
      (step mode left dec).2.1 (step mode left dec).2.2 := by
  have hfresh : step mode left dec = step mode (kept mode left) dec := by
    by_cases hzero : mode = 0
    · rw [hzero, laws.fresh left, laws.fresh (kept 0 left)]
    · rw [kept, if_neg hzero]
  obtain ⟨hlow, hbytes, hlength, hvalue⟩ :=
    decodeTurn_spec (laws.room mode hmode).1 hfits hdec
  obtain ⟨hput, hbits, hkeeps⟩ := laws.turn mode hmode (kept mode left) dec fun hzero => if_pos hzero
  have hvalid := laws.valid mode hmode (kept mode left) dec
  rw [hfresh]
  generalize decodeTurn k (bits mode) (kept mode left) dec = turn at *
  generalize step mode (kept mode left) dec = out at *
  have hkept : kept out.2.1 out.2.2 = turn.2.2 := by
    by_cases hzero : out.2.1 = 0
    · rw [kept, if_pos hzero]
      rw [← hbits, hzero, laws.start.2] at hlow
      omega
    · rw [kept, if_neg hzero, hkeeps hzero]
  have hout : BigEndian.value (out.1.toList.map UInt8.ofNat) =
      Positional.value 256 turn.1.toList := by
    rw [hput]
    cases hbyte : turn.1 with
    | none => rfl
    | some b =>
      have hb := hbytes b hbyte
      rw [Option.toList_some, Positional.value_singleton, List.map_singleton, BigEndian.value,
        BigEndian.value, List.length_nil, Nat.pow_zero, Nat.mul_one, Nat.add_zero,
        UInt8.toNat_ofNat', Nat.mod_eq_of_lt hb]
  refine ⟨hvalid, ?_, ?_, ?_⟩
  · rw [hkept, hbits]
    exact hlow
  · rw [List.length_map, hput, hbits, List.length_singleton, Nat.mul_one]
    exact hlength
  · rw [hout, hkept, hbits, hvalue, List.length_singleton, Nat.pow_one, Positional.value_singleton]

/-- What a decoder makes of characters that the table has, and where it stops. -/
theorem run (laws : DecoderLaws k modes bits step) {table : UInt8 → Option Nat}
    {mode left : Nat} (hmode : mode < modes) (hfits : kept mode left < 2 ^ bits mode)
    {text rest : List UInt8} {digits : List Nat} (htext : text.map table = digits.map some)
    (hdigits : Positional.Digits (2 ^ k) digits) (hrest : ∀ c ∈ rest.head?, table c = none) :
    ∃ vch mode' left', decodeLoop table step mode left (text ++ rest) = (vch, mode', left', rest) ∧
      Decodes k modes bits mode left digits vch mode' left' := by
  induction text generalizing mode left digits with
  | nil =>
    obtain rfl := List.map_eq_nil_iff.mp htext.symm
    refine ⟨[], mode, left, ?_, hmode, hfits, Nat.add_comm _ _, ?_⟩
    · cases rest with
      | nil => rfl
      | cons c rest => rw [List.nil_append, decodeLoop, hrest c rfl]
    · rw [BigEndian.value, Positional.value, List.length_nil, Nat.pow_zero, Nat.zero_mul,
        Nat.zero_add, Nat.mul_one, Nat.add_zero]
  | cons c text ih =>
    cases digits with
    | nil => cases htext
    | cons dec digits =>
      obtain ⟨hdec, hsmall⟩ := List.forall_mem_cons.mp hdigits
      obtain ⟨hchar, htail⟩ := List.cons.inj htext
      have hturn := laws.turn_state hmode hfits hdec
      obtain ⟨vch, mode', left', hloop, hdecodes⟩ := ih hturn.valid hturn.fits htail hsmall
      refine ⟨_, mode', left', ?_, hturn.append hdecodes⟩
      rw [List.cons_append, decodeLoop, hchar]
      dsimp only
      rw [hloop]

theorem start_fits (laws : DecoderLaws k modes bits step) : kept 0 0 < 2 ^ bits 0 := by
  rw [laws.start.2]
  exact Nat.one_pos

end DecoderLaws

/-- Nothing is left over exactly when the digits are the grouping of what has been put out. -/
theorem Decodes.groups_iff {k modes mode left : Nat} {bits : Nat → Nat} {digits : List Nat}
    {vch bytes : List UInt8} {z : Nat} (h : Decodes k modes bits 0 0 digits vch mode left)
    (hstart : bits 0 = 0) (hbits : bits mode < 8) (hk : k ≤ 8)
    (hdigits : Positional.Digits (2 ^ k) digits) :
    Groups k bytes digits z ↔
      bytes = vch ∧ z = bits mode ∧ bits mode < k ∧ kept mode left = 0 := by
  have hlength := h.length
  have hvalue := h.value
  have hfits := h.fits
  rw [hstart, Nat.zero_add] at hlength
  rw [show kept 0 0 = 0 from rfl, Nat.zero_mul, Nat.zero_add] at hvalue
  constructor
  · intro hgroups
    have hpad := hgroups.pad
    have hlength' := hgroups.length
    obtain rfl : z = bits mode := by omega
    have hsame := hgroups.value
    rw [← hvalue] at hsame
    -- what is kept is below the place of the last byte
    have hkept : kept mode left = 0 := by
      have hmod := congrArg (· % 2 ^ bits mode) hsame
      rw [Nat.mul_add_mod_self_right, Nat.mul_mod_left, Nat.mod_eq_of_lt hfits] at hmod
      exact hmod
    rw [hkept, Nat.add_zero] at hsame
    have hbytes := Nat.eq_of_mul_eq_mul_right (Nat.two_pow_pos _) hsame
    exact ⟨(BigEndian.value_inj (by omega) hbytes).symm, rfl, hpad, hkept⟩
  · rintro ⟨rfl, rfl, hpad, hkept⟩
    refine ⟨hdigits, hpad, hlength.symm, ?_⟩
    rw [← hvalue, hkept, Nat.add_zero]

end Regroup
