import NoLimitCoin.CreateTransaction
import NoLimitCoin.Lib.Positional
import NoLimitCoin.Money
import NoLimitCoin.Mpi

/-!
# Base58

`base58.h` writes bytes as the digits of one big number, with a zero digit for each zero byte in
front; addresses and secrets are bytes with a version in front and a checksum behind.

Results:
1. `encodeBase58_digits`, `decodeBase58_iff_digits`: both go by the same digits of the same number.
2. `decodeBase58_iff`: exactly the texts of the encoder are read, with white space around them.
3. `decodeBase58Check_iff`: so are those with a checksum.
4. `base58_exact`: addresses and secrets are read back.
5. `not_address_valid`: the text of no destination is not a valid address.
-/

namespace NoLimitCoin

open CBigNum Positional

/-! ## Bytes and digits -/

def pszBase58 : List UInt8 :=
  "123456789ABCDEFGHJKLMNPQRSTUVWXYZabcdefghijkmnopqrstuvwxyz".toUTF8.toList

def base58Char (c : Nat) : UInt8 := pszBase58.getD c 0

/-- The loop of `EncodeBase58`: a digit for each division, the last one first. -/
def encodeBase58Loop (bn : Int) : List UInt8 :=
  if 0 < bn then base58Char (bn.tmod 58).toNat :: encodeBase58Loop (bn.tdiv 58) else []
termination_by bn.toNat
decreasing_by
  rw [Int.tdiv_eq_ediv_of_nonneg (by omega)]
  omega

/-- `EncodeBase58`. -/
def encodeBase58 (vch : List UInt8) : List UInt8 :=
  let bn := numberOf (vch.reverse ++ [0])
  (encodeBase58Loop bn ++ (vch.takeWhile (· = 0)).map fun _ => base58Char 0).reverse

/-- The loop of `DecodeBase58`, up to a character without a digit. -/
def decodeBase58Loop (bn : Int) : List UInt8 → Option Int
  | [] => some bn
  | c :: p =>
    match pszBase58.idxOf? c with
    | none => if (c :: p).dropWhile isSpace = [] then some bn else none
    | some bnChar => decodeBase58Loop (bn * 58 + bnChar) p

/-- Trim off the sign byte if it is there. -/
def trimSign (vchTmp : List UInt8) : List UInt8 :=
  if 2 ≤ vchTmp.length ∧ vchTmp.getD (vchTmp.length - 1) 0 = 0 ∧
      0x80 ≤ vchTmp.getD (vchTmp.length - 2) 0 then
    vchTmp.dropLast
  else vchTmp

/-- `DecodeBase58` on the characters before the terminator; `none` where it fails. -/
def decodeBase58 (psz : List UInt8) : Option (List UInt8) :=
  let psz := psz.dropWhile isSpace
  match decodeBase58Loop 0 psz with
  | none => none
  | some bn =>
    let vchTmp := trimSign (getvch bn)
    let nLeadingZeros := (psz.takeWhile (· = base58Char 0)).length
    some (List.replicate nLeadingZeros 0 ++ vchTmp.reverse)

/-! ## The alphabet -/

theorem pszBase58_iff (c : UInt8) (d : Nat) :
    pszBase58.idxOf? c = some d ↔ d < 58 ∧ c = base58Char d := by
  have hdigits : ∀ d < 58, pszBase58.idxOf? (base58Char d) = some d := by decide +kernel
  have hlength : pszBase58.length = 58 := by decide +kernel
  constructor
  · intro h
    obtain ⟨hd, hchar, -⟩ := List.idxOf?_eq_some_iff.mp h
    refine ⟨hlength ▸ hd, ?_⟩
    unfold base58Char
    rw [List.getD_eq_getElem _ _ hd, hchar]
  · rintro ⟨hd, rfl⟩
    exact hdigits d hd

theorem base58Char_spec :
    ∀ d < 58, isSpace (base58Char d) = false ∧ base58Char d ≠ 0 ∧
      (base58Char d = base58Char 0 ↔ d = 0) := by
  decide +kernel

theorem idxOf_space : ∀ c, isSpace c = true → pszBase58.idxOf? c = none :=
  forall_character (by decide +kernel)

variable {digits : List Nat} {vch before after : List UInt8}

theorem not_space_digits (h : Positional.Digits 58 digits) {c : UInt8} (hc : c ∈ digits.map base58Char) :
    isSpace c = false ∧ c ≠ 0 := by
  obtain ⟨d, hd, rfl⟩ := List.mem_map.mp hc
  have hspec := base58Char_spec d (h d hd)
  exact ⟨hspec.1, hspec.2.1⟩

/-! ## Encoding -/

/-- The loop writes the digits of a number, without a zero in front. -/
theorem encodeBase58Loop_spec (n : Nat) :
    ∃ digits, (encodeBase58Loop n).reverse = digits.map base58Char ∧ Positional.Digits 58 digits ∧
      Normal digits ∧ value 58 digits = n := by
  induction n using Nat.strong_induction_on with
  | _ n ih =>
    by_cases hzero : n = 0
    · refine ⟨[], ?_, nofun, nofun, hzero.symm⟩
      rw [hzero, encodeBase58Loop]
      rfl
    · obtain ⟨digits, hloop, hdigits, hnormal, hvalue⟩ := ih (n / 58) (by omega)
      have hmod : n % 58 < 58 := Nat.mod_lt n (by decide)
      refine ⟨digits ++ [n % 58], ?_, ?_, ?_, ?_⟩
      · have hdiv : (n : Int).tdiv 58 = (n / 58 : Nat) := rfl
        rw [encodeBase58Loop, if_pos (by omega), hdiv, List.reverse_cons, hloop, List.map_append]
        rfl
      · intro d hd
        rcases List.mem_append.mp hd with hd | hd
        · exact hdigits d hd
        · rwa [List.mem_singleton.mp hd]
      · cases digits with
        | nil =>
          intro d hd
          have hsmall : n / 58 = 0 := hvalue.symm
          rw [← Option.some.inj hd]
          omega
        | cons d digits => exact hnormal
      · rw [value_append, value_singleton, hvalue, List.length_singleton, Nat.pow_one]
        omega

theorem numberOf_reverse (vch : List UInt8) :
    numberOf (vch.reverse ++ [0]) = BigEndian.value vch := by
  have htop : SignMagnitude.topSet (0 :: vch) = false := rfl
  rw [numberOf, List.reverse_append, List.reverse_reverse, List.reverse_singleton,
    List.singleton_append, SignMagnitude.value_of_not_topSet htop, SignMagnitude.value_zero_cons]

theorem length_takeWhile_zero (vch : List UInt8) :
    (vch.takeWhile (· = 0)).length = leadingZeros (vch.map UInt8.toNat) := by
  rw [leadingZeros, List.takeWhile_map, List.length_map]
  congr 2
  funext c
  exact decide_eq_decide.mpr UInt8.toNat_inj.symm

/-- The text of bytes has the digits of their number, and a zero for each zero in front. -/
theorem encodeBase58_digits (vch : List UInt8) :
    ∃ digits, encodeBase58 vch = digits.map base58Char ∧
      Rebased 58 256 digits (vch.map UInt8.toNat) := by
  obtain ⟨digits, hloop, hdigits, hnormal, hvalue⟩ := encodeBase58Loop_spec (BigEndian.value vch)
  have hzeros := length_takeWhile_zero vch
  refine ⟨List.replicate (leadingZeros (vch.map UInt8.toNat)) 0 ++ digits, ?_, ?_, digits_bytes vch,
    leadingZeros_zeros_append _ hnormal, ?_⟩
  · unfold encodeBase58
    dsimp only
    rw [numberOf_reverse, List.reverse_append, hloop, List.map_append, List.map_replicate, ← hzeros,
      List.map_const', List.reverse_replicate]
  · intro d hd
    rcases List.mem_append.mp hd with hd | hd
    · rw [List.eq_of_mem_replicate hd]
      decide
    · exact hdigits d hd
  · rw [value_zeros_append, hvalue, value_bytes]

/-! ## Decoding -/

theorem magnitude_normal (n : Nat) : Normal ((SignMagnitude.magnitude n).map UInt8.toNat) := by
  by_cases hn : n = 0
  · rw [hn, SignMagnitude.magnitude_zero]
    exact nofun
  · have hlow := SignMagnitude.pow_le_of_magnitude hn
    have hvalue := SignMagnitude.value_magnitude n
    cases hbytes : SignMagnitude.magnitude n with
    | nil => exact nofun
    | cons b d =>
      rw [hbytes, List.length_cons, Nat.add_sub_cancel] at hlow
      rw [hbytes, BigEndian.value] at hvalue
      have hrest := BigEndian.value_lt d
      intro e he
      rw [List.map_cons, List.head?_cons, Option.mem_some] at he
      rintro rfl
      rw [he, Nat.zero_mul, Nat.zero_add] at hvalue
      omega

/-- Without the sign byte, the vector of a number is its magnitude. -/
theorem trimSign_getvch (n : Nat) : trimSign (getvch n) = (SignMagnitude.magnitude n).reverse := by
  have hvch : getvch n = (SignMagnitude.room n).reverse := by
    rw [getvch_eq, SignMagnitude.bytes_eq, if_neg (by omega), Int.natAbs_natCast]
  rw [hvch, SignMagnitude.room]
  have hnormal := magnitude_normal n
  generalize SignMagnitude.magnitude n = bytes at hnormal ⊢
  cases bytes with
  | nil => rfl
  | cons b d =>
    by_cases htop : SignMagnitude.topSet (b :: d) = true
    · have hb : 0x80 ≤ b := of_decide_eq_true htop
      rw [if_pos htop, trimSign, if_pos, List.reverse_cons, List.dropLast_concat]
      refine ⟨?_, ?_, ?_⟩
      · simp only [List.length_reverse, List.length_cons]
        omega
      · simp [List.getD_eq_getElem?_getD]
      · simpa [List.getD_eq_getElem?_getD] using hb
    · have hb : b ≠ 0 := fun hzero => hnormal 0 (by rw [hzero]; rfl) rfl
      rw [if_neg htop, trimSign, if_neg]
      rintro ⟨-, hlast, -⟩
      refine hb ?_
      simpa [List.getD_eq_getElem?_getD] using hlast

/-- What the loop makes of digits, and of what stands behind them. -/
theorem decodeBase58Loop_digits (hdigits : Positional.Digits 58 digits) (bn : Nat) (rest : List UInt8) :
    decodeBase58Loop bn (digits.map base58Char ++ rest) =
      decodeBase58Loop (bn * 58 ^ digits.length + value 58 digits : Nat) rest := by
  induction digits generalizing bn with
  | nil => rw [List.length_nil, Nat.pow_zero, Nat.mul_one]; rfl
  | cons d digits ih =>
    obtain ⟨hd, hrest⟩ := List.forall_mem_cons.mp hdigits
    have hstep : (bn : Int) * 58 + d = (bn * 58 + d : Nat) := by push_cast; rfl
    have hnumber : (bn * 58 + d) * 58 ^ digits.length + value 58 digits =
        bn * 58 ^ (d :: digits).length + value 58 (d :: digits) := by
      rw [value, List.length_cons, Nat.pow_succ]
      ring
    rw [List.map_cons, List.cons_append, decodeBase58Loop, (pszBase58_iff _ d).mpr ⟨hd, rfl⟩]
    dsimp only
    rw [hstep, ih hrest, hnumber]

/-- A text is digits up to some place. -/
theorem exists_base58_digits (p : List UInt8) :
    ∃ digits rest, p = digits.map base58Char ++ rest ∧ Positional.Digits 58 digits ∧
      ∀ c ∈ rest.head?, pszBase58.idxOf? c = none := by
  induction p with
  | nil => exact ⟨[], [], rfl, nofun, nofun⟩
  | cons c p ih =>
    cases hindex : pszBase58.idxOf? c with
    | none =>
      refine ⟨[], c :: p, rfl, nofun, fun d hd => ?_⟩
      rw [← Option.some.inj hd]
      exact hindex
    | some d =>
      obtain ⟨digits, rest, rfl, hdigits, hrest⟩ := ih
      obtain ⟨hd, rfl⟩ := (pszBase58_iff c d).mp hindex
      exact ⟨d :: digits, rest, rfl, List.forall_mem_cons.mpr ⟨hd, hdigits⟩, hrest⟩

/-- Where there is no digit, the rest of a text has to be white space. -/
theorem decodeBase58Loop_rest {rest : List UInt8}
    (hrest : ∀ c ∈ rest.head?, pszBase58.idxOf? c = none) (bn : Int) :
    decodeBase58Loop bn rest = if rest.dropWhile isSpace = [] then some bn else none := by
  cases rest with
  | nil => rfl
  | cons c p => rw [decodeBase58Loop, hrest c rfl]

theorem spaces_iff (str : List UInt8) : str.dropWhile isSpace = [] ↔ Spaces str :=
  List.dropWhile_eq_nil_iff

theorem head_spaces (h : Spaces after) : ∀ c ∈ after.head?, pszBase58.idxOf? c = none :=
  fun c hc => idxOf_space c (h c (List.mem_of_mem_head? hc))

/-- The white space in front goes away, and what comes next is digits and white space. -/
theorem dropWhile_before (hbefore : Spaces before) (hdigits : Positional.Digits 58 digits)
    (hafter : Spaces after) :
    ∃ rest, Spaces rest ∧
      (before ++ digits.map base58Char ++ after).dropWhile isSpace =
        digits.map base58Char ++ rest := by
  rw [List.append_assoc, List.dropWhile_append_of_pos hbefore]
  cases digits with
  | nil => exact ⟨[], nofun, (spaces_iff after).mpr hafter⟩
  | cons d digits =>
    have hspace := (base58Char_spec d (hdigits d List.mem_cons_self)).1
    refine ⟨after, hafter, ?_⟩
    rw [List.map_cons, List.cons_append, List.dropWhile_cons_of_neg (by rw [hspace]; decide)]

theorem takeWhile_digits (hdigits : Positional.Digits 58 digits) (hafter : Spaces after) :
    ((digits.map base58Char ++ after).takeWhile (· = base58Char 0)).length =
      leadingZeros digits := by
  induction digits with
  | nil =>
    cases after with
    | nil => rfl
    | cons c after =>
      have hspace := hafter c List.mem_cons_self
      have hne : c ≠ base58Char 0 := by
        rintro rfl
        exact absurd hspace (by decide +kernel)
      rw [List.map_nil, List.nil_append, List.takeWhile_cons_of_neg (by simpa using hne)]
      rfl
  | cons d digits ih =>
    obtain ⟨hd, hrest⟩ := List.forall_mem_cons.mp hdigits
    have hzero := (base58Char_spec d hd).2.2
    by_cases h : d = 0
    · have hzeros : leadingZeros (0 :: digits) = leadingZeros digits + 1 := rfl
      rw [h, hzeros, ← ih hrest, List.map_cons, List.cons_append, List.takeWhile_cons_of_pos
        (p := fun c => decide (c = base58Char 0)) (decide_eq_true rfl), List.length_cons]
    · have hne : ¬ base58Char d = base58Char 0 := fun heq => h (hzero.mp heq)
      rw [List.map_cons, List.cons_append, List.takeWhile_cons_of_neg (by simpa using hne),
        leadingZeros, List.takeWhile_cons_of_neg (by simpa using h)]
      rfl

/-- Digits with white space around them are read as the bytes of their number. -/
theorem decodeBase58_digits (hbefore : Spaces before) (hdigits : Positional.Digits 58 digits)
    (hafter : Spaces after) :
    ∃ vch, decodeBase58 (before ++ digits.map base58Char ++ after) = some vch ∧
      Rebased 58 256 digits (vch.map UInt8.toNat) := by
  obtain ⟨rest, hrest, hdrop⟩ := dropWhile_before hbefore hdigits hafter
  have hloop : decodeBase58Loop 0 (digits.map base58Char ++ rest) =
      some ((value 58 digits : Nat) : Int) := by
    have hrun := decodeBase58Loop_digits hdigits 0 rest
    rw [Nat.zero_mul, Nat.zero_add] at hrun
    exact hrun.trans ((decodeBase58Loop_rest (head_spaces hrest) _).trans
      (if_pos ((spaces_iff rest).mpr hrest)))
  refine ⟨List.replicate (leadingZeros digits) 0 ++ SignMagnitude.magnitude (value 58 digits), ?_,
    hdigits, digits_bytes _, ?_, ?_⟩
  · unfold decodeBase58
    dsimp only
    rw [hdrop, hloop, takeWhile_digits hdigits hrest]
    dsimp only
    rw [trimSign_getvch, List.reverse_reverse]
  · rw [List.map_append, List.map_replicate]
    exact (leadingZeros_zeros_append _ (magnitude_normal _)).symm
  · have hzeros : (List.replicate (leadingZeros digits) (0 : UInt8)).map UInt8.toNat =
        List.replicate (leadingZeros digits) 0 := List.map_replicate
    rw [List.map_append, hzeros, value_zeros_append, value_bytes, SignMagnitude.value_magnitude]

/-- A text that is read is digits with white space around them. -/
theorem digits_of_decodeBase58 {psz : List UInt8} (h : decodeBase58 psz = some vch) :
    ∃ before digits after, psz = before ++ digits.map base58Char ++ after ∧ Spaces before ∧
      Positional.Digits 58 digits ∧ Spaces after := by
  obtain ⟨digits, rest, hpsz, hdigits, hrest⟩ := exists_base58_digits (psz.dropWhile isSpace)
  have hloop := decodeBase58Loop_digits hdigits 0 rest
  rw [decodeBase58Loop_rest hrest] at hloop
  have hspaces : Spaces rest := by
    rw [← spaces_iff]
    by_contra hne
    rw [if_neg hne] at hloop
    unfold decodeBase58 at h
    dsimp only at h
    rw [hpsz, show decodeBase58Loop 0 _ = none from hloop] at h
    cases h
  refine ⟨psz.takeWhile isSpace, digits, rest, ?_, fun c => List.mem_takeWhile_imp, hdigits,
    hspaces⟩
  rw [List.append_assoc, ← hpsz, List.takeWhile_append_dropWhile]

theorem map_toNat_injective {vch vch' : List UInt8}
    (h : vch.map UInt8.toNat = vch'.map UInt8.toNat) : vch = vch' :=
  List.map_injective_iff.mpr (fun _ _ => UInt8.toNat_inj.mp) h

/-- Exactly the texts of the encoder are read, with white space around them. -/
theorem decodeBase58_iff (psz vch : List UInt8) :
    decodeBase58 psz = some vch ↔
      ∃ before after, Spaces before ∧ Spaces after ∧
        psz = before ++ encodeBase58 vch ++ after := by
  obtain ⟨digits, hencode, hrebased⟩ := encodeBase58_digits vch
  constructor
  · intro h
    obtain ⟨before, digits', after, rfl, hbefore, hdigits, hafter⟩ := digits_of_decodeBase58 h
    obtain ⟨vch', hdecode, hrebased'⟩ := decodeBase58_digits hbefore hdigits hafter
    obtain rfl := Option.some.inj (hdecode.symm.trans h)
    rw [hencode, hrebased.unique (by decide) hrebased']
    exact ⟨before, after, hbefore, hafter, rfl⟩
  · rintro ⟨before, after, hbefore, hafter, rfl⟩
    rw [hencode]
    obtain ⟨vch', hdecode, hrebased'⟩ := decodeBase58_digits hbefore hrebased.small hafter
    have hsame := hrebased'.symm.unique (by decide) hrebased.symm
    rw [hdecode, map_toNat_injective hsame]

theorem decodeBase58_encodeBase58 (vch : List UInt8) :
    decodeBase58 (encodeBase58 vch) = some vch :=
  (decodeBase58_iff _ vch).mpr ⟨[], [], nofun, nofun, (List.append_nil _).symm⟩

/-- A text has no white space and no terminator in it. -/
theorem encodeBase58_char (vch : List UInt8) {c : UInt8} (h : c ∈ encodeBase58 vch) :
    (∃ d < 58, c = base58Char d) ∧ isSpace c = false ∧ c ≠ 0 := by
  obtain ⟨digits, hencode, hrebased⟩ := encodeBase58_digits vch
  rw [hencode] at h
  obtain ⟨d, hd, hc⟩ := List.mem_map.mp h
  exact ⟨⟨d, hrebased.small d hd, hc.symm⟩, not_space_digits hrebased.small h⟩

/-- Only no bytes have an empty text. -/
theorem encodeBase58_ne_nil {vch : List UInt8} (h : vch ≠ []) : encodeBase58 vch ≠ [] := by
  intro hnil
  have hempty : decodeBase58 [] = some [] := by
    unfold decodeBase58
    dsimp only [List.dropWhile_nil, decodeBase58Loop]
    rw [getvch_zero]
    rfl
  have hread := decodeBase58_encodeBase58 vch
  rw [hnil, hempty] at hread
  exact h (Option.some.inj hread).symm

theorem zero_notMem_encodeBase58 (vch : List UInt8) : 0 ∉ encodeBase58 vch := fun h =>
  (encodeBase58_char vch h).2.2 rfl

/-! ## The checksum -/

section

variable (hash : List UInt8 → Uint256)

/-- The first four bytes of a hash. -/
def hashCheck (vch : List UInt8) : List UInt8 := (leBytes 32 (hash vch)).take 4

/-- `EncodeBase58Check`. -/
def encodeBase58Check (vchIn : List UInt8) : List UInt8 :=
  encodeBase58 (vchIn ++ hashCheck hash vchIn)

/-- `DecodeBase58Check`; `none` where it fails, and then `vchRet` is empty. -/
def decodeBase58Check (psz : List UInt8) : Option (List UInt8) :=
  match decodeBase58 psz with
  | none => none
  | some vchRet =>
    if vchRet.length < 4 then none
    else
      let vch := vchRet.take (vchRet.length - 4)
      if hashCheck hash vch ≠ vchRet.drop (vchRet.length - 4) then none else some vch

theorem length_hashCheck (vch : List UInt8) : (hashCheck hash vch).length = 4 := by
  rw [hashCheck, List.length_take, length_leBytes]
  rfl

/-- What passes the check is bytes with their checksum. -/
theorem decodeBase58Check_eq (psz vch : List UInt8) :
    decodeBase58Check hash psz = some vch ↔
      decodeBase58 psz = some (vch ++ hashCheck hash vch) := by
  unfold decodeBase58Check
  cases decodeBase58 psz with
  | none => exact ⟨nofun, nofun⟩
  | some vchRet =>
    dsimp only
    rw [Option.some.injEq]
    constructor
    · intro h
      split at h
      · cases h
      · split at h
        · cases h
        · next hcheck =>
          obtain rfl := Option.some.inj h
          rw [not_not.mp hcheck, List.take_append_drop]
    · rintro rfl
      have hlength : (vch ++ hashCheck hash vch).length - 4 = vch.length := by
        rw [List.length_append, length_hashCheck]
        omega
      rw [if_neg (by rw [List.length_append, length_hashCheck]; omega), hlength,
        List.take_left' rfl, List.drop_left' rfl, if_neg (not_not.mpr rfl)]

theorem decodeBase58Check_iff (psz vch : List UInt8) :
    decodeBase58Check hash psz = some vch ↔
      ∃ before after, Spaces before ∧ Spaces after ∧
        psz = before ++ encodeBase58Check hash vch ++ after := by
  rw [decodeBase58Check_eq, decodeBase58_iff]
  rfl

end

/-! ## Addresses -/

structure CBase58Data where
  /-- the version byte -/
  nVersion : UInt8
  /-- the actually encoded data -/
  vchData : List UInt8
deriving Repr, DecidableEq

namespace CBase58Data

variable (hash : List UInt8 → Uint256) (fTestNet : Bool) (data : CBase58Data)

def empty : CBase58Data := ⟨0, []⟩

/-- `SetData`. -/
def ofData (nVersionIn : Nat) (pdata : List UInt8) : CBase58Data := ⟨UInt8.ofNat nVersionIn, pdata⟩

/-- `SetString` on a string. -/
def setString (str : List UInt8) : CBase58Data × Bool :=
  match (decodeBase58Check hash (cStr str)).getD [] with
  | [] => (empty, false)
  | version :: vchTemp => (⟨version, vchTemp⟩, true)

/-- `ToString`. -/
def toString : List UInt8 := encodeBase58Check hash (data.nVersion :: data.vchData)

/-- What was written is read back. -/
theorem setString_toString : setString hash (data.toString hash) = (data, true) := by
  have hcheck := (decodeBase58Check_iff hash (data.toString hash) _).mpr
    ⟨[], [], nofun, nofun, (List.append_nil _).symm⟩
  have hstr : cStr (data.toString hash) = data.toString hash :=
    cStr_eq (zero_notMem_encodeBase58 _)
  unfold setString
  rw [hstr, hcheck]
  rfl

end CBase58Data

namespace CBitcoinAddress

variable (fTestNet : Bool) (addr : CBase58Data)

def pubkeyAddress : Nat := 53
def scriptAddress : Nat := 85
def pubkeyAddressTest : Nat := 111
def scriptAddressTest : Nat := 196

/-- `Set`, on a fresh address; with no destination the address stays as it is. -/
def ofDestination : CTxDestination → CBase58Data
  | .noDestination => .empty
  | .keyID id => .ofData (if fTestNet then pubkeyAddressTest else pubkeyAddress) id
  | .scriptID id => .ofData (if fTestNet then scriptAddressTest else scriptAddress) id

/-- `IsValid`. -/
def isValid : Bool :=
  if addr.nVersion.toNat = pubkeyAddress ∨ addr.nVersion.toNat = scriptAddress then
    (false == fTestNet) && decide (addr.vchData.length = 20)
  else if addr.nVersion.toNat = pubkeyAddressTest ∨ addr.nVersion.toNat = scriptAddressTest then
    (true == fTestNet) && decide (addr.vchData.length = 20)
  else false

/-- `Get`. -/
def get : CTxDestination :=
  if ¬ isValid fTestNet addr then .noDestination
  else if addr.nVersion.toNat = pubkeyAddress ∨ addr.nVersion.toNat = pubkeyAddressTest then
    .keyID (addr.vchData.take 20)
  else if addr.nVersion.toNat = scriptAddress ∨ addr.nVersion.toNat = scriptAddressTest then
    .scriptID (addr.vchData.take 20)
  else .noDestination

end CBitcoinAddress

/-- A destination as the source has it, with an id of 160 bits. -/
def CTxDestination.Sized : CTxDestination → Prop
  | .noDestination => True
  | .keyID id => id.length = 20
  | .scriptID id => id.length = 20

namespace CBitcoinAddress

/-- A destination is valid and read as it was, unless there is none. -/
theorem get_ofDestination (fTestNet : Bool) {dest : CTxDestination} (h : dest.Sized) :
    isValid fTestNet (ofDestination fTestNet dest) = decide (dest ≠ .noDestination) ∧
      get fTestNet (ofDestination fTestNet dest) = dest := by
  cases dest with
  | noDestination => cases fTestNet <;> exact ⟨rfl, rfl⟩
  | keyID id =>
    have hlength : id.length = 20 := h
    have htake : id.take 20 = id := List.take_of_length_le (Nat.le_of_eq hlength)
    cases fTestNet <;>
      simp [ofDestination, CBase58Data.ofData, isValid, get, pubkeyAddress, scriptAddress,
        pubkeyAddressTest, scriptAddressTest, hlength, htake]
  | scriptID id =>
    have hlength : id.length = 20 := h
    have htake : id.take 20 = id := List.take_of_length_le (Nat.le_of_eq hlength)
    cases fTestNet <;>
      simp [ofDestination, CBase58Data.ofData, isValid, get, pubkeyAddress, scriptAddress,
        pubkeyAddressTest, scriptAddressTest, hlength, htake]

end CBitcoinAddress

/-! ## Secrets -/

namespace CBitcoinSecret

variable (hash : List UInt8 → Uint256) (fTestNet : Bool) (secret : CBase58Data)

/-- `SetSecret`, where the secret has the 32 bytes that it asserts. -/
def ofSecret (vchSecret : List UInt8) (fCompressed : Bool) : CBase58Data :=
  let data := CBase58Data.ofData (128 + if fTestNet then CBitcoinAddress.pubkeyAddressTest
    else CBitcoinAddress.pubkeyAddress) vchSecret
  if fCompressed then { data with vchData := data.vchData ++ [1] } else data

/-- `GetSecret`: the secret and whether it is for a compressed key. -/
def getSecret : List UInt8 × Bool :=
  (secret.vchData.take 32, decide (secret.vchData.length = 33))

/-- `IsValid`. -/
def isValid : Bool :=
  let sized := decide (secret.vchData.length = 32 ∨
    secret.vchData.length = 33 ∧ secret.vchData.getD 32 0 = 1)
  if secret.nVersion.toNat = 128 + CBitcoinAddress.pubkeyAddress then (false == fTestNet) && sized
  else if secret.nVersion.toNat = 128 + CBitcoinAddress.pubkeyAddressTest then
    (true == fTestNet) && sized
  else false

/-- `SetString`. -/
def setString (strSecret : List UInt8) : CBase58Data × Bool :=
  let data := CBase58Data.setString hash strSecret
  (data.1, data.2 && isValid fTestNet data.1)

/-- A secret is valid and read as it was. -/
theorem getSecret_ofSecret {vchSecret : List UInt8} (h : vchSecret.length = 32)
    (fCompressed : Bool) :
    isValid fTestNet (ofSecret fTestNet vchSecret fCompressed) = true ∧
      getSecret (ofSecret fTestNet vchSecret fCompressed) = (vchSecret, fCompressed) := by
  have htake : vchSecret.take 32 = vchSecret := List.take_of_length_le (Nat.le_of_eq h)
  cases fTestNet <;> cases fCompressed <;>
    simp [ofSecret, CBase58Data.ofData, isValid, getSecret, CBitcoinAddress.pubkeyAddress,
      CBitcoinAddress.pubkeyAddressTest, List.getD_eq_getElem?_getD, h, htake]

/-- The text of a secret is read as the secret. -/
theorem setString_toString {vchSecret : List UInt8} (h : vchSecret.length = 32)
    (fCompressed : Bool) :
    (setString hash fTestNet ((ofSecret fTestNet vchSecret fCompressed).toString hash)).2 = true ∧
      getSecret (setString hash fTestNet
        ((ofSecret fTestNet vchSecret fCompressed).toString hash)).1 = (vchSecret, fCompressed) := by
  obtain ⟨hvalid, hget⟩ := getSecret_ofSecret fTestNet h fCompressed
  unfold setString
  dsimp only
  rw [CBase58Data.setString_toString, hvalid]
  exact ⟨rfl, hget⟩

end CBitcoinSecret

/-! ## Round trips -/

/-- Texts are read back, each in one form up to white space; an address is valid again when it has a
destination. -/
theorem base58_exact (hash : List UInt8 → Uint256) (fTestNet : Bool) :
    (∀ vch, decodeBase58 (encodeBase58 vch) = some vch) ∧
    (∀ psz vch, decodeBase58 psz = some vch ↔
      ∃ before after, Spaces before ∧ Spaces after ∧
        psz = before ++ encodeBase58 vch ++ after) ∧
    (∀ psz vch, decodeBase58Check hash psz = some vch ↔
      ∃ before after, Spaces before ∧ Spaces after ∧
        psz = before ++ encodeBase58Check hash vch ++ after) ∧
    (∀ dest : CTxDestination, dest.Sized →
      let addr := (CBase58Data.setString hash
        ((CBitcoinAddress.ofDestination fTestNet dest).toString hash)).1
      (CBitcoinAddress.isValid fTestNet addr = true ↔ dest ≠ .noDestination) ∧
        CBitcoinAddress.get fTestNet addr = dest) ∧
    (∀ (vchSecret : List UInt8) (fCompressed : Bool), vchSecret.length = 32 →
      let secret := CBitcoinSecret.setString hash fTestNet
        ((CBitcoinSecret.ofSecret fTestNet vchSecret fCompressed).toString hash)
      secret.2 = true ∧ CBitcoinSecret.getSecret secret.1 = (vchSecret, fCompressed)) := by
  refine ⟨decodeBase58_encodeBase58, decodeBase58_iff, decodeBase58Check_iff hash,
    fun dest hdest => ?_, fun vchSecret fCompressed hsecret => ?_⟩
  · obtain ⟨hvalid, hget⟩ := CBitcoinAddress.get_ofDestination fTestNet hdest
    dsimp only
    rw [CBase58Data.setString_toString, hvalid, decide_eq_true_iff]
    exact ⟨Iff.rfl, hget⟩
  · exact CBitcoinSecret.setString_toString hash fTestNet hsecret fCompressed

theorem base58_exact_zeros :
    CBitcoinAddress.get false (CBase58Data.setString (fun _ => 0)
      ((CBitcoinAddress.ofDestination false (.keyID (List.replicate 20 0))).toString
        fun _ => 0)).1 = .keyID (List.replicate 20 0) ∧
    CBitcoinSecret.getSecret (CBitcoinSecret.setString (fun _ => 0) false
      ((CBitcoinSecret.ofSecret false (List.replicate 32 1) true).toString
        fun _ => 0)).1 = (List.replicate 32 1, true) :=
  ⟨((base58_exact (fun _ => 0) false).2.2.2.1 (.keyID (List.replicate 20 0)) rfl).2,
    ((base58_exact (fun _ => 0) false).2.2.2.2 (List.replicate 32 1) true rfl).2⟩

/-- The text of no destination is read back, and is not valid. -/
theorem not_address_valid :
    ¬ ∀ (hash : List UInt8 → Uint256) (fTestNet : Bool) (dest : CTxDestination),
      CBitcoinAddress.isValid fTestNet (CBase58Data.setString hash
        ((CBitcoinAddress.ofDestination fTestNet dest).toString hash)).1 = true := by
  intro h
  have hvalid := h (fun _ => 0) false .noDestination
  rw [CBase58Data.setString_toString] at hvalid
  cases hvalid

end NoLimitCoin
