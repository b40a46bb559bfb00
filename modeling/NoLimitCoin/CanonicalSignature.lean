import NoLimitCoin.Interpreter
import NoLimitCoin.Lib.BigEndian

/-!
# Canonical signatures

`IsCanonicalSignature` of `script.cpp` and the range check of `key.cpp` that it ends with.  The
length bytes of a signature are indexes into it before they are known to be consistent.

Results:
1. `compareBigEndian_eq`: the comparison is that of the numbers.
2. `isCanonicalSignature_layout`: the checks, for a signature taken apart.
3. `isCanonicalSignature_strict`: what is accepted, that no byte outside is read, and that no two
   signatures are accepted for the same numbers.
-/

namespace NoLimitCoin

namespace Interpreter

open BigEndian

/-! ## The range of an element -/

/-- The last loop of `CompareBigEndian`, of numbers of one length. -/
def compareSameLength : (c1 c2 : List UInt8) → Int
  | a :: c1, b :: c2 => if b < a then 1 else if a < b then -1 else compareSameLength c1 c2
  | _, _ => 0

/-- `CompareBigEndian`: the bytes that only one number has are compared with zero. -/
def compareBigEndian (c1 c2 : List UInt8) : Int :=
  let n1 := c1.length - c2.length
  let n2 := c2.length - c1.length
  if (c1.take n1).any (· ≠ 0) then 1
  else if (c2.take n2).any (· ≠ 0) then -1
  else compareSameLength (c1.drop n1) (c2.drop n2)

def vchMaxModOrder : List UInt8 :=
  [0xFF, 0xFF, 0xFF, 0xFF, 0xFF, 0xFF, 0xFF, 0xFF, 0xFF, 0xFF, 0xFF, 0xFF, 0xFF, 0xFF, 0xFF, 0xFE,
    0xBA, 0xAE, 0xDC, 0xE6, 0xAF, 0x48, 0xA0, 0x3B, 0xBF, 0xD2, 0x5E, 0x8C, 0xD0, 0x36, 0x41, 0x40]

def vchMaxModHalfOrder : List UInt8 :=
  [0x7F, 0xFF, 0xFF, 0xFF, 0xFF, 0xFF, 0xFF, 0xFF, 0xFF, 0xFF, 0xFF, 0xFF, 0xFF, 0xFF, 0xFF, 0xFF,
    0x5D, 0x57, 0x6E, 0x73, 0x57, 0xA4, 0x50, 0x1D, 0xDF, 0xE9, 0x2F, 0x46, 0x68, 0x1B, 0x20, 0xA0]

def vchZero : List UInt8 := []

/-- `CKey::CheckSignatureElement`. -/
def checkSignatureElement (vch : List UInt8) (half : Bool) : Bool :=
  0 < compareBigEndian vch vchZero &&
    compareBigEndian vch (if half then vchMaxModHalfOrder else vchMaxModOrder) ≤ 0

/-! ## The bytes that are read -/

/-- The checks that `R` and `S` share; `none` when a byte outside is read. -/
def readNumber (vchSig : Valtype) (pos nLen : Nat) : Option Bool :=
  vchSig[pos - 2]?.bind fun type =>
    if type ≠ 0x02 then some false
    else if nLen = 0 then some false
    else vchSig[pos]?.bind fun first =>
      if 0x80 ≤ first then some false
      else if 1 < nLen ∧ first = 0 then vchSig[pos + 1]?.map (0x80 ≤ ·)
      else some true

/-- `IsCanonicalSignature`, in the order of its reads. -/
def readSignature (env : EvalEnv) (vchSig : Valtype) : Option Bool :=
  if vchSig.length < 9 || 73 < vchSig.length then some false
  else vchSig[vchSig.length - 1]?.bind fun last =>
    if (last &&& 0x7f) < 1 || 3 < (last &&& 0x7f) then some false
    else vchSig[0]?.bind fun type =>
      if type ≠ 0x30 then some false
      else vchSig[1]?.bind fun len =>
        if len.toNat ≠ vchSig.length - 3 then some false
        else vchSig[3]?.bind fun lenR =>
          if 5 + lenR.toNat ≥ vchSig.length then some false
          else vchSig[5 + lenR.toNat]?.bind fun lenS =>
            if lenR.toNat + lenS.toNat + 7 ≠ vchSig.length then some false
            else (readNumber vchSig 4 lenR.toNat).bind fun fR =>
              if !fR then some false
              else (readNumber vchSig (6 + lenR.toNat) lenS.toNat).bind fun fS =>
                if !fS then some false
                else if 6 + lenR.toNat + lenS.toNat ≤ vchSig.length then
                  some (env.checkSignatureElement
                    ((vchSig.drop (6 + lenR.toNat)).take lenS.toNat))
                else none

/-! ## What the comparison means -/

theorem compareSameLength_eq {c1 c2 : List UInt8} (h : c1.length = c2.length) :
    compareSameLength c1 c2 =
      if value c2 < value c1 then 1 else if value c1 < value c2 then -1 else 0 := by
  induction c1 generalizing c2 with
  | nil =>
    rw [List.eq_nil_of_length_eq_zero h.symm]
    rfl
  | cons a c1 ih =>
    cases c2 with
    | nil => cases h
    | cons b c2 =>
      have hlength : c1.length = c2.length := Nat.succ.inj h
      rw [compareSameLength]
      split
      · next hlt => rw [if_pos (value_cons_lt hlength.symm hlt)]
      split
      · next hlt =>
        have hvalue := value_cons_lt hlength hlt
        rw [if_neg hvalue.not_gt, if_pos hvalue]
      · next hge hle =>
        rw [UInt8.lt_iff_toNat_lt, not_lt] at hge hle
        obtain rfl := UInt8.toNat_inj.mp (le_antisymm hge hle)
        rw [ih hlength, value, value, hlength]
        simp only [Nat.add_lt_add_iff_left]

theorem value_eq_of_take {c : List UInt8} {n : Nat} (h : (c.take n).any (· ≠ 0) = false) :
    value c = value (c.drop n) := by
  have hzero : value (c.take n) = 0 := by
    by_contra hne
    obtain ⟨b, hmem, hb⟩ := value_pos_iff.mp (Nat.pos_of_ne_zero hne)
    exact absurd (decide_eq_true hb) (by simpa using List.any_eq_false.mp h b hmem)
  have happend := value_append (c.take n) (c.drop n)
  rw [List.take_append_drop, hzero, Nat.zero_mul, Nat.zero_add] at happend
  exact happend

theorem lt_value_of_take {c : List UInt8} {n : Nat} (h : (c.take n).any (· ≠ 0) = true) :
    256 ^ (c.length - n) ≤ value c := by
  obtain ⟨b, hmem, hb⟩ := List.any_eq_true.mp h
  have hpos := value_pos_iff.mpr ⟨b, hmem, of_decide_eq_true hb⟩
  have happend := value_append (c.take n) (c.drop n)
  rw [List.take_append_drop, List.length_drop] at happend
  have hmul := Nat.mul_le_mul_right (256 ^ (c.length - n)) hpos
  rw [Nat.succ_mul, Nat.zero_mul, Nat.zero_add] at hmul
  omega

/-- `CompareBigEndian` compares the numbers. -/
theorem compareBigEndian_eq (c1 c2 : List UInt8) : compareBigEndian c1 c2 =
    if value c2 < value c1 then 1 else if value c1 < value c2 then -1 else 0 := by
  unfold compareBigEndian
  dsimp only
  split
  · next hlonger =>
    have hle := lt_value_of_take hlonger
    have hlt := value_lt c2
    have hlength : c2.length ≤ c1.length := by
      by_contra hless
      rw [Nat.sub_eq_zero_of_le (by omega), List.take_zero] at hlonger
      cases hlonger
    rw [Nat.sub_sub_self hlength] at hle
    rw [if_pos (hlt.trans_le hle)]
  split
  · next hlonger =>
    have hle := lt_value_of_take hlonger
    have hlt := value_lt c1
    have hlength : c1.length ≤ c2.length := by
      by_contra hless
      rw [Nat.sub_eq_zero_of_le (by omega), List.take_zero] at hlonger
      cases hlonger
    rw [Nat.sub_sub_self hlength] at hle
    have hvalue := hlt.trans_le hle
    rw [if_neg hvalue.not_gt, if_pos hvalue]
  · next h1 h2 =>
    rw [Bool.not_eq_true] at h1 h2
    rw [compareSameLength_eq (by rw [List.length_drop, List.length_drop]; omega),
      ← value_eq_of_take h1, ← value_eq_of_take h2]

/-- The order of the generator. -/
def generatorOrder : Nat := 0xFFFFFFFFFFFFFFFFFFFFFFFFFFFFFFFEBAAEDCE6AF48A03BBFD25E8CD0364141

theorem value_vchMaxModHalfOrder : value vchMaxModHalfOrder = generatorOrder / 2 := by
  decide +kernel

theorem checkSignatureElement_half (vch : List UInt8) : checkSignatureElement vch true = true ↔
    1 ≤ value vch ∧ value vch ≤ generatorOrder / 2 := by
  unfold checkSignatureElement
  rw [if_pos rfl, compareBigEndian_eq, compareBigEndian_eq, value_vchMaxModHalfOrder,
    Bool.and_eq_true, decide_eq_true_eq, decide_eq_true_eq]
  have hzero : value vchZero = 0 := rfl
  rw [hzero]
  constructor
  · rintro ⟨hpos, hle⟩
    refine ⟨?_, ?_⟩
    · by_contra hless
      rw [if_neg (by omega), if_neg (by omega)] at hpos
      exact absurd hpos (lt_irrefl _)
    · by_contra hmore
      rw [if_pos (by omega)] at hle
      exact absurd hle (by decide)
  · rintro ⟨hpos, hle⟩
    rw [if_pos (by omega), if_neg (by omega)]
    refine ⟨Int.one_pos, ?_⟩
    split
    · decide
    · exact le_refl _

/-! ## A signature taken apart -/

/-- The fields of a signature. -/
structure SigFields where
  type : UInt8
  len : UInt8
  typeR : UInt8
  lenR : UInt8
  R : List UInt8
  typeS : UInt8
  lenS : UInt8
  S : List UInt8
  hashType : UInt8

namespace SigFields

def bytes (f : SigFields) : Valtype :=
  f.type :: f.len :: f.typeR :: f.lenR :: (f.R ++ f.typeS :: f.lenS :: (f.S ++ [f.hashType]))

variable {f : SigFields}

theorem length_bytes : f.bytes.length = f.R.length + f.S.length + 7 := by
  unfold bytes
  simp only [List.length_cons, List.length_append, List.length_nil]
  omega

theorem drop_numberR : f.bytes.drop 2 =
    f.typeR :: f.lenR :: (f.R ++ f.typeS :: f.lenS :: (f.S ++ [f.hashType])) := rfl

theorem drop_numberS : f.bytes.drop (f.R.length + 4) =
    f.typeS :: f.lenS :: (f.S ++ [f.hashType]) := by
  show (f.type :: f.len :: f.typeR :: f.lenR :: (f.R ++ _)).drop (f.R.length + 4) = _
  rw [List.drop_succ_cons, List.drop_succ_cons, List.drop_succ_cons, List.drop_succ_cons]
  exact List.drop_left

end SigFields

theorem getElem?_of_drop {α : Type} {l rest : List α} {n : Nat} (h : l.drop n = rest) (i : Nat) :
    l[n + i]? = rest[i]? := by
  rw [← h, List.getElem?_drop]

/-- The checks of a number, at its type byte. -/
theorem isCanonicalNumber_iff {vchSig n rest : Valtype} {type len : UInt8} {pos : Nat}
    (h : vchSig.drop pos = type :: len :: (n ++ rest)) :
    isCanonicalNumber vchSig (pos + 2) n.length = true ↔ type = 2 ∧ Minimal n := by
  have htype : vchSig[pos]? = some type := getElem?_of_drop h 0
  have hfirst : vchSig[pos + 2]? = (n ++ rest)[0]? := getElem?_of_drop h 2
  have hsecond : vchSig[pos + 2 + 1]? = (n ++ rest)[1]? := getElem?_of_drop h 3
  unfold isCanonicalNumber
  rw [Nat.add_sub_cancel, List.getD_eq_getElem?_getD, List.getD_eq_getElem?_getD,
    List.getD_eq_getElem?_getD, htype, hfirst, hsecond, Bool.and_eq_true, Bool.and_eq_true,
    Bool.and_eq_true, decide_eq_true_eq, decide_eq_true_eq, decide_eq_true_eq, Option.getD_some,
    and_assoc, and_assoc]
  refine and_congr_right fun _ => ?_
  cases n with
  | nil =>
    refine ⟨fun hne => absurd rfl hne.1, fun hn => ?_⟩
    obtain ⟨b, more, heq, -⟩ := hn.nonneg
    cases heq
  | cons b n =>
    rw [List.cons_append, List.getElem?_cons_zero, Option.getD_some, List.getElem?_cons_succ]
    constructor
    · rintro ⟨-, hsign, hpad⟩
      refine ⟨⟨b, n, rfl, hsign⟩, fun more heq => ?_⟩
      obtain ⟨rfl, rfl⟩ := List.cons.inj heq
      cases n with
      | nil => exact .inl rfl
      | cons c more =>
        refine .inr ⟨c, more, rfl, ?_⟩
        rw [List.cons_append, List.getElem?_cons_zero, Option.getD_some] at hpad
        by_contra hc
        rw [UInt8.not_le] at hc
        simp [hc] at hpad
    · rintro ⟨hnonneg, hshort⟩
      obtain ⟨b', more, heq, hsign⟩ := hnonneg
      obtain ⟨rfl, rfl⟩ := List.cons.inj heq
      refine ⟨Nat.succ_ne_zero _, hsign, ?_⟩
      by_cases hb : b = 0
      · subst hb
        rcases hshort n rfl with rfl | ⟨c, more, rfl, hc⟩
        · rfl
        · rw [List.cons_append, List.getElem?_cons_zero, Option.getD_some]
          simp [UInt8.not_lt.mpr hc]
      · simp [hb]

/-- The checks, for a signature taken apart. -/
theorem isCanonicalSignature_layout {env : EvalEnv} {f : SigFields}
    (hR : f.lenR.toNat = f.R.length) (hS : f.lenS.toNat = f.S.length) :
    isCanonicalSignature env f.bytes = true ↔
      9 ≤ f.bytes.length ∧ f.bytes.length ≤ 73 ∧
      (1 ≤ f.hashType &&& 0x7f ∧ f.hashType &&& 0x7f ≤ 3) ∧ f.type = 0x30 ∧
      f.len.toNat = f.bytes.length - 3 ∧ (f.typeR = 2 ∧ Minimal f.R) ∧
      (f.typeS = 2 ∧ Minimal f.S) ∧ env.checkSignatureElement f.S = true := by
  have hlength := f.length_bytes
  have hlast : f.bytes[f.bytes.length - 1]? = some f.hashType := by
    rw [hlength, show f.R.length + f.S.length + 7 - 1 = f.R.length + 4 + (f.S.length + 2) by omega,
      getElem?_of_drop f.drop_numberS]
    exact List.getElem?_concat_length
  have hlenS : f.bytes[5 + f.R.length]? = some f.lenS := by
    rw [show 5 + f.R.length = f.R.length + 4 + 1 by omega, getElem?_of_drop f.drop_numberS]
    rfl
  have helement : (f.bytes.drop (6 + f.R.length)).take f.S.length = f.S := by
    rw [show 6 + f.R.length = f.R.length + 4 + 2 by omega, ← List.drop_drop, f.drop_numberS]
    exact List.take_left
  have hnumberR := @isCanonicalNumber_iff f.bytes f.R _ f.typeR f.lenR 2 f.drop_numberR
  have hnumberS := @isCanonicalNumber_iff f.bytes f.S [f.hashType] f.typeS f.lenS
    (f.R.length + 4) f.drop_numberS
  have hmarker : (f.bytes.getD 3 0).toNat = f.R.length := hR
  have hfirst : f.bytes.getD 0 0 = f.type := rfl
  have hlen : f.bytes.getD 1 0 = f.len := rfl
  unfold isCanonicalSignature
  dsimp only
  rw [hmarker, hfirst, hlen, List.getD_eq_getElem?_getD, List.getD_eq_getElem?_getD, hlast, hlenS,
    Option.getD_some, Option.getD_some, hS, helement]
  rw [show 6 + f.R.length = f.R.length + 4 + 2 by omega, ← hnumberR, ← hnumberS]
  simp only [Bool.if_false_left, Bool.and_eq_true, Bool.or_eq_true, Bool.not_eq_true',
    decide_eq_false_iff_not, decide_eq_true_eq, not_or, not_not, Nat.not_lt, UInt8.not_lt, ge_iff_le,
    and_assoc]
  constructor
  · rintro ⟨h9, h73, hlow, hhigh, htype, hmarker, -, -, hR, hS, hcheck⟩
    exact ⟨h9, h73, hlow, hhigh, htype, hmarker, hR, hS, hcheck⟩
  · rintro ⟨h9, h73, hlow, hhigh, htype, hmarker, hR, hS, hcheck⟩
    exact ⟨h9, h73, hlow, hhigh, htype, hmarker, by omega, by omega, hR, hS, hcheck⟩

/-- With consistent lengths a byte string is a signature that can be taken apart. -/
theorem exists_fields {vchSig : Valtype} (hmin : 4 ≤ vchSig.length)
    (hsum : (vchSig.getD 3 0).toNat + (vchSig.getD (5 + (vchSig.getD 3 0).toNat) 0).toNat + 7 =
      vchSig.length) :
    ∃ f : SigFields, vchSig = f.bytes ∧ f.lenR.toNat = f.R.length ∧
      f.lenS.toNat = f.S.length := by
  obtain ⟨type, len, typeR, lenR, tail, rfl⟩ :
      ∃ type len typeR lenR tail, vchSig = type :: len :: typeR :: lenR :: tail := by
    match vchSig, hmin with
    | type :: len :: typeR :: lenR :: tail, _ => exact ⟨type, len, typeR, lenR, tail, rfl⟩
  have hlenR : ((type :: len :: typeR :: lenR :: tail).getD 3 0).toNat = lenR.toNat := rfl
  rw [hlenR] at hsum
  simp only [List.length_cons] at hsum
  have htail : tail = tail.take lenR.toNat ++ tail.drop lenR.toNat :=
    (List.take_append_drop _ _).symm
  have hlenS : (type :: len :: typeR :: lenR :: tail).getD (5 + lenR.toNat) 0 =
      (tail.drop lenR.toNat).getD 1 0 := by
    rw [List.getD_eq_getElem?_getD, List.getD_eq_getElem?_getD, List.getElem?_drop,
      show 5 + lenR.toNat = lenR.toNat + 1 + 4 by omega]
    rfl
  rw [hlenS] at hsum
  have hdrop : (tail.drop lenR.toNat).length = tail.length - lenR.toNat := List.length_drop
  generalize htailS : tail.drop lenR.toNat = tailS at *
  obtain ⟨typeS, lenS, rest, rfl⟩ : ∃ typeS lenS rest, tailS = typeS :: lenS :: rest := by
    match tailS with
    | [] => exact absurd hdrop (by simp only [List.length_nil]; omega)
    | [_] => exact absurd hdrop (by simp only [List.length_cons, List.length_nil]; omega)
    | typeS :: lenS :: rest => exact ⟨typeS, lenS, rest, rfl⟩
  have hlenS' : (typeS :: lenS :: rest).getD 1 0 = lenS := rfl
  rw [hlenS'] at hsum
  simp only [List.length_cons] at hdrop
  have hne : rest ≠ [] := by
    rintro rfl
    rw [List.length_nil] at hdrop
    omega
  refine ⟨⟨type, len, typeR, lenR, tail.take lenR.toNat, typeS, lenS, rest.dropLast,
    rest.getLast hne⟩, ?_, ?_, ?_⟩
  · unfold SigFields.bytes
    dsimp only
    rw [List.dropLast_concat_getLast, ← htail]
  · dsimp only
    rw [List.length_take]
    omega
  · dsimp only
    rw [List.length_dropLast]
    omega

/-! ## No byte outside is read -/

theorem getElem?_eq_getD {vchSig : Valtype} {i : Nat} (h : i < vchSig.length) :
    vchSig[i]? = some (vchSig.getD i 0) := by
  rw [List.getD_eq_getElem _ _ h, List.getElem?_eq_getElem h]

theorem readNumber_eq {vchSig : Valtype} {pos nLen : Nat} (hpos : 2 ≤ pos)
    (h : pos + nLen ≤ vchSig.length) :
    readNumber vchSig pos nLen = some (isCanonicalNumber vchSig pos nLen) := by
  unfold readNumber isCanonicalNumber
  by_cases hzero : nLen = 0
  · subst hzero
    by_cases hread : pos - 2 < vchSig.length
    · rw [getElem?_eq_getD hread, Option.bind_some]
      by_cases htype : vchSig.getD (pos - 2) 0 = 0x02
      · rw [htype]
        rfl
      · rw [if_pos htype, decide_eq_false htype]
        rfl
    · omega
  rw [getElem?_eq_getD (by omega), Option.bind_some]
  by_cases htype : vchSig.getD (pos - 2) 0 = 0x02
  · rw [if_neg (not_not.mpr htype), if_neg hzero, getElem?_eq_getD (by omega), Option.bind_some,
      decide_eq_true htype, decide_eq_true hzero]
    split
    · next hsign => rw [decide_eq_false (UInt8.not_lt.mpr hsign)]; rfl
    · next hsign =>
      rw [decide_eq_true (UInt8.not_le.mp hsign)]
      split
      · next hpad =>
        rw [getElem?_eq_getD (by omega), decide_eq_true hpad.1, decide_eq_true hpad.2]
        simp only [Option.map_some, Bool.true_and, Option.some.injEq]
        rw [← decide_not]
        exact decide_eq_decide.mpr UInt8.not_lt.symm
      · next hpad =>
        rw [← Bool.decide_and, decide_eq_false hpad]
        rfl
  · rw [if_pos htype, decide_eq_false htype]
    rfl

/-- Every byte that is read is there. -/
theorem readSignature_eq (env : EvalEnv) (vchSig : Valtype) :
    readSignature env vchSig = some (isCanonicalSignature env vchSig) := by
  unfold readSignature isCanonicalSignature
  dsimp only
  by_cases hsize : (decide (vchSig.length < 9) || decide (73 < vchSig.length)) = true
  · rw [if_pos hsize, if_pos hsize]
  rw [if_neg hsize, if_neg hsize]
  rw [Bool.not_eq_true, Bool.or_eq_false_iff, decide_eq_false_iff_not, not_lt] at hsize
  have hnine := hsize.1
  rw [getElem?_eq_getD (by omega : vchSig.length - 1 < _), Option.bind_some]
  by_cases htype : (decide (vchSig.getD (vchSig.length - 1) 0 &&& 0x7f < 1) ||
      decide (3 < vchSig.getD (vchSig.length - 1) 0 &&& 0x7f)) = true
  · rw [if_pos htype, if_pos htype]
  rw [if_neg htype, if_neg htype, getElem?_eq_getD (by omega : 0 < vchSig.length),
    Option.bind_some]
  by_cases hfirst : vchSig.getD 0 0 = 0x30
  swap
  · rw [if_pos hfirst, if_pos hfirst]
  rw [if_neg (not_not.mpr hfirst), if_neg (not_not.mpr hfirst),
    getElem?_eq_getD (by omega : 1 < vchSig.length), Option.bind_some]
  by_cases hlen : (vchSig.getD 1 0).toNat = vchSig.length - 3
  swap
  · rw [if_pos hlen, if_pos hlen]
  rw [if_neg (not_not.mpr hlen), if_neg (not_not.mpr hlen),
    getElem?_eq_getD (by omega : 3 < vchSig.length), Option.bind_some]
  by_cases hR : 5 + (vchSig.getD 3 0).toNat ≥ vchSig.length
  · rw [if_pos hR, if_pos hR]
  rw [if_neg hR, if_neg hR, getElem?_eq_getD (Nat.not_le.mp hR), Option.bind_some]
  by_cases hsum : (vchSig.getD 3 0).toNat +
      (vchSig.getD (5 + (vchSig.getD 3 0).toNat) 0).toNat + 7 = vchSig.length
  swap
  · rw [if_pos hsum, if_pos hsum]
  rw [if_neg (not_not.mpr hsum), if_neg (not_not.mpr hsum)]
  have hslice : 6 + (vchSig.getD 3 0).toNat +
      (vchSig.getD (5 + (vchSig.getD 3 0).toNat) 0).toNat ≤ vchSig.length := by
    omega
  rw [readNumber_eq (by decide) (by omega), Option.bind_some, readNumber_eq (by omega) hslice]
  cases isCanonicalNumber vchSig 4 (vchSig.getD 3 0).toNat with
  | false => rfl
  | true =>
    cases isCanonicalNumber vchSig (6 + (vchSig.getD 3 0).toNat)
        (vchSig.getD (5 + (vchSig.getD 3 0).toNat) 0).toNat with
    | false => rfl
    | true =>
      rw [Option.bind_some, if_pos hslice]
      rfl

/-! ## Strict encodings -/

/-- `30 len 02 lenR R 02 lenS S hashtype`, with two minimal numbers, the second one low. -/
structure StrictDer (vchSig R S : List UInt8) (hashType : UInt8) : Prop where
  layout : vchSig = 0x30 :: UInt8.ofNat (R.length + S.length + 4) :: 0x02 ::
    UInt8.ofNat R.length :: (R ++ 0x02 :: UInt8.ofNat S.length :: (S ++ [hashType]))
  size : vchSig.length ≤ 73
  minimalR : Minimal R
  minimalS : Minimal S
  one_le : 1 ≤ value S
  low : value S ≤ generatorOrder / 2
  /-- All, none or single, with or without `SIGHASH_ANYONECANPAY`. -/
  type : hashType ∈ [1, 2, 3, 0x81, 0x82, 0x83]

/-- The environment in which `CheckSignatureElement` is that of `key.cpp`. -/
def EvalEnv.withElements (env : EvalEnv) : EvalEnv :=
  { env with checkSignatureElement := fun vch => Interpreter.checkSignatureElement vch true }

theorem hashType_iff (hashType : UInt8) :
    (1 ≤ hashType &&& 0x7f ∧ hashType &&& 0x7f ≤ 3) ↔
      hashType ∈ [1, 2, 3, 0x81, 0x82, 0x83] := by
  have hall : ∀ n : Fin 256, (1 ≤ UInt8.ofFin n &&& 0x7f ∧ UInt8.ofFin n &&& 0x7f ≤ 3) ↔
      UInt8.ofFin n ∈ [1, 2, 3, 0x81, 0x82, 0x83] := by
    decide +kernel
  exact hall hashType.toFin

theorem StrictDer.length {vchSig R S : List UInt8} {hashType : UInt8}
    (h : StrictDer vchSig R S hashType) : vchSig.length = R.length + S.length + 7 := by
  rw [h.layout]
  simp only [List.length_cons, List.length_append, List.length_nil]
  omega

theorem StrictDer.accepted {vchSig R S : List UInt8} {hashType : UInt8} (env : EvalEnv)
    (h : StrictDer vchSig R S hashType) :
    isCanonicalSignature env.withElements vchSig = true := by
  have hlength := h.length
  have hsize := h.size
  obtain ⟨b, R', rfl, -⟩ := h.minimalR.nonneg
  obtain ⟨c, S', rfl, -⟩ := h.minimalS.nonneg
  have hbyte : ∀ n : Nat, n ≤ 73 → (UInt8.ofNat n).toNat = n := by
    intro n hn
    rw [UInt8.toNat_ofNat']
    exact Nat.mod_eq_of_lt (by omega)
  let f : SigFields := ⟨0x30, UInt8.ofNat ((b :: R').length + (c :: S').length + 4), 0x02,
    UInt8.ofNat (b :: R').length, b :: R', 0x02, UInt8.ofNat (c :: S').length, c :: S', hashType⟩
  have hbytes : vchSig = f.bytes := h.layout
  rw [hbytes] at hlength hsize ⊢
  rw [List.length_cons, List.length_cons] at hlength
  refine (isCanonicalSignature_layout (hbyte _ ?_) (hbyte _ ?_)).mpr ⟨by omega, hsize,
    (hashType_iff hashType).mpr h.type, rfl, ?_, ⟨rfl, h.minimalR⟩, ⟨rfl, h.minimalS⟩,
    (checkSignatureElement_half _).mpr ⟨h.one_le, h.low⟩⟩
  · show R'.length + 1 ≤ 73
    omega
  · show S'.length + 1 ≤ 73
    omega
  · rw [hlength]
    show (UInt8.ofNat (R'.length + 1 + (S'.length + 1) + 4)).toNat = _
    rw [hbyte _ (by omega)]
    omega

theorem strictDer_of_accepted {env : EvalEnv} {vchSig : Valtype}
    (h : isCanonicalSignature env.withElements vchSig = true) :
    ∃ R S hashType, StrictDer vchSig R S hashType := by
  have hsizes : 9 ≤ vchSig.length ∧
      (vchSig.getD 3 0).toNat + (vchSig.getD (5 + (vchSig.getD 3 0).toNat) 0).toNat + 7 =
        vchSig.length := by
    unfold isCanonicalSignature at h
    simp only [Bool.if_false_left, Bool.and_eq_true, Bool.or_eq_true, Bool.not_eq_true',
      decide_eq_false_iff_not, decide_eq_true_eq, not_or, not_not, Nat.not_lt] at h
    exact ⟨h.1.1, h.2.2.2.2.2.1⟩
  obtain ⟨f, rfl, hR, hS⟩ := exists_fields (by omega) hsizes.2
  obtain ⟨-, h73, htype, hfirst, hlen, ⟨htypeR, hminR⟩, ⟨htypeS, hminS⟩, helement⟩ :=
    (isCanonicalSignature_layout hR hS).mp h
  obtain ⟨hone, hlow⟩ := (checkSignatureElement_half f.S).mp helement
  have hlength := f.length_bytes
  have hbyte : ∀ (b : UInt8) (n : Nat), b.toNat = n → b = UInt8.ofNat n := by
    rintro b n rfl
    exact UInt8.ofNat_toNat.symm
  refine ⟨f.R, f.S, f.hashType, ?_, h73, hminR, hminS, hone, hlow, (hashType_iff _).mp htype⟩
  rw [← hbyte _ _ hR, ← hbyte _ _ hS, ← hbyte f.len _ (by omega), ← hfirst]
  unfold SigFields.bytes
  rw [htypeR, htypeS]

/-- What `IsCanonicalSignature` accepts; it reads no byte outside, and accepts one signature at
most for two numbers and a hash type. -/
theorem isCanonicalSignature_strict (env : EvalEnv) :
    (∀ vchSig, isCanonicalSignature env.withElements vchSig = true ↔
      ∃ R S hashType, StrictDer vchSig R S hashType) ∧
    (∀ vchSig, readSignature env.withElements vchSig =
      some (isCanonicalSignature env.withElements vchSig)) ∧
    ∀ vchSig vchSig' R S R' S' hashType, StrictDer vchSig R S hashType →
      StrictDer vchSig' R' S' hashType → value R = value R' → value S = value S' →
      vchSig = vchSig' := by
  refine ⟨fun vchSig => ⟨strictDer_of_accepted, fun h => ?_⟩, readSignature_eq _, ?_⟩
  · obtain ⟨R, S, hashType, h⟩ := h
    exact h.accepted env
  · intro vchSig vchSig' R S R' S' hashType h h' hR hS
    obtain rfl := h.minimalR.unique h'.minimalR hR
    obtain rfl := h.minimalS.unique h'.minimalS hS
    rw [h.layout, h'.layout]

end Interpreter

end NoLimitCoin
