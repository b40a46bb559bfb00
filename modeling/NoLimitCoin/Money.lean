import NoLimitCoin.Strings
import NoLimitCoin.WalletRecords

/-!
# Amounts as text

`FormatMoney` writes an amount with eight decimals and trims zeros; `ParseMoney` reads one pass over
a C string, with a multiplier that shrinks digit by digit.

Results:
1. `parseMoney_accepts`, `parseMoney_text`: the grammar and the value of what is accepted.
2. `parseMoney_formatMoney`: the round trip.
3. `formatMoney_injective`: different amounts have different texts.
4. `money_exact`: all of these.
-/

namespace NoLimitCoin

/-! ## Values of digits -/

def Spaces (str : List UInt8) : Prop := ∀ c ∈ str, isSpace c = true

def Digits (str : List UInt8) : Prop := ∀ c ∈ str, isDigit c = true

/-- The number that decimal digits stand for. -/
def digitsValue (digits : List UInt8) : Nat :=
  digits.foldl (fun n c => n * 10 + (c.toNat - 48)) 0

theorem digitsValue_foldl (digits : List UInt8) (n : Nat) :
    digits.foldl (fun n c => n * 10 + (c.toNat - 48)) n =
      n * 10 ^ digits.length + digitsValue digits := by
  induction digits generalizing n with
  | nil => rw [List.foldl_nil, List.length_nil, Nat.pow_zero, Nat.mul_one]; rfl
  | cons c digits ih =>
    rw [digitsValue, List.foldl_cons, List.foldl_cons, ih, ih (0 * 10 + _), List.length_cons,
      Nat.pow_succ]
    ring

theorem digitsValue_append (digits more : List UInt8) :
    digitsValue (digits ++ more) = digitsValue digits * 10 ^ more.length + digitsValue more := by
  rw [digitsValue, List.foldl_append, digitsValue_foldl]
  rfl

theorem digitsValue_cons (c : UInt8) (digits : List UInt8) :
    digitsValue (c :: digits) = (c.toNat - 48) * 10 ^ digits.length + digitsValue digits := by
  rw [digitsValue, List.foldl_cons, digitsValue_foldl, Nat.zero_mul, Nat.zero_add]

theorem isDigit_iff {c : UInt8} : isDigit c = true ↔ 48 ≤ c.toNat ∧ c.toNat ≤ 57 :=
  decide_eq_true_iff

theorem digitsValue_lt {digits : List UInt8} (h : Digits digits) :
    digitsValue digits < 10 ^ digits.length := by
  induction digits with
  | nil => exact Nat.one_pos
  | cons c digits ih =>
    obtain ⟨hdigit, hrest⟩ := List.forall_mem_cons.mp h
    have hle : c.toNat - 48 ≤ 9 := by
      have hbounds := isDigit_iff.mp hdigit
      omega
    have hmul := Nat.mul_le_mul_right (10 ^ digits.length) hle
    have hlt := ih hrest
    rw [digitsValue_cons, List.length_cons, Nat.pow_succ]
    omega

theorem digitsValue_zeros (k : Nat) : digitsValue (List.replicate k 48) = 0 := by
  induction k with
  | zero => rfl
  | succ k ih =>
    rw [List.replicate_succ, digitsValue_cons, ih]
    exact Nat.zero_mul _

theorem readDigits_eq_digitsValue {digits : List UInt8} (h : Digits digits)
    (acc : Nat) : readDigits acc digits = acc * 10 ^ digits.length + digitsValue digits := by
  rw [← digitsValue_foldl]
  induction digits generalizing acc with
  | nil => rfl
  | cons c digits ih =>
    obtain ⟨hdigit, hrest⟩ := List.forall_mem_cons.mp h
    rw [readDigits, if_pos hdigit, ih hrest]
    rfl

theorem decimal_digits (n : Nat) : Digits (decimal n) := by
  unfold decimal
  split
  · exact fun c hc => by rw [List.mem_singleton.mp hc]; rfl
  · intro c hc
    obtain ⟨d, hd, rfl⟩ := List.mem_map.mp (List.mem_reverse.mp hc)
    have hlt := Nat.digits_lt_base (by decide) hd
    rw [isDigit_iff, toNat_digit hlt]
    omega

theorem digitsValue_decimal (n : Nat) : digitsValue (decimal n) = n := by
  have hread := readDigits_eq_digitsValue (decimal_digits n) 0
  rw [readDigits_decimal, Nat.zero_mul, Nat.zero_add] at hread
  exact hread.symm

theorem decimal_length_le {n k : Nat} (hk : 0 < k) (h : n < 10 ^ k) : (decimal n).length ≤ k := by
  unfold decimal
  split
  · exact hk
  · rw [List.length_reverse, List.length_map]
    exact (Nat.digits_length_le_iff (by decide) n).mpr h

/-- `atoi64` on digits. -/
theorem atoi64_digits {digits : List UInt8} (h : Digits digits)
    (hlt : digitsValue digits < 2 ^ 63) : atoi64 digits = digitsValue digits := by
  have hread := readDigits_eq_digitsValue h 0
  rw [Nat.zero_mul, Nat.zero_add] at hread
  cases digits with
  | nil => rfl
  | cons c digits =>
    rw [atoi64_of_digit (h c List.mem_cons_self), hread]
    omega

/-! ## Reading -/

def charPoint : UInt8 := 46

/-- The decimals of `ParseMoney`: at most as many digits as the multiplier has. -/
def readUnits (nMult nUnits : Nat) : List UInt8 → Nat × List UInt8
  | [] => (nUnits, [])
  | c :: p =>
    if isDigit c = true ∧ 0 < nMult then
      readUnits (nMult / 10) (nUnits + nMult * (c.toNat - 48)) p
    else (nUnits, c :: p)

/-- The loop of `ParseMoney`: `strWhole`, `nUnits` and what is left, or `none` when it returns. -/
def readWhole (strWhole : List UInt8) : List UInt8 → Option (List UInt8 × Nat × List UInt8)
  | [] => some (strWhole, 0, [])
  | c :: p =>
    if c = charPoint then
      -- `CENT * 10`
      let (nUnits, p) := readUnits 10000000 0 p
      some (strWhole, nUnits, p)
    else if isSpace c then some (strWhole, 0, c :: p)
    else if ¬ isDigit c then none
    else readWhole (strWhole ++ [c]) p

/-- `ParseMoney` on a C string: what it returns, and `nRet` behind the call. -/
def parseMoneyChars (pszIn : List UInt8) (nRet : Int) : Bool × Int :=
  match readWhole [] (pszIn.dropWhile isSpace) with
  | none => (false, nRet)
  | some (strWhole, nUnits, p) =>
    if ¬ p.all isSpace then (false, nRet)
    else if 10 < strWhole.length then (false, nRet)
    else if (nUnits : Int) < 0 ∨ coin < nUnits then (false, nRet)
    else (true, Int.bmod (atoi64 strWhole * coin + nUnits) (2 ^ 64))

/-- `ParseMoney`. -/
def parseMoney (str : List UInt8) (nRet : Int) : Bool × Int := parseMoneyChars (cStr str) nRet

/-- The text of a fraction behind its point, where there is one. -/
def pointText : Option (List UInt8) → List UInt8
  | none => []
  | some digits => charPoint :: digits

/-- A fraction in the unit of amounts. -/
def fractionUnits (fraction : Option (List UInt8)) : Nat :=
  digitsValue (fraction.getD []) * 10 ^ (8 - (fraction.getD []).length)

/-- A text of the grammar: blanks, whole coins, perhaps a point and a fraction, blanks. -/
structure MoneyText where
  before : List UInt8
  whole : List UInt8
  fraction : Option (List UInt8)
  after : List UInt8
  before_spaces : Spaces before
  whole_digits : Digits whole
  whole_length : whole.length ≤ 10
  fraction_digits : Digits (fraction.getD [])
  fraction_length : (fraction.getD []).length ≤ 8
  after_spaces : Spaces after

namespace MoneyText

def text (m : MoneyText) : List UInt8 := m.before ++ m.whole ++ pointText m.fraction ++ m.after

def value (m : MoneyText) : Nat := digitsValue m.whole * 100000000 + fractionUnits m.fraction

theorem fractionUnits_lt {fraction : Option (List UInt8)} (h : Digits (fraction.getD []))
    (hlen : (fraction.getD []).length ≤ 8) : fractionUnits fraction < 100000000 := by
  have hlt := Nat.mul_lt_mul_of_pos_right (digitsValue_lt h)
    (Nat.pow_pos (a := 10) (n := 8 - (fraction.getD []).length) (by decide))
  rw [← Nat.pow_add, Nat.add_sub_cancel' hlen] at hlt
  exact hlt

theorem whole_lt (m : MoneyText) : digitsValue m.whole < 10 ^ 10 :=
  Nat.lt_of_lt_of_le (digitsValue_lt m.whole_digits)
    (Nat.pow_le_pow_right (by decide) m.whole_length)

theorem value_lt (m : MoneyText) : m.value < 10 ^ 18 := by
  have hwhole := m.whole_lt
  have hfraction := fractionUnits_lt m.fraction_digits m.fraction_length
  unfold value
  omega

end MoneyText

/-! ## The decimals -/

theorem isSpace_point : isSpace charPoint = false := by decide

theorem not_isDigit_of_isSpace {c : UInt8} (h : isSpace c = true) : isDigit c = false := by
  refine decide_eq_false ?_
  rcases of_decide_eq_true h with hlow | rfl
  · omega
  · decide

theorem ne_point_of_isSpace {c : UInt8} (h : isSpace c = true) : c ≠ charPoint := by
  rintro rfl
  exact absurd h (by decide)

theorem ne_point_of_isDigit {c : UInt8} (h : isDigit c = true) : c ≠ charPoint := by
  rintro rfl
  exact absurd h (by decide)

/-- The multiplier of `k` more decimals. -/
theorem pow_div_ten_pos {k : Nat} : 0 < 10 ^ k / 10 ↔ 0 < k := by
  cases k with
  | zero => decide
  | succ k =>
    rw [Nat.pow_succ, Nat.mul_div_cancel _ (by decide)]
    exact ⟨fun _ => Nat.succ_pos k, fun _ => Nat.pow_pos (by decide)⟩

theorem pow_succ_div (k : Nat) : 10 ^ (k + 1) / 10 = 10 ^ k := by
  rw [Nat.pow_succ, Nat.mul_div_cancel _ (by decide)]

theorem readUnits_stop (k nUnits : Nat) {p : List UInt8}
    (h : k = 0 ∨ ∀ c ∈ p.head?, isDigit c = false) :
    readUnits (10 ^ k / 10) nUnits p = (nUnits, p) := by
  cases p with
  | nil => rfl
  | cons c p =>
    rw [readUnits, if_neg]
    rintro ⟨hdigit, hpos⟩
    rcases h with rfl | h
    · exact absurd hpos (by decide)
    · rw [h c rfl] at hdigit
      exact absurd hdigit (by decide)

/-- As many digits as the multiplier has room for are read with their place values. -/
theorem readUnits_digits {k : Nat} (nUnits : Nat) {digits p : List UInt8} (h : Digits digits)
    (hlen : digits.length ≤ k) (hp : digits.length = k ∨ ∀ c ∈ p.head?, isDigit c = false) :
    readUnits (10 ^ k / 10) nUnits (digits ++ p) =
      (nUnits + digitsValue digits * 10 ^ (k - digits.length), p) := by
  induction digits generalizing k nUnits with
  | nil =>
    rw [List.nil_append, readUnits_stop k nUnits (hp.imp_left Eq.symm), digitsValue,
      List.foldl_nil, Nat.zero_mul, Nat.add_zero]
  | cons c digits ih =>
    obtain ⟨hdigit, hrest⟩ := List.forall_mem_cons.mp h
    rw [List.length_cons] at hlen hp
    obtain ⟨k, rfl⟩ : ∃ k', k = k' + 1 := ⟨k - 1, by omega⟩
    rw [List.cons_append, readUnits, if_pos ⟨hdigit, pow_div_ten_pos.mpr (Nat.succ_pos k)⟩,
      pow_succ_div, ih _ hrest (by omega) (hp.imp_left (by omega)), digitsValue_cons,
      List.length_cons, Nat.add_sub_add_right]
    have hpow : 10 ^ k = 10 ^ digits.length * 10 ^ (k - digits.length) := by
      rw [← Nat.pow_add, Nat.add_sub_cancel' (by omega)]
    congr 1
    rw [hpow]
    ring

/-- Where the decimals of a text end. -/
theorem exists_decimals (k : Nat) (p : List UInt8) : ∃ digits rest, p = digits ++ rest ∧
    Digits digits ∧ digits.length ≤ k ∧
      (digits.length = k ∨ ∀ c ∈ rest.head?, isDigit c = false) := by
  induction p generalizing k with
  | nil => exact ⟨[], [], rfl, nofun, Nat.zero_le k, .inr nofun⟩
  | cons c p ih =>
    cases hdigit : isDigit c with
    | false =>
      refine ⟨[], c :: p, rfl, nofun, Nat.zero_le k, .inr fun d hd => ?_⟩
      rw [← Option.some.inj hd]
      exact hdigit
    | true =>
      cases k with
      | zero => exact ⟨[], c :: p, rfl, nofun, Nat.le_refl 0, .inl rfl⟩
      | succ k =>
        obtain ⟨digits, rest, rfl, hdigits, hlen, hstop⟩ := ih k
        exact ⟨c :: digits, rest, rfl, List.forall_mem_cons.mpr ⟨hdigit, hdigits⟩,
          Nat.succ_le_succ hlen, hstop.imp_left fun h => by rw [List.length_cons, h]⟩

/-! ## The loop -/

/-- What the loop makes of whole coins, a fraction and blanks. -/
theorem readWhole_text (strWhole : List UInt8) {whole : List UInt8}
    {fraction : Option (List UInt8)} {after : List UInt8} (hwhole : Digits whole)
    (hfraction : Digits (fraction.getD [])) (hlen : (fraction.getD []).length ≤ 8)
    (hafter : Spaces after) :
    readWhole strWhole (whole ++ pointText fraction ++ after) =
      some (strWhole ++ whole, fractionUnits fraction, after) := by
  induction whole generalizing strWhole with
  | nil =>
    rw [List.nil_append, List.append_nil]
    cases fraction with
    | none =>
      cases after with
      | nil => rfl
      | cons c after =>
        have hspace := hafter c List.mem_cons_self
        rw [pointText, List.nil_append, readWhole, if_neg (ne_point_of_isSpace hspace),
          if_pos hspace]
        rfl
    | some digits =>
      have hstop : ∀ c ∈ after.head?, isDigit c = false := fun c hc =>
        not_isDigit_of_isSpace (hafter c (List.mem_of_mem_head? hc))
      have hread := @readUnits_digits 8 0 digits after hfraction hlen (.inr hstop)
      rw [pointText, List.cons_append, readWhole, if_pos rfl]
      show some (strWhole, readUnits (10 ^ 8 / 10) 0 (digits ++ after)) = _
      rw [hread, Nat.zero_add]
      rfl
  | cons c whole ih =>
    obtain ⟨hdigit, hrest⟩ := List.forall_mem_cons.mp hwhole
    have hspace : ¬ isSpace c = true := fun h => by
      rw [not_isDigit_of_isSpace h] at hdigit
      exact absurd hdigit (by decide)
    rw [List.cons_append, List.cons_append, readWhole, if_neg (ne_point_of_isDigit hdigit),
      if_neg hspace, if_neg (not_not.mpr hdigit), ih _ hrest, List.append_assoc]
    rfl

/-- When the loop does not return, it has read whole coins and perhaps a fraction. -/
theorem readWhole_some {strWhole p strWhole' rest : List UInt8} {nUnits : Nat}
    (h : readWhole strWhole p = some (strWhole', nUnits, rest)) :
    ∃ whole fraction, strWhole' = strWhole ++ whole ∧ p = whole ++ pointText fraction ++ rest ∧
      Digits whole ∧ Digits (fraction.getD []) ∧ (fraction.getD []).length ≤ 8 ∧
        nUnits = fractionUnits fraction := by
  induction p generalizing strWhole with
  | nil =>
    cases h
    exact ⟨[], none, (List.append_nil _).symm, rfl, nofun, nofun, Nat.zero_le 8, rfl⟩
  | cons c p ih =>
    rw [readWhole] at h
    split at h
    · next hpoint =>
      obtain ⟨digits, tail, rfl, hdigits, hlen, hstop⟩ := exists_decimals 8 p
      have hread := readUnits_digits (k := 8) 0 hdigits hlen hstop
      have hread' : some (strWhole, readUnits (10 ^ 8 / 10) 0 (digits ++ tail)) =
        some (strWhole', nUnits, rest) := h
      rw [hread, Nat.zero_add] at hread'
      cases hread'
      refine ⟨[], some digits, (List.append_nil _).symm, ?_, nofun, hdigits, hlen, rfl⟩
      rw [hpoint]
      rfl
    · split at h
      · cases h
        exact ⟨[], none, (List.append_nil _).symm, rfl, nofun, nofun, Nat.zero_le 8, rfl⟩
      · split at h
        · cases h
        · next hdigit =>
          obtain ⟨whole, fraction, rfl, rfl, hwhole, hfraction⟩ := ih h
          exact ⟨c :: whole, fraction, List.append_assoc _ _ _, rfl,
            List.forall_mem_cons.mpr ⟨not_not.mp hdigit, hwhole⟩, hfraction⟩

/-- Blanks in front are passed over, and all of them when nothing else stands there. -/
theorem dropWhile_text (m : MoneyText) : ∃ after, Spaces after ∧
    m.text.dropWhile isSpace = m.whole ++ pointText m.fraction ++ after := by
  have hbefore : m.text.dropWhile isSpace =
      (m.whole ++ pointText m.fraction ++ m.after).dropWhile isSpace := by
    rw [MoneyText.text, List.append_assoc, List.append_assoc, List.append_assoc,
      List.dropWhile_append_of_pos m.before_spaces]
  rw [hbefore]
  cases htext : m.whole ++ pointText m.fraction with
  | nil =>
    refine ⟨[], nofun, ?_⟩
    rw [List.nil_append, List.dropWhile_eq_nil_iff.mpr m.after_spaces]
    rfl
  | cons c text =>
    refine ⟨m.after, m.after_spaces, ?_⟩
    have hspace : isSpace c = false := by
      cases hwhole : m.whole with
      | nil =>
        rw [hwhole, List.nil_append] at htext
        cases hfraction : m.fraction with
        | none =>
          rw [hfraction] at htext
          cases htext
        | some digits =>
          rw [hfraction] at htext
          rw [← (List.cons.inj htext).1]
          exact isSpace_point
      | cons d whole =>
        rw [hwhole] at htext
        obtain ⟨rfl, -⟩ := List.cons.inj htext
        have hdigit := m.whole_digits d (by rw [hwhole]; exact List.mem_cons_self)
        refine Bool.eq_false_iff.mpr fun h => ?_
        rw [not_isDigit_of_isSpace h] at hdigit
        exact absurd hdigit (by decide)
    rw [List.cons_append, List.dropWhile_cons, if_neg (by rw [hspace]; decide)]

/-- A text of the grammar is accepted with its value. -/
theorem parseMoneyChars_text (m : MoneyText) (nRet : Int) :
    parseMoneyChars m.text nRet = (true, (m.value : Int)) := by
  obtain ⟨after, hafter, hdrop⟩ := dropWhile_text m
  have hvalue := m.value_lt
  have hwhole := m.whole_lt
  have hunits := MoneyText.fractionUnits_lt m.fraction_digits m.fraction_length
  have hcoin : ¬ ((fractionUnits m.fraction : Int) < 0 ∨
      coin < (fractionUnits m.fraction : Int)) := by
    unfold coin
    omega
  unfold parseMoneyChars
  rw [hdrop, readWhole_text [] m.whole_digits m.fraction_digits m.fraction_length hafter]
  dsimp only
  rw [if_neg (not_not.mpr (List.all_eq_true.mpr hafter)), List.nil_append,
    if_neg (Nat.not_lt.mpr m.whole_length), if_neg hcoin,
    atoi64_digits m.whole_digits (by omega)]
  have hsum : (digitsValue m.whole : Int) * coin + fractionUnits m.fraction = m.value := by
    unfold MoneyText.value coin
    push_cast
    rfl
  rw [hsum, Int.bmod_eq_of_le (by omega) (by omega)]

/-- What is accepted is of the grammar; what is not leaves `nRet`. -/
theorem parseMoneyChars_cases (pszIn : List UInt8) (nRet : Int) :
    (∃ m : MoneyText, m.text = pszIn) ∨ parseMoneyChars pszIn nRet = (false, nRet) := by
  unfold parseMoneyChars
  split
  · exact .inr rfl
  · next strWhole nUnits p hread =>
    split
    · exact .inr rfl
    · next hafter =>
      split
      · exact .inr rfl
      · next hlength =>
        left
        obtain ⟨whole, fraction, rfl, hdrop, hwhole, hfraction, hlen, -⟩ := readWhole_some hread
        exact
          ⟨{  before := pszIn.takeWhile isSpace
              whole := strWhole
              fraction := fraction
              after := p
              before_spaces := fun c hc => List.mem_takeWhile_imp hc
              whole_digits := hwhole
              whole_length := Nat.not_lt.mp hlength
              fraction_digits := hfraction
              fraction_length := hlen
              after_spaces := List.all_eq_true.mp (not_not.mp hafter) }, by
            rw [MoneyText.text, List.append_assoc, List.append_assoc, ← List.append_assoc strWhole,
              ← hdrop, List.takeWhile_append_dropWhile]⟩

/-- `ParseMoney` accepts exactly the texts of the grammar. -/
theorem parseMoney_accepts (str : List UInt8) (nRet : Int) :
    (parseMoney str nRet).1 = true ↔ ∃ m : MoneyText, m.text = cStr str := by
  constructor
  · intro haccept
    rcases parseMoneyChars_cases (cStr str) nRet with hm | hreject
    · exact hm
    · rw [parseMoney, hreject] at haccept
      cases haccept
  · rintro ⟨m, hm⟩
    rw [parseMoney, ← hm, parseMoneyChars_text]

theorem parseMoney_text {str : List UInt8} {m : MoneyText} (hm : m.text = cStr str)
    (nRet : Int) : parseMoney str nRet = (true, (m.value : Int)) := by
  rw [parseMoney, ← hm, parseMoneyChars_text]

theorem parseMoney_rejected {str : List UInt8} {nRet : Int}
    (h : (parseMoney str nRet).1 = false) : (parseMoney str nRet).2 = nRet := by
  rcases parseMoneyChars_cases (cStr str) nRet with ⟨m, hm⟩ | hreject
  · rw [parseMoney_text hm] at h
    cases h
  · rw [parseMoney, hreject]

/-! ## Writing -/

/-- `%08d`. -/
def padded (width n : Nat) : List UInt8 :=
  List.replicate (width - (decimal n).length) 48 ++ decimal n

/-- The loop over trailing zeros, with `i` running down. -/
def trimCount (str : List UInt8) : Nat → Nat
  | i + 2 =>
    if str[i + 2]? = some 48 ∧ (str[i]?.any isDigit) = true then trimCount str (i + 1) + 1 else 0
  | _ => 0

/-- The text of an absolute value. -/
def formatAbs (n : Nat) : List UInt8 :=
  let str := decimal (n / 100000000) ++ charPoint :: padded 8 (n % 100000000)
  str.take (str.length - trimCount str (str.length - 1))

/-- `FormatMoney`; the minimum of the type has no absolute value in it. -/
def formatMoney (n : Int) (fPlus : Bool) : List UInt8 :=
  if n < 0 then 45 :: formatAbs n.natAbs
  else if fPlus ∧ 0 < n then 43 :: formatAbs n.natAbs
  else formatAbs n.natAbs

theorem padded_digits (width n : Nat) : Digits (padded width n) := by
  intro c hc
  rcases List.mem_append.mp hc with hzero | hdigit
  · rw [(List.mem_replicate.mp hzero).2]
    rfl
  · exact decimal_digits n c hdigit

theorem digitsValue_padded (width n : Nat) : digitsValue (padded width n) = n := by
  rw [padded, digitsValue_append, digitsValue_zeros, Nat.zero_mul, Nat.zero_add,
    digitsValue_decimal]

theorem padded_length {width n : Nat} (hwidth : 0 < width) (h : n < 10 ^ width) :
    (padded width n).length = width := by
  have hle := decimal_length_le hwidth h
  rw [padded, List.length_append, List.length_replicate]
  omega

/-- Only zeros behind the first two decimals are trimmed. -/
theorem trimCount_spec (whole : List UInt8) {decimals : List UInt8} {j : Nat} (hj : 2 ≤ j)
    (hle : j ≤ decimals.length) :
    ∃ kept, 2 ≤ kept ∧ kept ≤ j ∧
      trimCount (whole ++ charPoint :: decimals) (whole.length + j) = j - kept ∧
      ∀ k, kept ≤ k → k < j → decimals[k]? = some 48 := by
  induction j, hj using Nat.le_induction with
  | base =>
    refine ⟨2, Nat.le_refl 2, Nat.le_refl 2, ?_, fun k hlow hhigh => absurd hlow (by omega)⟩
    rw [trimCount, if_neg]
    rintro ⟨-, hpoint⟩
    rw [List.getElem?_append_right (Nat.le_refl _), Nat.sub_self] at hpoint
    cases hpoint
  | succ j hj ih =>
    obtain ⟨kept, htwo, hkept, hcount, hzeros⟩ := ih (by omega)
    have hindex : whole.length + (j + 1) = whole.length + (j - 1) + 2 := by omega
    have hlast : (whole ++ charPoint :: decimals)[whole.length + (j - 1) + 2]? = decimals[j]? := by
      rw [List.getElem?_append_right (by omega),
        show whole.length + (j - 1) + 2 - whole.length = j + 1 by omega, List.getElem?_cons_succ]
    rw [hindex, trimCount, hlast]
    split
    · next hzero =>
      refine ⟨kept, htwo, by omega, ?_, fun k hlow hhigh => ?_⟩
      · rw [show whole.length + (j - 1) + 1 = whole.length + j by omega, hcount]
        omega
      · rcases Nat.lt_succ_iff_lt_or_eq.mp hhigh with hlt | rfl
        · exact hzeros k hlow hlt
        · exact hzero.1
    · exact ⟨j + 1, by omega, Nat.le_refl _, (Nat.sub_self _).symm,
        fun k hlow hhigh => absurd hlow (by omega)⟩

/-- The text has the whole coins, and enough decimals for the rest. -/
theorem formatAbs_eq (n : Nat) : ∃ digits, Digits digits ∧ digits.length ≤ 8 ∧
    formatAbs n = decimal (n / 100000000) ++ charPoint :: digits ∧
      digitsValue digits * 10 ^ (8 - digits.length) = n % 100000000 := by
  have hpadded := padded_digits 8 (n % 100000000)
  have hlen := @padded_length 8 (n % 100000000) (by decide) (Nat.mod_lt n (by decide))
  have hvalue := digitsValue_padded 8 (n % 100000000)
  unfold formatAbs
  generalize padded 8 (n % 100000000) = decimals at *
  generalize decimal (n / 100000000) = whole
  obtain ⟨kept, -, hkept, hcount, hzeros⟩ := trimCount_spec whole
    (by rw [hlen]; decide : 2 ≤ decimals.length) (Nat.le_refl _)
  have hlast : (whole ++ charPoint :: decimals).length - 1 = whole.length + decimals.length := by
    rw [List.length_append, List.length_cons]
    omega
  have htake : (decimals.take kept).length = kept := List.length_take_of_le hkept
  have hdrop : decimals.drop kept = List.replicate (8 - kept) 48 := by
    refine List.eq_replicate_iff.mpr ⟨by rw [List.length_drop, hlen], fun c hc => ?_⟩
    obtain ⟨k, hk⟩ := List.mem_iff_getElem?.mp hc
    rw [List.getElem?_drop] at hk
    have hlt := (List.getElem?_eq_some_iff.mp hk).1
    rw [hzeros (kept + k) (by omega) hlt] at hk
    exact (Option.some.inj hk).symm
  refine ⟨decimals.take kept, fun c hc => hpadded c (List.mem_of_mem_take hc), by omega, ?_, ?_⟩
  · have hindex : whole.length + (decimals.length + 1) - (decimals.length - kept) =
        whole.length + (kept + 1) := by omega
    dsimp only
    rw [hlast, hcount, List.length_append, List.length_cons, hindex, List.take_length_add_append,
      List.take_succ_cons]
  · rw [← List.take_append_drop kept decimals, digitsValue_append, hdrop, digitsValue_zeros,
      List.length_replicate] at hvalue
    rw [htake, ← hvalue, Nat.add_zero]

/-- `ParseMoney` reads what `FormatMoney` writes. -/
theorem parseMoney_formatMoney {n : Int} (hlow : 0 ≤ n) (hhigh : n < 10 ^ 18) (nRet : Int) :
    parseMoney (formatMoney n false) nRet = (true, n) := by
  obtain ⟨digits, hdigits, hlen, htext, hvalue⟩ := formatAbs_eq n.natAbs
  have hformat : formatMoney n false = formatAbs n.natAbs := by
    rw [formatMoney, if_neg (by omega), if_neg (by rintro ⟨h, -⟩; cases h)]
  let m : MoneyText :=
    {  before := []
       whole := decimal (n.natAbs / 100000000)
       fraction := some digits
       after := []
       before_spaces := nofun
       whole_digits := decimal_digits _
       whole_length := decimal_length_le (by decide) (by omega)
       fraction_digits := hdigits
       fraction_length := hlen
       after_spaces := nofun }
  have hm : m.text = formatAbs n.natAbs := by
    rw [htext]
    exact List.append_nil _
  have hzero : 0 ∉ formatAbs n.natAbs := by
    rw [htext]
    intro hmem
    rcases List.mem_append.mp hmem with hwhole | hpoint
    · exact absurd (decimal_digits _ 0 hwhole) (by decide)
    · rcases List.mem_cons.mp hpoint with hpoint | hdigit
      · exact absurd hpoint (by decide)
      · exact absurd (hdigits 0 hdigit) (by decide)
  rw [hformat, parseMoney_text (hm.trans (cStr_eq hzero).symm)]
  have hmvalue : m.value = n.natAbs := by
    show digitsValue (decimal (n.natAbs / 100000000)) * 100000000 +
      digitsValue digits * 10 ^ (8 - digits.length) = n.natAbs
    rw [digitsValue_decimal, hvalue]
    exact Nat.div_add_mod' _ _
  rw [hmvalue, Int.natAbs_of_nonneg hlow]

theorem formatAbs_injective {n n' : Nat} (h : formatAbs n = formatAbs n') : n = n' := by
  obtain ⟨digits, hdigits, -, htext, hvalue⟩ := formatAbs_eq n
  obtain ⟨digits', -, -, htext', hvalue'⟩ := formatAbs_eq n'
  rw [htext, htext'] at h
  have hpoint {str : List UInt8} (hstr : Digits str) : charPoint ∉ str := fun hmem =>
    absurd (hstr _ hmem) (by decide)
  obtain ⟨hwhole, -, rfl⟩ := (List.append_cons_inj_of_notMem (hpoint (decimal_digits _))
    (hpoint hdigits)).mp h
  have hquotient := congrArg digitsValue hwhole
  rw [digitsValue_decimal, digitsValue_decimal] at hquotient
  omega

/-- The sign in front of the text. -/
def signText (n : Int) (fPlus : Bool) : List UInt8 :=
  if n < 0 then [45] else if fPlus ∧ 0 < n then [43] else []

theorem formatMoney_eq (n : Int) (fPlus : Bool) :
    formatMoney n fPlus = signText n fPlus ++ formatAbs n.natAbs := by
  unfold formatMoney signText
  split
  · rfl
  · split
    · rfl
    · rfl

theorem signText_eq_minus {n : Int} {fPlus : Bool} : signText n fPlus = [45] ↔ n < 0 := by
  unfold signText
  split
  · next hneg => exact ⟨fun _ => hneg, fun _ => rfl⟩
  · next hneg =>
    refine ⟨fun h => ?_, fun h => absurd h hneg⟩
    split at h
    · cases h
    · cases h

/-- The sign is what stands before the first digit. -/
theorem takeWhile_signText (n : Int) (fPlus : Bool) (nAbs : Nat) :
    (signText n fPlus ++ formatAbs nAbs).takeWhile (fun c => !isDigit c) = signText n fPlus := by
  obtain ⟨digits, -, -, htext, -⟩ := formatAbs_eq nAbs
  obtain ⟨d, whole, hdecimal, hdigit⟩ := decimal_head (nAbs / 100000000)
  have hsign : ∀ c ∈ signText n fPlus, (!isDigit c) = true := by
    unfold signText
    split
    · exact fun c hc => by rw [List.mem_singleton.mp hc]; rfl
    · split
      · exact fun c hc => by rw [List.mem_singleton.mp hc]; rfl
      · exact nofun
  have habs : (formatAbs nAbs).takeWhile (fun c => !isDigit c) = [] := by
    rw [htext, hdecimal, List.cons_append, List.takeWhile_cons, if_neg (by rw [hdigit]; decide)]
  rw [List.takeWhile_append_of_pos hsign, habs, List.append_nil]

/-- Different amounts have different texts. -/
theorem formatMoney_injective (fPlus : Bool) {n n' : Int}
    (h : formatMoney n fPlus = formatMoney n' fPlus) : n = n' := by
  rw [formatMoney_eq, formatMoney_eq] at h
  have hsign := congrArg (List.takeWhile fun c => !isDigit c) h
  rw [takeWhile_signText, takeWhile_signText] at hsign
  rw [hsign] at h
  have habs := formatAbs_injective (List.append_cancel_left h)
  have hneg : n < 0 ↔ n' < 0 := by
    rw [← signText_eq_minus, hsign, signText_eq_minus]
  omega

/-- Texts of amounts are exact. -/
theorem money_exact :
    (∀ n nRet : Int, 0 ≤ n → n < 10 ^ 18 →
      parseMoney (formatMoney n false) nRet = (true, n)) ∧
    (∀ fPlus, ∀ n n' : Int, -2 ^ 63 < n → n < 2 ^ 63 → -2 ^ 63 < n' → n' < 2 ^ 63 →
      formatMoney n fPlus = formatMoney n' fPlus → n = n') ∧
    ∀ (str : List UInt8) (nRet : Int),
      ((parseMoney str nRet).1 = true ↔ ∃ m : MoneyText, m.text = cStr str) ∧
      (∀ m : MoneyText, m.text = cStr str →
        parseMoney str nRet = (true, (m.value : Int)) ∧ m.value < 10 ^ 18) ∧
      ((parseMoney str nRet).1 = false → (parseMoney str nRet).2 = nRet) :=
  ⟨fun _ nRet hlow hhigh => parseMoney_formatMoney hlow hhigh nRet,
    fun fPlus _ _ _ _ _ _ h => formatMoney_injective fPlus h,
    fun str nRet => ⟨parseMoney_accepts str nRet,
      fun m hm => ⟨parseMoney_text hm nRet, m.value_lt⟩, parseMoney_rejected⟩⟩

theorem money_exact_sample :
    parseMoney (formatMoney 123456789000 false) 0 = (true, 123456789000) :=
  money_exact.1 123456789000 0 (by decide) (by decide)

end NoLimitCoin
