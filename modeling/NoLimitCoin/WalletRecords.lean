import NoLimitCoin.WalletOrder

/-!
# Records of the wallet on disk

`CWalletTx` and `CAccountingEntry` of `wallet.h` store members that came later in places that old
versions keep: under reserved keys of `mapValue`, and behind a zero byte of `strComment`.  One macro
body writes, measures and reads them, and it puts them into the object itself.

Results:
1. `atoi64_i64tostr`: the numbers that are written as strings.
2. `CWalletTxRecord.serializer_lawful`, `CAccountingEntry.serializer_lawful`: the passes agree.
3. `walletRecords_lossless`: what is written is read back, and the object is left as it was.
-/

namespace NoLimitCoin

open Serializer
open Network (maxSize)

/-! ## Numbers as strings -/

/-- `%u`: the decimal digits. -/
def decimal (n : Nat) : List UInt8 :=
  if n = 0 then [48] else ((Nat.digits 10 n).map fun d => UInt8.ofNat (48 + d)).reverse

/-- `i64tostr`. -/
def i64tostr (n : Int) : List UInt8 :=
  if n < 0 then 45 :: decimal n.natAbs else decimal n.natAbs

def isDigit (c : UInt8) : Bool := decide (48 ≤ c.toNat ∧ c.toNat ≤ 57)

def isSpace (c : UInt8) : Bool := decide (9 ≤ c.toNat ∧ c.toNat ≤ 13 ∨ c = 32)

/-- The digits that a string begins with. -/
def readDigits (acc : Nat) : List UInt8 → Nat
  | [] => acc
  | c :: str => if isDigit c then readDigits (acc * 10 + (c.toNat - 48)) str else acc

/-- `atoi64`: `strtoll` in base 10, which stays within its type. -/
def atoi64 (str : List UInt8) : Int :=
  match str.dropWhile isSpace with
  | 45 :: str => max (-2 ^ 63) (-(readDigits 0 str : Int))
  | 43 :: str => min (2 ^ 63 - 1) (readDigits 0 str)
  | str => min (2 ^ 63 - 1) (readDigits 0 str)

theorem toNat_digit {d : Nat} (h : d < 10) : (UInt8.ofNat (48 + d)).toNat = 48 + d := by
  rw [UInt8.toNat_ofNat', Nat.mod_eq_of_lt (by omega)]

theorem readDigits_eq_foldl {digits : List Nat} (h : ∀ d ∈ digits, d < 10) (acc : Nat) :
    readDigits acc (digits.map fun d => UInt8.ofNat (48 + d)) =
      digits.foldl (fun acc d => acc * 10 + d) acc := by
  induction digits generalizing acc with
  | nil => rfl
  | cons d digits ih =>
    rw [List.forall_mem_cons] at h
    have hdigit : isDigit (UInt8.ofNat (48 + d)) = true := by
      rw [isDigit, toNat_digit h.1]
      exact decide_eq_true ⟨Nat.le_add_right _ _, by omega⟩
    rw [List.map_cons, readDigits, if_pos hdigit, toNat_digit h.1, Nat.add_sub_cancel_left,
      ih h.2]
    rfl

theorem readDigits_decimal (n : Nat) : readDigits 0 (decimal n) = n := by
  unfold decimal
  split
  · next hzero =>
    rw [hzero]
    decide
  · have hlt : ∀ d ∈ (Nat.digits 10 n).reverse, d < 10 := fun d hd =>
      Nat.digits_lt_base (by decide) (List.mem_reverse.mp hd)
    rw [← List.map_reverse, readDigits_eq_foldl hlt, List.foldl_reverse]
    have hvalue := Nat.ofDigits_digits 10 n
    rw [Nat.ofDigits_eq_foldr] at hvalue
    rw [← hvalue]
    congr 1
    · funext d acc
      rw [Nat.mul_comm, Nat.add_comm]
      rfl
    · rw [hvalue]

/-- A decimal string has digits only. -/
theorem isDigit_decimal {n : Nat} {c : UInt8} (h : c ∈ decimal n) : isDigit c = true := by
  unfold decimal at h
  split at h
  · rw [List.mem_singleton.mp h]
    decide
  · obtain ⟨d, hd, rfl⟩ := List.mem_map.mp (List.mem_reverse.mp h)
    have hlt := Nat.digits_lt_base (by decide) hd
    rw [isDigit, toNat_digit hlt]
    exact decide_eq_true ⟨Nat.le_add_right _ _, by omega⟩

/-- A decimal string begins with a digit. -/
theorem decimal_head (n : Nat) : ∃ c str, decimal n = c :: str ∧ isDigit c = true := by
  have hne : decimal n ≠ [] := by
    unfold decimal
    split
    · exact List.cons_ne_nil _ _
    · next hzero =>
      rw [ne_eq, List.reverse_eq_nil_iff, List.map_eq_nil_iff, Nat.digits_eq_nil_iff_eq_zero]
      exact hzero
  obtain ⟨c, str, hdecimal⟩ := List.exists_cons_of_ne_nil hne
  exact ⟨c, str, hdecimal, isDigit_decimal (hdecimal ▸ List.mem_cons_self)⟩

/-- A string without blanks or a sign in front. -/
theorem atoi64_of_digit {c : UInt8} {str : List UInt8} (hdigit : isDigit c = true) :
    atoi64 (c :: str) = min (2 ^ 63 - 1) (readDigits 0 (c :: str) : Int) := by
  have hbounds := of_decide_eq_true hdigit
  have hspace : isSpace c = false := by
    refine decide_eq_false ?_
    rintro (hlow | rfl)
    · omega
    · exact absurd hbounds (by decide)
  unfold atoi64
  rw [List.dropWhile_cons, if_neg (by rw [hspace]; decide)]
  split
  · next heq =>
    rw [(List.cons.inj heq).1] at hbounds
    exact absurd hbounds (by decide)
  · next heq =>
    rw [(List.cons.inj heq).1] at hbounds
    exact absurd hbounds (by decide)
  · rfl

theorem atoi64_decimal {n : Nat} (h : n < 2 ^ 63) : atoi64 (decimal n) = n := by
  obtain ⟨c, str, hdecimal, hdigit⟩ := decimal_head n
  rw [hdecimal, atoi64_of_digit hdigit, ← hdecimal, readDigits_decimal]
  omega

theorem atoi64_i64tostr {n : Int} (hlow : -2 ^ 63 ≤ n) (hhigh : n < 2 ^ 63) :
    atoi64 (i64tostr n) = n := by
  unfold i64tostr
  split
  · next hneg =>
    show max (-2 ^ 63) (-(readDigits 0 (decimal n.natAbs) : Int)) = n
    rw [readDigits_decimal]
    omega
  · rw [atoi64_decimal (by omega)]
    omega

/-! ## Order positions -/

def keyN : List UInt8 := "n".toUTF8.toList
def keyFromAccount : List UInt8 := "fromaccount".toUTF8.toList
def keyVersion : List UInt8 := "version".toUTF8.toList
def keySpent : List UInt8 := "spent".toUTF8.toList
def keyTimeSmart : List UInt8 := "timesmart".toUTF8.toList

/-- `mapValue_t`. -/
abbrev MapValue := Map (List UInt8) (List UInt8)

/-- `ReadOrderPos`. -/
def readOrderPos (mapValue : MapValue) : Int :=
  match mapValue[keyN]? with
  | none => -1
  | some str => atoi64 str

/-- `WriteOrderPos`. -/
def writeOrderPos (nOrderPos : Int) (mapValue : MapValue) : MapValue :=
  if nOrderPos = -1 then mapValue else mapValue.insert keyN (i64tostr nOrderPos)

theorem readOrderPos_write {nOrderPos : Int} (hlow : -2 ^ 63 ≤ nOrderPos)
    (hhigh : nOrderPos < 2 ^ 63) {mapValue : MapValue} (h : mapValue[keyN]? = none) :
    readOrderPos (writeOrderPos nOrderPos mapValue) = nOrderPos := by
  unfold writeOrderPos
  split
  · next hnone =>
    rw [readOrderPos, h]
    exact hnone.symm
  · rw [readOrderPos, Map.getElem?_insert, if_pos rfl]
    exact atoi64_i64tostr hlow hhigh

/-- `READWRITE` of a `mapValue_t`. -/
def mapValueSerializer : Serializer MapValue := map (string .byte) (string .byte)

/-- No longer than `MAX_SIZE`, and with strings that are not. -/
def MapValue.Stored (mapValue : MapValue) : Prop :=
  mapValue.toList.length ≤ maxSize ∧
    ∀ item ∈ mapValue.toList, item.1.length ≤ maxSize ∧ item.2.length ≤ maxSize

theorem string_byte_lawful :
    (string .byte).Lawful fun str : List UInt8 => str.length ≤ maxSize := by
  have hlawful := string_lawful .byte
  exact ⟨fun str h => hlawful.size str ⟨h, fun _ _ => trivial⟩,
    fun str h => hlawful.reads str ⟨h, fun _ _ => trivial⟩, hlawful.keeps⟩

theorem mapValueSerializer_lawful : mapValueSerializer.Lawful MapValue.Stored :=
  map_lawful string_byte_lawful string_byte_lawful

/-! ## `CWalletTx` -/

/-- The members of `CMerkleTx` that are stored. -/
structure MerkleTxRecord where
  tx : CTransaction
  hashBlock : Uint256
  vMerkleBranch : List Uint256
  nIndex : Int

namespace MerkleTxRecord

structure Encodable (mtx : MerkleTxRecord) : Prop where
  tx : mtx.tx.Encodable
  hashBlock : mtx.hashBlock < 256 ^ 32
  vMerkleBranch : Sized uint256Type.Valid mtx.vMerkleBranch
  nIndex : int32Type.Valid mtx.nIndex

def serializer (sizes : Sizes) : Serializer MerkleTxRecord :=
  record (pair (CTransaction.serializer sizes) (pair uint256Type.serializer
      (pair (vector uint256Type) int32Type.serializer)))
    (fun mtx => (mtx.tx, mtx.hashBlock, mtx.vMerkleBranch, mtx.nIndex))
    (fun members => ⟨members.1, members.2.1, members.2.2.1, members.2.2.2⟩)

theorem serializer_lawful (sizes : Sizes) : (serializer sizes).Lawful Encodable :=
  record_lawful (pair_lawful (CTransaction.serializer_lawful sizes)
      (pair_lawful (Flat.serializer_lawful _)
        (pair_lawful (vector_lawful _) (Flat.serializer_lawful _))))
    (fun _ h => ⟨h.tx, h.hashBlock, h.vMerkleBranch, h.nIndex⟩) fun _ _ => rfl

end MerkleTxRecord

/-- `CWalletTx` without the members that are in memory only.  The characters of `vfSpent` are read
as booleans. -/
structure CWalletTxRecord extends MerkleTxRecord where
  vtxPrev : List MerkleTxRecord
  mapValue : MapValue
  vOrderForm : List (List UInt8 × List UInt8)
  fTimeReceivedIsTxTime : Nat
  nTimeReceived : Nat
  nTimeSmart : Nat
  fFromMe : UInt8
  strFromAccount : List UInt8
  vfSpent : List Bool
  nOrderPos : Int

namespace CWalletTxRecord

/-- The string of `mapValue["spent"]`. -/
def spentString (vfSpent : List Bool) : List UInt8 := vfSpent.map fun f => if f then 49 else 48

/-- `mapValue` as it is written, with the reserved keys. -/
def writtenMap (wtx : CWalletTxRecord) : MapValue :=
  let mapValue := wtx.mapValue.insert keyFromAccount wtx.strFromAccount
  let mapValue := mapValue.insert keySpent (spentString wtx.vfSpent)
  let mapValue := writeOrderPos wtx.nOrderPos mapValue
  if wtx.nTimeSmart ≠ 0 then mapValue.insert keyTimeSmart (decimal wtx.nTimeSmart) else mapValue

/-- The end of the macro body takes the reserved keys out again. -/
def eraseReserved (mapValue : MapValue) : MapValue :=
  ((((mapValue.erase keyFromAccount).erase keyVersion).erase keySpent).erase keyN).erase
    keyTimeSmart

/-- The object after it has been written or measured. -/
def afterWrite (wtx : CWalletTxRecord) : CWalletTxRecord :=
  { wtx with mapValue := eraseReserved wtx.writtenMap }

/-- What `READWRITE` goes over, behind `CMerkleTx`. -/
abbrev Members := MerkleTxRecord × List MerkleTxRecord × MapValue × List (List UInt8 × List UInt8) ×
  Nat × Nat × UInt8 × UInt8

def members (wtx : CWalletTxRecord) : Members :=
  (wtx.toMerkleTxRecord, wtx.vtxPrev, wtx.writtenMap, wtx.vOrderForm, wtx.fTimeReceivedIsTxTime,
    wtx.nTimeReceived, wtx.fFromMe, if wtx.vfSpent.any id then 1 else 0)

/-- What the macro body makes of the members that it has read. -/
def make (members : Members) : CWalletTxRecord where
  toMerkleTxRecord := members.1
  vtxPrev := members.2.1
  mapValue := eraseReserved members.2.2.1
  vOrderForm := members.2.2.2.1
  fTimeReceivedIsTxTime := members.2.2.2.2.1
  nTimeReceived := members.2.2.2.2.2.1
  nTimeSmart :=
    match members.2.2.1[keyTimeSmart]? with
    | some str => (atoi64 str % 2 ^ 32).toNat
    | none => 0
  fFromMe := members.2.2.2.2.2.2.1
  strFromAccount := members.2.2.1[keyFromAccount]?.getD []
  vfSpent :=
    match members.2.2.1[keySpent]? with
    | some str => str.map fun c => decide (c ≠ 48)
    | none => List.replicate members.1.tx.vout.length (decide (members.2.2.2.2.2.2.2 ≠ 0))
  nOrderPos := readOrderPos members.2.2.1

/-- The `sizeof` of the structured types in the vectors of a wallet transaction. -/
structure WalletSizes extends Sizes where
  merkleTx : SizeOf
  orderForm : SizeOf

def serializer (sizes : WalletSizes) : Serializer CWalletTxRecord :=
  record (pair (MerkleTxRecord.serializer sizes.toSizes)
      (pair (structVector (MerkleTxRecord.serializer sizes.toSizes) sizes.merkleTx)
        (pair mapValueSerializer
          (pair (structVector (pair (string .byte) (string .byte)) sizes.orderForm)
            (pair uint32Type.serializer (pair uint32Type.serializer
              (pair Flat.byte.serializer Flat.byte.serializer)))))))
    members make

/-- The keys that are not for the user of `mapValue`. -/
def reservedKeys : List (List UInt8) :=
  [keyFromAccount, keyVersion, keySpent, keyN, keyTimeSmart]

/-- `mapValue` has none of the reserved keys. -/
def Unreserved (mapValue : MapValue) : Prop := ∀ key ∈ reservedKeys, mapValue[key]? = none

/-- The members have values of their types, and nothing is longer than `MAX_SIZE` when it is
written. -/
structure Encodable (wtx : CWalletTxRecord) : Prop where
  merkleTx : wtx.toMerkleTxRecord.Encodable
  vtxPrev : Sized MerkleTxRecord.Encodable wtx.vtxPrev
  unreserved : Unreserved wtx.mapValue
  mapValue : wtx.writtenMap.Stored
  vOrderForm : Sized (fun item => item.1.length ≤ maxSize ∧ item.2.length ≤ maxSize) wtx.vOrderForm
  fTimeReceivedIsTxTime : wtx.fTimeReceivedIsTxTime < 256 ^ 4
  nTimeReceived : wtx.nTimeReceived < 256 ^ 4
  nTimeSmart : wtx.nTimeSmart < 256 ^ 4
  nOrderPos : int64Type.Valid wtx.nOrderPos

theorem getElem?_eraseReserved (mapValue : MapValue) (key : List UInt8) :
    (eraseReserved mapValue)[key]? = if key ∈ reservedKeys then none else mapValue[key]? := by
  unfold eraseReserved
  simp only [Map.getElem?_erase, reservedKeys, List.mem_cons, List.not_mem_nil, or_false]
  by_cases hmem : key = keyFromAccount ∨ key = keyVersion ∨ key = keySpent ∨ key = keyN ∨
      key = keyTimeSmart
  · rw [if_pos hmem]
    rcases hmem with rfl | rfl | rfl | rfl | rfl <;> simp
  · rw [if_neg hmem]
    simp only [not_or, eq_comm (a := key)] at hmem
    obtain ⟨h₁, h₂, h₃, h₄, h₅⟩ := hmem
    rw [if_neg h₅, if_neg h₄, if_neg h₃, if_neg h₂, if_neg h₁]

section written

variable (wtx : CWalletTxRecord) {key : List UInt8}

theorem getElem?_writtenMap : wtx.writtenMap[key]? =
    if keyTimeSmart = key ∧ wtx.nTimeSmart ≠ 0 then some (decimal wtx.nTimeSmart)
    else if keyN = key ∧ wtx.nOrderPos ≠ -1 then some (i64tostr wtx.nOrderPos)
    else if keySpent = key then some (spentString wtx.vfSpent)
    else if keyFromAccount = key then some wtx.strFromAccount
    else wtx.mapValue[key]? := by
  unfold writtenMap writeOrderPos
  dsimp only
  by_cases htime : wtx.nTimeSmart ≠ 0
  · rw [if_pos htime, Map.getElem?_insert]
    by_cases hpos : wtx.nOrderPos = -1
    · simp only [htime, hpos, Map.getElem?_insert, if_true, ne_eq, not_true_eq_false, and_false,
        if_false, not_false_eq_true, and_true]
    · simp only [htime, hpos, Map.getElem?_insert, if_false, ne_eq, not_false_eq_true, and_true]
  · rw [if_neg htime]
    by_cases hpos : wtx.nOrderPos = -1
    · simp only [htime, hpos, Map.getElem?_insert, if_true, ne_eq, not_true_eq_false, and_false,
        if_false]
    · simp only [htime, hpos, Map.getElem?_insert, if_false, ne_eq, not_false_eq_true, and_true,
        and_false]

theorem writtenMap_of_not_mem (h : key ∉ reservedKeys) :
    wtx.writtenMap[key]? = wtx.mapValue[key]? := by
  simp only [reservedKeys, List.mem_cons, List.not_mem_nil, or_false, not_or,
    eq_comm (a := key)] at h
  obtain ⟨hfrom, -, hspent, hn, htime⟩ := h
  rw [getElem?_writtenMap, if_neg fun h => htime h.1, if_neg fun h => hn h.1, if_neg hspent,
    if_neg hfrom]

theorem eraseReserved_writtenMap (h : Unreserved wtx.mapValue) :
    eraseReserved wtx.writtenMap = wtx.mapValue := by
  refine Map.ext fun key => ?_
  rw [getElem?_eraseReserved]
  split
  · next hmem => exact (h key hmem).symm
  · next hmem => exact writtenMap_of_not_mem wtx hmem

/-- Writing and measuring leave the object as it was. -/
theorem afterWrite_eq (h : Unreserved wtx.mapValue) : wtx.afterWrite = wtx := by
  rw [afterWrite, eraseReserved_writtenMap wtx h]

theorem writtenMap_fromAccount : wtx.writtenMap[keyFromAccount]? = some wtx.strFromAccount := by
  rw [getElem?_writtenMap, if_neg fun h => absurd h.1 (by decide +kernel),
    if_neg fun h => absurd h.1 (by decide +kernel), if_neg (by decide +kernel), if_pos rfl]

theorem writtenMap_spent : wtx.writtenMap[keySpent]? = some (spentString wtx.vfSpent) := by
  rw [getElem?_writtenMap, if_neg fun h => absurd h.1 (by decide +kernel),
    if_neg fun h => absurd h.1 (by decide +kernel), if_pos rfl]

theorem readOrderPos_writtenMap (h : Unreserved wtx.mapValue)
    (hpos : int64Type.Valid wtx.nOrderPos) : readOrderPos wtx.writtenMap = wtx.nOrderPos := by
  unfold readOrderPos
  rw [getElem?_writtenMap, if_neg fun h => absurd h.1 (by decide +kernel)]
  by_cases hnone : wtx.nOrderPos = -1
  · rw [if_neg fun h => h.2 hnone, if_neg (by decide +kernel), if_neg (by decide +kernel),
      h keyN (by simp [reservedKeys]), hnone]
  · rw [if_pos ⟨rfl, hnone⟩]
    exact atoi64_i64tostr hpos.1 hpos.2

theorem map_spentString (vfSpent : List Bool) :
    (spentString vfSpent).map (fun c => decide (c ≠ 48)) = vfSpent := by
  unfold spentString
  rw [List.map_map]
  refine List.map_id'' (fun f => ?_) _
  cases f <;> rfl

theorem make_members (h : wtx.Encodable) : make wtx.members = wtx := by
  have htime : (match wtx.writtenMap[keyTimeSmart]? with
      | some str => (atoi64 str % 2 ^ 32).toNat
      | none => 0) = wtx.nTimeSmart := by
    rw [getElem?_writtenMap]
    by_cases hzero : wtx.nTimeSmart = 0
    · rw [if_neg fun h => h.2 hzero, if_neg fun h => absurd h.1 (by decide +kernel),
        if_neg (by decide +kernel), if_neg (by decide +kernel),
        h.unreserved keyTimeSmart (by simp [reservedKeys]), hzero]
    · have hlt : wtx.nTimeSmart < 2 ^ 32 := h.nTimeSmart.trans_eq (by decide)
      rw [if_pos ⟨rfl, hzero⟩]
      dsimp only
      rw [atoi64_decimal (hlt.trans (by decide)), Int.emod_eq_of_lt (Int.natCast_nonneg _)
        (by exact_mod_cast hlt), Int.toNat_natCast]
  unfold make members
  dsimp only
  rw [htime, eraseReserved_writtenMap wtx h.unreserved, writtenMap_fromAccount, writtenMap_spent,
    readOrderPos_writtenMap wtx h.unreserved h.nOrderPos]
  dsimp only
  rw [map_spentString]
  rfl

end written

theorem serializer_lawful (sizes : WalletSizes) : (serializer sizes).Lawful Encodable := by
  have hmerkle := MerkleTxRecord.serializer_lawful sizes.toSizes
  refine record_lawful (pair_lawful hmerkle (pair_lawful (structVector_lawful hmerkle _)
    (pair_lawful mapValueSerializer_lawful (pair_lawful
      (structVector_lawful (pair_lawful string_byte_lawful string_byte_lawful) _)
      (pair_lawful (Flat.serializer_lawful _) (pair_lawful (Flat.serializer_lawful _)
        (pair_lawful (Flat.serializer_lawful _) (Flat.serializer_lawful _))))))))
    (fun wtx h => ?_) fun wtx h => make_members wtx h
  exact ⟨h.merkleTx, h.vtxPrev, h.mapValue, h.vOrderForm, h.fTimeReceivedIsTxTime,
    h.nTimeReceived, trivial, trivial⟩

end CWalletTxRecord

/-! ## `CAccountingEntry` -/

/-- A computation that may throw, between reads. -/
def ofExcept {σ α : Type} (x : Except Failure α) : StateT σ (Except Failure) α := fun s =>
  match x with
  | .ok a => .ok (a, s)
  | .error e => .error e

namespace Serializer

variable {α β : Type}

/-- `IMPLEMENT_SERIALIZE` with a body that may throw when it has read the members. -/
def recordWith (S : Serializer β) (members : α → β) (make : β → Except Failure α) :
    Serializer α where
  getSerializeSize a := S.getSerializeSize (members a)
  serialize a := S.serialize (members a)
  unserialize read := S.unserialize read >>= fun b => ofExcept (make b)

theorem recordWith_lawful {S : Serializer β} {Valid : β → Prop} {ValidA : α → Prop}
    {members : α → β} {make : β → Except Failure α} (hS : S.Lawful Valid)
    (hvalid : ∀ a, ValidA a → Valid (members a))
    (hmake : ∀ a, ValidA a → make (members a) = .ok a) :
    (recordWith S members make).Lawful ValidA where
  size a h := hS.size _ (hvalid a h)
  reads a h _ _ view := by
    have hread := hS.reads _ (hvalid a h) view
    show Takes view (S.unserialize _ >>= fun b => ofExcept (make b)) (S.serialize (members a)) a
    rw [← List.append_nil (S.serialize (members a))]
    refine hread.bind ?_
    rw [hmake a h]
    exact Takes.pure a
  keeps h := (hS.keeps h).bind fun b => by
    cases make b with
    | ok a => exact Preserves.pure a
    | error e => exact Preserves.throw e

/-- `READWRITE(nVersion)`, which a hash leaves out; the version that is read is not looked at. -/
def versioned (nType : Nat) (nVersion : Int) (S : Serializer β) : Serializer β :=
  if nType &&& serGetHash = 0 then
    record (pair int32Type.serializer S) (fun b => (nVersion, b)) Prod.snd
  else S

theorem versioned_lawful {nType : Nat} {nVersion : Int} (hversion : int32Type.Valid nVersion)
    {S : Serializer β} {Valid : β → Prop} (hS : S.Lawful Valid) :
    (versioned nType nVersion S).Lawful Valid := by
  unfold versioned
  split
  · exact record_lawful (pair_lawful (Flat.serializer_lawful _) hS) (fun _ h => ⟨hversion, h⟩)
      fun _ _ => rfl
  · exact hS

end Serializer

namespace CAccountingEntry

/-- `mapValue` when it is written. -/
def writtenMap (acentry : CAccountingEntry) : MapValue :=
  writeOrderPos acentry.nOrderPos acentry.mapValue

/-- `strComment` when it is written: the map and the extra bytes are behind a zero byte. -/
def writtenComment (acentry : CAccountingEntry) : List UInt8 :=
  acentry.strComment ++
    if acentry.writtenMap.isEmpty ∧ acentry.ssExtra.isEmpty then []
    else 0 :: (mapValueSerializer.serialize acentry.writtenMap ++ acentry.ssExtra)

/-- `strComment.find("\0", 0, 1)` and the part before it. -/
def beforeSep (strComment : List UInt8) : List UInt8 := strComment.takeWhile (· ≠ 0)

/-- The part behind the separator, if there is one. -/
def behindSep (strComment : List UInt8) : Option (List UInt8) :=
  match strComment.dropWhile (· ≠ 0) with
  | [] => none
  | _ :: rest => some rest

/-- The object after it has been written or measured. -/
def afterWrite (acentry : CAccountingEntry) : CAccountingEntry :=
  { acentry with
    strComment := beforeSep acentry.writtenComment
    mapValue := acentry.writtenMap.erase keyN }

abbrev Members := Int × Int × List UInt8 × List UInt8

def members (acentry : CAccountingEntry) : Members :=
  (acentry.nCreditDebit, acentry.nTime, acentry.strOtherAccount, acentry.writtenComment)

/-- The map and the extra bytes of a comment; there are none when there is no separator. -/
def readSep (strComment : List UInt8) : Except Failure (MapValue × List UInt8) :=
  match behindSep strComment with
  | none => .ok (∅, [])
  | some bytes =>
    match mapValueSerializer.unserialize CDataStream.read ⟨bytes, 0⟩ with
    | .ok (mapValue, ss) => .ok (mapValue, ss.rest)
    | .error e => .error e

/-- What the macro body makes of the members that a new object has read.  The account and the
number are in the key of the record. -/
def make (strAccount : List UInt8) (nEntryNo : Nat) (members : Members) :
    Except Failure CAccountingEntry := do
  let smuggled ← readSep members.2.2.2
  return {
    strAccount := strAccount
    nCreditDebit := members.1
    nTime := members.2.1
    strOtherAccount := members.2.2.1
    strComment := beforeSep members.2.2.2
    mapValue := smuggled.1.erase keyN
    nOrderPos := readOrderPos smuggled.1
    nEntryNo := nEntryNo
    ssExtra := smuggled.2 }

def serializer (nType : Nat) (nVersion : Int) (strAccount : List UInt8) (nEntryNo : Nat) :
    Serializer CAccountingEntry :=
  recordWith (versioned nType nVersion (pair int64Type.serializer (pair int64Type.serializer
      (pair (string .byte) (string .byte)))))
    members (make strAccount nEntryNo)

/-- The members have values of their types, and nothing is longer than `MAX_SIZE` when it is
written. -/
structure Encodable (acentry : CAccountingEntry) : Prop where
  nCreditDebit : int64Type.Valid acentry.nCreditDebit
  nTime : int64Type.Valid acentry.nTime
  strOtherAccount : acentry.strOtherAccount.length ≤ maxSize
  strComment : ∀ c ∈ acentry.strComment, c ≠ 0
  writtenComment : acentry.writtenComment.length ≤ maxSize
  mapValue : acentry.mapValue[keyN]? = none
  nOrderPos : int64Type.Valid acentry.nOrderPos

variable {acentry : CAccountingEntry}

theorem takeWhile_append_zero {strComment rest : List UInt8} (h : ∀ c ∈ strComment, c ≠ 0) :
    beforeSep (strComment ++ 0 :: rest) = strComment ∧
      behindSep (strComment ++ 0 :: rest) = some rest := by
  unfold beforeSep behindSep
  have hall : ∀ c ∈ strComment, decide (c ≠ 0) = true := fun c hc => decide_eq_true (h c hc)
  rw [List.takeWhile_append_of_pos hall, List.dropWhile_append_of_pos hall,
    List.takeWhile_cons, if_neg (by decide), List.dropWhile_cons, if_neg (by decide),
    List.append_nil]
  exact ⟨rfl, rfl⟩

theorem sep_of_forall {strComment : List UInt8} (h : ∀ c ∈ strComment, c ≠ 0) :
    beforeSep strComment = strComment ∧ behindSep strComment = none := by
  unfold beforeSep behindSep
  have hall : ∀ c ∈ strComment, decide (c ≠ 0) = true := fun c hc => decide_eq_true (h c hc)
  rw [List.takeWhile_eq_self_iff.mpr hall, List.dropWhile_eq_nil_iff.mpr hall]
  exact ⟨rfl, rfl⟩

theorem beforeSep_writtenComment (h : ∀ c ∈ acentry.strComment, c ≠ 0) :
    beforeSep acentry.writtenComment = acentry.strComment := by
  unfold writtenComment
  split
  · rw [List.append_nil]
    exact (sep_of_forall h).1
  · exact (takeWhile_append_zero h).1

theorem erase_writtenMap (h : acentry.mapValue[keyN]? = none) :
    acentry.writtenMap.erase keyN = acentry.mapValue := by
  refine Map.ext fun key => ?_
  rw [Map.getElem?_erase]
  split
  · next heq =>
    rw [← heq]
    exact h.symm
  · next hne =>
    unfold writtenMap writeOrderPos
    split
    · rfl
    · rw [Map.getElem?_insert, if_neg hne]

/-- Writing and measuring leave the object as it was. -/
theorem afterWrite_eq (h : acentry.Encodable) : acentry.afterWrite = acentry := by
  rw [afterWrite, beforeSep_writtenComment h.strComment, erase_writtenMap h.mapValue]

theorem length_le_serialize (str : List UInt8) :
    str.length + 1 ≤ ((string .byte).serialize str).length := by
  show _ ≤ (compactSize str.length ++ Flat.byte.store str).length
  have hsize : 1 ≤ Serializer.getSizeOfCompactSize str.length := by
    unfold Serializer.getSizeOfCompactSize
    split
    · exact le_rfl
    · split
      · decide
      · split <;> decide
  rw [List.length_append, length_compactSize, Flat.length_store, show Flat.byte.size = 1 from rfl]
  omega

/-- A map that is written in few bytes has few and short strings. -/
theorem stored_of_length {mapValue : MapValue}
    (h : (mapValueSerializer.serialize mapValue).length ≤ maxSize) : mapValue.Stored := by
  have hitem : ∀ item : List UInt8 × List UInt8, item.1.length + item.2.length + 1 ≤
      ((pair (string .byte) (string .byte)).serialize item).length := by
    intro item
    have hfirst := length_le_serialize item.1
    have hsecond := length_le_serialize item.2
    show _ ≤ ((string .byte).serialize item.1 ++ (string .byte).serialize item.2).length
    rw [List.length_append]
    omega
  have hall : (mapValue.toList.flatMap (pair (string .byte) (string .byte)).serialize).length ≤
      maxSize := by
    refine le_trans ?_ h
    show _ ≤ (compactSize mapValue.size ++ _).length
    rw [List.length_append]
    exact Nat.le_add_left _ _
  rw [List.length_flatMap] at hall
  constructor
  · refine le_trans ?_ hall
    have hones := List.card_nsmul_le_sum (mapValue.toList.map fun item =>
      ((pair (string .byte) (string .byte)).serialize item).length) 1 (by
        intro n hn
        obtain ⟨item, -, rfl⟩ := List.mem_map.mp hn
        exact (Nat.le_add_left 1 _).trans (hitem item))
    rwa [List.length_map, smul_eq_mul, Nat.mul_one] at hones
  · intro item hmem
    have hle := (List.le_sum_of_mem (List.mem_map_of_mem (f := fun item =>
      ((pair (string .byte) (string .byte)).serialize item).length) hmem)).trans hall
    have := hitem item
    omega

/-- The map and the extra bytes are found behind the separator. -/
theorem readSep_writtenComment (h : acentry.Encodable) :
    readSep acentry.writtenComment = .ok (acentry.writtenMap, acentry.ssExtra) := by
  have hlength := h.writtenComment
  unfold readSep
  unfold writtenComment at hlength ⊢
  split at hlength
  · next hempty =>
    obtain ⟨hmap, hextra⟩ := hempty
    rw [if_pos ⟨hmap, hextra⟩, List.append_nil, (sep_of_forall h.strComment).2,
      Std.ExtTreeMap.isEmpty_iff.mp hmap, List.isEmpty_iff.mp hextra]
  · next hfull =>
    rw [if_neg hfull, (takeWhile_append_zero h.strComment).2]
    rw [List.length_append, List.length_cons, List.length_append] at hlength
    have hstored : acentry.writtenMap.Stored := stored_of_length (by omega)
    have hsmall : (mapValueSerializer.serialize acentry.writtenMap).length < 2 ^ 32 :=
      lt_of_le_of_lt (by omega) (show maxSize < 2 ^ 32 by decide)
    obtain ⟨s, hrun, hrest⟩ := (mapValueSerializer_lawful.lossless hstored).stream hsmall
      acentry.ssExtra
    dsimp only
    rw [hrun]
    dsimp only
    rw [hrest]

theorem make_members (h : acentry.Encodable) :
    make acentry.strAccount acentry.nEntryNo acentry.members = .ok acentry := by
  unfold make members
  dsimp only
  rw [readSep_writtenComment h]
  show Except.ok _ = _
  rw [beforeSep_writtenComment h.strComment, erase_writtenMap h.mapValue, writtenMap,
    readOrderPos_write h.nOrderPos.1 h.nOrderPos.2 h.mapValue]

theorem serializer_lawful (nType : Nat) {nVersion : Int} (hversion : int32Type.Valid nVersion)
    (strAccount : List UInt8) (nEntryNo : Nat) :
    (serializer nType nVersion strAccount nEntryNo).Lawful fun acentry =>
      acentry.Encodable ∧ acentry.strAccount = strAccount ∧ acentry.nEntryNo = nEntryNo := by
  refine recordWith_lawful (versioned_lawful hversion (pair_lawful (Flat.serializer_lawful _)
    (pair_lawful (Flat.serializer_lawful _) (pair_lawful string_byte_lawful string_byte_lawful))))
    (fun acentry h => ?_) fun acentry h => ?_
  · exact ⟨h.1.nCreditDebit, h.1.nTime, h.1.strOtherAccount, h.1.writtenComment⟩
  · obtain ⟨hencodable, rfl, rfl⟩ := h
    exact make_members hencodable

end CAccountingEntry

/-- Records of the wallet of which nothing is longer than `MAX_SIZE` survive writing and reading,
with the extra bytes that a newer version has put behind the map of an accounting entry, and the
object that is written or measured is left as it was. -/
theorem walletRecords_lossless (sizes : CWalletTxRecord.WalletSizes) (nType : Nat) (nVersion : Int)
    (hversion : int32Type.Valid nVersion) :
    (∀ wtx : CWalletTxRecord, wtx.Encodable →
      Lossless (CWalletTxRecord.serializer sizes) wtx ∧ wtx.afterWrite = wtx) ∧
    ∀ acentry : CAccountingEntry, acentry.Encodable →
      Lossless (CAccountingEntry.serializer nType nVersion acentry.strAccount acentry.nEntryNo)
        acentry ∧ acentry.afterWrite = acentry := by
  refine ⟨fun wtx h => ⟨?_, CWalletTxRecord.afterWrite_eq wtx h.unreserved⟩, fun acentry h =>
    ⟨?_, CAccountingEntry.afterWrite_eq h⟩⟩
  · exact (CWalletTxRecord.serializer_lawful sizes).lossless h
  · exact (CAccountingEntry.serializer_lawful nType hversion acentry.strAccount
      acentry.nEntryNo).lossless ⟨h, rfl, rfl⟩

section samples

/-- An entry that a newer version has written: with a position and with extra bytes. -/
def newerEntry : CAccountingEntry :=
  ⟨[97], 5, 1333333333, [98], [99], ∅, 7, 1, [1, 2]⟩

theorem newerEntry_encodable : newerEntry.Encodable where
  nCreditDebit := show -2 ^ 63 ≤ (5 : Int) ∧ (5 : Int) < 2 ^ 63 by decide
  nTime := show -2 ^ 63 ≤ (1333333333 : Int) ∧ (1333333333 : Int) < 2 ^ 63 by decide
  strOtherAccount := by decide +kernel
  strComment := by decide +kernel
  writtenComment := by decide +kernel
  mapValue := by decide +kernel
  nOrderPos := show -2 ^ 63 ≤ (7 : Int) ∧ (7 : Int) < 2 ^ 63 by decide

theorem walletRecords_lossless_sample :
    Lossless (CAccountingEntry.serializer serDisk 60000 [97] 1) newerEntry ∧
      newerEntry.afterWrite = newerEntry := by
  obtain ⟨-, hentries⟩ := walletRecords_lossless ⟨sizes64, ⟨128, by decide⟩, ⟨16, by decide⟩⟩
    serDisk 60000 (show -2 ^ 31 ≤ (60000 : Int) ∧ (60000 : Int) < 2 ^ 31 by decide)
  exact hentries newerEntry newerEntry_encodable

/-- A string that has been read is no longer than `MAX_SIZE`. -/
theorem length_of_unserialize {σ : Type} {read : StreamRead σ} {s s' : σ} {str : List UInt8}
    (h : (string .byte).unserialize read s = .ok (str, s')) : str.length ≤ maxSize := by
  have hload : ∀ n bytes, (Flat.byte.load n bytes).length = n := by
    intro n
    induction n with
    | zero => exact fun _ => rfl
    | succ n ih => exact fun bytes => congrArg Nat.succ (ih _)
  obtain ⟨nSize, s₁, hsize, hrest⟩ := reader_bind_eq_ok.mp h
  have hle : nSize ≤ maxSize := by
    obtain ⟨nSizeRet, s₂, -, hcheck⟩ := reader_bind_eq_ok.mp hsize
    unfold checkSize at hcheck
    split at hcheck
    · cases hcheck
    · next hsmall =>
      cases hcheck
      exact Nat.not_lt.mp hsmall
  split at hrest
  · obtain ⟨bytes, -, rfl⟩ := reader_map_eq_ok.mp hrest
    rw [hload]
    exact hle
  · cases hrest
    exact Nat.zero_le _

/-- An entry with a name of one byte more than can be read. -/
def longEntry : CAccountingEntry :=
  ⟨[], 0, 0, List.replicate (maxSize + 1) 97, [], ∅, -1, 1, []⟩

/-- It is written and cannot be read back. -/
theorem longEntry_lost : ¬ ∃ s, (CAccountingEntry.serializer serDisk 60000 [] 1).unserialize
    CDataStream.read ⟨(CAccountingEntry.serializer serDisk 60000 [] 1).serialize longEntry, 0⟩ =
      .ok (longEntry, s) := by
  rintro ⟨s, hrun⟩
  obtain ⟨members, s₁, hmembers, hmake⟩ := reader_bind_eq_ok.mp hrun
  have hother : longEntry.strOtherAccount = members.2.2.1 := by
    unfold ofExcept CAccountingEntry.make at hmake
    cases hsep : CAccountingEntry.readSep members.2.2.2 with
    | error e =>
      rw [hsep] at hmake
      cases hmake
    | ok smuggled =>
      rw [hsep] at hmake
      exact congrArg CAccountingEntry.strOtherAccount
        (congrArg Prod.fst (Except.ok.inj hmake)).symm
  -- the members one after the other: the version, two numbers and the strings
  obtain ⟨versioned, hversioned, rfl⟩ := reader_map_eq_ok.mp hmembers
  obtain ⟨nVersion, s₂, -, hbehind⟩ := reader_bind_eq_ok.mp hversioned
  obtain ⟨behind, s₃, hbehind, hpair⟩ := reader_bind_eq_ok.mp hbehind
  cases hpair
  obtain ⟨nCreditDebit, s₄, -, hnext⟩ := reader_bind_eq_ok.mp hbehind
  obtain ⟨next, s₅, hnext, hpair⟩ := reader_bind_eq_ok.mp hnext
  cases hpair
  obtain ⟨nTime, s₆, -, hstrings⟩ := reader_bind_eq_ok.mp hnext
  obtain ⟨strings, s₇, hstrings, hpair⟩ := reader_bind_eq_ok.mp hstrings
  cases hpair
  obtain ⟨strOtherAccount, s₈, hread, hcomment⟩ := reader_bind_eq_ok.mp hstrings
  obtain ⟨strComment, s₉, -, hpair⟩ := reader_bind_eq_ok.mp hcomment
  cases hpair
  have hle := length_of_unserialize hread
  have hlength : longEntry.strOtherAccount.length = maxSize + 1 := List.length_replicate
  rw [hother] at hlength
  exact absurd (hlength.ge.trans hle) (Nat.not_succ_le_self _)

end samples

end NoLimitCoin
