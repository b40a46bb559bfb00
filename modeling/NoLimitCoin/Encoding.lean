import NoLimitCoin.Serializer

/-!
# Blocks and transactions on the wire and on disk

The serialization templates at the types of `main.h`, read back from a `CDataStream` and from a
`CAutoFile`.  `GetSerializeSize` returns an `unsigned int` and the read position of a
`CDataStream` is one, so both are about values of less than 2^32 bytes.

Results:

1. `CTransaction.serializer_serialize`, `CBlock.serializer_serialize`: the templates write the
   bytes that hashes and disk positions are about.
2. `serialization_lossless`: what is written is read back, alone and in containers; a truncated
   input throws.
-/

namespace NoLimitCoin

open Serializer
open Network (maxSize)

/-! ## Streams -/

structure CDataStream where
  vch : List UInt8
  nReadPos : Nat
deriving Repr, DecidableEq

namespace CDataStream

/-- What is left to read. -/
def rest (s : CDataStream) : List UInt8 := s.vch.drop s.nReadPos

/-- `CDataStream::read`; the position is an `unsigned int`. -/
def read : StreamRead CDataStream := fun nSize s =>
  let nReadPosNext := uint32 (s.nReadPos + nSize)
  if s.vch.length ≤ nReadPosNext then
    if s.vch.length < nReadPosNext then
      .error (.failure "CDataStream::read() : end of data")
    else if s.vch.length < s.nReadPos + nSize then
      .error (.undefined "memcpy")
    else .ok (s.rest.take nSize, ⟨[], 0⟩)
  else if s.vch.length < s.nReadPos + nSize then
    .error (.undefined "memcpy")
  else .ok (s.rest.take nSize, ⟨s.vch, nReadPosNext⟩)

/-- A stream can be read up to position 2^32. -/
def view : View read where
  Holds limit s items := s.rest = items ∧ s.nReadPos ≤ s.vch.length ∧ s.nReadPos + limit < 2 ^ 32
  Throws e := ∃ what, e = .failure what
  read_ok {limit s items rest} h := by
    obtain ⟨hrest, hpos, hlimit⟩ := h
    have hlen : s.vch.length = s.nReadPos + items.length + rest.length := by
      have hdrop := congrArg List.length hrest
      rw [CDataStream.rest, List.length_drop, List.length_append] at hdrop
      omega
    have hnext : uint32 (s.nReadPos + items.length) = s.nReadPos + items.length :=
      uint32_of_lt (by omega)
    have hover : ¬ s.vch.length < s.nReadPos + items.length := by omega
    have htake : s.rest.take items.length = items := by rw [hrest, List.take_left]
    unfold read
    dsimp only
    rw [hnext, if_neg hover, if_neg hover, htake]
    split
    · next hle =>
      obtain rfl : rest = [] := List.length_eq_zero_iff.mp (by omega)
      exact ⟨⟨[], 0⟩, rfl, rfl, Nat.zero_le _, show 0 + limit < 2 ^ 32 by omega⟩
    · refine ⟨⟨s.vch, s.nReadPos + items.length⟩, rfl, ?_,
        show s.nReadPos + items.length ≤ s.vch.length by omega,
        show s.nReadPos + items.length + limit < 2 ^ 32 by omega⟩
      rw [CDataStream.rest, ← List.drop_drop]
      exact (congrArg (List.drop items.length) hrest).trans List.drop_left
  read_error {limit s items n} h hlt hn := by
    obtain ⟨hrest, hpos, hlimit⟩ := h
    have hlen : s.vch.length = s.nReadPos + items.length := by
      have hdrop := congrArg List.length hrest
      rw [CDataStream.rest, List.length_drop] at hdrop
      omega
    have hnext : uint32 (s.nReadPos + n) = s.nReadPos + n := uint32_of_lt (by omega)
    refine ⟨.failure "CDataStream::read() : end of data", ⟨_, rfl⟩, ?_⟩
    unfold read
    dsimp only
    rw [hnext, if_pos (by omega), if_pos (by omega)]

/-- A stream of 2^32 bytes or more is never read to its end. -/
theorem read_keeps (n : Nat) :
    Preserves (fun s : CDataStream => 2 ^ 32 ≤ s.vch.length ∧ s.nReadPos < 2 ^ 32) (read n) := by
  intro s s' bytes hs h
  have hnext : uint32 (s.nReadPos + n) < 2 ^ 32 := Nat.mod_lt _ (by decide)
  unfold read at h
  dsimp only at h
  rw [if_neg (by omega)] at h
  split at h
  · cases h
  · cases h
    exact ⟨hs.1, hnext⟩

end CDataStream

/-- A file that is open for reading: what follows its position. -/
structure CAutoFile where
  file : Option (List UInt8)
deriving Repr, DecidableEq

namespace CAutoFile

/-- `CAutoFile::read`. -/
def read : StreamRead CAutoFile := fun nSize s =>
  match s.file with
  | none => .error (.failure "CAutoFile::read : file handle is NULL")
  | some bytes =>
    if bytes.length < nSize then .error (.failure "CAutoFile::read : end of file")
    else .ok (bytes.take nSize, ⟨some (bytes.drop nSize)⟩)

def view : View read where
  Holds _ s items := s = ⟨some items⟩
  Throws e := ∃ what, e = .failure what
  read_ok {limit s items rest} h := by
    subst h
    refine ⟨⟨some rest⟩, ?_, rfl⟩
    show (if (items ++ rest).length < items.length then _ else _) = _
    rw [if_neg (by rw [List.length_append]; omega), List.take_left, List.drop_left]
  read_error {limit s items n} h hlt _ := by
    subst h
    exact ⟨_, ⟨_, rfl⟩, if_pos hlt⟩

end CAutoFile

/-! ## Types of `main.h` -/

/-- `SER_NETWORK`, `SER_DISK`, `SER_GETHASH` and `SER_BLOCKHEADERONLY`. -/
def serNetwork : Nat := 1 <<< 0
def serDisk : Nat := 1 <<< 1
def serGetHash : Nat := 1 <<< 2
def serBlockHeaderOnly : Nat := 1 <<< 17

def uint32Type : Flat Nat := .unsigned 4 (by decide) (by decide)
def int32Type : Flat Int := .signed 4 (by decide) (by decide)
def int64Type : Flat Int := .signed 8 (by decide) (by decide)
def uint64Type : Flat Nat := .unsigned 8 (by decide) (by decide)
def uint256Type : Flat Uint256 := .unsigned 32 (by decide) (by decide)

/-- A script, or another vector of bytes. -/
def bytesSerializer : Serializer (List UInt8) := vector .byte

namespace COutPoint

/-- The values of the members' types. -/
def Encodable (o : COutPoint) : Prop := o.hash < 256 ^ 32 ∧ o.n < 256 ^ 4

def flat : Flat COutPoint where
  size := 36
  toBytes := serialize
  ofBytes bytes := ⟨leNat (bytes.take 32), leNat (bytes.drop 32)⟩
  Valid := Encodable
  size_pos := by decide
  size_le := by decide
  length_toBytes o := by simp [serialize, serializeHash]
  ofBytes_toBytes o h := by
    have htake : (serialize o).take 32 = leBytes 32 o.hash := by
      rw [serialize, serializeHash, List.take_left' (length_leBytes 32 o.hash)]
    have hdrop : (serialize o).drop 32 = leBytes 4 o.n := by
      rw [serialize, serializeHash, List.drop_left' (length_leBytes 32 o.hash)]
    rw [htake, hdrop, leNat_leBytes, leNat_leBytes, Nat.mod_eq_of_lt h.1, Nat.mod_eq_of_lt h.2]

end COutPoint

namespace CTxIn

structure Encodable (txin : CTxIn) : Prop where
  prevout : txin.prevout.Encodable
  scriptSig : txin.scriptSig.length ≤ maxSize
  nSequence : txin.nSequence < 256 ^ 4

def serializer : Serializer CTxIn :=
  record (pair COutPoint.flat.serializer (pair bytesSerializer uint32Type.serializer))
    (fun txin => (txin.prevout, txin.scriptSig, txin.nSequence))
    (fun members => ⟨members.1, members.2.1, members.2.2⟩)

theorem serializer_lawful : serializer.Lawful Encodable :=
  record_lawful (pair_lawful (Flat.serializer_lawful _)
      (pair_lawful (vector_lawful _) (Flat.serializer_lawful _)))
    (fun _ h => ⟨h.prevout, ⟨h.scriptSig, fun _ _ => trivial⟩, h.nSequence⟩) fun _ _ => rfl

end CTxIn

namespace CTxOut

structure Encodable (txout : CTxOut) : Prop where
  nValue : Int64.inRange txout.nValue = true
  scriptPubKey : txout.scriptPubKey.length ≤ maxSize

def serializer : Serializer CTxOut :=
  record (pair int64Type.serializer bytesSerializer)
    (fun txout => (txout.nValue, txout.scriptPubKey)) (fun members => ⟨members.1, members.2⟩)

theorem serializer_lawful : serializer.Lawful Encodable := by
  refine record_lawful (pair_lawful (Flat.serializer_lawful _) (vector_lawful _))
    (fun txout h => ⟨?_, h.scriptPubKey, fun _ _ => trivial⟩) fun _ _ => rfl
  have hrange := h.nValue
  rw [Int64.inRange, Bool.and_eq_true, decide_eq_true_eq, decide_eq_true_eq] at hrange
  exact hrange

end CTxOut

/-- The `sizeof` of the structured types that stand in vectors, which is up to the compiler. -/
structure Sizes where
  txin : SizeOf
  txout : SizeOf
  tx : SizeOf

namespace CTransaction

structure Encodable (tx : CTransaction) : Prop where
  nVersion : -2 ^ 31 ≤ tx.nVersion ∧ tx.nVersion < 2 ^ 31
  nTime : tx.nTime < 256 ^ 4
  vin : Sized CTxIn.Encodable tx.vin
  vout : Sized CTxOut.Encodable tx.vout
  nLockTime : tx.nLockTime < 256 ^ 4

def serializer (sizes : Sizes) : Serializer CTransaction :=
  record (pair int32Type.serializer (pair uint32Type.serializer
      (pair (structVector CTxIn.serializer sizes.txin)
        (pair (structVector CTxOut.serializer sizes.txout) uint32Type.serializer))))
    (fun tx => (tx.nVersion, tx.nTime, tx.vin, tx.vout, tx.nLockTime))
    (fun members => ⟨members.1, members.2.1, members.2.2.1, members.2.2.2.1, members.2.2.2.2⟩)

theorem serializer_lawful (sizes : Sizes) : (serializer sizes).Lawful Encodable :=
  record_lawful (pair_lawful (Flat.serializer_lawful _) (pair_lawful (Flat.serializer_lawful _)
      (pair_lawful (structVector_lawful CTxIn.serializer_lawful _)
        (pair_lawful (structVector_lawful CTxOut.serializer_lawful _)
          (Flat.serializer_lawful _)))))
    (fun _ h => ⟨h.nVersion, h.nTime, h.vin, h.vout, h.nLockTime⟩) fun _ _ => rfl

end CTransaction

namespace CBlock

structure Encodable (block : CBlock) : Prop where
  nVersion : -2 ^ 31 ≤ block.nVersion ∧ block.nVersion < 2 ^ 31
  hashPrevBlock : block.hashPrevBlock < 256 ^ 32
  hashMerkleRoot : block.hashMerkleRoot < 256 ^ 32
  nTime : block.nTime < 256 ^ 4
  nBits : block.nBits < 256 ^ 4
  nNonce : block.nNonce < 256 ^ 4
  vtx : Sized CTransaction.Encodable block.vtx
  vchBlockSig : block.vchBlockSig.length ≤ maxSize

/-- The members before `vtx`. -/
abbrev Header := Int × Uint256 × Uint256 × Nat × Nat × Nat

def header (block : CBlock) : Header :=
  (block.nVersion, block.hashPrevBlock, block.hashMerkleRoot, block.nTime, block.nBits,
    block.nNonce)

def ofHeader (h : Header) (vtx : List CTransaction) (vchBlockSig : List UInt8) : CBlock :=
  ⟨h.1, h.2.1, h.2.2.1, h.2.2.2.1, h.2.2.2.2.1, h.2.2.2.2.2, vtx, vchBlockSig⟩

def headerSerializer : Serializer Header :=
  pair int32Type.serializer (pair uint256Type.serializer (pair uint256Type.serializer
    (pair uint32Type.serializer (pair uint32Type.serializer uint32Type.serializer))))

/-- The transactions and the signature are left out of what is hashed and of headers. -/
def serializer (sizes : Sizes) (nType : Nat) : Serializer CBlock :=
  if nType &&& (serGetHash ||| serBlockHeaderOnly) = 0 then
    record (pair headerSerializer
        (pair (structVector (CTransaction.serializer sizes) sizes.tx) bytesSerializer))
      (fun block => (block.header, block.vtx, block.vchBlockSig))
      (fun members => ofHeader members.1 members.2.1 members.2.2)
  else record headerSerializer header (fun h => ofHeader h [] [])

theorem serializer_lawful (sizes : Sizes) {nType : Nat}
    (hnType : nType &&& (serGetHash ||| serBlockHeaderOnly) = 0) :
    (serializer sizes nType).Lawful Encodable := by
  have hheader := pair_lawful int32Type.serializer_lawful (pair_lawful uint256Type.serializer_lawful
    (pair_lawful uint256Type.serializer_lawful (pair_lawful uint32Type.serializer_lawful
      (pair_lawful uint32Type.serializer_lawful uint32Type.serializer_lawful))))
  unfold serializer
  rw [if_pos hnType]
  refine record_lawful (pair_lawful hheader (pair_lawful
    (structVector_lawful (CTransaction.serializer_lawful sizes) _) (vector_lawful _)))
    (fun _ h => ⟨?_, h.vtx, h.vchBlockSig, fun _ _ => trivial⟩) fun _ _ => rfl
  exact ⟨h.nVersion, h.hashPrevBlock, h.hashMerkleRoot, h.nTime, h.nBits, h.nNonce⟩

end CBlock

/-! ## The bytes that are written -/

theorem bytesSerializer_serialize (bytes : List UInt8) :
    bytesSerializer.serialize bytes = serializeBytes bytes := by
  show compactSize bytes.length ++ bytes.flatMap (fun b => [b]) = _
  rw [List.flatMap_singleton']
  rfl

theorem CTxIn.serializer_serialize : CTxIn.serializer.serialize = CTxIn.serialize := by
  funext txin
  show txin.prevout.serialize ++ (bytesSerializer.serialize txin.scriptSig ++
    leBytes 4 txin.nSequence) = _
  rw [bytesSerializer_serialize, ← List.append_assoc]
  rfl

theorem CTxOut.serializer_serialize : CTxOut.serializer.serialize = CTxOut.serialize := by
  funext txout
  show leBytesInt 8 txout.nValue ++ bytesSerializer.serialize txout.scriptPubKey = _
  rw [bytesSerializer_serialize]
  rfl

/-- The templates write what the hash of a transaction is about. -/
theorem CTransaction.serializer_serialize (sizes : Sizes) :
    (CTransaction.serializer sizes).serialize = CTransaction.serialize := by
  funext tx
  show leBytesInt 4 tx.nVersion ++ (leBytes 4 tx.nTime ++
    (serializeVector CTxIn.serializer.serialize tx.vin ++
      (serializeVector CTxOut.serializer.serialize tx.vout ++ leBytes 4 tx.nLockTime))) = _
  rw [CTxIn.serializer_serialize, CTxOut.serializer_serialize, CTransaction.serialize]
  simp only [List.append_assoc]

/-- The templates write what disk positions are about. -/
theorem CBlock.serializer_serialize (sizes : Sizes) {nType : Nat}
    (hnType : nType &&& (serGetHash ||| serBlockHeaderOnly) = 0) :
    (CBlock.serializer sizes nType).serialize = CBlock.serialize := by
  funext block
  unfold CBlock.serializer
  rw [if_pos hnType]
  show CBlock.headerSerializer.serialize block.header ++
    (serializeVector (CTransaction.serializer sizes).serialize block.vtx ++
      bytesSerializer.serialize block.vchBlockSig) = _
  rw [CTransaction.serializer_serialize, bytesSerializer_serialize, CBlock.serialize,
    ← List.append_assoc]
  congr 2

/-! ## Reading back -/

/-- A value that survives writing and reading. -/
structure Lossless {α : Type} (S : Serializer α) (a : α) : Prop where
  size : (S.serialize a).length < 2 ^ 32 → S.getSerializeSize a = (S.serialize a).length
  stream : (S.serialize a).length < 2 ^ 32 → ∀ rest, ∃ s,
    S.unserialize CDataStream.read ⟨S.serialize a ++ rest, 0⟩ = .ok (a, s) ∧ s.rest = rest
  file : ∀ rest, S.unserialize CAutoFile.read ⟨some (S.serialize a ++ rest)⟩ =
    .ok (a, ⟨some rest⟩)
  streamTruncated : (S.serialize a).length < 2 ^ 32 → ∀ start, start <+: S.serialize a →
    start ≠ S.serialize a → ∃ what, S.unserialize CDataStream.read ⟨start, 0⟩ =
      .error (.failure what)
  fileTruncated : ∀ start, start <+: S.serialize a → start ≠ S.serialize a → ∃ what,
    S.unserialize CAutoFile.read ⟨some start⟩ = .error (.failure what)

theorem Serializer.Lawful.lossless {α : Type} {S : Serializer α} {Valid : α → Prop}
    (hS : S.Lawful Valid) {a : α} (h : Valid a) : Lossless S a where
  size hlt := (hS.size a h).trans (uint32_of_lt hlt)
  stream hlt rest := by
    have hholds : CDataStream.view.Holds ((S.serialize a).length + 0) ⟨S.serialize a ++ rest, 0⟩
        (S.serialize a ++ rest) := ⟨rfl, Nat.zero_le _, by rw [Nat.zero_add]; exact hlt⟩
    obtain ⟨s, hrun, hrest, -⟩ := (hS.reads a h CDataStream.view).complete hholds
    exact ⟨s, hrun, hrest⟩
  file rest := by
    have hholds : CAutoFile.view.Holds ((S.serialize a).length + 0) ⟨some (S.serialize a ++ rest)⟩
        (S.serialize a ++ rest) := rfl
    obtain ⟨s, hrun, rfl⟩ := (hS.reads a h CAutoFile.view).complete hholds
    exact hrun
  streamTruncated hlt start hstart hne := by
    have hholds : CDataStream.view.Holds (S.serialize a).length ⟨start, 0⟩ start :=
      ⟨rfl, Nat.zero_le _, by rw [Nat.zero_add]; exact hlt⟩
    obtain ⟨e, ⟨what, rfl⟩, hrun⟩ :=
      (hS.reads a h CDataStream.view).truncated hstart hne (Nat.le_refl _) hholds
    exact ⟨what, hrun⟩
  fileTruncated start hstart hne := by
    have hholds : CAutoFile.view.Holds (S.serialize a).length ⟨some start⟩ start := rfl
    obtain ⟨e, ⟨what, rfl⟩, hrun⟩ :=
      (hS.reads a h CAutoFile.view).truncated hstart hne (Nat.le_refl _) hholds
    exact ⟨what, hrun⟩

/-- Blocks and transactions of less than 2^32 bytes survive writing and reading for the network
and for the disk, and so do strings, vectors, pairs, maps and sets of what does. -/
theorem serialization_lossless (sizes : Sizes) (nType : Nat)
    (hnType : nType = serNetwork ∨ nType = serDisk) :
    (∀ tx : CTransaction, tx.Encodable → Lossless (CTransaction.serializer sizes) tx) ∧
    (∀ block : CBlock, block.Encodable → Lossless (CBlock.serializer sizes nType) block) ∧
    (∀ (α : Type) (C : Flat α) (str : List α), Sized C.Valid str → Lossless (string C) str) ∧
    (∀ (α : Type) (T : Flat α) (v : List α), Sized T.Valid v → Lossless (vector T) v) ∧
    (∀ (α : Type) (S : Serializer α) (Valid : α → Prop), S.Lawful Valid →
      (∀ a, Valid a → Lossless S a) ∧
      (∀ sizeof, (structVector S sizeof).Lawful (Sized Valid)) ∧
      (∀ [Ord α] [Std.TransOrd α], (set S).Lawful fun m => Sized Valid m.keys) ∧
      ∀ (β : Type) (T : Serializer β) (ValidT : β → Prop), T.Lawful ValidT →
        ((pair S T).Lawful fun item => Valid item.1 ∧ ValidT item.2) ∧
        ∀ [Ord α] [Std.TransOrd α],
          (map S T).Lawful fun m => Sized (fun item => Valid item.1 ∧ ValidT item.2) m.toList) := by
  have hmask : nType &&& (serGetHash ||| serBlockHeaderOnly) = 0 := by
    rcases hnType with rfl | rfl <;> decide
  refine ⟨fun tx h => ?_, fun block h => ?_, fun α C str h => ?_, fun α T v h => ?_,
    fun α S Valid hS => ⟨fun a h => hS.lossless h, structVector_lawful hS, set_lawful hS,
      fun β T ValidT hT => ⟨pair_lawful hS hT, map_lawful hS hT⟩⟩⟩
  · exact (CTransaction.serializer_lawful sizes).lossless h
  · exact (CBlock.serializer_lawful sizes hmask).lossless h
  · exact (string_lawful C).lossless h
  · exact (vector_lawful T).lossless h

/-- `sizeof` with 8-byte pointers. -/
def sizes64 : Sizes := ⟨⟨72, by decide⟩, ⟨32, by decide⟩, ⟨64, by decide⟩⟩

theorem serialization_lossless_small :
    Lossless (CTransaction.serializer sizes64) ⟨1, 1400000000, [], [⟨5, [0x51]⟩], 0⟩ ∧
      Lossless (CBlock.serializer sizes64 serNetwork) ⟨6, 0, 0, 0, 0, 0, [], [1, 2]⟩ := by
  obtain ⟨htx, hblock, -⟩ := serialization_lossless sizes64 serNetwork (.inl rfl)
  refine ⟨htx _ ⟨by decide, by decide, ⟨by decide, fun _ h => absurd h List.not_mem_nil⟩,
      ⟨by decide, ?_⟩, by decide⟩,
    hblock _ ⟨by decide, by decide, by decide, by decide, by decide, by decide,
      ⟨by decide, fun _ h => absurd h List.not_mem_nil⟩, by decide⟩⟩
  intro txout h
  obtain rfl := List.mem_singleton.mp h
  exact ⟨by decide, by decide⟩

/-! ## Values of 2^32 bytes and more -/

/-- A transaction with 128 outputs, each with a script of `n` bytes. -/
def wideTx (n : Nat) : CTransaction := ⟨1, 0, [], List.replicate 128 ⟨0, List.replicate n 0⟩, 0⟩

theorem wideTx_encodable {n : Nat} (hn : n ≤ maxSize) : (wideTx n).Encodable := by
  refine ⟨?_, show 0 < 256 ^ 4 by decide, ⟨show 0 ≤ maxSize by decide, ?_⟩,
    ⟨show 128 ≤ maxSize by decide, ?_⟩, show 0 < 256 ^ 4 by decide⟩
  · show (-2 ^ 31 : Int) ≤ 1 ∧ (1 : Int) < 2 ^ 31
    decide
  · exact fun _ h => absurd h List.not_mem_nil
  intro txout h
  obtain rfl := List.eq_of_mem_replicate h
  refine ⟨show Int64.inRange 0 = true by decide, ?_⟩
  show (List.replicate n (0 : UInt8)).length ≤ maxSize
  rw [List.length_replicate]
  exact hn

theorem length_wideTx (n : Nat) (sizes : Sizes) :
    128 * n ≤ ((CTransaction.serializer sizes).serialize (wideTx n)).length := by
  have hout : n ≤ (CTxOut.serialize ⟨0, List.replicate n 0⟩).length := by
    rw [CTxOut.serialize, serializeBytes, List.length_append, List.length_append,
      List.length_replicate]
    omega
  have hvout : 128 * n ≤ ((wideTx n).vout.flatMap CTxOut.serialize).length := by
    rw [wideTx, List.length_flatMap, List.map_replicate, List.sum_replicate_nat]
    exact Nat.mul_le_mul_left 128 hout
  rw [CTransaction.serializer_serialize, CTransaction.serialize, serializeVector, serializeVector]
  simp only [List.length_append]
  omega

/-- `GetSerializeSize` is not the number of bytes of a value that takes 2^32 bytes or more. -/
theorem Serializer.Lawful.size_ne {α : Type} {S : Serializer α} {Valid : α → Prop}
    (hS : S.Lawful Valid) {a : α} (h : Valid a) (hlen : 2 ^ 32 ≤ (S.serialize a).length) :
    S.getSerializeSize a ≠ (S.serialize a).length := by
  rw [hS.size a h]
  exact Nat.ne_of_lt (Nat.lt_of_lt_of_le (Nat.mod_lt _ (by decide)) hlen)

/-- Nor is a stream of its bytes empty once they have been read. -/
theorem Serializer.Lawful.rest_ne {α : Type} {S : Serializer α} {Valid : α → Prop}
    (hS : S.Lawful Valid) {a : α} (hlen : 2 ^ 32 ≤ (S.serialize a).length) :
    ¬ ∃ s, S.unserialize CDataStream.read ⟨S.serialize a, 0⟩ = .ok (a, s) ∧ s.rest = [] := by
  rintro ⟨s, hrun, hrest⟩
  obtain ⟨hlen, hpos⟩ := hS.keeps CDataStream.read_keeps _ _ _
    ⟨hlen, show 0 < 2 ^ 32 by decide⟩ hrun
  have hdrop := List.drop_eq_nil_iff.mp hrest
  omega

/-- A transaction with 128 scripts of the greatest length is such a value. -/
theorem serialization_wraps : (wideTx maxSize).Encodable ∧
    (CTransaction.serializer sizes64).getSerializeSize (wideTx maxSize) ≠
      ((CTransaction.serializer sizes64).serialize (wideTx maxSize)).length ∧
    ¬ ∃ s, (CTransaction.serializer sizes64).unserialize CDataStream.read
      ⟨(CTransaction.serializer sizes64).serialize (wideTx maxSize), 0⟩ = .ok (wideTx maxSize, s) ∧
        s.rest = [] := by
  have hlawful := CTransaction.serializer_lawful sizes64
  have hvalid : (wideTx maxSize).Encodable := wideTx_encodable (Nat.le_refl _)
  have hlen := Nat.le_trans (show 2 ^ 32 ≤ 128 * maxSize by decide) (length_wideTx maxSize sizes64)
  exact ⟨hvalid, hlawful.size_ne hvalid hlen, hlawful.rest_ne hlen⟩

end NoLimitCoin
