import NoLimitCoin.Types

/-!
# Serialized bytes

`serialize.h` writes integers with their least significant byte first and puts a compact size
in front of every vector.  The bytes matter in three places: they are what `Hash` is applied
to, their number is the size of a transaction or block, and that size is where the next
transaction of a block starts on disk.
-/

namespace NoLimitCoin

/-- The `width` bytes of an unsigned value, least significant first. -/
def leBytes : (width : Nat) → Nat → List UInt8
  | 0, _ => []
  | width + 1, n => UInt8.ofNat (n % 256) :: leBytes width (n / 256)

@[simp] theorem length_leBytes (width n : Nat) : (leBytes width n).length = width := by
  induction width generalizing n with
  | zero => rfl
  | succ width ih => simp [leBytes, ih]

/-- The two's complement of a signed value. -/
def leBytesInt (width : Nat) (n : Int) : List UInt8 :=
  leBytes width (n % 2 ^ (8 * width)).toNat

/-- `WriteCompactSize`. -/
def compactSize (n : Nat) : List UInt8 :=
  if n < 253 then leBytes 1 n
  else if n ≤ 0xffff then 253 :: leBytes 2 n
  else if n ≤ 0xffffffff then 254 :: leBytes 4 n
  else 255 :: leBytes 8 n

/-- `GetSizeOfCompactSize`. -/
def getSizeOfCompactSize (n : Nat) : Nat := (compactSize n).length

/-- A vector: its length, then its elements. -/
def serializeVector {α : Type} (serialize : α → List UInt8) (xs : List α) : List UInt8 :=
  compactSize xs.length ++ xs.flatMap serialize

def serializeBytes (bytes : List UInt8) : List UInt8 := compactSize bytes.length ++ bytes

def serializeHash (h : Uint256) : List UInt8 := leBytes 32 h

namespace COutPoint

def serialize (o : COutPoint) : List UInt8 := serializeHash o.hash ++ leBytes 4 o.n

end COutPoint

namespace CTxIn

def serialize (txin : CTxIn) : List UInt8 :=
  txin.prevout.serialize ++ serializeBytes txin.scriptSig ++ leBytes 4 txin.nSequence

end CTxIn

namespace CTxOut

def serialize (txout : CTxOut) : List UInt8 :=
  leBytesInt 8 txout.nValue ++ serializeBytes txout.scriptPubKey

end CTxOut

namespace CTransaction

def serialize (tx : CTransaction) : List UInt8 :=
  leBytesInt 4 tx.nVersion ++ leBytes 4 tx.nTime ++ serializeVector CTxIn.serialize tx.vin ++
    serializeVector CTxOut.serialize tx.vout ++ leBytes 4 tx.nLockTime

/-- `GetSerializeSize`. -/
def getSerializeSize (tx : CTransaction) : Nat := tx.serialize.length

end CTransaction

namespace CBlock

/-- The bytes from `nVersion` to `nNonce`. -/
def serializeHeader (block : CBlock) : List UInt8 :=
  leBytesInt 4 block.nVersion ++ serializeHash block.hashPrevBlock ++
    serializeHash block.hashMerkleRoot ++ leBytes 4 block.nTime ++ leBytes 4 block.nBits ++
    leBytes 4 block.nNonce

def serialize (block : CBlock) : List UInt8 :=
  block.serializeHeader ++ serializeVector CTransaction.serialize block.vtx ++
    serializeBytes block.vchBlockSig

def getSerializeSize (block : CBlock) : Nat := block.serialize.length

@[simp] theorem length_serializeHeader (block : CBlock) : block.serializeHeader.length = 80 := by
  simp [serializeHeader, leBytesInt, serializeHash]

/-- The serialized size of `CBlock()` without its two empty vectors, which `ConnectBlock` takes
for the distance from the block to its transaction count. -/
def headerSize : Nat := 80

/-- The positions of the transactions `txs` when the first one starts at `nTxPos`. -/
def txPositions : Nat → List CTransaction → List Nat
  | _, [] => []
  | nTxPos, tx :: txs => nTxPos :: txPositions (nTxPos + tx.getSerializeSize) txs

/-- Where the first transaction of a block stored at `nBlockPos` starts. -/
def firstTxPos (block : CBlock) (nBlockPos : Nat) : Nat :=
  nBlockPos + headerSize + getSizeOfCompactSize block.vtx.length

end CBlock

end NoLimitCoin
