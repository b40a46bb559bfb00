import NoLimitCoin.Lib.Map

/-!
# Data model

The constants of `main.h` and `main.cpp` and the data types of the block chain: outpoints,
transactions, disk positions, transaction index entries and blocks.

Unsigned values are `Nat`, signed 64-bit amounts are `Int`; where a computation of the source
can leave its type it says so (`Int64.add`, `% 2 ^ 32`).  A pointer to a block index object is
the hash it is stored under.
-/

namespace NoLimitCoin

/-! ## Constants -/

def coin : Int := 100000000
def cent : Int := 1000000
def maxMoney : Int := 1000000000 * coin
def minTxFee : Int := 10000
def minRelayTxFee : Int := minTxFee
def coinYearReward : Int := 4 * cent

def lastPowBlock : Nat := 1000
def postmineBlock : Nat := 574000
def postmineValue : Int := 389000000 * coin
def modifierIntervalSwitch : Nat := 25

def maxBlockSize : Nat := 20000000
def maxBlockSizeGen : Nat := maxBlockSize / 2
def maxBlockSigops : Nat := maxBlockSize / 50

def nCoinbaseMaturity : Int := 10
def locktimeThreshold : Nat := 500000000

/-- `(unsigned int) -1`. -/
def uint32Max : Nat := 2 ^ 32 - 1

/-- A `uint256`: a hash, or the pointer that is stored under that hash. -/
abbrev Uint256 := Nat

/-- The transaction whose outputs carry the post-mine bonus. -/
def hashPostmine : Uint256 := 0x55f1b31a88b58552056188aa94ac7de1aa84bac13943902e243c9397b20d4d28
def hashGenesisBlock : Uint256 := 0x000000c97e5317f440753bb4b0155badbce95fa893cb65d677385df2f07f7a2e
def hashGenesisBlockTestNet : Uint256 :=
  0x0000834807c7b0f6e8772e7bee9b7cd3524e1211c196386f41b3fc20243b0dfa

/-- `PastDrift` and `FutureDrift` allow five minutes. -/
def futureDrift (nTime : Int) : Int := nTime + 5 * 60

/-- `MoneyRange`. -/
def moneyRange (nValue : Int) : Bool := decide (0 ≤ nValue) && decide (nValue ≤ maxMoney)

theorem moneyRange_iff {nValue : Int} :
    moneyRange nValue = true ↔ 0 ≤ nValue ∧ nValue ≤ maxMoney := by
  simp [moneyRange]

/-! ## How a call ends early -/

/-- A function of the source that does not succeed returns `false`, with the `nDoS` it charges
the sender and the text it logs, or it throws, fails an assertion or leaves the defined
behaviour of the language. -/
inductive Exit where
  | reject (nDoS : Nat) (error : String)
  | abort (what : String)
deriving Repr, DecidableEq

/-- `return false`, with no text of its own. -/
def Exit.returnFalse : Exit := .reject 0 ""

/-- The same failure reported by a caller in its own words: the sender is still charged. -/
def Exit.because (text : String) : Exit → Exit
  | .reject nDoS _ => .reject nDoS text
  | .abort what => .abort what

/-- The same failure where what it charges is kept on an object the caller drops. -/
def Exit.uncharged : Exit → Exit
  | .reject _ text => .reject 0 text
  | .abort what => .abort what

/-- A check: go on if it holds, end early if it does not. -/
def require {m : Type → Type} [Monad m] [MonadExceptOf Exit m] (b : Bool) (e : Exit) : m Unit :=
  if b then pure () else throw e

namespace Int64

/-- The values of `int64_t`. -/
def inRange (n : Int) : Bool := decide (-2 ^ 63 ≤ n) && decide (n < 2 ^ 63)

/-- Signed arithmetic that leaves the type is undefined behaviour. -/
def checked (n : Int) : Except Exit Int :=
  if inRange n then .ok n else .error (.abort "signed overflow")

/-- An unsigned 64-bit value as a signed one. -/
def ofUint64 (n : Nat) : Int := if n < 2 ^ 63 then n else (n : Int) - 2 ^ 64

theorem checked_eq_ok {n m : Int} : checked n = .ok m ↔ inRange n = true ∧ m = n := by
  unfold checked
  split
  · rename_i h
    simp [h, eq_comm]
  · rename_i h
    simp [h]

end Int64

/-! ## Transactions -/

/-- A script: its bytes. -/
abbrev CScript := List UInt8

structure COutPoint where
  hash : Uint256
  n : Nat
deriving Repr, DecidableEq

namespace COutPoint

def null : COutPoint := ⟨0, uint32Max⟩

def isNull (o : COutPoint) : Bool := o.hash == 0 && o.n == uint32Max

instance : Ord COutPoint := ⟨fun a b => (compare a.hash b.hash).then (compare a.n b.n)⟩

section ord

attribute [local instance] lexOrd

private def pair (o : COutPoint) : Nat × Nat := (o.hash, o.n)

instance : Std.TransOrd COutPoint := transOrd_of_map pair fun _ _ => rfl

instance : Std.LawfulEqOrd COutPoint :=
  lawfulEqOrd_of_injective pair (fun ⟨_, _⟩ ⟨_, _⟩ h => by simpa [pair] using h) fun _ _ => rfl

end ord

end COutPoint

structure CTxIn where
  prevout : COutPoint
  scriptSig : CScript
  nSequence : Nat
deriving Repr, DecidableEq

namespace CTxIn

def isFinal (txin : CTxIn) : Bool := txin.nSequence == uint32Max

end CTxIn

structure CTxOut where
  nValue : Int
  scriptPubKey : CScript
deriving Repr, DecidableEq

namespace CTxOut

def isEmpty (txout : CTxOut) : Bool := txout.nValue == 0 && txout.scriptPubKey.isEmpty

def empty : CTxOut := ⟨0, []⟩

end CTxOut

structure CTransaction where
  nVersion : Int
  nTime : Nat
  vin : List CTxIn
  vout : List CTxOut
  nLockTime : Nat
deriving Repr, DecidableEq

namespace CTransaction

def currentVersion : Int := 1

def isCoinBase (tx : CTransaction) : Bool :=
  match tx.vin with
  | [txin] => txin.prevout.isNull && decide (1 ≤ tx.vout.length)
  | _ => false

/-- The coin stake transaction is marked with the first output empty. -/
def isCoinStake (tx : CTransaction) : Bool :=
  match tx.vin, tx.vout with
  | txin :: _, txout :: _ :: _ => !txin.prevout.isNull && txout.isEmpty
  | _, _ => false

/-- A coin stake is no coin base: its first input is not null. -/
theorem isCoinBase_of_isCoinStake {tx : CTransaction} (h : tx.isCoinStake = true) :
    tx.isCoinBase = false := by
  obtain ⟨nVersion, nTime, vin, vout, nLockTime⟩ := tx
  match vin, vout with
  | [], _ => rfl
  | txin :: [], txout :: _ :: _ =>
    simp only [isCoinStake, Bool.and_eq_true, Bool.not_eq_true'] at h
    simp [isCoinBase, h.1]
  | txin :: [], [] => simp [isCoinStake] at h
  | txin :: [], [_] => simp [isCoinStake] at h
  | _ :: _ :: _, _ => rfl

/-- `GetValueOut`: throws when an output or the running total leaves the money range. -/
def getValueOut (tx : CTransaction) : Except Exit Int :=
  tx.vout.foldlM (fun nValueOut txout =>
    if moneyRange txout.nValue && moneyRange (nValueOut + txout.nValue) then
      .ok (nValueOut + txout.nValue)
    else .error (.abort "CTransaction::GetValueOut() : value out of range")) 0

/-- `IsFinal(nBlockHeight, nBlockTime)` for a block height and time that are not zero. -/
def isFinal (tx : CTransaction) (nBlockHeight : Nat) (nBlockTime : Int) : Bool :=
  if tx.nLockTime = 0 then true
  else if (tx.nLockTime : Int) <
      (if tx.nLockTime < locktimeThreshold then (nBlockHeight : Int) else nBlockTime) then true
  else tx.vin.all CTxIn.isFinal

end CTransaction

/-! ## Disk positions and the transaction index -/

structure CDiskTxPos where
  nFile : Nat
  nBlockPos : Nat
  nTxPos : Nat
deriving Repr, DecidableEq

namespace CDiskTxPos

def null : CDiskTxPos := ⟨uint32Max, 0, 0⟩

def isNull (pos : CDiskTxPos) : Bool := pos.nFile == uint32Max

/-- `CDiskTxPos(1,1,1)`: "refer to the memory pool". -/
def memPool : CDiskTxPos := ⟨1, 1, 1⟩

end CDiskTxPos

/-- Where a transaction is on disk and, for every output, where the transaction that spends
it is. -/
structure CTxIndex where
  pos : CDiskTxPos
  vSpent : List CDiskTxPos
deriving Repr, DecidableEq

namespace CTxIndex

/-- `CTxIndex(posIn, nOutputs)`. -/
def new (pos : CDiskTxPos) (nOutputs : Nat) : CTxIndex := ⟨pos, List.replicate nOutputs .null⟩

end CTxIndex

/-! ## Blocks -/

structure CBlock where
  nVersion : Int
  hashPrevBlock : Uint256
  hashMerkleRoot : Uint256
  nTime : Nat
  nBits : Nat
  nNonce : Nat
  vtx : List CTransaction
  vchBlockSig : List UInt8
deriving Repr, DecidableEq

namespace CBlock

def currentVersion : Int := 1

def getBlockTime (block : CBlock) : Int := block.nTime

/-- Two types of block: the second transaction of a proof-of-stake block is a coin stake. -/
def isProofOfStake (block : CBlock) : Bool :=
  match block.vtx with
  | _ :: tx :: _ => tx.isCoinStake
  | _ => false

def isProofOfWork (block : CBlock) : Bool := !block.isProofOfStake

/-- `GetProofOfStake`. -/
def getProofOfStake (block : CBlock) : COutPoint × Nat :=
  match block.isProofOfStake, block.vtx with
  | true, _ :: tx :: _ => ((tx.vin.head?.map CTxIn.prevout).getD .null, tx.nTime)
  | _, _ => (.null, 0)

end CBlock

end NoLimitCoin
