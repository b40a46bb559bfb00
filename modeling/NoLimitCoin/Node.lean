import NoLimitCoin.BigNum
import NoLimitCoin.Lib.Prog
import NoLimitCoin.Lib.Sha256
import NoLimitCoin.Script
import NoLimitCoin.TxDB

/-!
# The state of a node

What `main.cpp` keeps in globals and on disk, and the effects its functions are made of:
reading and changing that state, disk operations that may fail, and an early end.

The memory of the node and its files are `Node`.  `Sys` is what the outside answers during one
call: the clock and, for every disk operation in turn, whether it works.  `log` is a ghost
list of events, newest last; no function reads it.
-/

namespace NoLimitCoin

/-! ## What the model is given -/

/-- `Checkpoints::CPMode`. -/
inductive CPMode where
  | strict
  | advisory
  | permissive
deriving Repr, DecidableEq

/-- The inputs of a transaction as `FetchInputs` returns them. -/
abbrev MapPrevTx := Map Uint256 (CTxIndex × CTransaction)

/-- The network a node runs on, and the parts of the program that are not modelled: the hash
function, script execution and the standardness rules. -/
structure Env where
  fTestNet : Bool
  checkpointsMode : CPMode
  /-- `Hash`: SHA-256 twice. -/
  hash : List UInt8 → Nat
  /-- `VerifyScript(scriptSig, scriptPubKey, txTo, nIn, 0)`. -/
  verifyScript : CScript → CScript → CTransaction → Nat → Bool
  /-- The part of `CheckBlockSignature` that solves the script of the staked output and checks
  the signature of the block hash with its key. -/
  verifyBlockSig : CScript → Uint256 → List UInt8 → Bool
  /-- `CTransaction::IsStandard`. -/
  isStandard : CTransaction → Bool
  /-- `CTransaction::AreInputsStandard`. -/
  areInputsStandard : CTransaction → MapPrevTx → Bool
  /-- Whether the node holds the sync-checkpoint master key. -/
  hasMasterKey : Bool

namespace Env

/-- A hash has 256 bits. -/
def hashOf (env : Env) (bytes : List UInt8) : Uint256 := env.hash bytes % 2 ^ 256

def bnProofOfWorkLimit (env : Env) : Int :=
  if env.fTestNet then (2 ^ 256 - 1) / 2 ^ 16 else (2 ^ 256 - 1) / 2 ^ 24

def nStakeMinAge (env : Env) : Nat := if env.fTestNet then 3 * 60 * 60 / 6 else 3 * 60 * 60

def nTargetTimespan (env : Env) : Int := if env.fTestNet then 60 * 30 / 6 else 60 * 30

def nTargetSpacing (env : Env) : Int := if env.fTestNet then 2 * 60 / 6 else 2 * 60

def nModifierInterval (env : Env) : Int := if env.fTestNet then 10 * 60 / 6 else 10 * 60

/-- `mapCheckpoints`, in order of height. -/
def mapCheckpoints (env : Env) : List (Nat × Uint256) :=
  if env.fTestNet then [(0, hashGenesisBlockTestNet)]
  else
    [(0, hashGenesisBlock),
      (572500, 0x16e082c255401204b330403358c4ff7c30705a58a44d089cd88db0fcc4673fdd),
      (575585, 0xcb06b1f83220d6690c06cb2b8f9c60e33c6a00298f8cf4f1e271b2e3186098a5),
      (578800, 0x8bde833f1709e3b9326d8fad5aa1e9da330406e12bb1f90193342fde07fccba6),
      (578951, 0x5ad3e39986fa72e39694af2ee7fd280c6e67a0bb2254128bdd5cc741329c50fb)]

/-- `Checkpoints::GetTotalBlocksEstimate`: the height of the last checkpoint. -/
def getTotalBlocksEstimate (env : Env) : Nat :=
  ((env.mapCheckpoints.getLast?).map Prod.fst).getD 0

/-- The hash the first block must have. -/
def genesisHash (env : Env) : Uint256 :=
  if env.fTestNet then hashGenesisBlockTestNet else hashGenesisBlock

end Env

/-- The main network for runs on concrete data.  Of all scripts it knows one: `OP_TRUE`, which
an empty `scriptSig` satisfies and which is not standard. -/
def mainNet : Env where
  fTestNet := false
  checkpointsMode := .strict
  hash := Sha256.double
  verifyScript scriptSig scriptPubKey _ _ := scriptSig.isEmpty && scriptPubKey == [0x51]
  verifyBlockSig _ _ _ := false
  isStandard _ := false
  areInputsStandard _ _ := false
  hasMasterKey := false

/-- The main network with the form of the hash that is fast to evaluate. -/
def mainNetRaw : Env := { mainNet with hash := Sha256.Raw.double }

theorem mainNet_eq : mainNet = mainNetRaw := by
  unfold mainNetRaw
  rw [Sha256.Raw.double_eq]
  rfl

def nStakeMaxAge : Int := uint32Max

def CTransaction.getHash (env : Env) (tx : CTransaction) : Uint256 := env.hashOf tx.serialize

def CBlock.getHash (env : Env) (block : CBlock) : Uint256 := env.hashOf block.serializeHeader

/-- `CheckProofOfWork`. -/
def checkProofOfWork (env : Env) (hash : Uint256) (nBits : Nat) : Bool :=
  let bnTarget := CBigNum.setCompact nBits
  if bnTarget ≤ 0 ∨ bnTarget > env.bnProofOfWorkLimit then false
  else decide (hash ≤ CBigNum.getUint256 bnTarget)

/-! ## The block index -/

structure CBlockIndex where
  pprev : Option Uint256
  pnext : Option Uint256
  nFile : Nat
  nBlockPos : Nat
  nChainTrust : Uint256
  nHeight : Nat
  nMint : Int
  nMoneySupply : Int
  nFlags : Nat
  nStakeModifier : Nat
  nStakeModifierChecksum : Nat
  prevoutStake : COutPoint
  nStakeTime : Nat
  hashProof : Uint256
  nVersion : Int
  hashMerkleRoot : Uint256
  nTime : Nat
  nBits : Nat
  nNonce : Nat
deriving Repr, DecidableEq

def blockProofOfStake : Nat := 1
def blockStakeEntropy : Nat := 2
def blockStakeModifier : Nat := 4

namespace CBlockIndex

/-- `CBlockIndex(nFileIn, nBlockPosIn, block)`. -/
def ofBlock (nFile nBlockPos : Nat) (block : CBlock) : CBlockIndex where
  pprev := none
  pnext := none
  nFile := nFile
  nBlockPos := nBlockPos
  nChainTrust := 0
  nHeight := 0
  nMint := 0
  nMoneySupply := 0
  nFlags := if block.isProofOfStake then blockProofOfStake else 0
  nStakeModifier := 0
  nStakeModifierChecksum := 0
  prevoutStake := if block.isProofOfStake then block.getProofOfStake.1 else .null
  nStakeTime := if block.isProofOfStake then block.getProofOfStake.2 else 0
  hashProof := 0
  nVersion := block.nVersion
  hashMerkleRoot := block.hashMerkleRoot
  nTime := block.nTime
  nBits := block.nBits
  nNonce := block.nNonce

def getBlockTime (index : CBlockIndex) : Int := index.nTime

def isProofOfStake (index : CBlockIndex) : Bool := index.nFlags.testBit 0

def getStakeEntropyBit (index : CBlockIndex) : Nat :=
  (index.nFlags &&& blockStakeEntropy) >>> 1

def generatedStakeModifier (index : CBlockIndex) : Bool := index.nFlags.testBit 2

/-- `GetBlockTrust`: how many hashes the target of the block makes it worth. -/
def getBlockTrust (index : CBlockIndex) : Uint256 :=
  let bnTarget := CBigNum.setCompact index.nBits
  if bnTarget ≤ 0 then 0 else CBigNum.getUint256 ((2 ^ 256 : Int).tdiv (bnTarget + 1))

end CBlockIndex

/-- The record of a block index object in the database: its pointers are hashes, and zero for
none. -/
structure CDiskBlockIndex where
  hashPrev : Uint256
  hashNext : Uint256
  nFile : Nat
  nBlockPos : Nat
  nHeight : Nat
  nMint : Int
  nMoneySupply : Int
  nFlags : Nat
  nStakeModifier : Nat
  prevoutStake : COutPoint
  nStakeTime : Nat
  hashProof : Uint256
  nVersion : Int
  hashMerkleRoot : Uint256
  nTime : Nat
  nBits : Nat
  nNonce : Nat
  blockHash : Uint256
deriving Repr, DecidableEq

namespace CDiskBlockIndex

/-- `CDiskBlockIndex(pindex)` as it is written: `prevoutStake` and `nStakeTime` are part of the
record of a proof-of-stake block only. -/
def ofIndex (index : CBlockIndex) : CDiskBlockIndex where
  hashPrev := index.pprev.getD 0
  hashNext := index.pnext.getD 0
  nFile := index.nFile
  nBlockPos := index.nBlockPos
  nHeight := index.nHeight
  nMint := index.nMint
  nMoneySupply := index.nMoneySupply
  nFlags := index.nFlags
  nStakeModifier := index.nStakeModifier
  prevoutStake := if index.isProofOfStake then index.prevoutStake else .null
  nStakeTime := if index.isProofOfStake then index.nStakeTime else 0
  hashProof := index.hashProof
  nVersion := index.nVersion
  hashMerkleRoot := index.hashMerkleRoot
  nTime := index.nTime
  nBits := index.nBits
  nNonce := index.nNonce
  blockHash := 0

/-- The header `GetBlockHash` builds from the record. -/
def header (d : CDiskBlockIndex) : CBlock :=
  ⟨d.nVersion, d.hashPrev, d.hashMerkleRoot, d.nTime, d.nBits, d.nNonce, [], []⟩

/-- `GetBlockHash` without the fast index: the hash of the header. -/
def computeHash (env : Env) (d : CDiskBlockIndex) : Uint256 := d.header.getHash env

end CDiskBlockIndex

/-! ## The database -/

/-- The keys of the database, in the order of their serialized form. -/
inductive DbKey where
  | tx (hash : Uint256)
  | blockindex (hash : Uint256)
  | hashBestChain
  | bnBestInvalidTrust
  | hashSyncCheckpoint
  | strCheckpointPubKey
deriving Repr, DecidableEq

namespace DbKey

/-- A number for every kind of key, and the hash of the key. -/
def code : DbKey → Nat × Nat
  | tx hash => (0, hash)
  | blockindex hash => (1, hash)
  | hashBestChain => (2, 0)
  | bnBestInvalidTrust => (3, 0)
  | hashSyncCheckpoint => (4, 0)
  | strCheckpointPubKey => (5, 0)

theorem code_injective : Function.Injective code := by
  intro a b h
  cases a <;> cases b <;> simp_all [code]

instance : Ord DbKey :=
  ⟨fun a b => (compare a.code.1 b.code.1).then (compare a.code.2 b.code.2)⟩

section ord

attribute [local instance] lexOrd

instance : Std.TransOrd DbKey := transOrd_of_map code fun _ _ => rfl

instance : Std.LawfulEqOrd DbKey := lawfulEqOrd_of_injective code code_injective fun _ _ => rfl

end ord

end DbKey

/-- The values of the database. -/
inductive DbVal where
  | txindex (txindex : CTxIndex)
  | blockindex (diskindex : CDiskBlockIndex)
  | hash (hash : Uint256)
  | trust (bn : Nat)
  | pubKey (key : String)
deriving Repr, DecidableEq

namespace DbVal

def txindex? : DbVal → Option CTxIndex
  | txindex t => some t
  | _ => none

def blockindex? : DbVal → Option CDiskBlockIndex
  | blockindex d => some d
  | _ => none

def hash? : DbVal → Option Uint256
  | hash h => some h
  | _ => none

end DbVal

abbrev TxDB := CTxDB DbKey DbVal

namespace TxDB

/-- `ReadTxIndex`. -/
def readTxIndex (txdb : TxDB) (hash : Uint256) : Option CTxIndex :=
  txdb.read DbVal.txindex? (.tx hash)

/-- `ContainsTx`. -/
def containsTx (txdb : TxDB) (hash : Uint256) : Bool := txdb.keyExists (.tx hash)

/-- Another `CTxDB` object on the same store: it does not see the batch of this one. -/
def fresh (txdb : TxDB) : TxDB := ⟨txdb.pdb, none⟩

end TxDB

/-! ## Block files -/

/-- A position in the block files. -/
structure FilePos where
  nFile : Nat
  nPos : Nat
deriving Repr, DecidableEq

namespace FilePos

instance : Ord FilePos := ⟨fun a b => (compare a.nFile b.nFile).then (compare a.nPos b.nPos)⟩

section ord

attribute [local instance] lexOrd

private def pair (p : FilePos) : Nat × Nat := (p.nFile, p.nPos)

instance : Std.TransOrd FilePos := transOrd_of_map pair fun _ _ => rfl

instance : Std.LawfulEqOrd FilePos :=
  lawfulEqOrd_of_injective pair (fun ⟨_, _⟩ ⟨_, _⟩ h => by simpa [pair] using h) fun _ _ => rfl

end ord

end FilePos

/-- The files `blk0001.dat` and so on: what can be read at which position. -/
structure BlockFiles where
  nCurrentBlockFile : Nat
  fileSize : Map Nat Nat
  blockAt : Map FilePos CBlock
  txAt : Map FilePos CTransaction

namespace BlockFiles

/-- No file has been written yet. -/
def empty : BlockFiles := ⟨1, ∅, ∅, ∅⟩

/-- `OpenBlockFile` opens no file under these numbers. -/
def validFile (nFile : Nat) : Bool := decide (1 ≤ nFile) && decide (nFile ≠ uint32Max)

def sizeOf (files : BlockFiles) (nFile : Nat) : Nat := (files.fileSize[nFile]?).getD 0

/-- The loop of `AppendBlockFile`: the first file from `nFile` on with room for a block of any
size.  A file that is full has been written to, so `fuel` is the number of files. -/
def appendLoop (files : BlockFiles) : (fuel nFile : Nat) → Option Nat
  | 0, _ => none
  | fuel + 1, nFile =>
    if !validFile nFile then none
    else if files.sizeOf nFile < 0x7F000000 - 0x02000000 then some nFile
    else appendLoop files fuel (nFile + 1)

/-- `AppendBlockFile`. -/
def appendBlockFile (files : BlockFiles) : Option Nat :=
  files.appendLoop (files.fileSize.size + 1) files.nCurrentBlockFile

/-- Put the transactions of a block where they start. -/
def putTxs (nFile : Nat) : Map FilePos CTransaction → List (Nat × CTransaction) →
    Map FilePos CTransaction
  | m, [] => m
  | m, (nTxPos, tx) :: rest => putTxs nFile (m.insert ⟨nFile, nTxPos⟩ tx) rest

/-- The files after `block` is written to file `nFile` at `nBlockPos`. -/
def put (files : BlockFiles) (nFile nBlockPos : Nat) (block : CBlock) : BlockFiles where
  nCurrentBlockFile := nFile
  fileSize := files.fileSize.insert nFile (nBlockPos + block.getSerializeSize)
  blockAt := files.blockAt.insert ⟨nFile, nBlockPos⟩ block
  txAt := putTxs nFile files.txAt
    ((CBlock.txPositions (block.firstTxPos nBlockPos) block.vtx).zip block.vtx)

end BlockFiles

/-! ## The memory pool -/

/-- An inpoint: the transaction of the pool that spends an output, and with which input. -/
structure CInPoint where
  ptx : Uint256
  n : Nat
deriving Repr, DecidableEq

structure CTxMemPool where
  mapTx : Map Uint256 CTransaction
  mapNextTx : Map COutPoint CInPoint

/-! ## The node -/

structure Node where
  mapBlockIndex : Map Uint256 CBlockIndex
  setStakeSeen : Finset (COutPoint × Nat)
  pindexGenesisBlock : Option Uint256
  pindexBest : Option Uint256
  hashBestChain : Uint256
  nBestHeight : Int
  nBestChainTrust : Uint256
  nBestInvalidTrust : Uint256
  mempool : CTxMemPool
  mapOrphanBlocks : Map Uint256 CBlock
  /-- The multimap from the previous hash to the orphan, in order of insertion. -/
  mapOrphanBlocksByPrev : List (Uint256 × CBlock)
  setStakeSeenOrphan : Finset (COutPoint × Nat)
  txdb : TxDB
  files : BlockFiles
  hashSyncCheckpoint : Uint256
  hashPendingCheckpoint : Uint256
  hashInvalidCheckpoint : Uint256

namespace Node

/-- The globals before anything is loaded, on an empty data directory. -/
def initial : Node where
  mapBlockIndex := ∅
  setStakeSeen := ∅
  pindexGenesisBlock := none
  pindexBest := none
  hashBestChain := 0
  nBestHeight := -1
  nBestChainTrust := 0
  nBestInvalidTrust := 0
  mempool := ⟨∅, ∅⟩
  mapOrphanBlocks := ∅
  mapOrphanBlocksByPrev := []
  setStakeSeenOrphan := ∅
  txdb := ⟨∅, none⟩
  files := .empty
  hashSyncCheckpoint := 0
  hashPendingCheckpoint := 0
  hashInvalidCheckpoint := 0

/-- The object behind a pointer. -/
def index? (node : Node) (pindex : Uint256) : Option CBlockIndex := node.mapBlockIndex[pindex]?

/-- Change the object behind a pointer. -/
def setIndex (node : Node) (pindex : Uint256) (index : CBlockIndex) : Node :=
  { node with mapBlockIndex := node.mapBlockIndex.insert pindex index }

/-- `IsInMainChain`. -/
def isInMainChain (node : Node) (pindex : Uint256) (index : CBlockIndex) : Bool :=
  index.pnext.isSome || node.pindexBest == some pindex

end Node

/-! ## The outside, and what happens -/

/-- What the outside answers during one call. -/
structure Sys where
  /-- `GetAdjustedTime`. -/
  adjustedTime : Int
  /-- Whether the disk operations still to come work, in order. -/
  io : Nat → Bool
  /-- `CheckDiskSpace`. -/
  diskSpace : Bool
  /-- The timer of `IsInitialBlockDownload`: the best block is old and has just changed. -/
  catchingUp : Bool
  /-- The free-transaction rate limiter is exhausted. -/
  freeTxLimit : Bool

/-- What a call does that other parts of the program, or the statements below, look at. -/
inductive Event where
  /-- `ConnectBlock` and `DisconnectBlock` have succeeded for a block, in the open transaction. -/
  | connected (hash : Uint256)
  | disconnected (hash : Uint256)
  /-- The open transaction has been committed, or dropped. -/
  | committed
  | dropped
  /-- `SetBestChainInner` and `Reorganize` are called in the state given. -/
  | setBestChainInner (node : Node) (sys : Sys) (block : CBlock) (pindexNew : Uint256)
  | reorganize (node : Node) (sys : Sys) (pindexNew : Uint256)
  /-- `SetBestChain` turns to a block of `vpindexSecondary` in the state given. -/
  | postponed (node : Node) (sys : Sys) (pindex : Uint256)
  /-- `SetBestChain` returns `true` in the state given. -/
  | bestChainSet (node : Node)
  /-- `AddToBlockIndex` has put a block into the index and goes on to write its record. -/
  | indexed (sys : Sys) (hash : Uint256)
  /-- The wallets are told about a transaction that a block connects or disconnects. -/
  | syncWithWallets (hashTx : Uint256) (fConnect : Bool)
  /-- Messages to the peer a block came from, and to the others. -/
  | misbehaving (howmuch : Nat)
  | askFor (hashBlock : Uint256)
  | pushGetBlocks (hashStop : Uint256)
  | pushInventory (hashBlock : Uint256)

structure World where
  node : Node
  sys : Sys
  log : List Event

/-- A function of the source that uses the state of the node. -/
abbrev NodeM := EStateM Exit World

namespace NodeM

open Prog

def getNode : NodeM Node := fun w => .ok w.node w

def getSys : NodeM Sys := fun w => .ok w.sys w

def modifyNode (f : Node → Node) : NodeM Unit := fun w => .ok () { w with node := f w.node }

def emit (e : Event) : NodeM Unit := fun w => .ok () { w with log := w.log ++ [e] }

/-- Log that a function is called, with the state it is called in. -/
def emitCall (e : Node → Sys → Event) : NodeM Unit := fun w =>
  .ok () { w with log := w.log ++ [e w.node w.sys] }

/-- Whether the next disk operation works. -/
def diskOk : NodeM Bool := fun w =>
  .ok (w.sys.io 0) { w with sys := { w.sys with io := fun n => w.sys.io (n + 1) } }

/-- The object behind a pointer; a pointer that leads nowhere is undefined behaviour. -/
def deref (pindex : Uint256) : NodeM CBlockIndex := fun w =>
  match w.node.index? pindex with
  | some index => .ok index w
  | none => .error (.abort "dangling block index pointer") w

/-- A pointer that must not be null. -/
def nonNull {α : Type} (p : Option α) : NodeM α :=
  match p with
  | some a => pure a
  | none => throw (.abort "null pointer")

/-! ### Database -/

def readTxIndex (hash : Uint256) : NodeM (Option CTxIndex) := fun w =>
  .ok (w.node.txdb.readTxIndex hash) w

/-- `Write` and `Erase` on the handle: only a write outside a transaction touches the disk. -/
def change (op : BatchOp DbKey DbVal) : NodeM Bool := do
  let node ← getNode
  let status ← (if node.txdb.activeBatch.isSome then pure true else diskOk)
  modifyNode fun node => { node with txdb := (node.txdb.change op status).2 }
  pure status

/-- A write through a `CTxDB` object of its own, which has no batch. -/
def writeDirect (key : DbKey) (value : DbVal) : NodeM Bool := do
  let status ← diskOk
  modifyNode fun node =>
    { node with
      txdb := { node.txdb with pdb := if status then node.txdb.pdb.insert key value
                                      else node.txdb.pdb } }
  pure status

def txnBegin : NodeM Unit := fun w =>
  match w.node.txdb.txnBegin with
  | some txdb => .ok () { w with node := { w.node with txdb := txdb } }
  | none => .error (.abort "CTxDB::TxnBegin() : activeBatch") w

def txnCommit : NodeM Bool := do
  let status ← diskOk
  let node ← getNode
  match node.txdb.txnCommit status with
  | some (ok, txdb) =>
    modifyNode fun node => { node with txdb := txdb }
    emit (if ok then .committed else .dropped)
    pure ok
  | none => throw (.abort "CTxDB::TxnCommit() : activeBatch")

def txnAbort : NodeM Unit := do
  modifyNode fun node => { node with txdb := node.txdb.txnAbort }
  emit .dropped

def updateTxIndex (hash : Uint256) (txindex : CTxIndex) : NodeM Bool :=
  change (.put (.tx hash) (.txindex txindex))

def eraseTxIndex (hash : Uint256) : NodeM Bool := change (.delete (.tx hash))

/-- `WriteBlockIndex` computes the hash of the record before it writes it, which also fills
`blockHash`. -/
def writeBlockIndex (env : Env) (d : CDiskBlockIndex) : NodeM Bool :=
  let hash := d.computeHash env
  change (.put (.blockindex hash) (.blockindex { d with blockHash := hash }))

def writeHashBestChain (hash : Uint256) : NodeM Bool := change (.put .hashBestChain (.hash hash))

/-! ### Block files -/

/-- `CBlock::WriteToDisk`: the file and the position the block is written to.  Eight bytes of
message start and size come before the block. -/
def writeToDisk (block : CBlock) : NodeM (Nat × Nat) := do
  let ok ← diskOk
  let node ← getNode
  match node.files.appendBlockFile with
  | some nFile =>
    require ok (.reject 0 "CBlock::WriteToDisk() : AppendBlockFile failed")
    let nBlockPos := node.files.sizeOf nFile + 8
    modifyNode fun node => { node with files := node.files.put nFile nBlockPos block }
    pure (nFile, nBlockPos)
  | none => throw (.reject 0 "CBlock::WriteToDisk() : AppendBlockFile failed")

/-- `CBlock::ReadFromDisk(nFile, nBlockPos, fReadTransactions)`. -/
def readBlockAt (env : Env) (nFile nBlockPos : Nat) (fReadTransactions : Bool) :
    NodeM (Option CBlock) := do
  let ok ← diskOk
  let node ← getNode
  if !(ok && BlockFiles.validFile nFile) then pure none
  else
    match node.files.blockAt[(⟨nFile, nBlockPos⟩ : FilePos)]? with
    | none => pure none
    | some block =>
      if fReadTransactions then
        if block.isProofOfWork && !checkProofOfWork env (block.getHash env) block.nBits then
          pure none
        else pure (some block)
      else pure (some { block with vtx := [], vchBlockSig := [] })

/-- `CBlock::ReadFromDisk(pindex)`. -/
def readBlock (env : Env) (pindex : Uint256) : NodeM (Option CBlock) := do
  let index ← deref pindex
  match ← readBlockAt env index.nFile index.nBlockPos true with
  | none => pure none
  | some block => if block.getHash env = pindex then pure (some block) else pure none

/-- `CTransaction::ReadFromDisk(pos)`. -/
def readTxAt (pos : CDiskTxPos) : NodeM (Option CTransaction) := do
  let ok ← diskOk
  let node ← getNode
  if ok && BlockFiles.validFile pos.nFile then
    pure (node.files.txAt[(⟨pos.nFile, pos.nTxPos⟩ : FilePos)]?)
  else pure none

/-- `CTransaction::ReadFromDisk(txdb, prevout, txindexRet)`, with the database to look in. -/
def readTxFromDisk (txdb : TxDB) (prevout : COutPoint) :
    NodeM (Option (CTransaction × CTxIndex)) := do
  match txdb.readTxIndex prevout.hash with
  | none => pure none
  | some txindex =>
    match ← readTxAt txindex.pos with
    | none => pure none
    | some txPrev =>
      if prevout.n < txPrev.vout.length then pure (some (txPrev, txindex)) else pure none

end NodeM

end NoLimitCoin
