import NoLimitCoin.Inputs

/-!
# Connecting and disconnecting a block

`CBlock::ConnectBlock` checks a block against the transaction index and writes the index
entries and block index records it changes; `CBlock::DisconnectBlock` takes them back.  Both
work in the transaction that is open on the database handle.
-/

namespace NoLimitCoin

open Prog NodeM

/-! ## Rewards -/

/-- The subsidy of `GetProofOfWorkReward`, from the height of the best block. -/
def proofOfWorkSubsidy (nHeightBest : Nat) : Int :=
  if nHeightBest + 1 = 1 then 200000000 * coin else 0

/-- `GetProofOfWorkReward`. -/
def getProofOfWorkReward (nHeightBest : Nat) (nFees : Int) : Except Exit Int :=
  Int64.checked (proofOfWorkSubsidy nHeightBest + nFees)

/-- The subsidy of `GetProofOfStakeReward`, from the coin age spent in coin-days. -/
def proofOfStakeSubsidy (nCoinAge : Int) : Except Exit Int := do
  let n ← Int64.checked (nCoinAge * coinYearReward)
  let n ← Int64.checked (n * 33)
  pure (n.tdiv (365 * 33 + 8))

/-- `GetProofOfStakeReward`. -/
def getProofOfStakeReward (nCoinAge nFees : Int) : Except Exit Int := do
  let nSubsidy ← proofOfStakeSubsidy nCoinAge
  Int64.checked (nSubsidy + nFees)

/-! ## Connecting -/

/-- The variables of the loop of `ConnectBlock` over the transactions. -/
structure ConnectState where
  nTxPos : Nat
  mapQueuedChanges : Map Uint256 CTxIndex
  nFees : Int
  nValueIn : Int
  nValueOut : Int
  nStakeReward : Int
  nSigOps : Nat

namespace ConnectState

def start (nTxPos : Nat) : ConnectState := ⟨nTxPos, ∅, 0, 0, 0, 0, 0⟩

end ConnectState

namespace CBlock

/-- A transaction may only take the place of one with the same hash that is completely
spent. -/
def overwrites (txindexOld : Option CTxIndex) : Bool :=
  match txindexOld with
  | none => false
  | some txindex => txindex.vSpent.any CDiskTxPos.isNull

/-- What the values of a transaction that is no coin base add to the totals. -/
def tally (nBestHeight : Int) (tx : CTransaction) (inputs : MapPrevTx) (s : ConnectState) :
    Except Exit ConnectState := do
  let nTxValueIn ← tx.getValueIn nBestHeight inputs false
  let nTxValueOut ← tx.getValueOut
  let nValueIn ← Int64.checked (s.nValueIn + nTxValueIn)
  let nValueOut ← Int64.checked (s.nValueOut + nTxValueOut)
  if tx.isCoinStake then
    let nStakeReward ← Int64.checked (nTxValueOut - nTxValueIn)
    pure { s with nValueIn := nValueIn, nValueOut := nValueOut, nStakeReward := nStakeReward }
  else
    let nTxValueInObserved ← tx.getValueIn nBestHeight inputs true
    let nTxFees ← Int64.checked (nTxValueInObserved - nTxValueOut)
    let nFees ← Int64.checked (s.nFees + nTxFees)
    pure { s with nValueIn := nValueIn, nValueOut := nValueOut, nFees := nFees }

/-- The branch of the loop of `ConnectBlock` for a transaction that is no coin base. -/
def connectSpend (env : Env) (pindex : Uint256) (posThisTx : CDiskTxPos) (s : ConnectState)
    (tx : CTransaction) : NodeM ConnectState := do
  let inputs ← (tx.fetchInputs s.mapQueuedChanges true false).adaptExcept Exit.uncharged
  let nP2SHSigOps ← fromExcept (tx.getP2SHSigOpCount inputs)
  require (decide (s.nSigOps + nP2SHSigOps ≤ maxBlockSigops))
    (.reject 100 "ConnectBlock() : too many sigops")
  let node ← getNode
  let s ← fromExcept (tally node.nBestHeight tx inputs
    { s with nSigOps := s.nSigOps + nP2SHSigOps })
  let mapQueuedChanges ← fromExcept ((tx.connectInputs env node inputs s.mapQueuedChanges posThisTx
    (some pindex) true false).mapError Exit.uncharged)
  pure { s with mapQueuedChanges := mapQueuedChanges }

/-- The branch for a coin base. -/
def connectCoinBase (s : ConnectState) (tx : CTransaction) : NodeM ConnectState := do
  let nTxValueOut ← fromExcept tx.getValueOut
  let nValueOut ← fromExcept (Int64.checked (s.nValueOut + nTxValueOut))
  pure { s with nValueOut := nValueOut }

/-- The body of the loop of `ConnectBlock`. -/
def connectTx (env : Env) (pindex : Uint256) (index : CBlockIndex) (fJustCheck : Bool)
    (s : ConnectState) (tx : CTransaction) : NodeM ConnectState := do
  let hashTx := tx.getHash env
  let txindexOld ← readTxIndex hashTx
  require (!overwrites txindexOld) .returnFalse
  let nSigOps := s.nSigOps + tx.getLegacySigOpCount
  require (decide (nSigOps ≤ maxBlockSigops)) (.reject 100 "ConnectBlock() : too many sigops")
  let posThisTx : CDiskTxPos := ⟨index.nFile, index.nBlockPos, s.nTxPos⟩
  let s := { s with
    nSigOps := nSigOps
    nTxPos := if fJustCheck then s.nTxPos else s.nTxPos + tx.getSerializeSize }
  let s ← (if tx.isCoinBase then connectCoinBase s tx
    else connectSpend env pindex posThisTx s tx)
  pure { s with
    mapQueuedChanges := s.mapQueuedChanges.insert hashTx (.new posThisTx tx.vout.length) }

/-- The reward checks of `ConnectBlock`: the coin base of a proof-of-work block and the coin
stake of a proof-of-stake block. -/
def checkReward (env : Env) (block : CBlock) (s : ConnectState) : NodeM Unit := do
  let node ← getNode
  match block.isProofOfStake, block.vtx with
  | true, _ :: coinstake :: _ => do
    match ← coinstake.getCoinAge env node.txdb with
    | none => throw (.reject 0 "ConnectBlock() : %s unable to get coin age for coinstake")
    | some nCoinAge =>
      let nCalculatedStakeReward ←
        fromExcept (getProofOfStakeReward (Int64.ofUint64 nCoinAge) s.nFees)
      require (decide (s.nStakeReward ≤ nCalculatedStakeReward))
        (.reject 100 "ConnectBlock() : coinstake pays too much(actual=%d vs calculated=%d)")
  | _, coinbase :: _ => do
    let pindexBest ← nonNull node.pindexBest
    let indexBest ← deref pindexBest
    let nReward ← fromExcept (getProofOfWorkReward indexBest.nHeight s.nFees)
    let nValueOut ← fromExcept coinbase.getValueOut
    require (decide (nValueOut ≤ nReward))
      (.reject 50 "ConnectBlock() : coinbase reward exceeded (actual=%d vs calculated=%d)")
  | _, [] => throw (.abort "vtx[0]")

/-- The record of the previous block with its `hashNext` set, which both `ConnectBlock` and
`DisconnectBlock` write; the memory is changed after the database commits. -/
def writeHashNext (env : Env) (pprev : Option Uint256) (hashNext : Uint256) (e : Exit) :
    NodeM Unit :=
  match pprev with
  | none => pure ()
  | some pprev => do
    let indexPrev ← deref pprev
    let ok ← writeBlockIndex env { CDiskBlockIndex.ofIndex indexPrev with hashNext := hashNext }
    require ok e

/-- The money supply after the block before this one. -/
def prevMoneySupply (pprev : Option Uint256) : NodeM Int :=
  match pprev with
  | none => pure 0
  | some pprev => do
    let indexPrev ← deref pprev
    pure indexPrev.nMoneySupply

/-- `UpdateTxIndex` for one of the queued changes. -/
def writeQueued (entry : Uint256 × CTxIndex) : NodeM Unit := do
  let ok ← updateTxIndex entry.1 entry.2
  require ok (.reject 0 "ConnectBlock() : UpdateTxIndex failed")

/-- What `ConnectBlock` writes once every check has passed. -/
def writeConnected (env : Env) (block : CBlock) (pindex : Uint256) (index : CBlockIndex)
    (fJustCheck : Bool) (s : ConnectState) : NodeM Unit := do
  let nMoneySupplyPrev ← prevMoneySupply index.pprev
  let index := { index with
    nMint := s.nValueOut - s.nValueIn + s.nFees
    nMoneySupply := nMoneySupplyPrev + s.nValueOut - s.nValueIn }
  modifyNode fun node => node.setIndex pindex index
  let ok ← writeBlockIndex env (CDiskBlockIndex.ofIndex index)
  require ok (.reject 0 "Connect() : WriteBlockIndex for pindex failed")
  if fJustCheck then pure ()
  else do
    s.mapQueuedChanges.toList.forM writeQueued
    writeHashNext env index.pprev pindex (.reject 0 "ConnectBlock() : WriteBlockIndex failed")
    block.vtx.forM fun tx => emit (.syncWithWallets (tx.getHash env) true)
    emit (.connected pindex)

/-- `CBlock::ConnectBlock`. -/
def connectBlock (env : Env) (block : CBlock) (pindex : Uint256) (fJustCheck : Bool) :
    NodeM Unit := do
  let sys ← getSys
  fromExcept (block.checkBlock env sys.adjustedTime (!fJustCheck) (!fJustCheck) false)
  let index ← deref pindex
  let nTxPos := if fJustCheck then 1 else block.firstTxPos index.nBlockPos
  let s ← block.vtx.foldlM (connectTx env pindex index fJustCheck) (ConnectState.start nTxPos)
  block.checkReward env s
  block.writeConnected env pindex index fJustCheck s

/-! ## Disconnecting -/

/-- `CBlock::DisconnectBlock`. -/
def disconnectBlock (env : Env) (block : CBlock) (pindex : Uint256) : NodeM Unit := do
  block.vtx.reverse.forM (CTransaction.disconnectInputs env)
  let index ← deref pindex
  writeHashNext env index.pprev 0 (.reject 0 "DisconnectBlock() : WriteBlockIndex failed")
  block.vtx.forM fun tx => emit (.syncWithWallets (tx.getHash env) false)
  emit (.disconnected pindex)

end CBlock

end NoLimitCoin
