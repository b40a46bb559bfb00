import NoLimitCoin.ConnectBlock
import NoLimitCoin.MemPool

/-!
# Switching the best chain

`Reorganize`, `CBlock::SetBestChainInner` and `CBlock::SetBestChain`: moving the committed
database, the `pnext` links, the memory pool and the best-chain globals to a new best block.
-/

namespace NoLimitCoin

open Prog NodeM

/-- `InvalidChainFound`: remember the trust of the best chain that failed. -/
def invalidChainFound (pindexNew : Uint256) : NodeM Unit := do
  let index ← deref pindexNew
  let node ← getNode
  if node.nBestInvalidTrust < index.nChainTrust then do
    modifyNode fun node => { node with nBestInvalidTrust := index.nChainTrust }
    let _ ← writeDirect .bnBestInvalidTrust (.trust index.nChainTrust)
    pure ()
  else pure ()

/-! ## Reorganize -/

/-- `while (plonger->nHeight > pfork->nHeight) plonger = plonger->pprev`.  Every step goes to
another block, so `fuel` is the size of the index. -/
def lowerTo (nHeight : Nat) : (fuel : Nat) → (plonger : Uint256) → NodeM Uint256
  | 0, _ => throw (.abort "Reorganize() : loop")
  | fuel + 1, plonger => do
    let index ← deref plonger
    if index.nHeight ≤ nHeight then pure plonger
    else
      match index.pprev with
      | none => throw (.reject 0 "Reorganize() : plonger->pprev is null")
      | some pprev => lowerTo nHeight fuel pprev

/-- The loop of `Reorganize` that finds the fork. -/
def findFork : (fuel : Nat) → (pfork plonger : Uint256) → NodeM Uint256
  | 0, _, _ => throw (.abort "Reorganize() : loop")
  | fuel + 1, pfork, plonger =>
    if pfork = plonger then pure pfork
    else do
      let indexFork ← deref pfork
      let node ← getNode
      let plonger ← lowerTo indexFork.nHeight (node.mapBlockIndex.size + 1) plonger
      if pfork = plonger then pure pfork
      else
        match indexFork.pprev with
        | none => throw (.reject 0 "Reorganize() : pfork->pprev is null")
        | some pprev => findFork fuel pprev plonger

/-- `for (pindex = from; pindex != pfork; pindex = pindex->pprev)`: the blocks from `pindex`
down to the fork, which is not one of them. -/
def branchTo (pfork : Uint256) : (fuel : Nat) → (pindex : Uint256) → NodeM (List Uint256)
  | 0, _ => throw (.abort "Reorganize() : loop")
  | fuel + 1, pindex =>
    if pindex = pfork then pure []
    else do
      let index ← deref pindex
      let pprev ← nonNull index.pprev
      let rest ← branchTo pfork fuel pprev
      pure (pindex :: rest)

/-- Disconnect one block of the shorter branch; the transactions to resurrect come back. -/
def disconnectOne (env : Env) (vResurrect : List CTransaction) (pindex : Uint256) :
    NodeM (List CTransaction) := do
  match ← readBlock env pindex with
  | none => throw (.reject 0 "Reorganize() : ReadFromDisk for disconnect failed")
  | some block =>
    (block.disconnectBlock env pindex).adaptExcept
      fun e => (e.because "Reorganize() : DisconnectBlock %s failed").uncharged
    pure (vResurrect ++ block.vtx.filter fun tx => !(tx.isCoinBase || tx.isCoinStake))

/-- Connect one block of the longer branch; its transactions are to be deleted from the
pool. -/
def connectOne (env : Env) (vDelete : List CTransaction) (pindex : Uint256) :
    NodeM (List CTransaction) := do
  match ← readBlock env pindex with
  | none => throw (.reject 0 "Reorganize() : ReadFromDisk for connect failed")
  | some block =>
    (block.connectBlock env pindex false).adaptExcept
      fun e => (e.because "Reorganize() : ConnectBlock %s failed").uncharged
    pure (vDelete ++ block.vtx)

/-- `if (pindex->pprev) pindex->pprev->pnext = pnext`. -/
def setPrevNext (pindex : Uint256) (pnext : Option Uint256) : NodeM Unit := do
  let index ← deref pindex
  match index.pprev with
  | none => pure ()
  | some pprev => do
    let indexPrev ← deref pprev
    modifyNode fun node => node.setIndex pprev { indexPrev with pnext := pnext }

/-- What `Reorganize` does once the database has committed: the links, then the pool.  Whether
a transaction is resurrected is not looked at. -/
def finishReorganize (env : Env) (vDisconnect vConnect : List Uint256)
    (vResurrect vDelete : List CTransaction) : NodeM Unit := do
  vDisconnect.forM fun pindex => setPrevNext pindex none
  vConnect.forM fun pindex => setPrevNext pindex (some pindex)
  vResurrect.forM fun tx => do
    match ← attempt (tx.acceptToMemoryPool env false) with
    | .error (.abort what) => throw (.abort what)
    | _ => pure ()
  vDelete.forM fun tx => do
    poolRemove env tx
    poolRemoveConflicts env tx

/-- The part of `Reorganize` that works in the open transaction: the branches, and the
transactions to resurrect and to delete. -/
def switchBranches (env : Env) (pindexNew : Uint256) :
    NodeM (List Uint256 × List Uint256 × List CTransaction × List CTransaction) := do
  let node ← getNode
  let pindexBest ← nonNull node.pindexBest
  let fuel := node.mapBlockIndex.size + 1
  let pfork ← findFork fuel pindexBest pindexNew
  let vDisconnect ← branchTo pfork fuel pindexBest
  let vConnectRev ← branchTo pfork fuel pindexNew
  let vConnect := vConnectRev.reverse
  let vResurrect ← vDisconnect.foldlM (disconnectOne env) []
  let vDelete ← vConnect.foldlM (connectOne env) []
  let ok ← writeHashBestChain pindexNew
  require ok (.reject 0 "Reorganize() : WriteHashBestChain failed")
  pure (vDisconnect, vConnect, vResurrect, vDelete)

/-- `Reorganize`. -/
def reorganize (env : Env) (pindexNew : Uint256) : NodeM Unit := do
  emitCall fun node sys => .reorganize node sys pindexNew
  let (vDisconnect, vConnect, vResurrect, vDelete) ← switchBranches env pindexNew
  let ok ← txnCommit
  require ok (.reject 0 "Reorganize() : TxnCommit failed")
  finishReorganize env vDisconnect vConnect vResurrect vDelete

/-! ## SetBestChain -/

namespace CBlock

/-- The first condition of `SetBestChainInner`. -/
def connectToBest (env : Env) (block : CBlock) (pindexNew : Uint256) : NodeM Unit := do
  block.connectBlock env pindexNew false
  let ok ← writeHashBestChain (block.getHash env)
  require ok .returnFalse

/-- `SetBestChainInner`. -/
def setBestChainInner (env : Env) (block : CBlock) (pindexNew : Uint256) : NodeM Unit := do
  emitCall fun node sys => .setBestChainInner node sys block pindexNew
  match ← attempt (block.connectToBest env pindexNew) with
  | .error (.reject nDoS text) => do
    txnAbort
    invalidChainFound pindexNew
    throw (.reject nDoS text)
  | .error e => throw e
  | .ok () => do
    let ok ← txnCommit
    require ok (.reject 0 "SetBestChain() : TxnCommit failed")
    let index ← deref pindexNew
    let pprev ← nonNull index.pprev
    let indexPrev ← deref pprev
    modifyNode fun node => node.setIndex pprev { indexPrev with pnext := some pindexNew }
    block.vtx.forM (poolRemove env)

end CBlock

/-- The loop of `SetBestChain` that limits what `Reorganize` has to do: the blocks whose
previous block alone has more trust than the best chain are postponed. -/
def postpone (nBestTrust : Uint256) : (fuel : Nat) → (vpindexSecondary : List Uint256) →
    (pindexIntermediate : Uint256) → NodeM (List Uint256 × Uint256)
  | 0, _, _ => throw (.abort "SetBestChain() : loop")
  | fuel + 1, vpindexSecondary, pindexIntermediate => do
    let index ← deref pindexIntermediate
    match index.pprev with
    | none => pure (vpindexSecondary, pindexIntermediate)
    | some pprev => do
      let indexPrev ← deref pprev
      if nBestTrust < indexPrev.nChainTrust then
        postpone nBestTrust fuel (vpindexSecondary ++ [pindexIntermediate]) pprev
      else pure (vpindexSecondary, pindexIntermediate)

/-- The loop of `SetBestChain` over the postponed blocks.  "Errors now are not fatal": the
first one ends the loop, and the caller does not learn of it. -/
def connectPostponed (env : Env) : List Uint256 → NodeM Unit
  | [] => pure ()
  | pindex :: rest => do
    emitCall fun node sys => .postponed node sys pindex
    match ← readBlock env pindex with
    | none => pure ()
    | some block => do
      txnBegin
      match ← attempt (block.setBestChainInner env pindex) with
      | .error (.reject _ _) => pure ()
      | .error e => throw e
      | .ok () => connectPostponed env rest

/-- The end of `SetBestChain`: the globals of the best chain. -/
def setBest (hash pindexNew : Uint256) : NodeM Unit := do
  let index ← deref pindexNew
  modifyNode fun node =>
    { node with
      hashBestChain := hash
      pindexBest := some pindexNew
      nBestHeight := index.nHeight
      nBestChainTrust := index.nChainTrust }

/-- The branch of `SetBestChain` for a block that does not extend the best chain. -/
def switchBestChain (env : Env) (pindexNew : Uint256) : NodeM Unit := do
  let node ← getNode
  let pindexBest ← nonNull node.pindexBest
  let indexBest ← deref pindexBest
  let (vpindexSecondary, pindexIntermediate) ←
    postpone indexBest.nChainTrust (node.mapBlockIndex.size + 1) [] pindexNew
  match ← attempt (reorganize env pindexIntermediate) with
  | .error (.reject _ _) => do
    txnAbort
    invalidChainFound pindexNew
    throw (.reject 0 "SetBestChain() : Reorganize failed")
  | .error e => throw e
  | .ok () => connectPostponed env vpindexSecondary.reverse

namespace CBlock

/-- The branch of `SetBestChain` for the first block. -/
def startBestChain (hash pindexNew : Uint256) : NodeM Unit := do
  let _ ← writeHashBestChain hash
  let ok ← txnCommit
  require ok (.reject 0 "SetBestChain() : TxnCommit failed")
  modifyNode fun node => { node with pindexGenesisBlock := some pindexNew }

/-- What `SetBestChain` does before it sets the globals. -/
def moveBestChain (env : Env) (block : CBlock) (pindexNew : Uint256) : NodeM Unit := do
  let node ← getNode
  if node.pindexGenesisBlock = none ∧ block.getHash env = env.genesisHash then
    startBestChain (block.getHash env) pindexNew
  else if block.hashPrevBlock = node.hashBestChain then
    (block.setBestChainInner env pindexNew).adaptExcept
      (Exit.because "SetBestChain() : SetBestChainInner failed")
  else switchBestChain env pindexNew

/-- `SetBestChain`. -/
def setBestChain (env : Env) (block : CBlock) (pindexNew : Uint256) : NodeM Unit := do
  txnBegin
  block.moveBestChain env pindexNew
  setBest (block.getHash env) pindexNew
  emitCall fun node _ => .bestChainSet node

end CBlock

end NoLimitCoin
