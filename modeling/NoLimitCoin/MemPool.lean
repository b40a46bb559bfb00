import NoLimitCoin.Inputs

/-!
# The memory pool

`CTxMemPool`: loose transactions (`mapTx`) and, for every output one of them spends, which one
does (`mapNextTx`).
-/

namespace NoLimitCoin

open Prog NodeM

namespace CTxMemPool

/-- `addUnchecked`. -/
def addUnchecked (pool : CTxMemPool) (hash : Uint256) (tx : CTransaction) : CTxMemPool where
  mapTx := pool.mapTx.insert hash tx
  mapNextTx := tx.vin.zipIdx.foldl (fun m (txin, i) => m.insert txin.prevout ⟨hash, i⟩)
    pool.mapNextTx

/-- The transaction of the pool behind an inpoint. -/
def lookupInPoint (pool : CTxMemPool) (inpoint : CInPoint) : Except Exit CTransaction :=
  match pool.mapTx[inpoint.ptx]? with
  | some tx => .ok tx
  | none => .error (.abort "dangling CInPoint")

/-- The end of `remove`: the transaction and its inputs leave the pool. -/
def eraseTx (pool : CTxMemPool) (hash : Uint256) (tx : CTransaction) : CTxMemPool where
  mapTx := pool.mapTx.erase hash
  mapNextTx := tx.vin.foldl (fun m txin => m.erase txin.prevout) pool.mapNextTx

/-- `remove`.  With `fRecursive` the transactions that spend an output of `tx` go first; a
transaction is removed once, so `fuel` is the size of the pool. -/
def remove (env : Env) : (fuel : Nat) → CTxMemPool → CTransaction → (fRecursive : Bool) →
    Except Exit CTxMemPool
  | 0, _, _, _ => .error (.abort "CTxMemPool::remove() : recursion")
  | fuel + 1, pool, tx, fRecursive => do
    let hash := tx.getHash env
    if !pool.mapTx.contains hash then pure pool
    else do
      let pool ← (if fRecursive then
          (List.range tx.vout.length).foldlM (fun pool i =>
            match pool.mapNextTx[(⟨hash, i⟩ : COutPoint)]? with
            | none => pure pool
            | some inpoint => do
              let txNext ← pool.lookupInPoint inpoint
              remove env fuel pool txNext true) pool
        else pure pool)
      pure (pool.eraseTx hash tx)

/-- The body of the loop of `removeConflicts`. -/
def removeConflict (env : Env) (tx : CTransaction) (pool : CTxMemPool) (txin : CTxIn) :
    Except Exit CTxMemPool :=
  match pool.mapNextTx[txin.prevout]? with
  | none => pure pool
  | some inpoint => do
    let txConflict ← pool.lookupInPoint inpoint
    if txConflict = tx then pure pool
    else remove env (pool.mapTx.size + 1) pool txConflict true

/-- `removeConflicts`. -/
def removeConflicts (env : Env) (pool : CTxMemPool) (tx : CTransaction) :
    Except Exit CTxMemPool :=
  tx.vin.foldlM (removeConflict env tx) pool

/-- `clear`, and the pool of a node that has just started. -/
def clear : CTxMemPool := ⟨∅, ∅⟩

end CTxMemPool

namespace NodeM

/-- Apply a function of the pool to the pool of the node. -/
def modifyPool (f : CTxMemPool → Except Exit CTxMemPool) : NodeM Unit := do
  let node ← getNode
  let pool ← fromExcept (f node.mempool)
  modifyNode fun node => { node with mempool := pool }

/-- `mempool.remove(tx)`. -/
def poolRemove (env : Env) (tx : CTransaction) : NodeM Unit :=
  modifyPool fun pool => pool.remove env (pool.mapTx.size + 1) tx false

/-- `mempool.removeConflicts(tx)`. -/
def poolRemoveConflicts (env : Env) (tx : CTransaction) : NodeM Unit :=
  modifyPool fun pool => pool.removeConflicts env tx

end NodeM

namespace CTransaction

/-- The checks of `CTxMemPool::accept` on the inputs.  The text of the second failure stands
for `*pfMissingInputs = true`. -/
def acceptInputs (env : Env) (tx : CTransaction) : NodeM Unit := do
  let fetched ← attempt (tx.fetchInputs ∅ false false)
  match fetched with
  | .error (.reject nDoS _) =>
    if nDoS ≠ 0 then throw (.reject nDoS "CTxMemPool::accept() : FetchInputs found invalid tx %s")
    else throw (.reject 0 "pfMissingInputs")
  | .error e => throw e
  | .ok inputs => do
    require (env.areInputsStandard tx inputs || env.fTestNet)
      (.reject 0 "CTxMemPool::accept() : nonstandard transaction input")
    let node ← getNode
    let sys ← getSys
    let nValueIn ← fromExcept (tx.getValueIn node.nBestHeight inputs true)
    let nValueOut ← fromExcept tx.getValueOut
    let nFees ← fromExcept (Int64.checked (nValueIn - nValueOut))
    require (decide (tx.getMinFee 1000 .relay tx.getSerializeSize ≤ nFees))
      (.reject 0 "CTxMemPool::accept() : not enough fees %s, %d < %d")
    require (!(decide (nFees < minRelayTxFee) && sys.freeTxLimit))
      (.reject 0 "CTxMemPool::accept() : free transaction rejected by rate limiter")
    let _ ← fromExcept ((tx.connectInputs env node inputs ∅ .memPool node.pindexBest false
      false).mapError (Exit.because "CTxMemPool::accept() : ConnectInputs failed %s"))
    pure ()

/-- The checks of `CTxMemPool::accept` before any input is looked at. -/
def acceptLoose (env : Env) (tx : CTransaction) : Except Exit Unit := do
  tx.checkTransaction.mapError (Exit.because "CTxMemPool::accept() : CheckTransaction failed")
  require (!tx.isCoinBase) (.reject 100 "CTxMemPool::accept() : coinbase as individual tx")
  require (!tx.isCoinStake) (.reject 100 "CTxMemPool::accept() : coinstake as individual tx")
  require (decide (tx.nLockTime ≤ 2 ^ 31 - 1))
    (.reject 0 "CTxMemPool::accept() : not accepting nLockTime beyond 2038 yet")
  require (env.fTestNet || env.isStandard tx)
    (.reject 0 "CTxMemPool::accept() : nonstandard transaction type")

/-- `CTransaction::AcceptToMemoryPool`, which is `CTxMemPool::accept`. -/
def acceptToMemoryPool (env : Env) (tx : CTransaction) (fCheckInputs : Bool) : NodeM Unit := do
  fromExcept (tx.acceptLoose env)
  let hash := tx.getHash env
  let node ← getNode
  require (!node.mempool.mapTx.contains hash) .returnFalse
  require (!(fCheckInputs && node.txdb.containsTx hash)) .returnFalse
  require (tx.vin.all fun txin => !node.mempool.mapNextTx.contains txin.prevout) .returnFalse
  (if fCheckInputs then tx.acceptInputs env else pure ())
  modifyNode fun node => { node with mempool := node.mempool.addUnchecked hash tx }

end CTransaction

end NoLimitCoin
