import NoLimitCoin.CheckBlock

/-!
# Inputs of a transaction

The functions of `CTransaction` in `main.cpp` that work on the outputs a transaction spends:
fetching them, adding up their value, marking them spent and taking that back, and the coin
age.
-/

namespace NoLimitCoin

open Prog NodeM

namespace CTransaction

/-! ## Fetching -/

/-- The branch of `FetchInputs` that takes the previous transaction from the memory pool. -/
def fetchFromPool (txindex : Option CTxIndex) (hash : Uint256) : NodeM (CTxIndex × CTransaction) := do
  let node ← getNode
  match node.mempool.mapTx[hash]? with
  | none => throw (.reject 0 "FetchInputs() : %s mempool Tx prev not found %s")
  | some txPrev =>
    pure (txindex.getD ⟨.null, List.replicate txPrev.vout.length .null⟩, txPrev)

/-- The first loop of `FetchInputs`, for one input.  An index entry comes from the changes of
the block so far, or from the database. -/
def fetchInput (mapTestPool : Map Uint256 CTxIndex) (fBlock fMiner : Bool) (inputs : MapPrevTx)
    (txin : CTxIn) : NodeM MapPrevTx := do
  let hash := txin.prevout.hash
  if inputs.contains hash then pure inputs
  else
    let found ← (if (fBlock || fMiner) && mapTestPool.contains hash then pure mapTestPool[hash]?
      else readTxIndex hash)
    match found with
    | none =>
      if fBlock || fMiner then
        throw (if fMiner then .returnFalse
          else .reject 0 "FetchInputs() : %s prev tx %s index entry not found")
      else
        let prev ← fetchFromPool none hash
        pure (inputs.insert hash prev)
    | some txindex =>
      if txindex.pos = .memPool then
        let prev ← fetchFromPool (some txindex) hash
        pure (inputs.insert hash prev)
      else
        match ← readTxAt txindex.pos with
        | none => throw (.reject 0 "FetchInputs() : %s ReadFromDisk prev tx %s failed")
        | some txPrev => pure (inputs.insert hash (txindex, txPrev))

/-- The second loop of `FetchInputs`: the output an input names exists. -/
def outputExists (inputs : MapPrevTx) (txin : CTxIn) : Bool :=
  match inputs[txin.prevout.hash]? with
  | none => false
  | some (txindex, txPrev) =>
    decide (txin.prevout.n < txPrev.vout.length) && decide (txin.prevout.n < txindex.vSpent.length)

/-- `FetchInputs`.  The only failure that sets `fInvalid` is the last one, and it is the only
one that charges the sender. -/
def fetchInputs (tx : CTransaction) (mapTestPool : Map Uint256 CTxIndex) (fBlock fMiner : Bool) :
    NodeM MapPrevTx :=
  if tx.isCoinBase then pure ∅
  else do
    let inputs ← tx.vin.foldlM (fetchInput mapTestPool fBlock fMiner) ∅
    require (tx.vin.all (outputExists inputs))
      (.reject 100 "FetchInputs() : %s prevout.n out of range %d %zu %zu prev tx %s")
    pure inputs

/-! ## Values -/

/-- `GetOutputFor`. -/
def getOutputFor (inputs : MapPrevTx) (txin : CTxIn) : Except Exit CTxOut :=
  match inputs[txin.prevout.hash]? with
  | none => .error (.abort "CTransaction::GetOutputFor() : prevout.hash not found")
  | some (_, txPrev) =>
    match txPrev.vout[txin.prevout.n]? with
    | none => .error (.abort "CTransaction::GetOutputFor() : prevout.n out of range")
    | some txout => .ok txout

/-- The sum of `GetValueIn` over the inputs. -/
def sumValueIn (inputs : MapPrevTx) : Int → List CTxIn → Except Exit Int
  | nResult, [] => .ok nResult
  | nResult, txin :: vin => do
    let txout ← getOutputFor inputs txin
    let nResult ← Int64.checked (nResult + txout.nValue)
    sumValueIn inputs nResult vin

/-- The post-mine condition of `GetValueIn`. -/
def observesPostmine (nBestHeight : Int) (tx : CTransaction) (inputs : MapPrevTx) : Bool :=
  decide ((postmineBlock : Int) ≤ nBestHeight) && inputs.contains hashPostmine &&
    decide (tx.vin.length = 1) && decide (inputs.size = 1)

/-- `GetValueIn`. -/
def getValueIn (nBestHeight : Int) (tx : CTransaction) (inputs : MapPrevTx)
    (fObservePostmine : Bool) : Except Exit Int :=
  if tx.isCoinBase then .ok 0
  else if fObservePostmine && observesPostmine nBestHeight tx inputs then
    match tx.vin with
    | [] => .error (.abort "vin[0]")
    | txin :: _ => do
      let txout ← getOutputFor inputs txin
      Int64.checked (postmineValue + txout.nValue)
  else sumValueIn inputs 0 tx.vin

/-- `GetP2SHSigOpCount`. -/
def getP2SHSigOpCount (tx : CTransaction) (inputs : MapPrevTx) : Except Exit Nat :=
  if tx.isCoinBase then .ok 0
  else
    tx.vin.foldlM (fun nSigOps txin => do
      let prevout ← getOutputFor inputs txin
      pure (if prevout.scriptPubKey.isPayToScriptHash then
          nSigOps + prevout.scriptPubKey.getSigOpCountFor txin.scriptSig
        else nSigOps)) 0

/-- `GetMinFee_mode`. -/
inductive GetMinFeeMode where
  | block
  | relay
  | send
deriving Repr, DecidableEq

/-- `GetMinFee`. -/
def getMinFee (tx : CTransaction) (nBlockSize : Nat) (mode : GetMinFeeMode) (nBytes : Nat) : Int :=
  let nBaseFee := if mode = .relay then minRelayTxFee else minTxFee
  let nNewBlockSize := (nBlockSize + nBytes) % 2 ^ 32
  let nMinFee := (1 + (nBytes : Int) / 1000) * nBaseFee
  let nMinFee :=
    if nMinFee < nBaseFee ∧ tx.vout.any (fun txout => txout.nValue < cent) then nBaseFee
    else nMinFee
  if nBlockSize ≠ 1 ∧ maxBlockSizeGen / 2 ≤ nNewBlockSize ∧ maxBlockSizeGen ≤ nNewBlockSize then
    maxMoney
  else
    let nMinFee :=
      if nBlockSize ≠ 1 ∧ maxBlockSizeGen / 2 ≤ nNewBlockSize then
        nMinFee * (maxBlockSizeGen / (maxBlockSizeGen - nNewBlockSize) : Nat)
      else nMinFee
    if moneyRange nMinFee then nMinFee else maxMoney

/-- The `GetMinFee()` of `ConnectInputs`, with its default arguments. -/
def getMinFeeDefault (tx : CTransaction) : Int := tx.getMinFee 1 .block 0

/-! ## Connecting -/

/-- The loop of `ConnectInputs` that looks for the block of an immature coin base or coin
stake below `pindexBlock`. -/
def immatureLoop (node : Node) (nHeight : Int) (pos : CDiskTxPos) : (fuel : Nat) →
    Option Uint256 → Bool
  | 0, _ => false
  | fuel + 1, pindex =>
    match pindex.bind node.index? with
    | none => false
    | some index =>
      if nHeight - index.nHeight < nCoinbaseMaturity then
        if index.nBlockPos = pos.nBlockPos ∧ index.nFile = pos.nFile then true
        else immatureLoop node nHeight pos fuel index.pprev
      else false

/-- The output is one of a coin base or coin stake that is not yet mature. -/
def spendsImmature (node : Node) (pindexBlock : Option Uint256) (txPrev : CTransaction)
    (pos : CDiskTxPos) : Bool :=
  (txPrev.isCoinBase || txPrev.isCoinStake) &&
    match pindexBlock.bind node.index? with
    | none => false
    | some indexBlock =>
      immatureLoop node indexBlock.nHeight pos node.mapBlockIndex.size pindexBlock

/-- The first loop of `ConnectInputs`, for one input: the inexpensive checks, and the value so
far.  An input of `hashPostmine` starts the value again with the bonus. -/
def checkInput (node : Node) (pindexBlock : Option Uint256) (tx : CTransaction)
    (inputs : MapPrevTx) (nValueIn : Int) (txin : CTxIn) : Except Exit Int :=
  match inputs[txin.prevout.hash]? with
  | none => .error (.abort "ConnectInputs() : inputs.count(prevout.hash) > 0")
  | some (txindex, txPrev) =>
    match txPrev.vout[txin.prevout.n]? with
    | none => .error (.reject 100 "ConnectInputs() : %s prevout.n out of range %d %zu %zu prev tx %s")
    | some txout => do
      require (decide (txin.prevout.n < txindex.vSpent.length))
        (.reject 100 "ConnectInputs() : %s prevout.n out of range %d %zu %zu prev tx %s")
      require (!spendsImmature node pindexBlock txPrev txindex.pos)
        (.reject 0 "ConnectInputs() : tried to spend %s at depth %d")
      require (decide (txPrev.nTime ≤ tx.nTime))
        (.reject 100 "ConnectInputs() : transaction timestamp earlier than input transaction")
      let nValueIn :=
        if txin.prevout.hash = hashPostmine then postmineValue + txout.nValue
        else nValueIn + txout.nValue
      require (moneyRange txout.nValue && moneyRange nValueIn)
        (.reject 100 "ConnectInputs() : txin values out of range")
      pure nValueIn

/-- `VerifySignature(txFrom, txTo, nIn, 0)`. -/
def verifySignature (env : Env) (txFrom txTo : CTransaction) (txin : CTxIn) (nIn : Nat) : Bool :=
  match txFrom.vout[txin.prevout.n]? with
  | none => false
  | some txout =>
    decide (txin.prevout.hash = txFrom.getHash env) &&
      env.verifyScript txin.scriptSig txout.scriptPubKey txTo nIn

/-- The second loop of `ConnectInputs`, for one input: the output is not spent, the signature
is good, and the output is marked as spent by this transaction. -/
def spendInput (env : Env) (node : Node) (tx : CTransaction) (posThisTx : CDiskTxPos)
    (fBlock fMiner : Bool) (acc : MapPrevTx × Map Uint256 CTxIndex) (input : CTxIn × Nat) :
    Except Exit (MapPrevTx × Map Uint256 CTxIndex) :=
  let (inputs, mapTestPool) := acc
  let (txin, i) := input
  let prevout := txin.prevout
  match inputs[prevout.hash]? with
  | none => .error (.abort "ConnectInputs() : inputs.count(prevout.hash) > 0")
  | some (txindex, txPrev) =>
    match txindex.vSpent[prevout.n]? with
    | none => .error (.abort "txindex.vSpent[prevout.n]")
    | some spent => do
      require spent.isNull
        (if fMiner then .returnFalse else .reject 0 "ConnectInputs() : %s prev tx already used at %s")
      -- no signatures are checked in blocks before the last checkpoint
      require ((fBlock && decide (node.nBestHeight < env.getTotalBlocksEstimate)) ||
          verifySignature env txPrev tx txin i)
        (.reject 100 "ConnectInputs() : %s VerifySignature failed")
      let txindex := { txindex with vSpent := txindex.vSpent.set prevout.n posThisTx }
      pure (inputs.insert prevout.hash (txindex, txPrev),
        if fBlock || fMiner then mapTestPool.insert prevout.hash txindex else mapTestPool)

/-- The end of `ConnectInputs`: what a transaction that is no coin stake must pay. -/
def checkFee (tx : CTransaction) (nValueIn : Int) (fBlock : Bool) : Except Exit Unit := do
  let nValueOut ← tx.getValueOut
  require (decide (nValueOut ≤ nValueIn))
    (.reject 100 "ConnectInputs() : %s value in < value out")
  let nTxFee := nValueIn - nValueOut
  require (decide (0 ≤ nTxFee)) (.reject 100 "ConnectInputs() : %s nTxFee < 0")
  require (decide (tx.getMinFeeDefault ≤ nTxFee))
    (if fBlock then .reject 100 "ConnectInputs() : %s not paying required fee=%s, paid=%s"
     else .returnFalse)
  require (moneyRange nTxFee) (.reject 100 "ConnectInputs() : nFees out of range")

/-- `ConnectInputs`: the pending index entries with the outputs of this transaction marked. -/
def connectInputs (env : Env) (node : Node) (tx : CTransaction) (inputs : MapPrevTx)
    (mapTestPool : Map Uint256 CTxIndex) (posThisTx : CDiskTxPos) (pindexBlock : Option Uint256)
    (fBlock fMiner : Bool) : Except Exit (Map Uint256 CTxIndex) :=
  if tx.isCoinBase then .ok mapTestPool
  else do
    let nValueIn ← tx.vin.foldlM (checkInput node pindexBlock tx inputs) 0
    let (_, mapTestPool) ← tx.vin.zipIdx.foldlM (spendInput env node tx posThisTx fBlock fMiner)
      (inputs, mapTestPool)
    if tx.isCoinStake then pure mapTestPool
    else do
      tx.checkFee nValueIn fBlock
      pure mapTestPool

/-! ## Disconnecting -/

/-- The loop of `DisconnectInputs`, for one input. -/
def unspendInput (txin : CTxIn) : NodeM Unit := do
  match ← readTxIndex txin.prevout.hash with
  | none => throw (.reject 0 "DisconnectInputs() : ReadTxIndex failed")
  | some txindex =>
    require (decide (txin.prevout.n < txindex.vSpent.length))
      (.reject 0 "DisconnectInputs() : prevout.n out of range")
    let ok ← updateTxIndex txin.prevout.hash
      { txindex with vSpent := txindex.vSpent.set txin.prevout.n .null }
    require ok (.reject 0 "DisconnectInputs() : UpdateTxIndex failed")

/-- `DisconnectInputs`.  Whether the entry of the transaction could be erased is not checked. -/
def disconnectInputs (env : Env) (tx : CTransaction) : NodeM Unit := do
  (if tx.isCoinBase then pure () else tx.vin.forM unspendInput)
  let _ ← eraseTxIndex (tx.getHash env)

/-! ## Coin age -/

/-- The loop of `GetCoinAge`, for one input: `none` is the result `false`. -/
def inputCoinAge (env : Env) (txdb : TxDB) (tx : CTransaction) (bnCentSecond : Option Int)
    (txin : CTxIn) : NodeM (Option Int) :=
  match bnCentSecond with
  | none => pure none
  | some bnCentSecond => do
    match ← readTxFromDisk txdb txin.prevout with
    | none => pure (some bnCentSecond)
    | some (txPrev, txindex) =>
      if tx.nTime < txPrev.nTime then pure none
      else
        match ← readBlockAt env txindex.pos.nFile txindex.pos.nBlockPos false with
        | none => pure none
        | some block =>
          if (tx.nTime : Int) < block.getBlockTime + env.nStakeMinAge then pure (some bnCentSecond)
          else
            match txPrev.vout[txin.prevout.n]? with
            | none => throw (.abort "txPrev.vout[txin.prevout.n]")
            | some txout =>
              pure (some (bnCentSecond +
                (txout.nValue * ((tx.nTime - txPrev.nTime : Nat) : Int)).tdiv cent))

/-- `CTransaction::GetCoinAge`, in coin-days: `none` is the result `false`. -/
def getCoinAge (env : Env) (txdb : TxDB) (tx : CTransaction) : NodeM (Option Nat) :=
  if tx.isCoinBase then pure (some 0)
  else do
    match ← tx.vin.foldlM (inputCoinAge env txdb tx) (some 0) with
    | none => pure none
    | some bnCentSecond =>
      let bnCoinDay := ((bnCentSecond * cent).tdiv coin).tdiv (24 * 60 * 60)
      pure (some (CBigNum.getUint64 bnCoinDay))

end CTransaction

end NoLimitCoin
