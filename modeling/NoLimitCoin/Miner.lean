import NoLimitCoin.ProcessBlock

/-!
# Creating a block

`CreateNewBlock` of `miner.cpp` fills a block with transactions of the memory pool.
Transactions that spend outputs of the pool wait in `vOrphan`, and `mapDependers` keeps pointers
to their records, until the transactions they depend on are in the block.
-/

namespace NoLimitCoin

open Prog NodeM

/-- The conversion of a 64-bit value to `unsigned int`. -/
def toUint32 (n : Int) : Nat := (n % 2 ^ 32).toNat

/-- `PastDrift` and `FutureDrift` allow the same five minutes. -/
def pastDrift (nTime : Int) : Int := nTime - 5 * 60

namespace CBlock

/-- `GetMaxTransactionTime`. -/
def getMaxTransactionTime (block : CBlock) : Int :=
  block.vtx.foldl (fun maxTransactionTime tx => max maxTransactionTime tx.nTime) 0

end CBlock

namespace Miner

/-- The values of `-blockmaxsize`, `-blockprioritysize` and `-blockminsize`. -/
structure Options where
  blockMaxSize : Int
  blockPrioritySize : Int
  blockMinSize : Int

namespace Options

/-- Without any option: half of `MAX_BLOCK_SIZE_GEN`, and 27000 bytes for high priorities. -/
def default : Options := ⟨(maxBlockSizeGen / 2 : Nat), 27000, 0⟩

def nBlockMaxSize (o : Options) : Nat := max 1000 (min (maxBlockSize - 1000) (toUint32 o.blockMaxSize))

def nBlockPrioritySize (o : Options) : Nat := min o.nBlockMaxSize (toUint32 o.blockPrioritySize)

def nBlockMinSize (o : Options) : Nat := min o.nBlockMaxSize (toUint32 o.blockMinSize)

end Options

/-- What `CreateNewBlock` decides in double precision: which entry of `vecPriority` is at the
front of the heap, and how a transaction compares to the fee and the priority that are free. -/
structure Priorities where
  front : (byFee : Bool) → List CTransaction → Nat
  /-- `dFeePerKb < nMinTxFee`. -/
  feeBelowMin : CTransaction → Bool
  /-- `dPriority < COIN * 144 / 250`. -/
  lowPriority : CTransaction → Bool

/-! ## Collecting -/

structure COrphan where
  ptx : CTransaction
  setDependsOn : Finset Uint256

/-- The local variables that the loop over the pool fills. -/
structure Gathered where
  /-- How many records have been made; a record is known by its number. -/
  nOrphan : Nat
  /-- The records of `vOrphan`, under the addresses that the pointers hold. -/
  vOrphan : Map Nat COrphan
  mapDependers : Map Uint256 (List Nat)
  vecPriority : List CTransaction

namespace Gathered

def start : Gathered := ⟨0, ∅, ∅, []⟩

/-- `vOrphan.push_back(COrphan(&tx))`. -/
def pushOrphan (s : Gathered) (tx : CTransaction) : Gathered :=
  { s with nOrphan := s.nOrphan + 1, vOrphan := s.vOrphan.insert s.nOrphan ⟨tx, ∅⟩ }

/-- The record of a transaction, which is made when it is first needed. -/
def orphanFor (s : Gathered) (porphan : Option Nat) (tx : CTransaction) : Gathered × Nat :=
  match porphan with
  | none => (s.pushOrphan tx, s.nOrphan)
  | some id => (s, id)

/-- `vOrphan.pop_back()`, which removes the record of this transaction. -/
def popOrphan (s : Gathered) (porphan : Option Nat) : Gathered :=
  match porphan with
  | none => s
  | some id => { s with vOrphan := s.vOrphan.erase id }

/-- `mapDependers[hash].push_back(porphan)`, and the same in the record. -/
def dependOn (s : Gathered) (id : Nat) (tx : CTransaction) (hash : Uint256) : Gathered :=
  let orphan := (s.vOrphan[id]?).getD ⟨tx, ∅⟩
  { s with
    mapDependers := s.mapDependers.insert hash ((s.mapDependers[hash]?).getD [] ++ [id])
    vOrphan := s.vOrphan.insert id { orphan with setDependsOn := insert hash orphan.setDependsOn } }

end Gathered

/-- The loop over the inputs: the record of the transaction if it has to wait, and whether an
input is missing. -/
def gatherInputs (tx : CTransaction) : Gathered → (porphan : Option Nat) → List CTxIn →
    NodeM (Gathered × Option Nat × Bool)
  | s, porphan, [] => pure (s, porphan, false)
  | s, porphan, txin :: vin => do
    let node ← getNode
    match ← readTxFromDisk node.txdb.fresh txin.prevout with
    | some _ => gatherInputs tx s porphan vin
    | none =>
      match node.mempool.mapTx[txin.prevout.hash]? with
      | none => pure (s.popOrphan porphan, porphan, true)
      | some txPrev => do
        let (s, id) := s.orphanFor porphan tx
        let s := s.dependOn id tx txin.prevout.hash
        require (decide (txin.prevout.n < txPrev.vout.length)) (.abort "vout[txin.prevout.n]")
        gatherInputs tx s (some id) vin

/-- The body of the loop over the pool. -/
def gatherTx (s : Gathered) (tx : CTransaction) : NodeM Gathered := do
  let node ← getNode
  let sys ← getSys
  if tx.isCoinBase || tx.isCoinStake || !tx.isFinal node.nBestHeight.toNat sys.adjustedTime then
    pure s
  else do
    let (s, porphan, fMissingInputs) ← gatherInputs tx s none tx.vin
    if fMissingInputs then pure s
    else do
      let _ ← fromExcept tx.getValueOut
      pure (if porphan.isSome then s else { s with vecPriority := s.vecPriority ++ [tx] })

def gather : NodeM Gathered := do
  let node ← getNode
  (node.mempool.mapTx.toList.map Prod.snd).foldlM gatherTx .start

/-! ## Filling the block -/

/-- The local variables of the loop over `vecPriority`. -/
structure Assembly where
  vOrphan : Map Nat COrphan
  vecPriority : List CTransaction
  mapTestPool : Map Uint256 CTxIndex
  /-- The block after its coin base. -/
  vtx : List CTransaction
  nBlockSize : Nat
  nBlockSigOps : Nat
  nFees : Int
  fSortedByFee : Bool

/-- One of the records that depend on a transaction which has just been added. -/
def wakeDepender (hash : Uint256) (s : Assembly) (id : Nat) : NodeM Assembly :=
  match s.vOrphan[id]? with
  | none => throw (.abort "COrphan used after vOrphan.pop_back()")
  | some orphan =>
    if orphan.setDependsOn = ∅ then pure s
    else
      let setDependsOn := orphan.setDependsOn.erase hash
      let s := { s with
        vOrphan := s.vOrphan.insert id { orphan with setDependsOn := setDependsOn } }
      pure (if setDependsOn = ∅ then { s with vecPriority := s.vecPriority ++ [orphan.ptx] } else s)

/-- The fees of a transaction with these inputs. -/
def txFees (nBestHeight : Int) (tx : CTransaction) (inputs : MapPrevTx) : Except Exit Int := do
  let nValueIn ← tx.getValueIn nBestHeight inputs true
  let nValueOut ← tx.getValueOut
  Int64.checked (nValueIn - nValueOut)

section

variable (env : Env) (options : Options) (priorities : Priorities) (fProofOfStake : Bool)
  (pindexPrev : Uint256) (nTimeCoinBase : Nat) (mapDependers : Map Uint256 (List Nat))

/-- A failure of a called function passes over the transaction; an exception leaves
`CreateNewBlock`. -/
def skipUnless {α : Type} (s : Assembly) (result : Except Exit α) (f : α → NodeM Assembly) :
    NodeM Assembly :=
  match result with
  | .ok a => f a
  | .error (.abort what) => throw (.abort what)
  | .error _ => pure s

/-- The limits on size, operations, time and fee, before the inputs are looked at. -/
def skipsEarly (adjustedTime : Int) (s : Assembly) (tx : CTransaction) : Bool :=
  decide (options.nBlockMaxSize ≤ s.nBlockSize + tx.getSerializeSize) ||
    decide (maxBlockSigops ≤ s.nBlockSigOps + tx.getLegacySigOpCount) ||
    (decide (adjustedTime < tx.nTime) || (fProofOfStake && decide (nTimeCoinBase < tx.nTime))) ||
    (s.fSortedByFee && priorities.feeBelowMin tx &&
      decide (options.nBlockMinSize ≤ s.nBlockSize + tx.getSerializeSize))

/-- From the size for high priorities on, the heap is ordered by fee. -/
def turnsToFee (s : Assembly) (tx : CTransaction) : Bool :=
  s.fSortedByFee || (decide (options.nBlockPrioritySize ≤ s.nBlockSize + tx.getSerializeSize) ||
    priorities.lowPriority tx)

/-- The transaction is added to the block. -/
def addTx (s : Assembly) (tx : CTransaction) (mapTestPoolTmp : Map Uint256 CTxIndex)
    (nTxSigOps : Nat) (nTxFees : Int) : NodeM Assembly := do
  let hash := tx.getHash env
  let nFees ← fromExcept (Int64.checked (s.nFees + nTxFees))
  ((mapDependers[hash]?).getD []).foldlM (wakeDepender hash)
    { s with
      mapTestPool := mapTestPoolTmp.insert hash (.new .memPool tx.vout.length)
      vtx := s.vtx ++ [tx]
      nBlockSize := s.nBlockSize + tx.getSerializeSize
      nBlockSigOps := s.nBlockSigOps + nTxSigOps
      nFees := nFees }

/-- The body of the loop, for the transaction taken off the heap. -/
def tryTx (s : Assembly) (tx : CTransaction) : NodeM Assembly := do
  let sys ← getSys
  if skipsEarly options priorities fProofOfStake nTimeCoinBase sys.adjustedTime s tx then pure s
  else do
    let nMinFee := tx.getMinFee s.nBlockSize .block 0
    let s := { s with fSortedByFee := turnsToFee options priorities s tx }
    let fetched ← attempt (tx.fetchInputs s.mapTestPool false true)
    skipUnless s fetched fun inputs => do
      let node ← getNode
      let nTxFees ← fromExcept (txFees node.nBestHeight tx inputs)
      if nTxFees < nMinFee then pure s
      else do
        let nP2SHSigOps ← fromExcept (tx.getP2SHSigOpCount inputs)
        let nTxSigOps := tx.getLegacySigOpCount + nP2SHSigOps
        if maxBlockSigops ≤ s.nBlockSigOps + nTxSigOps then pure s
        else
          skipUnless s (tx.connectInputs env node inputs s.mapTestPool .memPool (some pindexPrev)
            false true) fun mapTestPoolTmp =>
              addTx env mapDependers s tx mapTestPoolTmp nTxSigOps nTxFees

/-- The loop over the heap.  Every turn takes an entry off, and a record is pushed once, so
`fuel` is the number of both. -/
def assembleLoop : (fuel : Nat) → Assembly → NodeM Assembly
  | 0, s => pure s
  | fuel + 1, s =>
    match s.vecPriority with
    | [] => pure s
    | first :: rest => do
      let i := priorities.front s.fSortedByFee (first :: rest) % (first :: rest).length
      let tx := ((first :: rest)[i]?).getD first
      let s := { s with vecPriority := (first :: rest).eraseIdx i }
      let s ← tryTx env options priorities fProofOfStake pindexPrev nTimeCoinBase mapDependers s tx
      assembleLoop fuel s

end

/-- The variables before the loop over the heap. -/
def Gathered.assembly (options : Options) (g : Gathered) : Assembly where
  vOrphan := g.vOrphan
  vecPriority := g.vecPriority
  mapTestPool := ∅
  vtx := []
  nBlockSize := 1000
  nBlockSigOps := 100
  nFees := 0
  fSortedByFee := decide (options.nBlockPrioritySize ≤ 0)

/-- The transactions of the pool that go into the block, and their fees. -/
def collect (env : Env) (options : Options) (priorities : Priorities) (fProofOfStake : Bool)
    (pindexPrev : Uint256) (nTimeCoinBase : Nat) : NodeM Assembly := do
  let g ← gather
  assembleLoop env options priorities fProofOfStake pindexPrev nTimeCoinBase g.mapDependers
    (g.vecPriority.length + g.vOrphan.size) (g.assembly options)

/-! ## The block -/

/-- The coin base: it pays to a key of the pool of keys, or is empty in a proof-of-stake
block and starts with the height. -/
def newCoinBase (fProofOfStake : Bool) (nHeightPrev nTime : Nat) (scriptPubKey : CScript) :
    CTransaction where
  nVersion := 1
  nTime := nTime
  vin := [⟨.null, if fProofOfStake then CScript.pushHeight (nHeightPrev + 1) else [], uint32Max⟩]
  vout := [if fProofOfStake then .empty else ⟨-1, scriptPubKey⟩]
  nLockTime := 0

/-- The time of a new block. -/
def newBlockTime (node : Node) (indexPrev : CBlockIndex) (block : CBlock) : Nat :=
  let nTime := toUint32 (max (getPastTimeLimit node indexPrev + 1) block.getMaxTransactionTime)
  toUint32 (max (nTime : Int) (pastDrift indexPrev.getBlockTime))

/-- `CreateNewBlock`: the block and `*pFees`.  `reserved` is the script for the key that the
wallet has reserved, if it has one left. -/
def createNewBlock (env : Env) (options : Options) (priorities : Priorities)
    (reserved : Option CScript) (fProofOfStake : Bool) : NodeM (Option (CBlock × Int)) := do
  let node ← getNode
  let sys ← getSys
  let pindexPrev ← nonNull node.pindexBest
  let indexPrev ← deref pindexPrev
  if !fProofOfStake && reserved.isNone then pure none
  else do
    let txNew := newCoinBase fProofOfStake indexPrev.nHeight (toUint32 sys.adjustedTime)
      (reserved.getD [])
    let s ← collect env options priorities fProofOfStake pindexPrev txNew.nTime
    let coinbase ← (if fProofOfStake then pure txNew
      else do
        let nReward ← fromExcept (getProofOfWorkReward indexPrev.nHeight s.nFees)
        pure { txNew with vout := txNew.vout.map fun txout => { txout with nValue := nReward } })
    let block : CBlock :=
      { nVersion := 1
        hashPrevBlock := pindexPrev
        hashMerkleRoot := 0
        nTime := 0
        nBits := getNextTargetRequired env node indexPrev fProofOfStake
        nNonce := 0
        vtx := coinbase :: s.vtx
        vchBlockSig := [] }
    let nTime := newBlockTime node indexPrev block
    pure (some ({ block with
      nTime := if fProofOfStake then nTime else toUint32 (max (nTime : Int) sys.adjustedTime) },
      s.nFees))

end Miner

end NoLimitCoin
