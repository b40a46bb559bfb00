import NoLimitCoin.Checkpoints

/-!
# Accepting blocks

`CBlock::AddToBlockIndex`, `CBlock::AcceptBlock` and `ProcessBlock`: the way of a block from a
peer into the index, the block files and, where it has the most trust, the best chain.
`loadBlockIndex` is the start of a node on an empty data directory, and `Reaches` the states a
node can get into from there.
-/

namespace NoLimitCoin

open Prog NodeM Checkpoints

/-! ## Targets -/

/-- `GetLastBlockIndex`: the last block of one kind, or the first block. -/
def getLastBlockIndex (node : Node) (fProofOfStake : Bool) : (fuel : Nat) → CBlockIndex →
    CBlockIndex
  | 0, index => index
  | fuel + 1, index =>
    match index.pprev.bind node.index? with
    | none => index
    | some indexPrev =>
      if index.isProofOfStake = fProofOfStake then index
      else getLastBlockIndex node fProofOfStake fuel indexPrev

/-- `GetNextTargetRequired` for a block after `indexLast`: the target follows the spacing of the
last two blocks of the same kind. -/
def getNextTargetRequired (env : Env) (node : Node) (indexLast : CBlockIndex)
    (fProofOfStake : Bool) : Nat :=
  let bnTargetLimit := if fProofOfStake then bnProofOfStakeLimit else env.bnProofOfWorkLimit
  let fuel := node.mapBlockIndex.size
  let indexPrev := getLastBlockIndex node fProofOfStake fuel indexLast
  match indexPrev.pprev.bind node.index? with
  | none => CBigNum.getCompact bnTargetLimit
  | some indexBefore =>
    let indexPrevPrev := getLastBlockIndex node fProofOfStake fuel indexBefore
    if indexPrevPrev.pprev = none then CBigNum.getCompact bnTargetLimit
    else
      let nActualSpacing := indexPrev.getBlockTime - indexPrevPrev.getBlockTime
      let nActualSpacing := if nActualSpacing < 0 then env.nTargetSpacing else nActualSpacing
      let nInterval := env.nTargetTimespan.tdiv env.nTargetSpacing
      let bnNew := CBigNum.setCompact indexPrev.nBits *
        ((nInterval - 1) * env.nTargetSpacing + nActualSpacing + nActualSpacing)
      let bnNew := bnNew.tdiv ((nInterval + 1) * env.nTargetSpacing)
      CBigNum.getCompact (if bnNew ≤ 0 ∨ bnTargetLimit < bnNew then bnTargetLimit else bnNew)

/-- The loop of `ComputeMaxBits`; every round takes an hour off `nTime`. -/
def maxBitsLoop (bnTargetLimit : Int) : (fuel : Nat) → (bnResult nTime : Int) → Int
  | 0, bnResult, _ => bnResult
  | fuel + 1, bnResult, nTime =>
    if 0 < nTime ∧ bnResult < bnTargetLimit then
      maxBitsLoop bnTargetLimit fuel (bnResult * 2) (nTime - 1 * 60 * 60)
    else bnResult

/-- `ComputeMaxBits`: the largest target that could be required `nTime` seconds later. -/
def computeMaxBits (bnTargetLimit : Int) (nBase : Nat) (nTime : Int) : Nat :=
  let bnResult := maxBitsLoop bnTargetLimit (nTime.toNat / 3600 + 1)
    (CBigNum.setCompact nBase * 2) nTime
  CBigNum.getCompact (if bnTargetLimit < bnResult then bnTargetLimit else bnResult)

/-- `GetMedianTimePast`: the median time of the last eleven blocks. -/
def medianTimes (node : Node) : (fuel : Nat) → (index : Option CBlockIndex) → List Int
  | 0, _ => []
  | fuel + 1, index =>
    match index with
    | none => []
    | some index => index.getBlockTime :: medianTimes node fuel (index.pprev.bind node.index?)

/-- `GetPastTimeLimit`. -/
def getPastTimeLimit (node : Node) (index : CBlockIndex) : Int :=
  let times := (medianTimes node 11 (some index)).insertionSort (· ≤ ·)
  (times[times.length / 2]?).getD 0

/-! ## The block index -/

/-- `IsInitialBlockDownload`. -/
def isInitialBlockDownload (env : Env) (node : Node) (sys : Sys) : Bool :=
  node.pindexBest.isNone || decide (node.nBestHeight < env.getTotalBlocksEstimate) ||
    sys.catchingUp

namespace CBlock

/-- The index object `AddToBlockIndex` builds, before its stake modifier. -/
def newIndex (env : Env) (node : Node) (nFile nBlockPos : Nat) (hashProof : Uint256)
    (block : CBlock) : CBlockIndex :=
  let index := CBlockIndex.ofBlock nFile nBlockPos block
  let prev := node.index? block.hashPrevBlock
  { index with
    pprev := prev.map fun _ => block.hashPrevBlock
    nHeight := match prev with
      | none => 0
      | some indexPrev => indexPrev.nHeight + 1
    nChainTrust :=
      ((match prev with
        | none => 0
        | some indexPrev => indexPrev.nChainTrust) + index.getBlockTrust) % 2 ^ 256
    nFlags := index.nFlags ||| if block.getHash env % 2 = 1 then blockStakeEntropy else 0
    hashProof := hashProof }

/-- The index object `AddToBlockIndex` puts into the map. -/
def finishIndex (env : Env) (node : Node) (index : CBlockIndex) (modifier : Nat × Bool) :
    CBlockIndex :=
  let index := { index with
    nStakeModifier := modifier.1
    nFlags := index.nFlags ||| if modifier.2 then blockStakeModifier else 0 }
  { index with nStakeModifierChecksum := node.getStakeModifierChecksum env index }

/-- The part of `AddToBlockIndex` that puts the block into the index and writes its record. -/
def insertIndex (env : Env) (block : CBlock) (nFile nBlockPos : Nat) (hashProof : Uint256) :
    NodeM CBlockIndex := do
  let hash := block.getHash env
  let node ← getNode
  require (!node.mapBlockIndex.contains hash) (.reject 0 "AddToBlockIndex() : %s already exists")
  let index := block.newIndex env node nFile nBlockPos hashProof
  match node.computeNextStakeModifier env index.pprev with
  | none => throw (.reject 0 "AddToBlockIndex() : ComputeNextStakeModifier() failed")
  | some modifier => do
    let index := finishIndex env node index modifier
    modifyNode fun node =>
      { node.setIndex hash index with
        setStakeSeen :=
          if index.isProofOfStake then insert (index.prevoutStake, index.nStakeTime) node.setStakeSeen
          else node.setStakeSeen }
    emitCall fun _ sys => .indexed sys hash
    txnBegin
    let _ ← writeBlockIndex env (CDiskBlockIndex.ofIndex index)
    let ok ← txnCommit
    require ok .returnFalse
    pure index

/-- `AddToBlockIndex`. -/
def addToBlockIndex (env : Env) (block : CBlock) (nFile nBlockPos : Nat) (hashProof : Uint256) :
    NodeM Unit := do
  let index ← block.insertIndex env nFile nBlockPos hashProof
  let node ← getNode
  if node.nBestChainTrust < index.nChainTrust then block.setBestChain env (block.getHash env)
  else pure ()

/-! ## AcceptBlock -/

/-- The rule that the coin base starts with the serialized height. -/
def startsWithHeight (block : CBlock) (nHeight : Nat) : Bool :=
  match block.vtx with
  | coinbase :: _ =>
    match coinbase.vin with
    | txin :: _ => (CScript.pushHeight nHeight).isPrefixOf txin.scriptSig
    | [] => false
  | [] => false

/-- The checks of `AcceptBlock` against the previous block, up to the hardened checkpoints. -/
def checkContext (env : Env) (node : Node) (indexPrev : CBlockIndex) (block : CBlock) :
    Except Exit Unit := do
  let nHeight := indexPrev.nHeight + 1
  require (!(block.isProofOfWork && decide (lastPowBlock < nHeight)))
    (.reject 100 "AcceptBlock() : reject proof-of-work at height %d")
  require (!(block.isProofOfStake && decide (nHeight < modifierIntervalSwitch)))
    (.reject 100 "AcceptBlock() : reject proof-of-stake at height %d")
  require (decide (block.nBits = getNextTargetRequired env node indexPrev block.isProofOfStake))
    (.reject 100 "AcceptBlock() : incorrect %s")
  require (decide (getPastTimeLimit node indexPrev < block.getBlockTime) &&
      decide (indexPrev.getBlockTime ≤ futureDrift block.getBlockTime))
    (.reject 0 "AcceptBlock() : block's timestamp is too early")
  require (block.vtx.all fun tx => tx.isFinal nHeight block.getBlockTime)
    (.reject 10 "AcceptBlock() : contains a non-final transaction")
  require (checkHardened env nHeight (block.getHash env))
    (.reject 100 "AcceptBlock() : rejected by hardened checkpoint lock-in at %d")

/-- The proof of a block: the kernel of a proof-of-stake block, the hash of a proof-of-work
block. -/
def blockProof (env : Env) (block : CBlock) : NodeM Uint256 :=
  match block.isProofOfStake, block.vtx with
  | true, _ :: coinstake :: _ =>
    (checkProofOfStake env coinstake block.nBits).adaptExcept
      fun e => (e.because "").uncharged
  | _, _ => pure (block.getHash env)

/-- The end of `AcceptBlock`: store the block and add it to the index. -/
def storeBlock (env : Env) (block : CBlock) (hashProof : Uint256) : NodeM Unit := do
  let sys ← getSys
  require sys.diskSpace (.reject 0 "AcceptBlock() : out of disk space")
  let (nFile, nBlockPos) ← (writeToDisk block).adaptExcept
    (Exit.because "AcceptBlock() : WriteToDisk failed")
  (block.addToBlockIndex env nFile nBlockPos hashProof).adaptExcept
    (Exit.because "AcceptBlock() : AddToBlockIndex failed")

/-- `AcceptBlock`. -/
def acceptBlock (env : Env) (block : CBlock) : NodeM Unit := do
  require (decide (block.nVersion ≤ currentVersion))
    (.reject 100 "AcceptBlock() : reject unknown block version %d")
  let hash := block.getHash env
  let node ← getNode
  require (!node.mapBlockIndex.contains hash)
    (.reject 0 "AcceptBlock() : block already in mapBlockIndex")
  match node.index? block.hashPrevBlock with
  | none => throw (.reject 10 "AcceptBlock() : prev block not found")
  | some indexPrev => do
    fromExcept (block.checkContext env node indexPrev)
    let hashProof ← block.blockProof env
    let cpSatisfies ← checkSync env hash block.hashPrevBlock
    require (!(env.checkpointsMode == .strict && !cpSatisfies))
      (.reject 0 "AcceptBlock() : rejected by synchronized checkpoint")
    require (block.startsWithHeight (indexPrev.nHeight + 1))
      (.reject 100 "AcceptBlock() : block height mismatch in coinbase")
    block.storeBlock env hashProof
    let node ← getNode
    (if node.hashBestChain = hash then emit (.pushInventory hash) else pure ())
    match ← attempt (acceptPendingSyncCheckpoint env) with
    | .error (.abort what) => throw (.abort what)
    | _ => pure ()

end CBlock

/-! ## ProcessBlock -/

/-- The check of `ProcessBlock` against spam: a block off the best chain needs the proof that
could be required that long after the last sync-checkpoint. -/
def checkEnoughProof (env : Env) (node : Node) (block : CBlock) : Bool :=
  match node.index? node.hashSyncCheckpoint with
  | none => true
  | some indexCheckpoint =>
    if block.hashPrevBlock ≠ node.hashBestChain ∧
        ¬ wantedByPendingSyncCheckpoint node (block.getHash env) then
      let deltaTime := block.getBlockTime - indexCheckpoint.getBlockTime
      let limit := if block.isProofOfStake then bnProofOfStakeLimit else env.bnProofOfWorkLimit
      let indexLast :=
        getLastBlockIndex node block.isProofOfStake node.mapBlockIndex.size indexCheckpoint
      let bnRequired := CBigNum.setCompact (computeMaxBits limit indexLast.nBits deltaTime)
      decide (CBigNum.setCompact block.nBits ≤ bnRequired)
    else true

/-- Duplicate stake is allowed only when there is an orphan child block, or for a block a
pending checkpoint waits for. -/
def duplicateStake (env : Env) (node : Node) (seen : Finset (COutPoint × Nat)) (block : CBlock) :
    Bool :=
  let hash := block.getHash env
  block.isProofOfStake && decide (block.getProofOfStake ∈ seen) &&
    !(node.mapOrphanBlocksByPrev.any fun orphan => orphan.1 == hash) &&
    !wantedByPendingSyncCheckpoint node hash

/-- The branch of `ProcessBlock` for a block whose previous block is missing. -/
def holdOrphan (env : Env) (pfrom : Bool) (block : CBlock) : NodeM Unit := do
  let hash := block.getHash env
  let node ← getNode
  require (!duplicateStake env node node.setStakeSeenOrphan block)
    (.reject 0 "ProcessBlock() : duplicate proof-of-stake (%s, %d) for orphan block %s")
  modifyNode fun node =>
    { node with
      setStakeSeenOrphan :=
        if block.isProofOfStake then insert block.getProofOfStake node.setStakeSeenOrphan
        else node.setStakeSeenOrphan
      mapOrphanBlocks := node.mapOrphanBlocks.insert hash block
      mapOrphanBlocksByPrev := node.mapOrphanBlocksByPrev ++ [(block.hashPrevBlock, block)] }
  let node ← getNode
  let sys ← getSys
  if pfrom then do
    let root := orphanRoot node.mapOrphanBlocks node.mapOrphanBlocks.size block
    emit (.pushGetBlocks (root.getHash env))
    (if isInitialBlockDownload env node sys then pure ()
      else emit (.askFor (wantedByOrphan node block)))
  else pure ()

/-- One orphan of the inner loop of `ProcessBlock`: it is accepted or not, and leaves the
holding area either way. -/
def processOrphan (env : Env) (vWorkQueue : List Uint256) (orphan : Uint256 × CBlock) :
    NodeM (List Uint256) := do
  let block := orphan.2
  let accepted ← attempt (block.acceptBlock env)
  modifyNode fun node =>
    { node with
      mapOrphanBlocks := node.mapOrphanBlocks.erase (block.getHash env)
      setStakeSeenOrphan := node.setStakeSeenOrphan.erase block.getProofOfStake }
  match accepted with
  | .ok () => pure (vWorkQueue ++ [block.getHash env])
  | .error (.reject _ _) => pure vWorkQueue
  | .error e => throw e

/-- The loop of `ProcessBlock` over the orphans that depend on the blocks of the work queue.
Every block of the queue but the first was an orphan, so `fuel` is their number and one. -/
def processOrphans (env : Env) : (fuel : Nat) → (vWorkQueue : List Uint256) → NodeM Unit
  | 0, _ => pure ()
  | _ + 1, [] => pure ()
  | fuel + 1, hashPrev :: vWorkQueue => do
    let node ← getNode
    let orphans := node.mapOrphanBlocksByPrev.filter fun orphan => orphan.1 == hashPrev
    let vWorkQueue ← orphans.foldlM (processOrphan env) vWorkQueue
    modifyNode fun node =>
      { node with
        mapOrphanBlocksByPrev :=
          node.mapOrphanBlocksByPrev.filter fun orphan => orphan.1 != hashPrev }
    processOrphans env fuel vWorkQueue

/-- What `ProcessBlock` checks before it looks for the previous block. -/
def checkNewBlock (env : Env) (pfrom : Bool) (block : CBlock) : NodeM Unit := do
  let hash := block.getHash env
  let node ← getNode
  let sys ← getSys
  require (!node.mapBlockIndex.contains hash) (.reject 0 "ProcessBlock() : already have block %d %s")
  require (!node.mapOrphanBlocks.contains hash)
    (.reject 0 "ProcessBlock() : already have block (orphan) %s")
  require (!duplicateStake env node node.setStakeSeen block)
    (.reject 0 "ProcessBlock() : duplicate proof-of-stake (%s, %d) for block %s")
  fromExcept ((block.checkBlock env sys.adjustedTime true true true).mapError
    (Exit.because "ProcessBlock() : CheckBlock FAILED"))
  if checkEnoughProof env node block then pure ()
  else do
    (if pfrom then emit (.misbehaving 100) else pure ())
    throw (.reject 0 "ProcessBlock() : block with too little %s")

/-- `ProcessBlock`; `pfrom` tells whether the block came from a peer. -/
def processBlock (env : Env) (pfrom : Bool) (block : CBlock) : NodeM Unit := do
  checkNewBlock env pfrom block
  let node ← getNode
  let sys ← getSys
  (if isInitialBlockDownload env node sys then pure () else askForPendingSyncCheckpoint pfrom)
  if !node.mapBlockIndex.contains block.hashPrevBlock then holdOrphan env pfrom block
  else do
    (block.acceptBlock env).adaptExcept (Exit.because "ProcessBlock() : AcceptBlock FAILED")
    let node ← getNode
    processOrphans env (node.mapOrphanBlocksByPrev.length + 1) [block.getHash env]
    if pfrom && env.hasMasterKey then do
      let hashCheckpoint ← autoSelectSyncCheckpoint env
      match ← attempt (sendSyncCheckpoint env hashCheckpoint) with
      | .error (.abort what) => throw (.abort what)
      | _ => pure ()
    else pure ()

/-! ## The start of a node -/

/-- The coin base of the first block. -/
def genesisTx : CTransaction where
  nVersion := CTransaction.currentVersion
  nTime := 1464466500
  vin := [⟨.null, 0x00 :: 0x01 :: 0x2a :: 25 :: "NoLimitCoin November-2016".toUTF8.toList, uint32Max⟩]
  vout := [.empty]
  nLockTime := 0

/-- The first block, without its merkle root. -/
def genesisHeader (env : Env) : CBlock where
  nVersion := 1
  hashPrevBlock := 0
  hashMerkleRoot := 0
  nTime := 1464466500
  nBits := CBigNum.getCompact env.bnProofOfWorkLimit
  nNonce := if env.fTestNet then 21863 else 15360013
  vtx := [genesisTx]
  vchBlockSig := []

def genesisBlock (env : Env) : CBlock :=
  { genesisHeader env with hashMerkleRoot := (genesisHeader env).buildMerkleTree env }

def genesisMerkleRoot : Uint256 :=
  0xd61776591a374a9b20a237d725011083d7724503d4bead19b79670ad7c2fc7c6

/-- `CSyncCheckpoint::strMasterPubKey`. -/
def strMasterPubKey : String :=
  "04151bddb910b42163ead2fd4ad58ef612cd7e82490caf8b62156832cb8b884253531dc77ff4313c7c748288e113f5a1d81579bb7619667f0deb2d59a6e58a9863"

/-- The part of `LoadBlockIndex` that makes the first block. -/
def initGenesis (env : Env) : NodeM Unit := do
  let block := genesisBlock env
  let sys ← getSys
  require (block.hashMerkleRoot == genesisMerkleRoot) (.abort "block.hashMerkleRoot")
  require (block.getHash env == env.genesisHash) (.abort "block.GetHash()")
  fromExcept ((block.checkBlock env sys.adjustedTime true true true).mapError
    fun _ => .abort "block.CheckBlock()")
  let (nFile, nBlockPos) ← (writeToDisk block).adaptExcept
    (Exit.because "LoadBlockIndex() : writing genesis block to disk failed")
  (block.addToBlockIndex env nFile nBlockPos hashGenesisBlock).adaptExcept
    (Exit.because "LoadBlockIndex() : genesis block not accepted")
  (writeSyncCheckpoint env.genesisHash).adaptExcept
    (Exit.because "LoadBlockIndex() : failed to init sync checkpoint")

/-- `LoadBlockIndex` on an empty data directory: the first block, then the checkpoint master
key, which is new to the database. -/
def loadBlockIndex (env : Env) : NodeM Unit := do
  initGenesis env
  txnBegin
  let written ← change (.put .strCheckpointPubKey (.pubKey strMasterPubKey))
  require written (.reject 0 "LoadBlockIndex() : failed to write new checkpoint master key to db")
  let ok ← txnCommit
  require ok (.reject 0 "LoadBlockIndex() : failed to commit new checkpoint master key to db")
  if env.fTestNet then pure ()
  else
    (resetSyncCheckpoint env).adaptExcept
      (Exit.because "LoadBlockIndex() : failed to reset sync-checkpoint")

/-! ## Runs -/

/-- The calls a node serves. -/
inductive Call where
  | processBlock (pfrom : Bool) (block : CBlock)
  | processSyncCheckpoint (pfrom signed : Bool) (hashCheckpoint : Uint256)
  | acceptToMemoryPool (tx : CTransaction)
deriving Repr, DecidableEq

/-- Serve one call. -/
def Call.exec (env : Env) : Call → NodeM Unit
  | processBlock pfrom block => NoLimitCoin.processBlock env pfrom block
  | processSyncCheckpoint pfrom signed hash => Checkpoints.processSyncCheckpoint env pfrom signed hash
  | acceptToMemoryPool tx => tx.acceptToMemoryPool env true

/-- Serve a call with what the outside answers during it: `none` when it does not return, by an
exception or undefined behaviour. -/
def World.serve (env : Env) (w : World) (sys : Sys) (call : Call) : Option World :=
  match call.exec env { w with sys := sys } with
  | .ok () w' => some w'
  | .error (.reject _ _) w' => some w'
  | .error (.abort _) _ => none

/-- A node that has just been started on an empty data directory. -/
def Starts (env : Env) (w : World) : Prop :=
  ∃ sys, loadBlockIndex env ⟨.initial, sys, []⟩ = .ok () w

/-- The states reached from a start by calls that return, whether with success or not. -/
inductive Reaches (env : Env) : World → Prop where
  | start {w : World} (h : Starts env w) : Reaches env w
  | serve {w w' : World} {sys : Sys} {call : Call} (h : Reaches env w)
      (hcall : w.serve env sys call = some w') : Reaches env w'

/-- Serve calls one after another. -/
def World.serveAll (env : Env) (w : World) : List (Sys × Call) → Option World
  | [] => some w
  | (sys, call) :: calls => (w.serve env sys call).bind fun w' => w'.serveAll env calls

theorem Reaches.serveAll {env : Env} {w w' : World} {calls : List (Sys × Call)}
    (h : Reaches env w) (hcalls : w.serveAll env calls = some w') : Reaches env w' := by
  induction calls generalizing w with
  | nil =>
    obtain rfl := Option.some.inj hcalls
    exact h
  | cons call calls ih =>
    obtain ⟨w₁, hcall, hcalls⟩ := Option.bind_eq_some_iff.mp hcalls
    exact ih (.serve h hcall) hcalls

/-- Start a node, let it serve calls and test the state it is in then. -/
def runsTo (env : Env) (sys : Sys) (calls : List (Sys × Call)) (p : World → Bool) : Bool :=
  succeeds (fun _ w => ((w.serveAll env calls).map p).getD false)
    (loadBlockIndex env ⟨.initial, sys, []⟩)

theorem runsTo_reaches {env : Env} {sys : Sys} {calls : List (Sys × Call)} {p : World → Bool}
    (h : runsTo env sys calls p = true) : ∃ w, Reaches env w ∧ p w = true := by
  obtain ⟨_, w₀, hstart, hcalls⟩ := succeeds_iff.mp h
  cases hserve : w₀.serveAll env calls with
  | none =>
    rw [hserve] at hcalls
    exact absurd hcalls (by simp)
  | some w =>
    rw [hserve] at hcalls
    exact ⟨w, (Reaches.start ⟨sys, hstart⟩).serveAll hserve, hcalls⟩

/-- A proof-of-work block with nothing but a coin base. -/
def coinBaseBlock (hashPrevBlock hashMerkleRoot : Uint256) (nTime nNonce nHeight : Nat)
    (vout : List CTxOut) : CBlock :=
  ⟨1, hashPrevBlock, hashMerkleRoot, nTime, 0x1e00ffff, nNonce,
    [⟨1, nTime, [⟨.null, CScript.pushHeight nHeight ++ [0], uint32Max⟩], vout, 0⟩], []⟩

end NoLimitCoin
