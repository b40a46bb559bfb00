import NoLimitCoin.Kernel

/-!
# Synchronized checkpoints

`checkpoints.cpp`: hardened checkpoints, and the checkpoint that is broadcast by the holder of
the master key.  A checkpoint off the main chain makes the node switch to its chain.
-/

namespace NoLimitCoin

open Prog NodeM

namespace Checkpoints

def nCheckpointSpan : Nat := 10

/-- `CheckHardened`. -/
def checkHardened (env : Env) (nHeight : Nat) (hash : Uint256) : Bool :=
  match env.mapCheckpoints.find? fun checkpoint => checkpoint.1 == nHeight with
  | none => true
  | some checkpoint => hash == checkpoint.2

/-- The orphan block an orphan chain goes back to. -/
def orphanRoot (mapOrphanBlocks : Map Uint256 CBlock) : (fuel : Nat) → CBlock → CBlock
  | 0, block => block
  | fuel + 1, block =>
    match mapOrphanBlocks[block.hashPrevBlock]? with
    | none => block
    | some blockPrev => orphanRoot mapOrphanBlocks fuel blockPrev

/-- `WantedByOrphan`: the block the root of an orphan chain waits for. -/
def wantedByOrphan (node : Node) (block : CBlock) : Uint256 :=
  (orphanRoot node.mapOrphanBlocks node.mapOrphanBlocks.size block).hashPrevBlock

/-- `WantedByPendingSyncCheckpoint`. -/
def wantedByPendingSyncCheckpoint (node : Node) (hashBlock : Uint256) : Bool :=
  if node.hashPendingCheckpoint = 0 then false
  else if hashBlock = node.hashPendingCheckpoint then true
  else
    match node.mapOrphanBlocks[node.hashPendingCheckpoint]? with
    | none => false
    | some block => hashBlock == wantedByOrphan node block

/-- Trace back from `pindex` to a block that is not above `nHeight`; `none` when the index ends
before. -/
def traceBack (node : Node) (nHeight : Nat) : (fuel : Nat) → (pindex : Uint256) →
    Option (Uint256 × CBlockIndex)
  | 0, _ => none
  | fuel + 1, pindex =>
    match node.index? pindex with
    | none => none
    | some index =>
      if index.nHeight ≤ nHeight then some (pindex, index)
      else index.pprev.bind (traceBack node nHeight fuel)

/-- `CheckSync`: only a descendant of the sync-checkpoint passes. -/
def checkSync (env : Env) (hashBlock : Uint256) (pindexPrev : Uint256) : NodeM Bool :=
  if env.fTestNet then pure true
  else do
    let node ← getNode
    let indexPrev ← deref pindexPrev
    let indexSync ← deref node.hashSyncCheckpoint
    let nHeight := indexPrev.nHeight + 1
    if indexSync.nHeight < nHeight then
      match traceBack node indexSync.nHeight (node.mapBlockIndex.size + 1) pindexPrev with
      | none => pure false
      | some (pindex, index) =>
        pure (!(decide (index.nHeight < indexSync.nHeight) || pindex != node.hashSyncCheckpoint))
    else if nHeight = indexSync.nHeight then pure (hashBlock == node.hashSyncCheckpoint)
    else pure (node.mapBlockIndex.contains hashBlock)

/-- The end of `ValidateSyncCheckpoint` for a checkpoint that conflicts. -/
def setInvalid (hashCheckpoint : Uint256) : NodeM Unit :=
  modifyNode fun node => { node with hashInvalidCheckpoint := hashCheckpoint }

/-- `ValidateSyncCheckpoint`: only a descendant of the current sync-checkpoint is allowed. -/
def validateSyncCheckpoint (hashCheckpoint : Uint256) : NodeM Bool := do
  let node ← getNode
  match node.index? node.hashSyncCheckpoint, node.index? hashCheckpoint with
  | some indexSync, some indexRecv =>
    let fuel := node.mapBlockIndex.size + 1
    if indexRecv.nHeight ≤ indexSync.nHeight then
      match traceBack node indexRecv.nHeight fuel node.hashSyncCheckpoint with
      | none => pure false
      | some (pindex, _) => do
        (if pindex ≠ hashCheckpoint then setInvalid hashCheckpoint else pure ())
        pure false
    else
      match traceBack node indexSync.nHeight fuel hashCheckpoint with
      | none => pure false
      | some (pindex, _) =>
        if pindex ≠ node.hashSyncCheckpoint then do
          setInvalid hashCheckpoint
          pure false
        else pure true
  | _, _ => pure false

/-- `WriteSyncCheckpoint`. -/
def writeSyncCheckpoint (hashCheckpoint : Uint256) : NodeM Unit := do
  txnBegin
  let written ← change (.put .hashSyncCheckpoint (.hash hashCheckpoint))
  if !written then do
    txnAbort
    throw (.reject 0 "WriteSyncCheckpoint(): failed to write to db sync checkpoint %s")
  else do
    let ok ← txnCommit
    require ok (.reject 0 "WriteSyncCheckpoint(): failed to commit to db sync checkpoint %s")
    modifyNode fun node => { node with hashSyncCheckpoint := hashCheckpoint }

/-- The switch of the best chain to a checkpoint that is not in the main chain. -/
def switchToCheckpoint (env : Env) (hashCheckpoint : Uint256) (fSetInvalid : Bool)
    (eRead eSwitch : Exit) : NodeM Unit := do
  let node ← getNode
  let index ← deref hashCheckpoint
  if node.isInMainChain hashCheckpoint index then pure ()
  else
    match ← readBlock env hashCheckpoint with
    | none => throw eRead
    | some block => do
      match ← attempt (block.setBestChain env hashCheckpoint) with
      | .error (.reject _ _) => do
        (if fSetInvalid then setInvalid hashCheckpoint else pure ())
        throw eSwitch
      | .error e => throw e
      | .ok () => pure ()

/-- `AcceptPendingSyncCheckpoint`. -/
def acceptPendingSyncCheckpoint (env : Env) : NodeM Unit := do
  let node ← getNode
  let hashPending := node.hashPendingCheckpoint
  if hashPending ≠ 0 ∧ node.mapBlockIndex.contains hashPending then do
    let valid ← validateSyncCheckpoint hashPending
    if !valid then do
      modifyNode fun node => { node with hashPendingCheckpoint := 0 }
      throw .returnFalse
    else do
      switchToCheckpoint env hashPending true
        (.reject 0 "AcceptPendingSyncCheckpoint: ReadFromDisk failed for sync checkpoint %s")
        (.reject 0 "AcceptPendingSyncCheckpoint: SetBestChain failed for sync checkpoint %s")
      (writeSyncCheckpoint hashPending).adaptExcept
        (Exit.because "AcceptPendingSyncCheckpoint(): failed to write sync checkpoint %s")
      modifyNode fun node => { node with hashPendingCheckpoint := 0 }
  else throw .returnFalse

/-- The loop of `AutoSelectSyncCheckpoint`. -/
def autoSelectLoop (env : Env) (node : Node) (indexBest : CBlockIndex) : (fuel : Nat) →
    (pindex : Uint256) → Uint256
  | 0, pindex => pindex
  | fuel + 1, pindex =>
    match node.index? pindex with
    | none => pindex
    | some index =>
      match index.pprev with
      | none => pindex
      | some pprev =>
        if indexBest.getBlockTime < index.getBlockTime + nCheckpointSpan * env.nTargetSpacing ∨
            indexBest.nHeight < index.nHeight + nCheckpointSpan then
          autoSelectLoop env node indexBest fuel pprev
        else pindex

/-- `AutoSelectSyncCheckpoint`. -/
def autoSelectSyncCheckpoint (env : Env) : NodeM Uint256 := do
  let node ← getNode
  let pindexBest ← nonNull node.pindexBest
  let indexBest ← deref pindexBest
  pure (autoSelectLoop env node indexBest node.mapBlockIndex.size pindexBest)

/-- `CSyncCheckpoint::ProcessSyncCheckpoint`.  `signed` is the outcome of `CheckSignature`,
`pfrom` tells whether the message came from a peer. -/
def processSyncCheckpoint (env : Env) (pfrom signed : Bool) (hashCheckpoint : Uint256) :
    NodeM Unit := do
  require signed .returnFalse
  let node ← getNode
  if !node.mapBlockIndex.contains hashCheckpoint then do
    modifyNode fun node => { node with hashPendingCheckpoint := hashCheckpoint }
    (if pfrom then do
      emit (.pushGetBlocks hashCheckpoint)
      emit (.askFor (match node.mapOrphanBlocks[hashCheckpoint]? with
        | some block => wantedByOrphan node block
        | none => hashCheckpoint))
    else pure ())
    throw .returnFalse
  else do
    let valid ← validateSyncCheckpoint hashCheckpoint
    require valid .returnFalse
    switchToCheckpoint env hashCheckpoint true
      (.reject 0 "ProcessSyncCheckpoint: ReadFromDisk failed for sync checkpoint %s")
      (.reject 0 "ProcessSyncCheckpoint: SetBestChain failed for sync checkpoint %s")
    (writeSyncCheckpoint hashCheckpoint).adaptExcept
      (Exit.because "ProcessSyncCheckpoint(): failed to write sync checkpoint %s")
    modifyNode fun node => { node with hashPendingCheckpoint := 0 }

/-- `SendSyncCheckpoint` by the holder of the master key, whose signature is good.  The relay of
checkpoint messages to peers is left out, here and above. -/
def sendSyncCheckpoint (env : Env) (hashCheckpoint : Uint256) : NodeM Unit := do
  processSyncCheckpoint env false true hashCheckpoint

/-- `AskForPendingSyncCheckpoint`. -/
def askForPendingSyncCheckpoint (pfrom : Bool) : NodeM Unit := do
  let node ← getNode
  if pfrom ∧ node.hashPendingCheckpoint ≠ 0 ∧
      ¬ node.mapBlockIndex.contains node.hashPendingCheckpoint ∧
      ¬ node.mapOrphanBlocks.contains node.hashPendingCheckpoint then
    emit (.askFor node.hashPendingCheckpoint)
  else pure ()

/-- The last loop of `ResetSyncCheckpoint`: the last checkpoint in the main chain, from the
highest down. -/
def resetTo : List (Nat × Uint256) → NodeM Unit
  | [] => throw .returnFalse
  | (_, hash) :: rest => do
    let node ← getNode
    match node.index? hash with
    | none => resetTo rest
    | some index =>
      if node.isInMainChain hash index then
        (writeSyncCheckpoint hash).adaptExcept
          (Exit.because "ResetSyncCheckpoint: failed to write sync checkpoint %s")
      else resetTo rest

/-- `ResetSyncCheckpoint`, which looks at the checkpoints of the main network only. -/
def resetSyncCheckpoint (env : Env) : NodeM Unit := do
  let node ← getNode
  let hash := (env.mapCheckpoints.getLast?.map Prod.snd).getD 0
  (match node.index? hash with
  | none => modifyNode fun node => { node with hashPendingCheckpoint := hash }
  | some _ =>
    switchToCheckpoint env hash false
      (.reject 0 "ResetSyncCheckpoint: ReadFromDisk failed for hardened checkpoint %s")
      (.reject 0 "ResetSyncCheckpoint: SetBestChain failed for hardened checkpoint %s"))
  resetTo env.mapCheckpoints.reverse

end Checkpoints

end NoLimitCoin
