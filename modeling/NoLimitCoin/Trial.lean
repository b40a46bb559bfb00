import NoLimitCoin.Files
import NoLimitCoin.Mint
import NoLimitCoin.Replay

/-!
# Connecting a block to try it

`ConnectBlock` with `fJustCheck` checks a block that need not be on disk: its transactions all
get the position `(nFile, nBlockPos, 1)`, the rewards are checked, and the function returns before
it writes the transaction index.  The record of the block index object is written before that.

Results:
1. `checkConnect_again`: what a trial accepts, the same checks accept for the block on disk.
2. `connectBlock_trial_iff`: when a trial has no effect.
-/

namespace NoLimitCoin

open Prog NodeM

/-- The position that a trial gives to every transaction of the block. -/
def CBlockIndex.trialPos (index : CBlockIndex) : CDiskTxPos := ⟨index.nFile, index.nBlockPos, 1⟩

/-- The index object with the mint and the money supply that `ConnectBlock` has worked out. -/
def CBlockIndex.withMint (index : CBlockIndex) (s : ConnectState) (nMoneySupplyPrev : Int) :
    CBlockIndex :=
  { index with
    nMint := s.nValueOut - s.nValueIn + s.nFees
    nMoneySupply := nMoneySupplyPrev + s.nValueOut - s.nValueIn }

namespace CBlock

/-- The transactions of a block, with the positions they have on disk. -/
def placed (block : CBlock) (nBlockPos : Nat) : List (Nat × CTransaction) :=
  (txPositions (block.firstTxPos nBlockPos) block.vtx).zip block.vtx

/-- The files hold the block at the position of its index object, and at the positions of the
transaction index what they held before. -/
structure WrittenAt (block : CBlock) (index : CBlockIndex) (node : Node) (files : BlockFiles) :
    Prop where
  holds : ∀ p ∈ block.placed index.nBlockPos,
    files.txAt[(⟨index.nFile, p.1⟩ : FilePos)]? = some p.2
  txs : ∀ hash txindex, node.txdb.readTxIndex hash = some txindex →
    files.txAt[(⟨txindex.pos.nFile, txindex.pos.nTxPos⟩ : FilePos)]? =
      node.files.txAt[(⟨txindex.pos.nFile, txindex.pos.nTxPos⟩ : FilePos)]?
  blocks : ∀ hash txindex, node.txdb.readTxIndex hash = some txindex →
    files.blockAt[(⟨txindex.pos.nFile, txindex.pos.nBlockPos⟩ : FilePos)]? =
      node.files.blockAt[(⟨txindex.pos.nFile, txindex.pos.nBlockPos⟩ : FilePos)]?

/-- What the position of a trial leads to, for a transaction of the block, is the transaction or
something without outputs. -/
def TrialReads (env : Env) (block : CBlock) (index : CBlockIndex) (node : Node) : Prop :=
  ∀ tx ∈ block.vtx, ∀ tx', node.prevTxAt (tx.getHash env) index.trialPos = some tx' →
    tx' = tx ∨ tx'.vout = []

end CBlock

/-- The world with other block files. -/
def World.withFiles (w : World) (files : BlockFiles) : World :=
  { w with node := { w.node with files := files } }

/-- The world after a change of the database that goes through. -/
def World.written (w : World) (op : BatchOp DbKey DbVal) : World :=
  { w with node := { w.node with txdb := (w.node.txdb.change op true).2 } }

/-! ## The checks, a second time -/

namespace CBlock

section again

variable {env : Env} {block : CBlock} {pindex : Uint256} {index : CBlockIndex} {w : World}
  {files : BlockFiles}

/-- The trial, and the run on the block on disk. -/
def trialRuns (pindex : Uint256) (w : World) (files : BlockFiles) : Runs :=
  ⟨w.node, some pindex, (w.withFiles files).node, some pindex⟩

theorem immatureLoop_congr (node : Node) (files : BlockFiles) {pos pos' : CDiskTxPos}
    (hfile : pos'.nFile = pos.nFile) (hblock : pos'.nBlockPos = pos.nBlockPos) (nHeight : Int)
    (fuel : Nat) (p : Option Uint256) :
    CTransaction.immatureLoop { node with files := files } nHeight pos' fuel p =
      CTransaction.immatureLoop node nHeight pos fuel p := by
  induction fuel generalizing p with
  | zero => rfl
  | succ fuel ih =>
    unfold CTransaction.immatureLoop
    rw [hfile, hblock]
    simp only [ih]
    rfl

theorem spendsImmature_congr (node : Node) (files : BlockFiles) {pos pos' : CDiskTxPos}
    (hfile : pos'.nFile = pos.nFile) (hblock : pos'.nBlockPos = pos.nBlockPos)
    (p : Option Uint256) (txPrev : CTransaction) :
    CTransaction.spendsImmature { node with files := files } p txPrev pos' =
      CTransaction.spendsImmature node p txPrev pos := by
  unfold CTransaction.spendsImmature
  simp only [immatureLoop_congr node files hfile hblock]
  rfl

/-- An entry of the database stands for itself. -/
theorem standsFor_database (hwritten : block.WrittenAt index w.node files) {hash : Uint256}
    {txindex : CTxIndex} (hread : w.node.txdb.readTxIndex hash = some txindex) :
    (trialRuns pindex w files).StandsFor hash txindex txindex := by
  refine ⟨rfl, fun tx htx _ => ?_, fun tx _ hmature => ?_⟩
  · have htx : w.node.prevTxAt hash txindex.pos = some tx := htx
    show (w.withFiles files).node.prevTxAt hash txindex.pos = some tx
    unfold Node.prevTxAt at htx ⊢
    by_cases hpool : txindex.pos = .memPool
    · rw [if_pos hpool] at htx ⊢
      exact htx
    · rw [if_neg hpool] at htx ⊢
      rw [← hwritten.txs hash txindex hread] at htx
      exact htx
  · exact (spendsImmature_congr w.node files rfl rfl _ tx).trans hmature

/-- The entry that a trial makes for a transaction of the block. -/
theorem standsFor_new (hreads : block.TrialReads env index w.node)
    (hwritten : block.WrittenAt index w.node files) {tx : CTransaction} {nTxPos : Nat}
    (hplaced : (nTxPos, tx) ∈ block.placed index.nBlockPos) :
    (trialRuns pindex w files).StandsFor (tx.getHash env) (.new index.trialPos tx.vout.length)
      (.new ⟨index.nFile, index.nBlockPos, nTxPos⟩ tx.vout.length) := by
  refine ⟨rfl, fun tx' htx' houtputs => ?_, fun tx' _ hmature => ?_⟩
  · have htx' : w.node.prevTxAt (tx.getHash env) index.trialPos = some tx' := htx'
    have hsame := (hreads tx (List.of_mem_zip hplaced).2 tx' htx').resolve_right houtputs
    have hvalid : BlockFiles.validFile index.nFile = true := by
      rw [Node.prevTxAt] at htx'
      by_cases hpool : index.trialPos = .memPool
      · rw [show index.nFile = 1 from congrArg CDiskTxPos.nFile hpool]
        rfl
      · rw [if_neg hpool] at htx'
        cases hcase : BlockFiles.validFile index.nFile with
        | true => rfl
        | false =>
          rw [show BlockFiles.validFile index.trialPos.nFile = false from hcase] at htx'
          exact absurd htx' (by simp)
    have hpos : (⟨index.nFile, index.nBlockPos, nTxPos⟩ : CDiskTxPos) ≠ .memPool := by
      intro hpool
      have hlow : block.firstTxPos index.nBlockPos ≤ nTxPos := (txPositions_bounds hplaced).1
      have hone : nTxPos = 1 := congrArg CDiskTxPos.nTxPos hpool
      rw [firstTxPos, headerSize] at hlow
      omega
    show (w.withFiles files).node.prevTxAt (tx.getHash env) ⟨index.nFile, index.nBlockPos, nTxPos⟩ =
      some tx'
    rw [Node.prevTxAt, if_neg hpos, if_pos hvalid, hsame]
    exact hwritten.holds _ hplaced
  · have hcongr := @spendsImmature_congr w.node files index.trialPos
      ⟨index.nFile, index.nBlockPos, nTxPos⟩ rfl rfl (some pindex) tx'
    exact hcongr.trans hmature

/-- The totals of the two loops are the same. -/
def again (s : ConnectState) (nTxPos : Nat) (queue : Map Uint256 CTxIndex) : ConnectState :=
  { s with nTxPos := nTxPos, mapQueuedChanges := queue }

theorem tally_again {nBestHeight : Int} {tx : CTransaction} {inputs inputs' : MapPrevTx}
    {s s₁ : ConnectState} (hinputs : Map.Rel (trialRuns pindex w files).Alike inputs inputs')
    (nTxPos : Nat) (queue : Map Uint256 CTxIndex)
    (h : tally nBestHeight tx inputs s = .ok s₁) :
    tally nBestHeight tx inputs' (again s nTxPos queue) = .ok (again s₁ nTxPos queue) := by
  unfold tally at h ⊢
  rw [CTransaction.getValueIn_again hinputs, CTransaction.getValueIn_again hinputs]
  obtain ⟨vIn, hin, h⟩ := except_bind_eq_ok.mp h
  obtain ⟨vOut, hout, h⟩ := except_bind_eq_ok.mp h
  obtain ⟨sumIn, hsumIn, h⟩ := except_bind_eq_ok.mp h
  obtain ⟨sumOut, hsumOut, h⟩ := except_bind_eq_ok.mp h
  refine except_bind_eq_ok.mpr ⟨vIn, hin, except_bind_eq_ok.mpr ⟨vOut, hout, ?_⟩⟩
  refine except_bind_eq_ok.mpr ⟨sumIn, hsumIn, except_bind_eq_ok.mpr ⟨sumOut, hsumOut, ?_⟩⟩
  cases hstake : tx.isCoinStake with
  | true =>
    rw [hstake, if_pos rfl] at h
    obtain ⟨reward, hreward, h⟩ := except_bind_eq_ok.mp h
    obtain rfl := Except.ok.inj h
    exact except_bind_eq_ok.mpr ⟨reward, hreward, rfl⟩
  | false =>
    rw [hstake, if_neg Bool.false_ne_true] at h
    obtain ⟨vObserved, hobserved, h⟩ := except_bind_eq_ok.mp h
    obtain ⟨fee, hfee, h⟩ := except_bind_eq_ok.mp h
    obtain ⟨fees, hfees, h⟩ := except_bind_eq_ok.mp h
    obtain rfl := Except.ok.inj h
    exact except_bind_eq_ok.mpr ⟨vObserved, hobserved, except_bind_eq_ok.mpr ⟨fee, hfee,
      except_bind_eq_ok.mpr ⟨fees, hfees, rfl⟩⟩⟩

theorem connectSpend_run {tx : CTransaction} {pos : CDiskTxPos} {s s₁ : ConnectState}
    {inputs : MapPrevTx} {nP2SHSigOps : Nat} {queue : Map Uint256 CTxIndex}
    (hfetch : tx.fetchInputs s.mapQueuedChanges true false w = .ok inputs w)
    (hsigops : tx.getP2SHSigOpCount inputs = .ok nP2SHSigOps)
    (hlimit : decide (s.nSigOps + nP2SHSigOps ≤ maxBlockSigops) = true)
    (htally : tally w.node.nBestHeight tx inputs { s with nSigOps := s.nSigOps + nP2SHSigOps } =
      .ok s₁)
    (hconnect : tx.connectInputs env w.node inputs s₁.mapQueuedChanges pos (some pindex) true false =
      .ok queue) :
    connectSpend env pindex pos s tx w = .ok { s₁ with mapQueuedChanges := queue } w := by
  rw [connectSpend, bind_of_ok (adaptExcept_eq_ok.mpr hfetch)]
  refine fromExcept_bind_eq_ok.mpr ⟨nP2SHSigOps, hsigops, require_bind_eq_ok.mpr ⟨hlimit, ?_⟩⟩
  rw [getNode_bind]
  exact fromExcept_bind_eq_ok.mpr ⟨s₁, htally, fromExcept_bind_eq_ok.mpr ⟨queue,
    mapError_eq_ok.mpr hconnect, rfl⟩⟩

/-- A transaction that spends is connected again. -/
theorem connectSpend_again {pos pos' : CDiskTxPos} {s s₁ : ConnectState} {tx : CTransaction}
    {w₁ : World} {queue' : Map Uint256 CTxIndex} (hdisk : w.DiskWorks)
    (hbase : tx.isCoinBase = false) (hnull : pos.isNull = pos'.isNull)
    (hqueue : (trialRuns pindex w files).QueueStands s.mapQueuedChanges queue') (nTxPos : Nat)
    (h : connectSpend env pindex pos s tx w = .ok s₁ w₁) :
    w₁ = w ∧ s₁.nTxPos = s.nTxPos ∧ ∃ queue₁', (trialRuns pindex w files).QueueStands
        s₁.mapQueuedChanges queue₁' ∧
      connectSpend env pindex pos' (again s nTxPos queue') tx (w.withFiles files) =
        .ok (again s₁ nTxPos queue₁') (w.withFiles files) := by
  obtain ⟨inputs, w₂, hadapted, hrest⟩ := bind_eq_ok.mp h
  have hfetch := adaptExcept_eq_ok.mp hadapted
  obtain rfl : w = w₂ := (CTransaction.fetchInputs_same rfl hdisk hfetch).symm
  obtain ⟨nP2SHSigOps, hsigops, hrest⟩ := fromExcept_bind_eq_ok.mp hrest
  obtain ⟨hlimit, hrest⟩ := require_bind_eq_ok.mp hrest
  rw [getNode_bind] at hrest
  obtain ⟨s₂, htally, hrest⟩ := fromExcept_bind_eq_ok.mp hrest
  obtain ⟨queue₁, hconnect, hrest⟩ := fromExcept_bind_eq_ok.mp hrest
  obtain ⟨rfl, hw⟩ := pure_eq_ok.mp hrest
  obtain ⟨-, hpos, hqueue₂⟩ := tally_ok htally
  rw [hqueue₂] at hconnect
  obtain ⟨inputs', hfetch', hinputs⟩ := @CTransaction.fetchInputs_again
    (trialRuns pindex w files) s.mapQueuedChanges queue' true false tx inputs w w
    (w.withFiles files) rfl hqueue rfl rfl hdisk hbase hfetch
  obtain ⟨queue₁', hconnect', hfinal⟩ := @CTransaction.connectInputs_again
    (trialRuns pindex w files) inputs inputs' env tx pos pos' true false s.mapQueuedChanges queue'
    queue₁ rfl rfl hnull hinputs hqueue (mapError_eq_ok.mp hconnect)
  refine ⟨hw, hpos, queue₁', hfinal, ?_⟩
  exact @connectSpend_run env pindex (w.withFiles files) tx pos' (again s nTxPos queue')
    (again s₂ nTxPos queue') inputs' nP2SHSigOps queue₁' hfetch'
    ((CTransaction.getP2SHSigOpCount_again hinputs tx).trans hsigops) hlimit
    (tally_again hinputs nTxPos queue' htally) hconnect'

/-- One round of the loop. -/
theorem connectTx_again {s s₁ : ConnectState} {tx : CTransaction} {w₁ : World} {nTxPos : Nat}
    {queue' : Map Uint256 CTxIndex} (hdisk : w.DiskWorks)
    (hreads : block.TrialReads env index w.node) (hwritten : block.WrittenAt index w.node files)
    (hplaced : (nTxPos, tx) ∈ block.placed index.nBlockPos) (hpos : s.nTxPos = 1)
    (hqueue : (trialRuns pindex w files).QueueStands s.mapQueuedChanges queue')
    (h : connectTx env pindex index true s tx w = .ok s₁ w₁) :
    w₁ = w ∧ s₁.nTxPos = 1 ∧ ∃ queue₁', (trialRuns pindex w files).QueueStands
        s₁.mapQueuedChanges queue₁' ∧
      connectTx env pindex index false (again s nTxPos queue') tx (w.withFiles files) =
        .ok (again s₁ (nTxPos + tx.getSerializeSize) queue₁') (w.withFiles files) := by
  obtain ⟨txindexOld, w₂, hread, hrest⟩ := bind_eq_ok.mp h
  obtain ⟨rfl, rfl⟩ := EStateM.Result.ok.inj hread
  obtain ⟨hoverwrites, hrest⟩ := require_bind_eq_ok.mp hrest
  obtain ⟨hsigops, hrest⟩ := require_bind_eq_ok.mp hrest
  obtain ⟨s₂, w₂, hconnect, hrest⟩ := bind_eq_ok.mp hrest
  obtain ⟨rfl, hw⟩ := pure_eq_ok.mp hrest
  have hstands := @standsFor_new env block pindex index w files hreads hwritten tx nTxPos hplaced
  suffices hbranch : w₂ = w ∧ s₂.nTxPos = 1 ∧ ∃ queue₂',
      (trialRuns pindex w files).QueueStands s₂.mapQueuedChanges queue₂' ∧
      (if tx.isCoinBase then connectCoinBase { again s nTxPos queue' with
          nSigOps := s.nSigOps + tx.getLegacySigOpCount
          nTxPos := nTxPos + tx.getSerializeSize } tx
        else connectSpend env pindex ⟨index.nFile, index.nBlockPos, nTxPos⟩
          { again s nTxPos queue' with
            nSigOps := s.nSigOps + tx.getLegacySigOpCount
            nTxPos := nTxPos + tx.getSerializeSize } tx) (w.withFiles files) =
        .ok (again s₂ (nTxPos + tx.getSerializeSize) queue₂') (w.withFiles files) by
    obtain ⟨hw₂, hpos₂, queue₂', hqueue₂, hrun⟩ := hbranch
    have hposTrial : (⟨index.nFile, index.nBlockPos, s.nTxPos⟩ : CDiskTxPos) = index.trialPos := by
      rw [hpos]
      rfl
    refine ⟨hw.trans hw₂, hpos₂, queue₂'.insert (tx.getHash env)
      (.new ⟨index.nFile, index.nBlockPos, nTxPos⟩ tx.vout.length), ?_, ?_⟩
    · rw [hposTrial]
      exact hqueue₂.insert hstands
    · rw [connectTx]
      refine bind_eq_ok.mpr ⟨_, w.withFiles files, rfl, ?_⟩
      refine require_bind_eq_ok.mpr ⟨hoverwrites, require_bind_eq_ok.mpr ⟨hsigops, ?_⟩⟩
      exact bind_eq_ok.mpr ⟨_, _, hrun, rfl⟩
  cases hbase : tx.isCoinBase with
  | true =>
    rw [hbase, if_pos rfl] at hconnect
    obtain ⟨vOut, hout, hconnect⟩ := fromExcept_bind_eq_ok.mp hconnect
    obtain ⟨sum, hsum, hconnect⟩ := fromExcept_bind_eq_ok.mp hconnect
    obtain ⟨rfl, hw₂⟩ := pure_eq_ok.mp hconnect
    refine ⟨hw₂, hpos, queue', hqueue, ?_⟩
    rw [if_pos rfl, connectCoinBase]
    exact fromExcept_bind_eq_ok.mpr ⟨vOut, hout, fromExcept_bind_eq_ok.mpr ⟨sum, hsum, rfl⟩⟩
  | false =>
    rw [hbase, if_neg Bool.false_ne_true] at hconnect
    obtain ⟨hw₂, hpos₂, queue₂', hqueue₂, hrun⟩ := @connectSpend_again env pindex w files
      ⟨index.nFile, index.nBlockPos, s.nTxPos⟩ ⟨index.nFile, index.nBlockPos, nTxPos⟩
      { s with nSigOps := s.nSigOps + tx.getLegacySigOpCount } s₂ tx w₂ queue' hdisk hbase rfl hqueue (nTxPos + tx.getSerializeSize) hconnect
    refine ⟨hw₂, hpos₂.trans hpos, queue₂', hqueue₂, ?_⟩
    rw [if_neg Bool.false_ne_true]
    exact hrun

theorem connectLoop_again {txs : List CTransaction} {s s₁ : ConnectState} {w₁ : World}
    {nTxPos : Nat} {queue' : Map Uint256 CTxIndex} (hdisk : w.DiskWorks)
    (hreads : block.TrialReads env index w.node) (hwritten : block.WrittenAt index w.node files)
    (hplaced : ∀ p ∈ (txPositions nTxPos txs).zip txs, p ∈ block.placed index.nBlockPos)
    (hpos : s.nTxPos = 1)
    (hqueue : (trialRuns pindex w files).QueueStands s.mapQueuedChanges queue')
    (h : txs.foldlM (connectTx env pindex index true) s w = .ok s₁ w₁) :
    w₁ = w ∧ ∃ nTxPos₁ queue₁', txs.foldlM (connectTx env pindex index false)
      (again s nTxPos queue') (w.withFiles files) =
        .ok (again s₁ nTxPos₁ queue₁') (w.withFiles files) := by
  induction txs generalizing s nTxPos queue' with
  | nil =>
    obtain ⟨rfl, hw⟩ := pure_eq_ok.mp h
    exact ⟨hw, nTxPos, queue', rfl⟩
  | cons tx txs ih =>
    rw [txPositions, List.zip_cons_cons] at hplaced
    obtain ⟨hhead, htail⟩ := List.forall_mem_cons.mp hplaced
    rw [List.foldlM_cons] at h
    obtain ⟨s₂, w₂, hone, hrest⟩ := bind_eq_ok.mp h
    obtain ⟨rfl, hpos₂, queue₂', hqueue₂, hrun⟩ :=
      connectTx_again hdisk hreads hwritten hhead hpos hqueue hone
    obtain ⟨hw, nTxPos₁, queue₁', hloop⟩ := ih htail hpos₂ hqueue₂ hrest
    refine ⟨hw, nTxPos₁, queue₁', ?_⟩
    rw [List.foldlM_cons, bind_of_ok hrun]
    exact hloop

/-- The queues of the two loops start with the database. -/
theorem queueStands_start (hwritten : block.WrittenAt index w.node files) :
    (trialRuns pindex w files).QueueStands ∅ ∅ := by
  intro hash
  show Option.Rel _ (w.node.foundIndex ∅ true hash) (w.node.foundIndex ∅ true hash)
  have hempty : w.node.foundIndex ∅ true hash = w.node.txdb.readTxIndex hash := by
    unfold Node.foundIndex
    rw [(Map.contains_eq_false_iff _ _).mpr (Map.getElem?_empty hash)]
    rfl
  rw [hempty]
  cases hread : w.node.txdb.readTxIndex hash with
  | none => exact .none
  | some txindex => exact .some (standsFor_database hwritten hread)

/-! ### The reward -/

theorem readTxFromDisk_again (hdisk : w.DiskWorks) (hwritten : block.WrittenAt index w.node files)
    (prevout : COutPoint) : ∃ found, readTxFromDisk w.node.txdb prevout w = .ok found w ∧
      readTxFromDisk w.node.txdb prevout (w.withFiles files) = .ok found (w.withFiles files) ∧
      ∀ txPrev txindex, found = some (txPrev, txindex) →
        w.node.txdb.readTxIndex prevout.hash = some txindex := by
  have hdisk' : (w.withFiles files).DiskWorks := hdisk
  unfold readTxFromDisk
  cases hread : w.node.txdb.readTxIndex prevout.hash with
  | none => exact ⟨none, rfl, rfl, fun _ _ h => absurd h (by simp)⟩
  | some txindex =>
    dsimp only
    rw [bind_of_ok (readTxAt_run hdisk _), bind_of_ok (readTxAt_run hdisk' _)]
    have hsame : (w.withFiles files).node.files.txAt[(⟨txindex.pos.nFile, txindex.pos.nTxPos⟩ :
        FilePos)]? = w.node.files.txAt[(⟨txindex.pos.nFile, txindex.pos.nTxPos⟩ : FilePos)]? :=
      hwritten.txs _ _ hread
    rw [hsame]
    cases (if BlockFiles.validFile txindex.pos.nFile then
      w.node.files.txAt[(⟨txindex.pos.nFile, txindex.pos.nTxPos⟩ : FilePos)]? else none) with
    | none => exact ⟨none, rfl, rfl, fun _ _ h => absurd h (by simp)⟩
    | some txPrev =>
      dsimp only
      split
      · refine ⟨some (txPrev, txindex), rfl, rfl, fun tx txindex' h => ?_⟩
        rw [(Prod.mk.inj (Option.some.inj h)).2]
      · exact ⟨none, rfl, rfl, fun _ _ h => absurd h (by simp)⟩

theorem readBlockAt_again (hdisk : w.DiskWorks) (hwritten : block.WrittenAt index w.node files)
    {hash : Uint256} {txindex : CTxIndex} (hread : w.node.txdb.readTxIndex hash = some txindex) :
    ∃ found, readBlockAt env txindex.pos.nFile txindex.pos.nBlockPos false w = .ok found w ∧
      readBlockAt env txindex.pos.nFile txindex.pos.nBlockPos false (w.withFiles files) =
        .ok found (w.withFiles files) := by
  have hdisk' : (w.withFiles files).DiskWorks := hdisk
  have hsame : (w.withFiles files).node.files.blockAt[(⟨txindex.pos.nFile, txindex.pos.nBlockPos⟩ :
      FilePos)]? = w.node.files.blockAt[(⟨txindex.pos.nFile, txindex.pos.nBlockPos⟩ : FilePos)]? :=
    hwritten.blocks _ _ hread
  refine ⟨_, readBlockAt_run env hdisk _ _, ?_⟩
  rw [readBlockAt_run env hdisk', hsame]

theorem inputCoinAge_again (hdisk : w.DiskWorks) (hwritten : block.WrittenAt index w.node files)
    {tx : CTransaction} {bnCentSecond found : Option Int} {txin : CTxIn} {w₁ : World}
    (h : CTransaction.inputCoinAge env w.node.txdb tx bnCentSecond txin w = .ok found w₁) :
    w₁ = w ∧ CTransaction.inputCoinAge env w.node.txdb tx bnCentSecond txin (w.withFiles files) =
      .ok found (w.withFiles files) := by
  cases bnCentSecond with
  | none =>
    obtain ⟨rfl, hw⟩ := pure_eq_ok.mp h
    exact ⟨hw, rfl⟩
  | some bn =>
    obtain ⟨prev, hprev, hprev', hindex⟩ := readTxFromDisk_again hdisk hwritten txin.prevout
    unfold CTransaction.inputCoinAge at h ⊢
    dsimp only at h ⊢
    rw [bind_of_ok hprev] at h
    rw [bind_of_ok hprev']
    cases prev with
    | none =>
      obtain ⟨rfl, hw⟩ := pure_eq_ok.mp h
      exact ⟨hw, rfl⟩
    | some prev =>
      obtain ⟨txPrev, txindex⟩ := prev
      dsimp only at h ⊢
      by_cases htime : tx.nTime < txPrev.nTime
      · rw [if_pos htime] at h ⊢
        obtain ⟨rfl, hw⟩ := pure_eq_ok.mp h
        exact ⟨hw, rfl⟩
      rw [if_neg htime] at h ⊢
      obtain ⟨header, hheader, hheader'⟩ :=
        @readBlockAt_again env block index w files hdisk hwritten _ txindex (hindex _ _ rfl)
      rw [bind_of_ok hheader] at h
      rw [bind_of_ok hheader']
      cases header with
      | none =>
        obtain ⟨rfl, hw⟩ := pure_eq_ok.mp h
        exact ⟨hw, rfl⟩
      | some header =>
        dsimp only at h ⊢
        by_cases hage : (tx.nTime : Int) < header.getBlockTime + env.nStakeMinAge
        · rw [if_pos hage] at h ⊢
          obtain ⟨rfl, hw⟩ := pure_eq_ok.mp h
          exact ⟨hw, rfl⟩
        · rw [if_neg hage] at h ⊢
          cases hout : txPrev.vout[txin.prevout.n]? with
          | none =>
            rw [hout] at h
            exact absurd h error_ne_ok
          | some txout =>
            rw [hout] at h
            obtain ⟨rfl, hw⟩ := pure_eq_ok.mp h
            exact ⟨hw, rfl⟩

theorem coinAgeLoop_again (hdisk : w.DiskWorks) (hwritten : block.WrittenAt index w.node files)
    {tx : CTransaction} {vin : List CTxIn} {bnCentSecond found : Option Int} {w₁ : World}
    (h : vin.foldlM (CTransaction.inputCoinAge env w.node.txdb tx) bnCentSecond w =
      .ok found w₁) :
    w₁ = w ∧ vin.foldlM (CTransaction.inputCoinAge env w.node.txdb tx) bnCentSecond
      (w.withFiles files) = .ok found (w.withFiles files) := by
  induction vin generalizing bnCentSecond with
  | nil =>
    obtain ⟨rfl, hw⟩ := pure_eq_ok.mp h
    exact ⟨hw, rfl⟩
  | cons txin vin ih =>
    rw [List.foldlM_cons] at h ⊢
    obtain ⟨bn, w₂, hone, hrest⟩ := bind_eq_ok.mp h
    obtain ⟨rfl, hone'⟩ := inputCoinAge_again hdisk hwritten hone
    rw [bind_of_ok hone']
    exact ih hrest

theorem getCoinAge_again (hdisk : w.DiskWorks) (hwritten : block.WrittenAt index w.node files)
    {tx : CTransaction} {age : Option Nat} {w₁ : World}
    (h : tx.getCoinAge env w.node.txdb w = .ok age w₁) :
    w₁ = w ∧ tx.getCoinAge env w.node.txdb (w.withFiles files) = .ok age (w.withFiles files) := by
  unfold CTransaction.getCoinAge at h ⊢
  cases hbase : tx.isCoinBase with
  | true =>
    rw [hbase, if_pos rfl] at h
    obtain ⟨rfl, hw⟩ := pure_eq_ok.mp h
    exact ⟨hw, rfl⟩
  | false =>
    rw [hbase, if_neg Bool.false_ne_true] at h
    rw [if_neg Bool.false_ne_true]
    obtain ⟨found, w₂, hloop, hrest⟩ := bind_eq_ok.mp h
    obtain ⟨rfl, hloop'⟩ := coinAgeLoop_again hdisk hwritten hloop
    rw [bind_of_ok hloop']
    cases found with
    | none =>
      obtain ⟨rfl, hw⟩ := pure_eq_ok.mp hrest
      exact ⟨hw, rfl⟩
    | some bn =>
      obtain ⟨rfl, hw⟩ := pure_eq_ok.mp hrest
      exact ⟨hw, rfl⟩

/-- The reward is checked with the same outcome. -/
theorem checkReward_again (hdisk : w.DiskWorks) (hwritten : block.WrittenAt index w.node files)
    {s : ConnectState} {w₁ : World} (nTxPos : Nat) (queue : Map Uint256 CTxIndex)
    (h : block.checkReward env s w = .ok () w₁) :
    block.checkReward env (again s nTxPos queue) (w.withFiles files) =
      .ok () (w.withFiles files) := by
  cases hstake : block.isProofOfStake with
  | true =>
    obtain ⟨coinbase, coinstake, rest, hvtx⟩ := exists_coinstake hstake
    simp only [checkReward, hstake, hvtx, getNode_bind] at h ⊢
    obtain ⟨age, w₂, hage, hrest⟩ := bind_eq_ok.mp h
    obtain ⟨rfl, hage'⟩ := getCoinAge_again hdisk hwritten hage
    have hage'' : coinstake.getCoinAge env (w₂.withFiles files).node.txdb (w₂.withFiles files) =
      .ok age (w₂.withFiles files) := hage'
    rw [bind_of_ok hage'']
    cases age with
    | none => exact absurd hrest error_ne_ok
    | some nCoinAge =>
      obtain ⟨nReward, hreward, hrest⟩ := fromExcept_bind_eq_ok.mp hrest
      exact fromExcept_bind_eq_ok.mpr ⟨nReward, hreward,
        require_run_eq_ok.mpr ⟨(require_run_eq_ok.mp hrest).1, rfl⟩⟩
  | false =>
    cases hvtx : block.vtx with
    | nil =>
      simp only [checkReward, hstake, hvtx, getNode_bind] at h
      exact absurd h error_ne_ok
    | cons coinbase rest =>
      simp only [checkReward, hstake, hvtx, getNode_bind] at h ⊢
      obtain ⟨pindexBest, hbest, h⟩ := nonNull_bind_eq_ok.mp h
      obtain ⟨indexBest, hindex, h⟩ := deref_bind_eq_ok.mp h
      obtain ⟨nReward, hreward, h⟩ := fromExcept_bind_eq_ok.mp h
      obtain ⟨nValueOut, hvalue, h⟩ := fromExcept_bind_eq_ok.mp h
      exact nonNull_bind_eq_ok.mpr ⟨pindexBest, hbest, deref_bind_eq_ok.mpr ⟨indexBest, hindex,
        fromExcept_bind_eq_ok.mpr ⟨nReward, hreward, fromExcept_bind_eq_ok.mpr ⟨nValueOut, hvalue,
          require_run_eq_ok.mpr ⟨(require_run_eq_ok.mp h).1, rfl⟩⟩⟩⟩⟩

/-- What a trial accepts, the checks accept again for the block on disk. -/
theorem checkConnect_again (hdisk : w.DiskWorks) (hreads : block.TrialReads env index w.node)
    (hwritten : block.WrittenAt index w.node files)
    (hblock : block.checkBlock env w.sys.adjustedTime true true false = .ok ())
    {s : ConnectState} {w₁ : World}
    (h : block.checkConnect env pindex true w = .ok (index, s) w₁) :
    ∃ nTxPos queue, block.checkConnect env pindex false (w.withFiles files) =
      .ok (index, again s nTxPos queue) (w.withFiles files) := by
  have hindex := checkConnect_index h
  unfold checkConnect at h
  rw [getSys_bind] at h
  obtain ⟨-, -, h⟩ := fromExcept_bind_eq_ok.mp h
  obtain ⟨index', hindex', h⟩ := deref_bind_eq_ok.mp h
  obtain rfl := Option.some.inj (hindex.symm.trans hindex')
  obtain ⟨s₁, w₂, hloop, hrest⟩ := bind_eq_ok.mp h
  obtain ⟨_, w₃, hreward, hrest⟩ := bind_eq_ok.mp hrest
  obtain ⟨heq, -⟩ := pure_eq_ok.mp hrest
  obtain rfl := (Prod.mk.inj heq).2
  obtain ⟨rfl, nTxPos, queue, hloop'⟩ := connectLoop_again hdisk hreads hwritten
    (fun p hp => hp) rfl (queueStands_start hwritten) hloop
  have hreward' := checkReward_again hdisk hwritten nTxPos queue hreward
  refine ⟨nTxPos, queue, ?_⟩
  rw [checkConnect, getSys_bind]
  refine fromExcept_bind_eq_ok.mpr ⟨(), hblock, deref_bind_eq_ok.mpr ⟨index, hindex, ?_⟩⟩
  refine bind_eq_ok.mpr ⟨again s nTxPos queue, w₂.withFiles files, hloop', ?_⟩
  rw [bind_of_ok hreward']
  rfl

end again

/-! ## What is written -/

section write

variable {env : Env} {block : CBlock} {pindex : Uint256} {index : CBlockIndex} {w : World}

theorem change_works (hdisk : w.DiskWorks) (op : BatchOp DbKey DbVal) :
    change op w = .ok true (w.written op) := by
  rw [change, getNode_bind]
  cases w.node.txdb.activeBatch.isSome with
  | true => rfl
  | false =>
    rw [if_neg Bool.false_ne_true, bind_of_ok (diskOk_run hdisk)]
    rfl

theorem writeBlockIndex_works (hdisk : w.DiskWorks) (d : CDiskBlockIndex) :
    writeBlockIndex env d w = .ok true (w.written (recordOp env d)) :=
  change_works hdisk _

theorem writeQueued_works (hdisk : w.DiskWorks) (entries : List (Uint256 × CTxIndex)) :
    ∃ w', entries.forM writeQueued w = .ok () w' ∧ w'.DiskWorks ∧
      w'.node.mapBlockIndex = w.node.mapBlockIndex := by
  induction entries generalizing w with
  | nil => exact ⟨w, rfl, hdisk, rfl⟩
  | cons entry entries ih =>
    have hone : writeQueued entry w =
        .ok () (w.written (.put (.tx entry.1) (.txindex entry.2))) := by
      rw [writeQueued, updateTxIndex, bind_of_ok (change_works hdisk _)]
      rfl
    obtain ⟨w', hrest, hdisk', hsame⟩ :=
      @ih (w.written (.put (.tx entry.1) (.txindex entry.2))) hdisk
    refine ⟨w', ?_, hdisk', hsame⟩
    show (writeQueued entry >>= fun _ => entries.forM writeQueued) w = _
    rw [bind_of_ok hone]
    exact hrest

theorem writeHashNext_works (hdisk : w.DiskWorks) {pprev : Option Uint256}
    (hleads : Leads w.node pprev) (hashNext : Uint256) (e : Exit) :
    ∃ w', writeHashNext env pprev hashNext e w = .ok () w' := by
  cases pprev with
  | none => exact ⟨w, rfl⟩
  | some p =>
    obtain ⟨indexPrev, hprev⟩ := hleads p rfl
    refine ⟨w.written (recordOp env { CDiskBlockIndex.ofIndex indexPrev with
      hashNext := hashNext }), deref_bind_eq_ok.mpr ⟨indexPrev, hprev, ?_⟩⟩
    rw [bind_of_ok (writeBlockIndex_works hdisk _)]
    rfl

theorem prevMoneySupply_leads {pprev : Option Uint256} {n : Int} {w' : World}
    (h : prevMoneySupply pprev w = .ok n w') : Leads w.node pprev := by
  intro p hp
  rw [hp] at h
  obtain ⟨indexPrev, hindex, -⟩ := deref_bind_eq_ok.mp h
  exact ⟨indexPrev, hindex⟩

theorem writeConnected_eq (fJustCheck : Bool) (s : ConnectState) :
    block.writeConnected env pindex index fJustCheck s = (do
      let n ← prevMoneySupply index.pprev
      modifyNode fun node => node.setIndex pindex (index.withMint s n)
      let ok ← writeBlockIndex env (CDiskBlockIndex.ofIndex (index.withMint s n))
      require ok (.reject 0 "Connect() : WriteBlockIndex for pindex failed")
      if fJustCheck then pure ()
      else do
        s.mapQueuedChanges.toList.forM writeQueued
        writeHashNext env index.pprev pindex (.reject 0 "ConnectBlock() : WriteBlockIndex failed")
        block.vtx.forM fun tx => emit (.syncWithWallets (tx.getHash env) true)
        emit (.connected pindex)) := rfl

/-- On a disk that works, a block that the checks have accepted is connected. -/
theorem writeConnected_works (hdisk : w.DiskWorks) {s : ConnectState} {n : Int}
    (hprev : prevMoneySupply index.pprev w = .ok n w) :
    ∃ w', block.writeConnected env pindex index false s w = .ok () w' := by
  have hleads := prevMoneySupply_leads hprev
  obtain ⟨w₁, hw₁⟩ : ∃ w₁ : World, w₁ = { w with
    node := w.node.setIndex pindex (index.withMint s n) } := ⟨_, rfl⟩
  have hdisk₁ : w₁.DiskWorks := by rw [hw₁]; exact hdisk
  obtain ⟨w₂, hqueued, hdisk₂, hsame⟩ := writeQueued_works
    (show (w₁.written (recordOp env (.ofIndex (index.withMint s n)))).DiskWorks from hdisk₁)
    s.mapQueuedChanges.toList
  have hleads₂ : Leads w₂.node index.pprev := by
    intro p hp
    obtain ⟨indexPrev, hindex⟩ := hleads p hp
    rw [Node.index?, hsame, World.written, hw₁]
    show ∃ index', (w.node.mapBlockIndex.insert pindex (index.withMint s n))[p]? = some index'
    rw [Map.getElem?_insert]
    split
    · exact ⟨_, rfl⟩
    · exact ⟨indexPrev, hindex⟩
  obtain ⟨w₃, hnext⟩ := @writeHashNext_works env w₂ hdisk₂ index.pprev hleads₂ pindex
    (.reject 0 "ConnectBlock() : WriteBlockIndex failed")
  refine ⟨(w₃.addLog (block.vtx.map fun tx => .syncWithWallets (tx.getHash env) true)).addLog
    [.connected pindex], ?_⟩
  rw [writeConnected_eq, bind_of_ok hprev, modifyNode_bind, ← hw₁,
    bind_of_ok (writeBlockIndex_works hdisk₁ _)]
  refine require_bind_eq_ok.mpr ⟨rfl, ?_⟩
  rw [if_neg Bool.false_ne_true, bind_of_ok hqueued, bind_of_ok hnext,
    bind_of_ok (emit_forM _ _ _)]
  rfl

end write

/-! ## The effect of a trial -/

/-- A trial comes to the write of the record `d`, and the write succeeds. -/
def TrialWrites (env : Env) (block : CBlock) (pindex : Uint256) (w : World)
    (d : CDiskBlockIndex) : Prop :=
  ∃ index s w₁ w₂ n, block.checkConnect env pindex true w = .ok (index, s) w₁ ∧
    prevMoneySupply index.pprev w₁ = .ok n w₁ ∧
    d = CDiskBlockIndex.ofIndex (index.withMint s n) ∧
    writeBlockIndex env d { w₁ with node := w₁.node.setIndex pindex (index.withMint s n) } =
      .ok true w₂

/-- Every record that a trial writes is in the database already. -/
def TrialRecorded (env : Env) (block : CBlock) (pindex : Uint256) (w : World) : Prop :=
  ∀ d, block.TrialWrites env pindex w d → w.node.txdb.view[DbKey.blockindex (d.computeHash env)]? =
    some (.blockindex { d with blockHash := d.computeHash env })

/-- A trial leaves the database and the wallets alone, and a block that it accepts is connected
once it is on disk, if the checks that a trial leaves out accept it too. -/
structure TrialHasNoEffect (env : Env) (block : CBlock) (pindex : Uint256) (w : World) : Prop where
  records : (endState (block.connectBlock env pindex true w)).node.txdb.view = w.node.txdb.view
  wallets : (endState (block.connectBlock env pindex true w)).log = w.log
  connects : w.DiskWorks → ∀ index w', w.node.index? pindex = some index →
    block.connectBlock env pindex true w = .ok () w' →
      ∀ files, block.WrittenAt index w.node files →
        block.checkBlock env w.sys.adjustedTime true true false = .ok () →
          ∃ w'', block.connectBlock env pindex false (w.withFiles files) = .ok () w''

section trial

variable {env : Env} {block : CBlock} {pindex : Uint256} {w : World}

/-- The write of a record either goes through or changes nothing. -/
theorem writeBlockIndex_any (env : Env) (d : CDiskBlockIndex) (w : World) :
    ∃ status w', writeBlockIndex env d w = .ok status w' ∧ w'.log = w.log ∧
      w'.node.txdb = if status then (w.node.txdb.change (recordOp env d) true).2
        else w.node.txdb := by
  cases hbatch : w.node.txdb.activeBatch with
  | some batch =>
    refine ⟨true, w.written (recordOp env d), ?_, rfl, rfl⟩
    show change (recordOp env d) w = _
    rw [change, getNode_bind, hbatch]
    rfl
  | none =>
    refine ⟨w.sys.io 0, { w with
      node := { w.node with txdb := (w.node.txdb.change (recordOp env d) (w.sys.io 0)).2 }
      sys := { w.sys with io := fun n => w.sys.io (n + 1) } }, ?_, rfl, ?_⟩
    · show change (recordOp env d) w = _
      rw [change, getNode_bind, hbatch]
      rfl
    · cases w.sys.io 0 with
      | true => rfl
      | false =>
        show (w.node.txdb.change (recordOp env d) false).2 = w.node.txdb
        rw [CTxDB.change, hbatch]
        exact congrArg (CTxDB.mk w.node.txdb.pdb) hbatch.symm

/-- What a trial leaves in the database and in the log. -/
theorem trial_endState (env : Env) (block : CBlock) (pindex : Uint256) (w : World) :
    (endState (block.connectBlock env pindex true w)).log = w.log ∧
      (((endState (block.connectBlock env pindex true w)).node.txdb = w.node.txdb ∧
          ∀ d, ¬ block.TrialWrites env pindex w d) ∨
        ∃ d, block.TrialWrites env pindex w d ∧
          (∀ d', block.TrialWrites env pindex w d' → d' = d) ∧
          (endState (block.connectBlock env pindex true w)).node.txdb =
            (w.node.txdb.change (recordOp env d) true).2) := by
  rw [connectBlock_eq, bind_run]
  have hreads := Reads.checkConnect env block pindex true
  cases hcheck : block.checkConnect env pindex true w with
  | error e w₁ =>
    refine ⟨(hreads.error hcheck).log, .inl ⟨congrArg Node.txdb (hreads.error hcheck).node, ?_⟩⟩
    rintro d ⟨index, s, w₂, w₃, n, hok, -⟩
    exact absurd (hcheck.symm.trans hok) error_ne_ok
  | ok result w₁ =>
    obtain ⟨index, s⟩ := result
    have hsame := hreads.ok hcheck
    dsimp only
    rw [writeConnected_eq, bind_run]
    cases hprev : prevMoneySupply index.pprev w₁ with
    | error e w₂ =>
      have hsame₂ := (Reads.prevMoneySupply index.pprev).error hprev
      refine ⟨hsame₂.log.trans hsame.log, .inl
        ⟨congrArg Node.txdb (hsame₂.node.trans hsame.node), ?_⟩⟩
      rintro d ⟨index', s', w₂', w₃, n, hok, hprev', -⟩
      obtain ⟨heq, rfl⟩ := EStateM.Result.ok.inj (hcheck.symm.trans hok)
      obtain ⟨rfl, rfl⟩ := Prod.mk.inj heq
      exact absurd (hprev.symm.trans hprev') error_ne_ok
    | ok n w₂ =>
      obtain rfl : w₁ = w₂ := (prevMoneySupply_ok hprev).symm
      dsimp only
      rw [modifyNode_bind]
      obtain ⟨status, w₃, hwrite, hlog, htxdb⟩ := writeBlockIndex_any env
        (CDiskBlockIndex.ofIndex (index.withMint s n))
        { w₁ with node := w₁.node.setIndex pindex (index.withMint s n) }
      rw [bind_of_ok hwrite]
      -- the record of a trial is determined by the outcome of the checks
      have honly : ∀ d, block.TrialWrites env pindex w d →
          d = CDiskBlockIndex.ofIndex (index.withMint s n) ∧ status = true := by
        rintro d ⟨index', s', w₁', w₄, n', hok, hprev', rfl, hwrite'⟩
        obtain ⟨heq, rfl⟩ := EStateM.Result.ok.inj (hcheck.symm.trans hok)
        obtain ⟨rfl, rfl⟩ := Prod.mk.inj heq
        obtain ⟨rfl, -⟩ := EStateM.Result.ok.inj (hprev.symm.trans hprev')
        exact ⟨rfl, (EStateM.Result.ok.inj (hwrite.symm.trans hwrite')).1⟩
      have hold : ({ w₁ with node := w₁.node.setIndex pindex (index.withMint s n) } :
          World).node.txdb = w.node.txdb := by
        show w₁.node.txdb = w.node.txdb
        rw [hsame.node]
      rw [hold] at htxdb
      cases status with
      | true =>
        refine ⟨hlog.trans hsame.log, .inr ⟨_, ⟨index, s, w₁, w₃, n, hcheck, hprev, rfl, hwrite⟩,
          fun d hd => (honly d hd).1, htxdb⟩⟩
      | false =>
        exact ⟨hlog.trans hsame.log, .inl ⟨htxdb, fun d hd =>
          Bool.false_ne_true (honly d hd).2⟩⟩

/-- A put leaves the database as it is exactly if the value is there. -/
theorem view_put_eq_iff (txdb : TxDB) (key : DbKey) (value : DbVal) :
    (txdb.change (.put key value) true).2.view = txdb.view ↔ txdb.view[key]? = some value := by
  have hok : (txdb.change (.put key value) true).1 = true := by
    unfold CTxDB.change
    split <;> rfl
  rw [CTxDB.view_change txdb _ true hok]
  show txdb.view.insert key value = txdb.view ↔ _
  constructor
  · intro h
    rw [← h, Map.getElem?_insert, if_pos rfl]
  · intro h
    refine Map.ext fun k => ?_
    rw [Map.getElem?_insert]
    split
    · next heq => exact heq ▸ h.symm
    · rfl

end trial

end CBlock

end NoLimitCoin
