import NoLimitCoin.Fetched
import NoLimitCoin.Frames
import NoLimitCoin.Lib.SpendIndex

/-!
# What connecting a block writes

The transaction index is a `SpendIndex`: its items are the transactions, their positions are
disk positions.  `ConnectBlock` connects the items of its block to the index, through its
queue, and writes the result into the open transaction.

Results:

1. `connectTx_ok` and `connectLoop_ok`: the loop of `ConnectBlock`.
2. `writeConnected_ok` and `connectBlock_ok`: what `ConnectBlock` writes, operation by
   operation.
-/

namespace NoLimitCoin

open Prog NodeM

/-! ## The transaction index as a spend index -/

/-- The slots of the transaction index. -/
abbrev TxSpends := SpendIndex Uint256 CDiskTxPos

abbrev TxItem := SpendItem Uint256 CDiskTxPos

def CTxIndex.entry (txindex : CTxIndex) : SpendEntry CDiskTxPos := ⟨txindex.pos, txindex.vSpent⟩

def COutPoint.slot (o : COutPoint) : Uint256 × Nat := (o.hash, o.n)

/-- The outputs a transaction spends; a coin base spends none. -/
def CTransaction.spends (tx : CTransaction) : List (Uint256 × Nat) :=
  if tx.isCoinBase then [] else tx.vin.map fun txin => txin.prevout.slot

def CTransaction.item (env : Env) (tx : CTransaction) (pos : CDiskTxPos) : TxItem :=
  ⟨tx.getHash env, pos, tx.spends, tx.vout.length⟩

/-- The items of transactions stored in `nFile` from `nTxPos` on, of the block at `nBlockPos`. -/
def txItems (env : Env) (nFile nBlockPos : Nat) : (nTxPos : Nat) → List CTransaction → List TxItem
  | _, [] => []
  | nTxPos, tx :: txs =>
    tx.item env ⟨nFile, nBlockPos, nTxPos⟩ ::
      txItems env nFile nBlockPos (nTxPos + tx.getSerializeSize) txs

/-- The items of a block. -/
def CBlock.items (env : Env) (block : CBlock) (nFile nBlockPos : Nat) : List TxItem :=
  txItems env nFile nBlockPos (block.firstTxPos nBlockPos) block.vtx

/-- The index in the database, the open transaction included. -/
def TxDB.spends (txdb : TxDB) : TxSpends := fun hash => (txdb.readTxIndex hash).map CTxIndex.entry

/-- The index in the database under the queued changes of a block. -/
def TxDB.queued (txdb : TxDB) (mapQueuedChanges : Map Uint256 CTxIndex) : TxSpends := fun hash =>
  (mapQueuedChanges[hash]?.or (txdb.readTxIndex hash)).map CTxIndex.entry

namespace TxDB

variable {txdb : TxDB} {queue : Map Uint256 CTxIndex}

theorem readTxIndex_eq_view (txdb : TxDB) (hash : Uint256) :
    txdb.readTxIndex hash = txdb.view[DbKey.tx hash]?.bind DbVal.txindex? :=
  CTxDB.read_eq_view _ _ _

@[simp] theorem queued_empty (txdb : TxDB) : txdb.queued ∅ = txdb.spends := by
  funext hash
  simp [queued, spends]

theorem queued_insert (txdb : TxDB) (queue : Map Uint256 CTxIndex) (hash : Uint256)
    (txindex : CTxIndex) : txdb.queued (queue.insert hash txindex) =
      Function.update (txdb.queued queue) hash (some txindex.entry) := by
  funext h
  rw [Function.update_apply, queued, queued, Map.getElem?_insert]
  by_cases heq : h = hash
  · rw [if_pos heq.symm, if_pos heq]
    rfl
  · rw [if_neg (Ne.symm heq), if_neg heq]

/-- What `FetchInputs` finds for a block. -/
theorem queued_eq_foundIndex (node : Node) (queue : Map Uint256 CTxIndex) (hash : Uint256) :
    node.txdb.queued queue hash = (node.foundIndex queue true hash).map CTxIndex.entry := by
  unfold queued Node.foundIndex
  cases hq : queue[hash]? with
  | none =>
    rw [(Map.contains_eq_false_iff _ _).mpr hq]
    rfl
  | some txindex =>
    rw [(Map.contains_iff _ _).mpr ⟨txindex, hq⟩]
    rw [Bool.true_and, if_pos rfl]
    rfl

end TxDB

/-! ## The loop of `ConnectBlock` -/

namespace CTransaction

/-- The entries fetched for a transaction are those of the index under the queue. -/
def InSync (txdb : TxDB) (inputs : MapPrevTx) (queue : Map Uint256 CTxIndex) : Prop :=
  ∀ hash prev, inputs[hash]? = some prev → txdb.queued queue hash = some prev.1.entry

theorem FetchedInputs.inSync {node : Node} {queue : Map Uint256 CTxIndex} {fBlock fMiner : Bool}
    {vin : List CTxIn} {inputs : MapPrevTx} (h : FetchedInputs node queue fBlock fMiner vin inputs)
    (hpending : (fBlock || fMiner) = true := by rfl) : InSync node.txdb inputs queue := by
  intro hash prev hprev
  have hfetched := h.entries hash prev hprev
  rw [Node.Fetched, hpending] at hfetched
  rw [TxDB.queued_eq_foundIndex]
  split at hfetched
  · exact absurd hfetched.1 nofun
  · next txindex htxindex =>
    rw [show (node.foundIndex queue true hash) = some txindex from htxindex, hfetched.1]
    rfl

/-- One round of the second loop of `ConnectInputs`, with a queue: the slot was free and
is marked. -/
theorem spendInput_ok {env : Env} {node : Node} {tx : CTransaction} {posThisTx : CDiskTxPos}
    {txdb : TxDB} {inputs inputs' : MapPrevTx} {queue queue' : Map Uint256 CTxIndex}
    {fBlock fMiner : Bool} {txin : CTxIn} {i : Nat} (hsync : InSync txdb inputs queue)
    (h : spendInput env node tx posThisTx fBlock fMiner (inputs, queue) (txin, i) =
      .ok (inputs', queue')) (hpending : (fBlock || fMiner) = true) :
    (∃ q, (txdb.queued queue).slot txin.prevout.slot = some q ∧ q.isNull = true) ∧
      txdb.queued queue' = SpendIndex.mark posThisTx (txdb.queued queue) txin.prevout.slot ∧
      InSync txdb inputs' queue' := by
  unfold spendInput at h
  dsimp only at h
  split at h
  · exact absurd h nofun
  · next txindex txPrev hprev =>
    have hentry := hsync _ _ hprev
    split at h
    · exact absurd h nofun
    · next spent hspent =>
      simp only [except_seq_eq_ok, require_eq_ok] at h
      obtain ⟨hnull, -, h⟩ := h
      obtain ⟨rfl, rfl⟩ := Prod.mk.inj (Except.ok.inj h)
      refine ⟨⟨spent, ?_, hnull⟩, ?_, ?_⟩
      · rw [SpendIndex.slot, COutPoint.slot, hentry]
        exact hspent
      · rw [if_pos hpending, TxDB.queued_insert, SpendIndex.mark, COutPoint.slot, hentry]
        rfl
      · intro hash prev hlookup
        rw [if_pos hpending, TxDB.queued_insert, Function.update_apply]
        rw [Map.getElem?_insert] at hlookup
        by_cases heq : txin.prevout.hash = hash
        · rw [if_pos heq] at hlookup
          rw [if_pos heq.symm, ← Option.some.inj hlookup]
        · rw [if_neg heq] at hlookup
          rw [if_neg (Ne.symm heq)]
          exact hsync hash prev hlookup

/-- Every slot of `os` is free when its turn comes. -/
def FreeInTurn (q : CDiskTxPos) : TxSpends → List (Uint256 × Nat) → Prop
  | _, [] => True
  | ix, o :: os => (∃ r, ix.slot o = some r ∧ r.isNull = true) ∧ FreeInTurn q (ix.mark q o) os

theorem spendLoop_ok {env : Env} {node : Node} {tx : CTransaction} {posThisTx : CDiskTxPos}
    {txdb : TxDB} {fBlock fMiner : Bool} {vin : List (CTxIn × Nat)}
    {inputs inputs' : MapPrevTx}
    {queue queue' : Map Uint256 CTxIndex} (hsync : InSync txdb inputs queue)
    (h : vin.foldlM (spendInput env node tx posThisTx fBlock fMiner) (inputs, queue) =
      .ok (inputs', queue')) (hpending : (fBlock || fMiner) = true) :
    FreeInTurn posThisTx (txdb.queued queue) (vin.map fun t => t.1.prevout.slot) ∧
      txdb.queued queue' =
        SpendIndex.markAll posThisTx (txdb.queued queue) (vin.map fun t => t.1.prevout.slot) := by
  induction vin generalizing inputs queue with
  | nil =>
    obtain ⟨-, rfl⟩ := Prod.mk.inj (Except.ok.inj h)
    exact ⟨trivial, rfl⟩
  | cons t vin ih =>
    rw [List.foldlM_cons] at h
    obtain ⟨⟨inputs₁, queue₁⟩, hone, h⟩ := except_bind_eq_ok.mp h
    obtain ⟨hfree, hmark, hsync₁⟩ := spendInput_ok hsync hone hpending
    obtain ⟨hrest, hqueue⟩ := ih hsync₁ h
    rw [hmark] at hrest hqueue
    exact ⟨⟨hfree, hrest⟩, hqueue⟩

/-- What `ConnectInputs` does to the index of a block under construction. -/
theorem connectInputs_ok {env : Env} {node : Node} {tx : CTransaction} {inputs : MapPrevTx}
    {txdb : TxDB} {queue queue' : Map Uint256 CTxIndex} {posThisTx : CDiskTxPos}
    {pindexBlock : Option Uint256} {fBlock fMiner : Bool} (hbase : tx.isCoinBase = false)
    (hsync : InSync txdb inputs queue)
    (h : tx.connectInputs env node inputs queue posThisTx pindexBlock fBlock fMiner = .ok queue')
    (hpending : (fBlock || fMiner) = true := by rfl) :
    FreeInTurn posThisTx (txdb.queued queue) tx.spends ∧
      txdb.queued queue' = SpendIndex.markAll posThisTx (txdb.queued queue) tx.spends := by
  have hspends : tx.spends = tx.vin.zipIdx.map fun t => t.1.prevout.slot := by
    rw [spends, hbase, if_neg Bool.false_ne_true]
    conv_lhs => rw [← List.zipIdx_map_fst 0 tx.vin, List.map_map]
    rfl
  unfold connectInputs at h
  rw [hbase, if_neg Bool.false_ne_true] at h
  obtain ⟨nValueIn, -, h⟩ := except_bind_eq_ok.mp h
  obtain ⟨⟨inputs', queue''⟩, hloop, h⟩ := except_bind_eq_ok.mp h
  have hqueue : queue'' = queue' := by
    dsimp only at h
    split at h
    · exact Except.ok.inj h
    · obtain ⟨-, h⟩ := except_seq_eq_ok.mp h
      exact Except.ok.inj h
  rw [hspends, ← hqueue]
  exact spendLoop_ok hsync hloop hpending

end CTransaction

namespace CBlock

/-- What the values of a transaction that is no coin base add to the totals of the loop. -/
structure Tallied (nBestHeight : Int) (tx : CTransaction) (inputs : MapPrevTx)
    (s s' : ConnectState) : Prop where
  valueIn : ∃ v, tx.getValueIn nBestHeight inputs false = .ok v ∧ s'.nValueIn = s.nValueIn + v
  valueOut : ∃ v, tx.getValueOut = .ok v ∧ s'.nValueOut = s.nValueOut + v
  stake : tx.isCoinStake = true → s'.nFees = s.nFees ∧
    s'.nStakeReward = (s'.nValueOut - s.nValueOut) - (s'.nValueIn - s.nValueIn)
  fee : tx.isCoinStake = false → s'.nStakeReward = s.nStakeReward ∧
    ∃ v, tx.getValueIn nBestHeight inputs true = .ok v ∧
      s'.nFees = s.nFees + (v - (s'.nValueOut - s.nValueOut))

theorem tally_ok {nBestHeight : Int} {tx : CTransaction} {inputs : MapPrevTx}
    {s s' : ConnectState} (h : tally nBestHeight tx inputs s = .ok s') :
    Tallied nBestHeight tx inputs s s' ∧ s'.nTxPos = s.nTxPos ∧
      s'.mapQueuedChanges = s.mapQueuedChanges := by
  unfold tally at h
  obtain ⟨vIn, hin, h⟩ := except_bind_eq_ok.mp h
  obtain ⟨vOut, hout, h⟩ := except_bind_eq_ok.mp h
  obtain ⟨sumIn, hsumIn, h⟩ := except_bind_eq_ok.mp h
  obtain ⟨sumOut, hsumOut, h⟩ := except_bind_eq_ok.mp h
  obtain ⟨-, rfl⟩ := Int64.checked_eq_ok.mp hsumIn
  obtain ⟨-, rfl⟩ := Int64.checked_eq_ok.mp hsumOut
  split at h
  · next hstake =>
    obtain ⟨reward, hreward, h⟩ := except_bind_eq_ok.mp h
    obtain ⟨-, rfl⟩ := Int64.checked_eq_ok.mp hreward
    obtain rfl := Except.ok.inj h
    refine ⟨⟨⟨vIn, hin, rfl⟩, ⟨vOut, hout, rfl⟩, fun _ => ⟨rfl, ?_⟩, fun hnot => ?_⟩, rfl,
      rfl⟩
    · show vOut - vIn = s.nValueOut + vOut - s.nValueOut - (s.nValueIn + vIn - s.nValueIn)
      omega
    · rw [hstake] at hnot
      exact absurd hnot nofun
  · next hstake =>
    obtain ⟨vObserved, hobserved, h⟩ := except_bind_eq_ok.mp h
    obtain ⟨fee, hfee, h⟩ := except_bind_eq_ok.mp h
    obtain ⟨fees, hfees, h⟩ := except_bind_eq_ok.mp h
    obtain ⟨-, rfl⟩ := Int64.checked_eq_ok.mp hfee
    obtain ⟨-, rfl⟩ := Int64.checked_eq_ok.mp hfees
    obtain rfl := Except.ok.inj h
    refine ⟨⟨⟨vIn, hin, rfl⟩, ⟨vOut, hout, rfl⟩, fun hstake' => absurd hstake' hstake,
      fun _ => ⟨rfl, vObserved, hobserved, ?_⟩⟩, rfl, rfl⟩
    show s.nFees + (vObserved - vOut) = s.nFees + (vObserved - (s.nValueOut + vOut - s.nValueOut))
    omega

/-- What the loop of `ConnectBlock` does for a transaction that is no coin base. -/
structure Spent (env : Env) (node : Node) (pindex : Uint256) (posThisTx : CDiskTxPos)
    (s s' : ConnectState) (queue : Map Uint256 CTxIndex) (tx : CTransaction)
    (inputs : MapPrevTx) : Prop where
  fetched : CTransaction.FetchedInputs node s.mapQueuedChanges true false tx.vin inputs
  outputs : ∀ txin ∈ tx.vin, CTransaction.outputExists inputs txin = true
  tallied : Tallied node.nBestHeight tx inputs s s'
  connect : tx.connectInputs env node inputs s.mapQueuedChanges posThisTx (some pindex) true false =
    .ok queue

theorem connectSpend_ok {env : Env} {pindex : Uint256} {posThisTx : CDiskTxPos}
    {s s' : ConnectState} {tx : CTransaction} {w w' : World} (hbase : tx.isCoinBase = false)
    (h : connectSpend env pindex posThisTx s tx w = .ok s' w') :
    (∃ inputs, Spent env w.node pindex posThisTx s s' s'.mapQueuedChanges tx inputs) ∧
      s'.nTxPos = s.nTxPos := by
  obtain ⟨inputs, w₁, hfetch, h⟩ := bind_eq_ok.mp h
  have hfetch := adaptExcept_eq_ok.mp hfetch
  obtain ⟨nSigOps, w₂, hsigops, h⟩ := bind_eq_ok.mp h
  obtain ⟨_, w₃, hrequire, h⟩ := bind_eq_ok.mp h
  obtain ⟨node, w₄, hnode, h⟩ := bind_eq_ok.mp h
  obtain ⟨s₂, w₅, htally, h⟩ := bind_eq_ok.mp h
  obtain ⟨queue, w₆, hconnect, h⟩ := bind_eq_ok.mp h
  obtain ⟨rfl, -⟩ := pure_eq_ok.mp h
  have h₁ := ((Reads.fetchInputs _ _ _ _).ok hfetch).node
  have h₂ := (Keeps.ok (r := SameNode) (Keeps.fromExcept _) hsigops).node
  have h₃ := ((Reads.require _ _).ok hrequire).node
  obtain ⟨rfl, rfl⟩ := EStateM.Result.ok.inj hnode
  have hsame : w₃.node = w.node := by rw [h₃, h₂, h₁]
  obtain ⟨htally, -⟩ := fromExcept_eq_ok.mp htally
  obtain ⟨hconnect, -⟩ := fromExcept_eq_ok.mp hconnect
  obtain ⟨hfetched, houtputs⟩ := CTransaction.fetchInputs_ok hbase hfetch
  obtain ⟨htallied, hpos, hqueue⟩ := tally_ok htally
  rw [hsame] at htallied hconnect
  refine ⟨⟨inputs, hfetched, houtputs, ⟨htallied.valueIn, htallied.valueOut, htallied.stake,
    htallied.fee⟩, ?_⟩, hpos⟩
  rw [hqueue] at hconnect
  exact mapError_eq_ok.mp hconnect

/-- What the body of the loop of `ConnectBlock` does. -/
structure ConnectedTx (env : Env) (node : Node) (pindex : Uint256) (index : CBlockIndex)
    (s s' : ConnectState) (tx : CTransaction) : Prop where
  overwrites : overwrites (node.txdb.readTxIndex (tx.getHash env)) = false
  nTxPos : s'.nTxPos = s.nTxPos + tx.getSerializeSize
  coinBase : tx.isCoinBase = true → s'.nFees = s.nFees ∧ s'.nValueIn = s.nValueIn ∧
    s'.nStakeReward = s.nStakeReward ∧ ∃ v, tx.getValueOut = .ok v ∧
      s'.nValueOut = s.nValueOut + v
  queued : ∃ queue, s'.mapQueuedChanges = queue.insert (tx.getHash env)
      (.new ⟨index.nFile, index.nBlockPos, s.nTxPos⟩ tx.vout.length) ∧
    (tx.isCoinBase = true → queue = s.mapQueuedChanges) ∧
    (tx.isCoinBase = false → ∃ inputs,
      Spent env node pindex ⟨index.nFile, index.nBlockPos, s.nTxPos⟩ s s' queue tx inputs)

theorem connectTx_ok {env : Env} {pindex : Uint256} {index : CBlockIndex} {s s' : ConnectState}
    {tx : CTransaction} {w w' : World} (h : connectTx env pindex index false s tx w = .ok s' w') :
    ConnectedTx env w.node pindex index s s' tx := by
  obtain ⟨txindexOld, w₁, hread, h⟩ := bind_eq_ok.mp h
  obtain ⟨rfl, rfl⟩ := EStateM.Result.ok.inj hread
  obtain ⟨_, w₂, hoverwrites, h⟩ := bind_eq_ok.mp h
  obtain ⟨_, w₃, hsigops, h⟩ := bind_eq_ok.mp h
  obtain ⟨s₁, w₄, hs₁, h⟩ := bind_eq_ok.mp h
  obtain ⟨rfl, -⟩ := pure_eq_ok.mp h
  have h₂ := ((Reads.require _ _).ok hoverwrites).node
  have h₃ := ((Reads.require _ _).ok hsigops).node
  have hnot : CBlock.overwrites (w.node.txdb.readTxIndex (tx.getHash env)) = false := by
    cases hcase : CBlock.overwrites (w.node.txdb.readTxIndex (tx.getHash env)) with
    | false => rfl
    | true =>
      rw [hcase] at hoverwrites
      exact absurd hoverwrites nofun
  cases hbase : tx.isCoinBase with
  | true =>
    rw [hbase] at hs₁
    obtain ⟨v, w₅, hv, hs₁⟩ := bind_eq_ok.mp hs₁
    obtain ⟨sum, w₆, hsum, hs₁⟩ := bind_eq_ok.mp hs₁
    obtain ⟨rfl, -⟩ := pure_eq_ok.mp hs₁
    obtain ⟨hv, -⟩ := fromExcept_eq_ok.mp hv
    obtain ⟨-, rfl⟩ := Int64.checked_eq_ok.mp (fromExcept_eq_ok.mp hsum).1
    exact ⟨hnot, rfl, fun _ => ⟨rfl, rfl, rfl, v, hv, rfl⟩, s.mapQueuedChanges, rfl, fun _ => rfl,
      fun hbase' => absurd (hbase.symm.trans hbase') nofun⟩
  | false =>
    rw [hbase] at hs₁
    obtain ⟨⟨inputs, hspent⟩, hpos⟩ := connectSpend_ok hbase hs₁
    rw [h₃, h₂] at hspent
    refine ⟨hnot, hpos, fun hbase' => absurd (hbase.symm.trans hbase') nofun, s₁.mapQueuedChanges,
      rfl, fun hbase' => absurd (hbase.symm.trans hbase') nofun, fun _ => ⟨inputs, ?_⟩⟩
    exact ⟨hspent.fetched, hspent.outputs, ⟨hspent.tallied.valueIn, hspent.tallied.valueOut,
      hspent.tallied.stake, hspent.tallied.fee⟩, hspent.connect⟩

/-- What one round of the loop does to the index of the block under construction. -/
theorem ConnectedTx.index {env : Env} {node : Node} {pindex : Uint256} {index : CBlockIndex}
    {s s' : ConnectState} {tx : CTransaction}
    (h : ConnectedTx env node pindex index s s' tx) :
    CTransaction.FreeInTurn ⟨index.nFile, index.nBlockPos, s.nTxPos⟩
        (node.txdb.queued s.mapQueuedChanges) tx.spends ∧
      node.txdb.queued s'.mapQueuedChanges = SpendIndex.connect .null
        (node.txdb.queued s.mapQueuedChanges)
        (tx.item env ⟨index.nFile, index.nBlockPos, s.nTxPos⟩) := by
  obtain ⟨queue, hqueue, hcoinbase, hspend⟩ := h.queued
  rw [hqueue, TxDB.queued_insert]
  cases hbase : tx.isCoinBase with
  | true =>
    have hspends : tx.spends = [] := by rw [CTransaction.spends, hbase]; rfl
    rw [hcoinbase hbase, SpendIndex.connect]
    simp only [CTransaction.item, hspends]
    exact ⟨trivial, rfl⟩
  | false =>
    obtain ⟨inputs, hspent⟩ := hspend hbase
    obtain ⟨hfree, hmarked⟩ :=
      CTransaction.connectInputs_ok hbase hspent.fetched.inSync hspent.connect
    rw [hmarked]
    exact ⟨hfree, rfl⟩

/-- The items of a run of the loop are free to be connected one after the other. -/
def Accepts : TxSpends → List TxItem → Prop
  | _, [] => True
  | ix, item :: items => CTransaction.FreeInTurn item.pos ix item.spends ∧
    Accepts (SpendIndex.connect .null ix item) items

theorem connectLoop_ok {env : Env} {pindex : Uint256} {index : CBlockIndex} {s s' : ConnectState}
    {txs : List CTransaction} {w w' : World}
    (h : txs.foldlM (connectTx env pindex index false) s w = .ok s' w') :
    Accepts (w.node.txdb.queued s.mapQueuedChanges)
        (txItems env index.nFile index.nBlockPos s.nTxPos txs) ∧
      w.node.txdb.queued s'.mapQueuedChanges = SpendIndex.connectAll .null
        (w.node.txdb.queued s.mapQueuedChanges)
        (txItems env index.nFile index.nBlockPos s.nTxPos txs) ∧
      ∀ tx ∈ txs, overwrites (w.node.txdb.readTxIndex (tx.getHash env)) = false := by
  induction txs generalizing s w with
  | nil =>
    obtain ⟨rfl, -⟩ := pure_eq_ok.mp h
    exact ⟨trivial, rfl, fun _ hmem => absurd hmem (by simp)⟩
  | cons tx txs ih =>
    rw [List.foldlM_cons] at h
    obtain ⟨s₁, w₁, hone, h⟩ := bind_eq_ok.mp h
    have hnode := ((Reads.connectTx _ _ _ _ _ _).ok hone).node
    have htx := connectTx_ok hone
    obtain ⟨hfree, hconnect⟩ := htx.index
    obtain ⟨haccepts, hqueue, hover⟩ := ih h
    rw [hnode, htx.nTxPos, hconnect] at haccepts hqueue
    rw [hnode] at hover
    exact ⟨⟨hfree, haccepts⟩, hqueue, List.forall_mem_cons.mpr ⟨htx.overwrites, hover⟩⟩

end CBlock

/-! ## Writing in a transaction -/

namespace World

/-- A transaction is open on the database handle. -/
def Open (w : World) : Prop := w.node.txdb.activeBatch.isSome = true

/-- Add operations to the open transaction. -/
def addOps (w : World) (ops : List (BatchOp DbKey DbVal)) : World :=
  { w with node := { w.node with
      txdb := ⟨w.node.txdb.pdb, w.node.txdb.activeBatch.map (· ++ ops)⟩ } }

def addLog (w : World) (evs : List Event) : World := { w with log := w.log ++ evs }

@[simp] theorem addOps_nil (w : World) : w.addOps [] = w := by
  have htxdb : (⟨w.node.txdb.pdb, w.node.txdb.activeBatch.map (· ++ [])⟩ : TxDB) = w.node.txdb := by
    obtain ⟨pdb, batch⟩ := w.node.txdb
    cases batch <;> simp
  rw [addOps, htxdb]

@[simp] theorem addLog_nil (w : World) : w.addLog [] = w := by simp [addLog]

theorem addOps_addOps (w : World) (ops ops' : List (BatchOp DbKey DbVal)) :
    (w.addOps ops).addOps ops' = w.addOps (ops ++ ops') := by
  cases hbatch : w.node.txdb.activeBatch <;> simp [addOps, hbatch]

theorem addLog_addLog (w : World) (evs evs' : List Event) :
    (w.addLog evs).addLog evs' = w.addLog (evs ++ evs') := by
  simp [addLog]

theorem Open.addOps {w : World} (h : w.Open) (ops : List (BatchOp DbKey DbVal)) :
    (w.addOps ops).Open := by
  simpa [Open, World.addOps] using h

theorem Open.addLog {w : World} (h : w.Open) (evs : List Event) : (w.addLog evs).Open := h

/-- The database as the open transaction will leave it. -/
theorem view_addOps {w : World} (h : w.Open) (ops : List (BatchOp DbKey DbVal)) :
    (w.addOps ops).node.txdb.view = applyBatch w.node.txdb.view ops := by
  obtain ⟨batch, hbatch⟩ := Option.isSome_iff_exists.mp h
  simp [addOps, CTxDB.view, hbatch, applyBatch]

@[simp] theorem index?_addOps (w : World) (ops : List (BatchOp DbKey DbVal)) :
    (w.addOps ops).node.index? = w.node.index? := rfl

@[simp] theorem node_addLog (w : World) (evs : List Event) : (w.addLog evs).node = w.node := rfl

end World

theorem require_true (e : Exit) (w : World) : (require true e : NodeM Unit) w = .ok () w := rfl

theorem change_run {w : World} (h : w.Open) (op : BatchOp DbKey DbVal) :
    change op w = .ok true (w.addOps [op]) := by
  obtain ⟨batch, hbatch⟩ := Option.isSome_iff_exists.mp h
  rw [change_open op hbatch, World.addOps, hbatch]
  rfl

theorem emit_forM {α : Type} (f : α → Event) (xs : List α) (w : World) :
    (xs.forM fun x => emit (f x)) w = .ok () (w.addLog (xs.map f)) := by
  induction xs generalizing w with
  | nil => rw [List.map_nil, World.addLog_nil]; rfl
  | cons x xs ih =>
    show (xs.forM fun x => emit (f x)) (w.addLog [f x]) = _
    rw [ih, World.addLog_addLog]
    rfl

/-- The operation of `WriteBlockIndex`. -/
def recordOp (env : Env) (d : CDiskBlockIndex) : BatchOp DbKey DbVal :=
  .put (.blockindex (d.computeHash env)) (.blockindex { d with blockHash := d.computeHash env })

theorem writeBlockIndex_run {w : World} (h : w.Open) (env : Env) (d : CDiskBlockIndex) :
    writeBlockIndex env d w = .ok true (w.addOps [recordOp env d]) :=
  change_run h _

theorem deref_ok {p : Uint256} {index : CBlockIndex} {w w' : World}
    (h : deref p w = .ok index w') : w.node.index? p = some index ∧ w' = w := by
  unfold deref at h
  split at h
  · next index' hp =>
    obtain ⟨rfl, rfl⟩ := EStateM.Result.ok.inj h
    exact ⟨hp, rfl⟩
  · exact absurd h nofun

namespace CBlock

/-- What `ConnectBlock` and `DisconnectBlock` write for the previous block. -/
def hashNextOps (env : Env) (node : Node) (pprev : Option Uint256) (hashNext : Uint256) :
    List (BatchOp DbKey DbVal) :=
  match pprev.bind node.index? with
  | none => []
  | some indexPrev =>
    [recordOp env { CDiskBlockIndex.ofIndex indexPrev with hashNext := hashNext }]

/-- A pointer that is null or leads to an object. -/
def Leads (node : Node) (pprev : Option Uint256) : Prop :=
  ∀ p, pprev = some p → ∃ index, node.index? p = some index

theorem writeHashNext_iff {env : Env} {pprev : Option Uint256} {hashNext : Uint256} {e : Exit}
    {w w' : World} (hopen : w.Open) : writeHashNext env pprev hashNext e w = .ok () w' ↔
      Leads w.node pprev ∧ w' = w.addOps (hashNextOps env w.node pprev hashNext) := by
  cases pprev with
  | none =>
    rw [hashNextOps, Option.bind_none, World.addOps_nil]
    refine pure_eq_ok.trans ⟨fun h => ⟨fun _ hp => absurd hp (by simp), h.2⟩, fun h => ⟨rfl, h.2⟩⟩
  | some p =>
    cases hp : w.node.index? p with
    | none =>
      constructor
      · intro h
        obtain ⟨indexPrev, w₁, hderef, -⟩ := bind_eq_ok.mp h
        rw [deref, hp] at hderef
        exact absurd hderef error_ne_ok
      · rintro ⟨hleads, -⟩
        obtain ⟨index, hindex⟩ := hleads p rfl
        rw [hp] at hindex
        exact absurd hindex (Option.some_ne_none index).symm
    | some indexPrev =>
      have hrun : writeHashNext env (some p) hashNext e w =
          .ok () (w.addOps (hashNextOps env w.node (some p) hashNext)) := by
        simp only [writeHashNext, bind_run, deref, hp, writeBlockIndex_run hopen, hashNextOps,
          Option.bind_some]
        rfl
      rw [hrun]
      constructor
      · intro h
        obtain ⟨-, rfl⟩ := EStateM.Result.ok.inj h
        exact ⟨fun q hq => ⟨indexPrev, by rw [← Option.some.inj hq]; exact hp⟩, rfl⟩
      · rintro ⟨-, rfl⟩
        rfl

/-- The operations for the queued changes. -/
def queuedOps (queue : Map Uint256 CTxIndex) : List (BatchOp DbKey DbVal) :=
  queue.toList.map fun entry => .put (.tx entry.1) (.txindex entry.2)

theorem writeQueued_forM {entries : List (Uint256 × CTxIndex)} {w : World} (hopen : w.Open) :
    entries.forM writeQueued w = .ok () (w.addOps
      (entries.map fun entry => .put (.tx entry.1) (.txindex entry.2))) := by
  induction entries generalizing w with
  | nil => rw [List.map_nil, World.addOps_nil]; rfl
  | cons entry entries ih =>
    show (writeQueued entry >>= fun _ => entries.forM writeQueued) w = _
    have hone : writeQueued entry w =
        .ok () (w.addOps [.put (.tx entry.1) (.txindex entry.2)]) := by
      simp only [writeQueued, bind_run, updateTxIndex, change_run hopen]
      rfl
    rw [bind_run, hone]
    show entries.forM writeQueued _ = _
    rw [ih (hopen.addOps _), World.addOps_addOps]
    rfl

/-- The events of a block that has been connected. -/
def connectedEvents (env : Env) (block : CBlock) (pindex : Uint256) : List Event :=
  block.vtx.map (fun tx => .syncWithWallets (tx.getHash env) true) ++ [.connected pindex]

/-- What `ConnectBlock` writes: the record of the block, the queued changes and the record of
the previous block. -/
def connectOps (env : Env) (node : Node) (index : CBlockIndex) (pindex : Uint256)
    (queue : Map Uint256 CTxIndex) : List (BatchOp DbKey DbVal) :=
  recordOp env (CDiskBlockIndex.ofIndex index) ::
    (queuedOps queue ++ hashNextOps env node index.pprev pindex)

theorem prevMoneySupply_ok {pprev : Option Uint256} {w w' : World} {n : Int}
    (h : prevMoneySupply pprev w = .ok n w') : w' = w := by
  cases pprev with
  | none => exact (pure_eq_ok.mp h).2
  | some p =>
    obtain ⟨indexPrev, w₁, hderef, h⟩ := bind_eq_ok.mp h
    obtain ⟨-, rfl⟩ := pure_eq_ok.mp h
    exact (deref_ok hderef).2

/-- The index object with its new sums, and everything that is written and logged. -/
theorem writeConnected_ok {env : Env} {block : CBlock} {pindex : Uint256} {index : CBlockIndex}
    {s : ConnectState} {w w' : World} (hopen : w.Open) (hp : w.node.index? pindex = some index)
    (h : block.writeConnected env pindex index false s w = .ok () w') :
    Leads w.node index.pprev ∧ ∃ index' node, index'.links = index.links ∧
      node = w.node.setIndex pindex index' ∧
      w' = ({ w with node := node }.addOps
        (connectOps env node index' pindex s.mapQueuedChanges)).addLog
          (connectedEvents env block pindex) := by
  unfold writeConnected at h
  obtain ⟨n, w₁, hsupply, h⟩ := bind_eq_ok.mp h
  rw [prevMoneySupply_ok hsupply] at h
  obtain ⟨index', hindex'⟩ : ∃ index' : CBlockIndex, index' = { index with
      nMint := s.nValueOut - s.nValueIn + s.nFees
      nMoneySupply := n + s.nValueOut - s.nValueIn } := ⟨_, rfl⟩
  rw [← hindex'] at h
  have hlinks : index'.links = index.links := by rw [hindex']; rfl
  have hprev : index'.pprev = index.pprev := by rw [hindex']
  obtain ⟨_, w₂, hset, h⟩ := bind_eq_ok.mp h
  obtain ⟨-, rfl⟩ := EStateM.Result.ok.inj hset
  have hopen₂ : World.Open { w with node := w.node.setIndex pindex index' } := hopen
  obtain ⟨ok, w₃, hwrite, h⟩ := bind_eq_ok.mp h
  obtain ⟨rfl, rfl⟩ := EStateM.Result.ok.inj ((writeBlockIndex_run hopen₂ _ _).symm.trans hwrite)
  obtain ⟨_, w₄, hrequire, h⟩ := bind_eq_ok.mp h
  obtain ⟨-, rfl⟩ := EStateM.Result.ok.inj hrequire
  rw [if_neg Bool.false_ne_true] at h
  obtain ⟨_, w₅, hqueued, h⟩ := bind_eq_ok.mp h
  obtain ⟨-, rfl⟩ := EStateM.Result.ok.inj ((writeQueued_forM (hopen₂.addOps _)).symm.trans hqueued)
  obtain ⟨_, w₆, hnext, h⟩ := bind_eq_ok.mp h
  obtain ⟨hleads, rfl⟩ := (writeHashNext_iff ((hopen₂.addOps _).addOps _)).mp hnext
  obtain ⟨_, w₇, hsync, h⟩ := bind_eq_ok.mp h
  obtain ⟨-, rfl⟩ := EStateM.Result.ok.inj ((emit_forM _ _ _).symm.trans hsync)
  obtain ⟨-, rfl⟩ := EStateM.Result.ok.inj h
  refine ⟨?_, index', _, hlinks, rfl, ?_⟩
  · intro p hp'
    obtain ⟨indexPrev, hindexPrev⟩ := hleads p (hprev.trans hp')
    rw [World.index?_addOps, World.index?_addOps, Node.index?_setIndex] at hindexPrev
    split at hindexPrev
    · next heq => exact ⟨index, heq ▸ hp⟩
    · exact ⟨indexPrev, hindexPrev⟩
  · rw [World.addOps_addOps, World.addOps_addOps]
    exact World.addLog_addLog _ _ _

/-- A successful `ConnectBlock`, in an open transaction. -/
structure Connects (env : Env) (block : CBlock) (pindex : Uint256) (index index' : CBlockIndex)
    (queue : Map Uint256 CTxIndex) (w w' : World) : Prop where
  object : w.node.index? pindex = some index
  checked : block.Checked env
  leads : Leads w.node index.pprev
  accepts : Accepts w.node.txdb.spends (block.items env index.nFile index.nBlockPos)
  queued : w.node.txdb.queued queue = SpendIndex.connectAll .null w.node.txdb.spends
    (block.items env index.nFile index.nBlockPos)
  overwrites : ∀ tx ∈ block.vtx, overwrites (w.node.txdb.readTxIndex (tx.getHash env)) = false
  links : index'.links = index.links
  node : w'.node = (World.addOps { w with node := w.node.setIndex pindex index' }
    (connectOps env (w.node.setIndex pindex index') index' pindex queue)).node
  log : w'.log = w.log ++ connectedEvents env block pindex

theorem connectBlock_ok {env : Env} {block : CBlock} {pindex : Uint256} {w w' : World}
    (hopen : w.Open) (h : block.connectBlock env pindex false w = .ok () w') :
    ∃ index index' queue, block.Connects env pindex index index' queue w w' := by
  rw [connectBlock_eq] at h
  obtain ⟨⟨index, s⟩, w₁, hcheck, hwrite⟩ := bind_eq_ok.mp h
  have hobject := checkConnect_index hcheck
  have hsame := (Reads.checkConnect env block pindex false).ok hcheck
  unfold checkConnect at hcheck
  obtain ⟨sys, w₂, hsys, hcheck⟩ := bind_eq_ok.mp hcheck
  obtain ⟨_, w₃, hblock, hcheck⟩ := bind_eq_ok.mp hcheck
  obtain ⟨index₁, w₄, hindex, hcheck⟩ := bind_eq_ok.mp hcheck
  obtain ⟨s₁, w₅, hloop, hcheck⟩ := bind_eq_ok.mp hcheck
  obtain ⟨_, w₆, hreward, hcheck⟩ := bind_eq_ok.mp hcheck
  obtain ⟨heq, -⟩ := pure_eq_ok.mp hcheck
  obtain ⟨rfl, rfl⟩ := Prod.mk.inj heq
  have hchecked := checkBlock_ok (fromExcept_eq_ok.mp hblock).1
  have hnode : w₄.node = w.node := by
    rw [((Reads.deref pindex).ok hindex).node,
      (Keeps.ok (r := SameNode) (Keeps.fromExcept _) hblock).node, (Reads.getSys.ok hsys).node]
  obtain ⟨haccepts, hqueued, hover⟩ := connectLoop_ok hloop
  rw [hnode] at haccepts hqueued hover
  have hopen₁ : w₁.Open := by rw [World.Open, hsame.node]; exact hopen
  have hobject₁ : w₁.node.index? pindex = some index := by rw [hsame.node]; exact hobject
  obtain ⟨hleads, index', node, hlinks, rfl, rfl⟩ := writeConnected_ok hopen₁ hobject₁ hwrite
  refine ⟨index, index', s.mapQueuedChanges, hobject, hchecked, by rw [← hsame.node]; exact hleads,
    ?_, ?_, hover, hlinks, ?_, ?_⟩
  · simpa [ConnectState.start, items] using haccepts
  · simpa [ConnectState.start, items] using hqueued
  · simp only [World.node_addLog, World.addOps, hsame.node]
  · simp only [World.addLog, World.addOps, hsame.log]

/-- The queued changes in the database. -/
theorem getElem?_queuedOps_tx (m : Map DbKey DbVal) (queue : Map Uint256 CTxIndex)
    (hash : Uint256) : (applyBatch m (queuedOps queue))[DbKey.tx hash]? =
      (queue[hash]?.map DbVal.txindex).or m[DbKey.tx hash]? := by
  cases hq : queue[hash]? with
  | none =>
    rw [Option.map_none, Option.none_or]
    refine getElem?_applyBatch_of_ne fun op hop => ?_
    obtain ⟨entry, hentry, rfl⟩ := List.mem_map.mp hop
    intro heq
    rw [← DbKey.tx.inj heq, (Map.mem_toList queue entry.1 entry.2).mp hentry] at hq
    exact absurd hq nofun
  | some txindex =>
    rw [Option.map_some, Option.some_or]
    exact getElem?_applyBatch_puts DbKey.tx DbVal.txindex
      (fun _ _ h => DbKey.tx.inj h) (Map.pairwise_toList queue)
      ((Map.mem_toList queue hash txindex).mpr hq)

theorem hashNextOps_key {env : Env} {node : Node} {pprev : Option Uint256} {hashNext : Uint256}
    {op : BatchOp DbKey DbVal} (h : op ∈ hashNextOps env node pprev hashNext) :
    ∃ q, op.key = .blockindex q := by
  unfold hashNextOps at h
  split at h
  · exact absurd h nofun
  · rw [List.mem_singleton.mp h]
    exact ⟨_, rfl⟩

theorem Connects.view {env : Env} {block : CBlock} {pindex : Uint256} {index index' : CBlockIndex}
    {queue : Map Uint256 CTxIndex} {w w' : World} (hopen : w.Open)
    (h : block.Connects env pindex index index' queue w w') : w'.node.txdb.view =
      applyBatch w.node.txdb.view
        (connectOps env (w.node.setIndex pindex index') index' pindex queue) := by
  rw [h.node]
  exact World.view_addOps (w := { w with node := w.node.setIndex pindex index' }) hopen _

/-- The transaction index after `ConnectBlock` has the items of the block connected. -/
theorem Connects.spends {env : Env} {block : CBlock} {pindex : Uint256} {index index' : CBlockIndex}
    {queue : Map Uint256 CTxIndex} {w w' : World} (hopen : w.Open)
    (h : block.Connects env pindex index index' queue w w') : w'.node.txdb.spends =
      SpendIndex.connectAll .null w.node.txdb.spends
        (block.items env index.nFile index.nBlockPos) := by
  rw [← h.queued]
  funext hash
  rw [TxDB.spends, TxDB.queued, TxDB.readTxIndex_eq_view, TxDB.readTxIndex_eq_view, h.view hopen,
    connectOps, ← List.singleton_append, ← List.append_assoc, applyBatch_append,
    getElem?_applyBatch_of_ne, applyBatch_append, getElem?_queuedOps_tx,
    getElem?_applyBatch_of_ne]
  · cases queue[hash]? <;> rfl
  · rintro op (_ | ⟨_, ⟨⟩⟩)
    simp [recordOp, BatchOp.key]
  · intro op hop
    obtain ⟨q, hq⟩ := hashNextOps_key hop
    rw [hq]
    exact fun heq => by cases heq

end CBlock

end NoLimitCoin
