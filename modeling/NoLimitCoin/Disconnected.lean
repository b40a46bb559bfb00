import NoLimitCoin.Connected

/-!
# What disconnecting a block writes

`DisconnectBlock` takes the items of its block back from the transaction index, the last one
first, directly in the open transaction.

Results:

1. `disconnectBlock_ok`: what `DisconnectBlock` writes.
2. `disconnectBlock_run`: it succeeds where the slots its transactions took are there.
-/

namespace NoLimitCoin

open Prog NodeM

/-- Operations on entries of the transaction index only. -/
def TxOps (ops : List (BatchOp DbKey DbVal)) : Prop := ∀ op ∈ ops, ∃ hash, op.key = .tx hash

theorem TxOps.append {ops ops' : List (BatchOp DbKey DbVal)} (h : TxOps ops) (h' : TxOps ops') :
    TxOps (ops ++ ops') := by
  intro op hop
  rcases List.mem_append.mp hop with hop | hop
  · exact h op hop
  · exact h' op hop

namespace TxDB

theorem spends_put {w : World} (hopen : w.Open) (hash : Uint256) (txindex : CTxIndex) :
    (w.addOps [.put (.tx hash) (.txindex txindex)]).node.txdb.spends =
      Function.update w.node.txdb.spends hash (some txindex.entry) := by
  funext h
  rw [spends, readTxIndex_eq_view, World.view_addOps hopen, Function.update_apply, spends,
    readTxIndex_eq_view]
  simp only [applyBatch, List.foldl_cons, List.foldl_nil, BatchOp.apply, Map.getElem?_insert,
    DbKey.tx.injEq]
  by_cases heq : h = hash
  · rw [if_pos heq.symm, if_pos heq]
    rfl
  · rw [if_neg (Ne.symm heq), if_neg heq]

theorem spends_delete {w : World} (hopen : w.Open) (hash : Uint256) :
    (w.addOps [.delete (.tx hash)]).node.txdb.spends =
      Function.update w.node.txdb.spends hash none := by
  funext h
  rw [spends, readTxIndex_eq_view, World.view_addOps hopen, Function.update_apply, spends,
    readTxIndex_eq_view]
  simp only [applyBatch, List.foldl_cons, List.foldl_nil, BatchOp.apply, Map.getElem?_erase,
    DbKey.tx.injEq]
  by_cases heq : h = hash
  · rw [if_pos heq.symm, if_pos heq]
    rfl
  · rw [if_neg (Ne.symm heq), if_neg heq]

end TxDB

namespace CTransaction

theorem unspendInput_iff {txin : CTxIn} {w w' : World} (hopen : w.Open) :
    unspendInput txin w = .ok () w' ↔
      ∃ txindex, w.node.txdb.readTxIndex txin.prevout.hash = some txindex ∧
        txin.prevout.n < txindex.vSpent.length ∧
        w' = w.addOps [.put (.tx txin.prevout.hash)
          (.txindex { txindex with vSpent := txindex.vSpent.set txin.prevout.n .null })] := by
  cases hread : w.node.txdb.readTxIndex txin.prevout.hash with
  | none =>
    have hrun : unspendInput txin w =
        .error (.reject 0 "DisconnectInputs() : ReadTxIndex failed") w := by
      simp only [unspendInput, bind_run, NodeM.readTxIndex, hread]
      rfl
    rw [hrun]
    constructor
    · intro h
      exact absurd h error_ne_ok
    · rintro ⟨txindex, h, -⟩
      exact absurd h (by simp)
  | some txindex =>
    by_cases hlt : txin.prevout.n < txindex.vSpent.length
    · have hrun : unspendInput txin w = .ok () (w.addOps [.put (.tx txin.prevout.hash)
          (.txindex { txindex with vSpent := txindex.vSpent.set txin.prevout.n .null })]) := by
        simp only [unspendInput, bind_run, NodeM.readTxIndex, hread, hlt, decide_true,
          require_true, updateTxIndex, change_run hopen]
      rw [hrun]
      constructor
      · intro h
        exact ⟨txindex, rfl, hlt, (EStateM.Result.ok.inj h).2.symm⟩
      · rintro ⟨txindex', heq, -, rfl⟩
        rw [Option.some.inj heq]
    · have hrun : unspendInput txin w =
          .error (.reject 0 "DisconnectInputs() : prevout.n out of range") w := by
        simp only [unspendInput, bind_run, NodeM.readTxIndex, hread, hlt, decide_false]
        rfl
      rw [hrun]
      constructor
      · intro h
        exact absurd h error_ne_ok
      · rintro ⟨txindex', heq, hlt', -⟩
        rw [← Option.some.inj heq] at hlt'
        exact absurd hlt' hlt

/-- Taking back the marks of a transaction writes entries of the index only. -/
theorem unspendAll_ok {vin : List CTxIn} {w w' : World} (hopen : w.Open)
    (h : vin.forM unspendInput w = .ok () w') : ∃ ops, TxOps ops ∧ w' = w.addOps ops ∧
      w'.node.txdb.spends =
        SpendIndex.markAll .null w.node.txdb.spends (vin.map fun txin => txin.prevout.slot) := by
  induction vin generalizing w with
  | nil =>
    obtain ⟨-, rfl⟩ := EStateM.Result.ok.inj h
    exact ⟨[], fun _ hop => absurd hop List.not_mem_nil, by simp, rfl⟩
  | cons txin vin ih =>
    obtain ⟨_, w₁, hone, h⟩ := bind_eq_ok.mp h
    obtain ⟨txindex, hread, hlt, rfl⟩ := (unspendInput_iff hopen).mp hone
    obtain ⟨ops, hops, rfl, hspends⟩ := ih (hopen.addOps _) h
    refine ⟨_ :: ops, ?_, World.addOps_addOps _ _ _, ?_⟩
    · rintro op (_ | ⟨_, hop⟩)
      · exact ⟨txin.prevout.hash, rfl⟩
      · exact hops op hop
    · rw [hspends, TxDB.spends_put hopen]
      simp only [List.map_cons, SpendIndex.markAll, List.foldl_cons, SpendIndex.mark, TxDB.spends,
        COutPoint.slot, hread]
      rfl

/-- It succeeds where every slot is there. -/
theorem unspendAll_run {vin : List CTxIn} {w : World} (hopen : w.Open)
    (h : ∀ txin ∈ vin, (w.node.txdb.spends.slot txin.prevout.slot).isSome = true) :
    ∃ w', vin.forM unspendInput w = .ok () w' := by
  induction vin generalizing w with
  | nil => exact ⟨w, rfl⟩
  | cons txin vin ih =>
    obtain ⟨htxin, hvin⟩ := List.forall_mem_cons.mp h
    have hfound : ∃ txindex, w.node.txdb.readTxIndex txin.prevout.hash = some txindex ∧
        txin.prevout.n < txindex.vSpent.length := by
      cases hread : w.node.txdb.readTxIndex txin.prevout.hash with
      | none => simp [SpendIndex.slot, COutPoint.slot, TxDB.spends, hread] at htxin
      | some txindex =>
        refine ⟨txindex, rfl, ?_⟩
        simpa [SpendIndex.slot, COutPoint.slot, TxDB.spends, hread, CTxIndex.entry] using htxin
    obtain ⟨txindex, hread, hlt⟩ := hfound
    have hone := (unspendInput_iff hopen).mpr ⟨txindex, hread, hlt, rfl⟩
    have hspends := TxDB.spends_put hopen txin.prevout.hash
      { txindex with vSpent := txindex.vSpent.set txin.prevout.n .null }
    obtain ⟨w', hrest⟩ := ih (hopen.addOps _) (by
      intro txin' hmem
      have hmark : Function.update w.node.txdb.spends txin.prevout.hash
          (some (CTxIndex.entry { txindex with
            vSpent := txindex.vSpent.set txin.prevout.n .null })) =
          SpendIndex.mark .null w.node.txdb.spends txin.prevout.slot := by
        simp only [SpendIndex.mark, COutPoint.slot, TxDB.spends, hread]
        rfl
      rw [hspends, hmark, SpendIndex.slot_mark]
      split
      · rw [Option.isSome_map]
        exact hvin txin' hmem
      · exact hvin txin' hmem)
    exact ⟨w', bind_eq_ok.mpr ⟨(), _, hone, hrest⟩⟩

theorem disconnectInputs_ok {env : Env} {tx : CTransaction} {w w' : World} (pos : CDiskTxPos)
    (hopen : w.Open) (h : tx.disconnectInputs env w = .ok () w') :
    ∃ ops, TxOps ops ∧ w' = w.addOps ops ∧
      w'.node.txdb.spends = SpendIndex.disconnect .null w.node.txdb.spends (tx.item env pos) := by
  obtain ⟨_, w₁, hunspend, h⟩ := bind_eq_ok.mp h
  have hw₁ : ∃ ops, TxOps ops ∧ w₁ = w.addOps ops ∧
      w₁.node.txdb.spends = SpendIndex.markAll .null w.node.txdb.spends tx.spends := by
    rw [spends]
    split at hunspend
    · next hbase =>
      obtain ⟨-, rfl⟩ := pure_eq_ok.mp hunspend
      rw [if_pos hbase]
      exact ⟨[], fun _ hop => absurd hop List.not_mem_nil, by simp, rfl⟩
    · next hbase =>
      rw [if_neg hbase]
      exact unspendAll_ok hopen hunspend
  obtain ⟨ops, hops, rfl, hspends⟩ := hw₁
  obtain ⟨ok, w₂, herase, h⟩ := bind_eq_ok.mp h
  obtain ⟨-, rfl⟩ := EStateM.Result.ok.inj ((change_run (hopen.addOps _) _).symm.trans herase)
  obtain ⟨-, rfl⟩ := pure_eq_ok.mp h
  refine ⟨ops ++ [.delete (.tx (tx.getHash env))], hops.append ?_, World.addOps_addOps _ _ _, ?_⟩
  · intro op hop
    exact ⟨tx.getHash env, by rw [List.mem_singleton.mp hop]; rfl⟩
  · rw [TxDB.spends_delete (hopen.addOps _), hspends]
    rfl

theorem disconnectInputs_run (env : Env) {tx : CTransaction} {w : World} (hopen : w.Open)
    (h : ∀ o ∈ tx.spends, (w.node.txdb.spends.slot o).isSome = true) :
    ∃ w', tx.disconnectInputs env w = .ok () w' := by
  have hunspend : ∃ w₁, (if tx.isCoinBase then pure () else tx.vin.forM unspendInput : NodeM Unit) w
      = .ok () w₁ ∧ w₁.Open := by
    rw [spends] at h
    split
    · exact ⟨w, rfl, hopen⟩
    · next hbase =>
      rw [if_neg hbase] at h
      obtain ⟨w₁, hrun⟩ := unspendAll_run hopen fun txin hmem => h _ (List.mem_map_of_mem hmem)
      obtain ⟨ops, -, rfl, -⟩ := unspendAll_ok hopen hrun
      exact ⟨_, hrun, hopen.addOps _⟩
  obtain ⟨w₁, hrun, hopen₁⟩ := hunspend
  exact ⟨_, bind_eq_ok.mpr ⟨(), w₁, hrun, bind_eq_ok.mpr ⟨true, _, change_run hopen₁ _, rfl⟩⟩⟩

end CTransaction

namespace CBlock

/-- Whatever the positions, disconnecting items is taking back their marks and entries. -/
theorem txItems_concat (env : Env) (nFile nBlockPos nTxPos : Nat) (txs : List CTransaction)
    (tx : CTransaction) : ∃ pos, txItems env nFile nBlockPos nTxPos (txs ++ [tx]) =
      txItems env nFile nBlockPos nTxPos txs ++ [tx.item env pos] := by
  induction txs generalizing nTxPos with
  | nil => exact ⟨_, rfl⟩
  | cons t txs ih =>
    obtain ⟨pos, hpos⟩ := ih (nTxPos + t.getSerializeSize)
    exact ⟨pos, by rw [List.cons_append, txItems, hpos, txItems, List.cons_append]⟩

theorem disconnectAll_concat (ix : TxSpends) (items : List TxItem) (item : TxItem) :
    SpendIndex.disconnectAll .null ix (items ++ [item]) =
      SpendIndex.disconnectAll .null (SpendIndex.disconnect .null ix item) items := by
  simp [SpendIndex.disconnectAll]

/-- The loop of `DisconnectBlock`. -/
theorem disconnectLoop_ok {env : Env} (nFile nBlockPos nTxPos : Nat) {txs : List CTransaction}
    {w w' : World} (hopen : w.Open)
    (h : txs.reverse.forM (CTransaction.disconnectInputs env) w = .ok () w') :
    ∃ ops, TxOps ops ∧ w' = w.addOps ops ∧ w'.node.txdb.spends =
      SpendIndex.disconnectAll .null w.node.txdb.spends
        (txItems env nFile nBlockPos nTxPos txs) := by
  induction txs using List.reverseRecOn generalizing w with
  | nil =>
    obtain ⟨-, rfl⟩ := EStateM.Result.ok.inj h
    exact ⟨[], fun _ hop => absurd hop List.not_mem_nil, by simp, rfl⟩
  | append_singleton txs tx ih =>
    obtain ⟨pos, hitems⟩ := txItems_concat env nFile nBlockPos nTxPos txs tx
    rw [List.reverse_append] at h
    obtain ⟨_, w₁, hone, h⟩ := bind_eq_ok.mp h
    obtain ⟨ops, hops, rfl, hspends⟩ := CTransaction.disconnectInputs_ok pos hopen hone
    obtain ⟨ops', hops', rfl, hspends'⟩ := ih (hopen.addOps ops) h
    refine ⟨ops ++ ops', hops.append hops', World.addOps_addOps _ _ _, ?_⟩
    rw [hspends', hspends, hitems, disconnectAll_concat]

/-- A successful `DisconnectBlock`, in an open transaction. -/
structure Disconnects (env : Env) (block : CBlock) (pindex : Uint256) (index : CBlockIndex)
    (w w' : World) : Prop where
  object : w.node.index? pindex = some index
  leads : Leads w.node index.pprev
  written : ∃ ops, TxOps ops ∧
    w' = ((w.addOps ops).addOps (hashNextOps env w.node index.pprev 0)).addLog
      (block.vtx.map (fun tx => .syncWithWallets (tx.getHash env) false) ++ [.disconnected pindex])
  spends : w'.node.txdb.spends = SpendIndex.disconnectAll .null w.node.txdb.spends
    (block.items env index.nFile index.nBlockPos)

theorem spends_hashNextOps {env : Env} {node : Node} {pprev : Option Uint256} {hashNext : Uint256}
    {w : World} (hopen : w.Open) :
    (w.addOps (hashNextOps env node pprev hashNext)).node.txdb.spends = w.node.txdb.spends := by
  funext hash
  rw [TxDB.spends, TxDB.spends, TxDB.readTxIndex_eq_view, TxDB.readTxIndex_eq_view,
    World.view_addOps hopen, getElem?_applyBatch_of_ne]
  intro op hop
  obtain ⟨q, hq⟩ := hashNextOps_key hop
  rw [hq]
  exact fun heq => by cases heq

theorem disconnectBlock_ok {env : Env} {block : CBlock} {pindex : Uint256} {w w' : World}
    (hopen : w.Open) (h : block.disconnectBlock env pindex w = .ok () w') :
    ∃ index, block.Disconnects env pindex index w w' := by
  obtain ⟨_, w₁, hloop, h⟩ := bind_eq_ok.mp h
  obtain ⟨index, w₂, hderef, h⟩ := bind_eq_ok.mp h
  obtain ⟨ops, hops, rfl, hspends⟩ := disconnectLoop_ok index.nFile index.nBlockPos
    (block.firstTxPos index.nBlockPos) hopen hloop
  obtain ⟨hobject, rfl⟩ := deref_ok hderef
  obtain ⟨_, w₃, hnext, h⟩ := bind_eq_ok.mp h
  obtain ⟨hleads, rfl⟩ := (writeHashNext_iff (hopen.addOps ops)).mp hnext
  obtain ⟨_, w₄, hsync, h⟩ := bind_eq_ok.mp h
  obtain ⟨-, rfl⟩ := EStateM.Result.ok.inj ((emit_forM _ _ _).symm.trans hsync)
  obtain ⟨-, rfl⟩ := EStateM.Result.ok.inj h
  exact ⟨index, hobject, hleads, ⟨ops, hops, World.addLog_addLog _ _ _⟩,
    (spends_hashNextOps (hopen.addOps ops)).trans hspends⟩

/-- Disconnecting succeeds on the index that connecting has left. -/
theorem disconnectLoop_run {env : Env} {nFile nBlockPos nTxPos : Nat} {txs : List CTransaction}
    {ix : TxSpends} {w : World} (hopen : w.Open)
    (hvalid : SpendIndex.ConnectsAll .null ix (txItems env nFile nBlockPos nTxPos txs))
    (hspends : w.node.txdb.spends =
      SpendIndex.connectAll .null ix (txItems env nFile nBlockPos nTxPos txs)) :
    ∃ w', txs.reverse.forM (CTransaction.disconnectInputs env) w = .ok () w' := by
  induction txs using List.reverseRecOn generalizing w with
  | nil => exact ⟨w, rfl⟩
  | append_singleton txs tx ih =>
    obtain ⟨pos, hitems⟩ := txItems_concat env nFile nBlockPos nTxPos txs tx
    rw [hitems] at hvalid hspends
    obtain ⟨hbefore, hlast, -⟩ := SpendIndex.connectsAll_append.mp hvalid
    rw [SpendIndex.connectAll_append] at hspends
    have hslots : ∀ o ∈ tx.spends, (w.node.txdb.spends.slot o).isSome = true := by
      intro o ho
      have ho : o ∈ (tx.item env pos).spends := ho
      rw [hspends]
      show ((SpendIndex.connect .null _ (tx.item env pos)).slot o).isSome = true
      rw [SpendIndex.slot_connect, if_neg (hlast.ne_hash ho), if_pos ho, hlast.free o ho]
      rfl
    obtain ⟨w₁, hone⟩ := CTransaction.disconnectInputs_run env hopen hslots
    obtain ⟨ops, -, rfl, hspends₁⟩ := CTransaction.disconnectInputs_ok pos hopen hone
    have hback : (w.addOps ops).node.txdb.spends =
        SpendIndex.connectAll .null ix (txItems env nFile nBlockPos nTxPos txs) := by
      rw [hspends₁, hspends]
      exact SpendIndex.disconnect_connect hlast
    obtain ⟨w', hrest⟩ := ih (hopen.addOps ops) hbefore hback
    exact ⟨w', by rw [List.reverse_append]; exact bind_eq_ok.mpr ⟨(), _, hone, hrest⟩⟩

theorem disconnectBlock_run {env : Env} {block : CBlock} {pindex : Uint256} {index : CBlockIndex}
    {ix : TxSpends} {w : World} (hopen : w.Open) (hobject : w.node.index? pindex = some index)
    (hleads : Leads w.node index.pprev)
    (hvalid : SpendIndex.ConnectsAll .null ix (block.items env index.nFile index.nBlockPos))
    (hspends : w.node.txdb.spends =
      SpendIndex.connectAll .null ix (block.items env index.nFile index.nBlockPos)) :
    ∃ w', block.disconnectBlock env pindex w = .ok () w' := by
  obtain ⟨w₁, hloop⟩ := disconnectLoop_run hopen hvalid hspends
  obtain ⟨ops, -, rfl, -⟩ := disconnectLoop_ok index.nFile index.nBlockPos
    (block.firstTxPos index.nBlockPos) hopen hloop
  have hderef : deref pindex (w.addOps ops) = .ok index (w.addOps ops) := by
    simp only [deref, World.index?_addOps, hobject]
  have hnext : writeHashNext env index.pprev 0
      (.reject 0 "DisconnectBlock() : WriteBlockIndex failed") (w.addOps ops) = .ok () _ :=
    (writeHashNext_iff (hopen.addOps ops)).mpr ⟨hleads, rfl⟩
  exact ⟨_, bind_eq_ok.mpr ⟨(), _, hloop, bind_eq_ok.mpr ⟨index, _, hderef,
    bind_eq_ok.mpr ⟨(), _, hnext, bind_eq_ok.mpr ⟨(), _, emit_forM _ _ _, rfl⟩⟩⟩⟩⟩

end CBlock

end NoLimitCoin
