import NoLimitCoin.Connected
import NoLimitCoin.Staking

/-!
# What a block template connects

`CreateNewBlock` keeps the index entries that its transactions would leave in `mapTestPool`.

Results:

1. `Assembly.Once.wakeLoop`: no transaction gets into the heap twice.
2. `Assembly.Fits.added`: `mapTestPool` is the index after the transactions of the block.
3. `createNewBlock_connects`: the transactions of a template can be connected one after the other.
-/

namespace NoLimitCoin

open Prog NodeM

theorem CBlock.accepts_concat {ix : TxSpends} {items : List TxItem} {item : TxItem} :
    CBlock.Accepts ix (items ++ [item]) ↔ CBlock.Accepts ix items ∧
      CTransaction.FreeInTurn item.pos (SpendIndex.connectAll .null ix items) item.spends := by
  induction items generalizing ix with
  | nil => exact ⟨fun h => ⟨trivial, h.1⟩, fun h => ⟨h.2, trivial⟩⟩
  | cons first items ih =>
    rw [List.cons_append, CBlock.Accepts, CBlock.Accepts, ih, and_assoc]
    rfl

namespace Miner

/-! ## Every transaction once -/

/-- A transaction is in the block, in the heap or waiting, and the records are those that have
been collected. -/
structure Assembly.Once (g : Gathered) (s : Assembly) : Prop where
  nodup : (s.vtx ++ s.vecPriority).Nodup
  records : ∀ (id : Nat) (orphan : COrphan), s.vOrphan[id]? = some orphan →
    (∃ first, g.vOrphan[id]? = some first ∧ first.ptx = orphan.ptx) ∧
      (orphan.setDependsOn ≠ ∅ → orphan.ptx ∉ s.vtx ++ s.vecPriority)

section

variable {g : Gathered} {done : List CTransaction} {s s' : Assembly} {w w' : World}

theorem Assembly.Once.of_subperm (h : s.Once g) (hrecords : s'.vOrphan = s.vOrphan)
    (hsub : (s'.vtx ++ s'.vecPriority).Subperm (s.vtx ++ s.vecPriority)) : s'.Once g := by
  obtain ⟨l, hperm, hsublist⟩ := hsub
  refine ⟨hperm.nodup_iff.mp (hsublist.nodup h.nodup), fun id orphan horphan => ?_⟩
  obtain ⟨hfirst, hout⟩ := h.records id orphan (hrecords ▸ horphan)
  exact ⟨hfirst, fun hne hmem => hout hne (hsublist.subset (hperm.mem_iff.mpr hmem))⟩

/-- A record that no longer waits has put its transaction into the heap, and does so once. -/
theorem Assembly.Once.wakeDepender {hash : Uint256} {id : Nat} (honce : s.Once g)
    (hinv : Gathered.Inv done g) (h : Miner.wakeDepender hash s id w = .ok s' w') :
    s'.Once g := by
  obtain ⟨-, orphan, horphan, rfl | ⟨hdepends, rfl⟩⟩ := wakeDepender_ok h
  · exact honce
  obtain ⟨⟨first, hfirst, hptx⟩, hout⟩ := honce.records id orphan horphan
  refine ⟨?_, fun id' orphan' horphan' => ?_⟩ <;> dsimp only <;> rw [← List.append_assoc]
  · split
    · rw [← List.concat_eq_append]
      exact (List.nodup_concat _ _).mpr ⟨hout hdepends, honce.nodup⟩
    · rw [List.append_nil]
      exact honce.nodup
  · have hlookup := (Map.getElem?_insert _ _ _ _).symm.trans horphan'
    split at hlookup
    · next heq =>
      subst heq
      obtain rfl := Option.some.inj hlookup
      refine ⟨⟨first, hfirst, hptx⟩, fun hne => ?_⟩
      rw [if_neg hne, List.append_nil]
      exact hout hdepends
    · next hne =>
      obtain ⟨⟨first', hfirst', hptx'⟩, hout'⟩ := honce.records id' orphan' hlookup
      refine ⟨⟨first', hfirst', hptx'⟩, fun hwaits hmem => ?_⟩
      rcases List.mem_append.mp hmem with hmem | hmem
      · exact hout' hwaits hmem
      split at hmem
      · have heq := List.mem_singleton.mp hmem
        exact hne (hinv.single id id' first first' hfirst hfirst' (by rw [hptx, hptx', heq]))
      · exact absurd hmem List.not_mem_nil

theorem Assembly.Once.wakeLoop {hash : Uint256} {ids : List Nat} (honce : s.Once g)
    (hinv : Gathered.Inv done g) (h : ids.foldlM (Miner.wakeDepender hash) s w = .ok s' w') :
    s'.Once g := by
  induction ids generalizing s w with
  | nil => exact (pure_eq_ok.mp h).1 ▸ honce
  | cons id ids ih =>
    rw [List.foldlM_cons] at h
    obtain ⟨s₁, w₁, hone, hrest⟩ := bind_eq_ok.mp h
    exact ih (honce.wakeDepender hinv hone) hrest

end

/-! ## What has been counted -/

/-- The counters are within their limits, and the transactions of the block can be connected to
the index and lead to the pending entries. -/
structure Assembly.Fits (env : Env) (options : Options) (node : Node) (s : Assembly) : Prop where
  size : s.nBlockSize = 1000 + (s.vtx.map CTransaction.getSerializeSize).sum ∧
    s.nBlockSize ≤ options.nBlockMaxSize
  sigOps : 100 + (s.vtx.map CTransaction.getLegacySigOpCount).sum ≤ s.nBlockSigOps ∧
    s.nBlockSigOps < maxBlockSigops
  accepts : CBlock.Accepts node.txdb.spends (s.vtx.map fun tx => tx.item env .memPool)
  pending : node.txdb.queued s.mapTestPool =
    SpendIndex.connectAll .null node.txdb.spends (s.vtx.map fun tx => tx.item env .memPool)

section

variable {env : Env} {options : Options} {priorities : Priorities} {fProofOfStake : Bool}
  {pindexPrev : Uint256} {nTimeCoinBase : Nat} {w w' : World}

theorem Assembly.Fits.added {s : Assembly} {tx : CTransaction} {inputs : MapPrevTx}
    {pool : Map Uint256 CTxIndex} {nTxSigOps : Nat} {nTxFees : Int}
    (h : s.Fits env options w.node) (hbase : tx.isCoinBase = false)
    (hpasses : Passes env options priorities fProofOfStake pindexPrev nTimeCoinBase w s tx inputs
      pool nTxSigOps nTxFees) : (s.added env tx pool nTxSigOps nTxFees).Fits env options w.node := by
  have hearly := hpasses.early
  simp only [skipsEarly, Bool.or_eq_false_iff, decide_eq_false_iff_not, not_le] at hearly
  obtain ⟨w₁, hfetch⟩ := hpasses.fetched
  obtain ⟨_, -, hcount, hlimit⟩ := hpasses.sigOps
  obtain ⟨hfree, hqueued⟩ := CTransaction.connectInputs_ok hbase
    (CTransaction.fetchInputs_ok hbase hfetch).1.inSync hpasses.connected
  rw [h.pending] at hfree hqueued
  refine ⟨⟨?_, hearly.1.1.1.le⟩, ⟨?_, hlimit⟩, ?_, ?_⟩ <;>
    simp only [Assembly.added, List.map_append, List.map_singleton, List.sum_append,
      List.sum_singleton]
  · rw [h.size.1, Nat.add_assoc]
  · have := h.sigOps.1
    omega
  · exact CBlock.accepts_concat.mpr ⟨h.accepts, hfree⟩
  · rw [TxDB.queued_insert, hqueued, SpendIndex.connectAll_append]
    rfl

theorem collect_fits {s : Assembly} (hpool : (poolTxs w.node).Nodup)
    (h : collect env options priorities fProofOfStake pindexPrev nTimeCoinBase w = .ok s w') :
    s.vtx.Nodup ∧ s.Fits env options w.node := by
  obtain ⟨g, w₁, hgather, hloop⟩ := bind_eq_ok.mp h
  have hnode := (reads_gather.ok hgather).node
  have hall := gather_all hgather
  have hinv : Gathered.Inv ((poolTxs w.node).reverse ++ []) g := by
    rw [gather, getNode_bind] at hgather
    exact gatherLoop_inv hgather .start (by rwa [List.append_nil, List.nodup_reverse])
  have hrun := assembleLoop_induction (I := fun s => s.Once g ∧
    s.All (fun tx => tx.isCoinBase = false) ∧ s.Fits env options w.node) hloop ?_ ?_
  · exact ⟨(List.nodup_append.mp hrun.1.nodup).1, hrun.2.2⟩
  · rintro s s' i tx w₂ w₃ hsame ⟨honce, hbase, hfits⟩ hi hturn
    rw [← hnode, ← hsame.node] at hfits ⊢
    have hrest : Assembly.All (fun tx => tx.isCoinBase = false)
        { s with vecPriority := s.vecPriority.eraseIdx i } :=
      ⟨fun tx' htx' => hbase.heap tx' (List.mem_of_mem_eraseIdx htx'), hbase.records⟩
    have hpopped : Assembly.Fits env options w₂.node
        { s with vecPriority := s.vecPriority.eraseIdx i } := { hfits with }
    obtain ⟨-, byFee, rfl | ⟨inputs, pool, nTxSigOps, nTxFees, w₄, hpasses, hwake⟩⟩ :=
      tryTx_ok hturn
    · refine ⟨honce.of_subperm rfl ?_, ⟨hrest.heap, hrest.records⟩, { hfits with }⟩
      exact ((List.eraseIdx_sublist _ _).append_left _).subperm
    · have hadded := hpopped.added (hbase.heap tx (List.mem_of_getElem? hi)) hpasses
      obtain ⟨hbase', hwoken, -⟩ := wakeLoop_ok hwake ⟨hrest.heap, hrest.records⟩
      refine ⟨Assembly.Once.wakeLoop ?_ hinv hwake, hbase', hwoken ▸ { hadded with }⟩
      refine honce.of_subperm rfl ?_
      obtain ⟨hlt, rfl⟩ := List.getElem?_eq_some_iff.mp hi
      simp only [Assembly.added, List.append_assoc, List.singleton_append]
      exact ((List.getElem_cons_eraseIdx_perm hlt).append_left _).subperm
  · refine ⟨⟨hinv.nodup, fun id orphan horphan => ?_⟩, ?_, ?_⟩
    · exact ⟨⟨orphan, horphan, rfl⟩, fun _ => (hinv.records id orphan horphan).2⟩
    · exact ⟨fun tx htx => (hall.heap tx htx).2.1, fun id o ho => (hall.records id o ho).2.1⟩
    · exact ⟨⟨rfl, le_max_left _ _⟩, ⟨le_refl _, show 100 < maxBlockSigops by decide⟩, trivial,
        TxDB.queued_empty _⟩

end

end Miner

end NoLimitCoin
