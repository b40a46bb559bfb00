import NoLimitCoin.DiskPositions
import NoLimitCoin.ScriptBuilder
import NoLimitCoin.SyncCheckpoint
import NoLimitCoin.Lib.PrefixFree

/-!
# The transaction index is the ledger of the best chain

Every switch of the best chain takes the transactions of the blocks it leaves back from the index
and connects those of the blocks it takes.  Since a coin base begins with its height, no
transaction of a chain repeats another, so nothing that was left stays behind.

Results:

1. `prefixFree_pushHeight` and `valid_append`: the transactions of a block connect to a ledger
   without overwriting an entry.
2. `LedgerInv` and what keeps it: `TxnStep.ledger`, `Switches.ledger`.
3. `txIndex_isLedger`: in every run the index is the ledger of the best chain.
4. `bestChain_disconnects`: the best chain can be disconnected down to any of its blocks.
-/

namespace NoLimitCoin

open Prog NodeM

/-! ## Coin bases of different heights -/

/-- A script begins with one height only. -/
theorem prefixFree_pushHeight : PrefixFree (· < 2 ^ 31) CScript.pushHeight := by
  have hbyte : ∀ k, k < 256 → (UInt8.ofNat k).toNat = k := fun k hk => by
    rw [UInt8.toNat_ofNat']
    exact Nat.mod_eq_of_lt hk
  -- the first byte tells a number of the script from the length of a number
  have hcode : ∀ n, (1 ≤ n ∧ n ≤ 16 ∧ CScript.pushHeight n = [UInt8.ofNat (n + 80)]) ∨
      ∃ vch : List UInt8, vch.length ≤ 9 ∧ vch = CScript.numberBytes 8 n ∧
        CScript.pushHeight n = UInt8.ofNat vch.length :: vch := fun n => by
    unfold CScript.pushHeight
    split
    · next hsmall => exact .inl ⟨hsmall.1, hsmall.2, rfl⟩
    · exact .inr ⟨_, Interpreter.length_numberBytes 8 n, rfl, rfl⟩
  intro a b ha hb r s h
  rcases hcode a with ⟨ha₁, ha₂, hpush⟩ | ⟨vch, hlength, hvch, hpush⟩ <;>
    rcases hcode b with ⟨hb₁, hb₂, hpush'⟩ | ⟨vch', hlength', hvch', hpush'⟩ <;>
    rw [hpush, hpush'] at h <;> obtain ⟨hhead, hrest⟩ := List.cons.inj h <;>
    have hnat := congrArg UInt8.toNat hhead <;> rw [hbyte _ (by omega), hbyte _ (by omega)] at hnat
  · exact ⟨by omega, hrest⟩
  · omega
  · omega
  · obtain ⟨rfl, hrs⟩ := List.append_inj hrest hnat
    refine ⟨?_, hrs⟩
    rw [← (@Interpreter.magnitude_numberBytes 8 a (by omega)).value, ← hvch, hvch',
      (@Interpreter.magnitude_numberBytes 8 b (by omega)).value]

/-! ## Connecting a block to a ledger -/

theorem CTransaction.FreeInTurn.free {q : CDiskTxPos} {ix : TxSpends} {os : List (Uint256 × Nat)}
    (h : FreeInTurn q ix os) : ∀ o ∈ os, ∃ r, ix.slot o = some r ∧ r.isNull = true := by
  induction os generalizing ix with
  | nil => exact fun _ ho => absurd ho List.not_mem_nil
  | cons o os ih =>
    obtain ⟨hfirst, hrest⟩ := h
    refine List.forall_mem_cons.mpr ⟨hfirst, fun o' ho' => ?_⟩
    by_cases heq : o' = o
    · rw [heq]
      exact hfirst
    · obtain ⟨r, hr, hnull⟩ := ih hrest o' ho'
      rw [SpendIndex.slot_mark, if_neg heq] at hr
      exact ⟨r, hr, hnull⟩

/-- Items that are accepted, and that repeat no item of the ledger without spending what it has
spent, leave a valid ledger. -/
theorem valid_append {items₀ items : List TxItem} (hvalid : SpendIndex.Valid .null items₀)
    (haccepts : CBlock.Accepts (SpendIndex.ledger .null items₀) items)
    (hpos : ∀ item ∈ items₀ ++ items, item.pos.isNull = false)
    (hnodup : (items.map SpendItem.hash).Nodup)
    (hold : ∀ item ∈ items, ∀ item' ∈ items₀, item'.hash = item.hash →
      ∃ o ∈ item.spends, o ∈ item'.spends) : SpendIndex.Valid .null (items₀ ++ items) := by
  induction items generalizing items₀ with
  | nil => rwa [List.append_nil]
  | cons item items ih =>
    obtain ⟨hfree, hrest⟩ := haccepts
    obtain ⟨hother, hnodup⟩ := List.nodup_cons.mp hnodup
    have hnull : item.pos ≠ .null := fun heq =>
      absurd (hpos item (by simp)) (by rw [heq]; decide)
    have hslots : ∀ o ∈ item.spends, (SpendIndex.ledger .null items₀).slot o = some .null := by
      intro o ho
      obtain ⟨r, hr, hrnull⟩ := hfree.free o ho
      rcases SpendIndex.slot_ledger hvalid hr with ⟨rfl, -⟩ | ⟨-, item', hitem', -, rfl, -⟩
      · exact hr
      · rw [hpos item' (List.mem_append_left _ hitem')] at hrnull
        exact absurd hrnull Bool.false_ne_true
    have hfresh : SpendIndex.ledger .null items₀ item.hash = none := by
      cases hentry : SpendIndex.ledger .null items₀ item.hash with
      | none => rfl
      | some e =>
        -- an item that repeated it would have taken the slots that are free
        obtain ⟨item', hitem', hhash, -⟩ := SpendIndex.entry_ledger hentry
        obtain ⟨o, ho, ho'⟩ := hold item List.mem_cons_self item' hitem' hhash
        have htaken := SpendIndex.slot_of_spends hvalid hitem' ho'
        rw [hslots o ho] at htaken
        exact absurd (Option.some.inj htaken).symm (hvalid.2 item' hitem')
    have hvalid' : SpendIndex.Valid .null (items₀ ++ [item]) :=
      SpendIndex.valid_concat.mpr ⟨hvalid, ⟨hfresh, hslots⟩, hnull⟩
    rw [List.append_cons]
    refine ih hvalid' (by rw [SpendIndex.ledger_concat]; exact hrest)
      (by rw [← List.append_cons]; exact hpos) hnodup fun item₁ h₁ item' hitem' hhash => ?_
    rcases List.mem_append.mp hitem' with hitem' | hitem'
    · exact hold item₁ (List.mem_cons_of_mem _ h₁) item' hitem' hhash
    · obtain rfl := List.mem_singleton.mp hitem'
      exact absurd (hhash ▸ List.mem_map_of_mem h₁) hother

theorem mem_txItems {env : Env} {nFile nBlockPos nTxPos : Nat} {txs : List CTransaction}
    {item : TxItem} (h : item ∈ txItems env nFile nBlockPos nTxPos txs) :
    ∃ tx ∈ txs, ∃ pos, item = tx.item env pos ∧ pos.nFile = nFile := by
  induction txs generalizing nTxPos with
  | nil => exact absurd h List.not_mem_nil
  | cons tx txs ih =>
    rcases List.mem_cons.mp h with rfl | h
    · exact ⟨tx, List.mem_cons_self, _, rfl, rfl⟩
    · obtain ⟨tx', htx', hrest⟩ := ih h
      exact ⟨tx', List.mem_cons_of_mem _ htx', hrest⟩

/-! ## The items of a chain -/

namespace Node

/-- The items of the block at an index object. -/
def itemsAt (env : Env) (node : Node) (p : Uint256) : List TxItem :=
  match node.index? p, node.storedBlock p with
  | some index, some block => block.items env index.nFile index.nBlockPos
  | _, _ => []

theorem itemsAt_eq (env : Env) {node : Node} {p : Uint256} {index : CBlockIndex} {block : CBlock}
    (hp : node.index? p = some index) (hstored : node.storedBlock p = some block) :
    node.itemsAt env p = block.items env index.nFile index.nBlockPos := by
  rw [itemsAt, hp, hstored]

/-- The items of a chain, from the lowest block up.  The first block is never connected. -/
def chainItems (env : Env) (node : Node) (chain : List Uint256) : List TxItem :=
  chain.dropLast.reverse.flatMap (node.itemsAt env)

theorem chainItems_cons (env : Env) (node : Node) (p q : Uint256) (rest : List Uint256) :
    node.chainItems env (p :: q :: rest) =
      node.chainItems env (q :: rest) ++ node.itemsAt env p := by
  simp [chainItems, List.dropLast_cons_cons]

theorem chainItems_congr {env : Env} {node node' : Node} {chain : List Uint256}
    (h : ∀ p ∈ chain, node'.itemsAt env p = node.itemsAt env p) :
    node'.chainItems env chain = node.chainItems env chain :=
  List.flatMap_congr fun p hp => h p (List.dropLast_subset _ (List.mem_reverse.mp hp))

/-- What is in the index and in the files is still there. -/
structure Retains (node node' : Node) : Prop where
  objects : ∀ p index, node.index? p = some index →
    ∃ index', node'.index? p = some index' ∧ index'.core = index.core
  blocks : ∀ p block, node.storedBlock p = some block → node'.storedBlock p = some block

namespace Retains

variable {env : Env} {node node' node'' : Node}

theorem of_sameCore (h : SameCore node node') (hfiles : node'.files = node.files) :
    node.Retains node' :=
  ⟨fun _ _ hp => h.index hp, fun p block hp => by rw [h.storedBlock hfiles]; exact hp⟩

theorem trans (h : node.Retains node') (h' : node'.Retains node'') : node.Retains node'' := by
  refine ⟨fun p index hp => ?_, fun p block hp => h'.blocks p block (h.blocks p block hp)⟩
  obtain ⟨index', hp', hcore⟩ := h.objects p index hp
  obtain ⟨index'', hp'', hcore'⟩ := h'.objects p index' hp'
  exact ⟨index'', hp'', hcore'.trans hcore⟩

theorem itemsAt (h : node.Retains node') {p : Uint256} {block : CBlock}
    (hp : node.storedBlock p = some block) : node'.itemsAt env p = node.itemsAt env p := by
  obtain ⟨index, hindex, -⟩ := Option.bind_eq_some_iff.mp hp
  obtain ⟨index', hindex', hcore⟩ := h.objects p index hindex
  rw [Node.itemsAt, Node.itemsAt, hindex, hindex', hp, h.blocks p block hp,
    CBlockIndex.eq_of_core hcore]

theorem of_put {block : CBlock} {nFile nBlockPos : Nat} {w w' : World}
    (hindex : IndexInv env w.node) (h : writeToDisk block w = .ok (nFile, nBlockPos) w') :
    w.node.Retains w'.node := by
  obtain ⟨-, hpos, -, hnode⟩ := writeToDisk_ok h
  rw [hnode]
  refine ⟨fun p index hp => ⟨index, hp, rfl⟩, fun p block' hp => ?_⟩
  obtain ⟨index, hp, hblock⟩ := Option.bind_eq_some_iff.mp hp
  exact Option.bind_eq_some_iff.mpr ⟨index, hp,
    BlockFiles.blockAt_put hindex.bounded (hpos ▸ Nat.le_add_right _ 8) hblock⟩

theorem of_added {block : CBlock} {nFile nBlockPos : Nat} {hashProof : Uint256}
    {index : CBlockIndex} {txdb : TxDB} {w w₁ w' : World} (hindex : IndexInv env w.node)
    (hwrite : writeToDisk block w = .ok (nFile, nBlockPos) w₁)
    (hnew : block.IsNewIndex env w₁.node nFile nBlockPos hashProof index)
    (hnode : w'.node = { (w₁.inserted env block index).node with txdb := txdb }) :
    w.node.Retains w'.node := by
  have hold : ∀ p index', w₁.node.index? p = some index' → w'.node.index? p = some index' := by
    intro p index' hp
    rw [hnode]
    refine (Node.index?_setIndex _ _ _ _).trans ?_
    rw [if_neg, hp]
    rintro rfl
    have hmem := (Map.contains_iff _ _).mpr ⟨index', hp⟩
    exact absurd (hnew.1.symm.trans hmem) Bool.false_ne_true
  refine (of_put hindex hwrite).trans ⟨fun p index' hp => ⟨index', hold p index' hp, rfl⟩, ?_⟩
  intro p block' hp
  obtain ⟨index', hp, hblock⟩ := Option.bind_eq_some_iff.mp hp
  refine Option.bind_eq_some_iff.mpr ⟨index', hold p index' hp, ?_⟩
  rw [hnode]
  exact hblock

end Retains

end Node

theorem SameChain.retains {w w' : World} (h : SameChain w w') : w.node.Retains w'.node :=
  .of_sameCore (.of_sameLinks h.links) (congrArg (fun g => g.2.2.2.2.2) h.globals)

/-- No move loses a block. -/
theorem Move.retains {env : Env} {w w' : World} (h : Move env w w')
    (hindex : IndexInv env w.node) : w.node.Retains w'.node := by
  cases h with
  | aside haside => exact (SameChain.of_aside haside).retains
  | added haccept hwrite hinsert =>
    obtain ⟨hnew, -, hnode, -⟩ := CBlock.insertIndex_ok hinsert
    exact .of_added hindex hwrite hnew hnode
  | unrecorded haccept hwrite hinsert =>
    rcases CBlock.insertIndex_reject hinsert with hsame | ⟨index, hnew, hnode, -⟩
    · rw [hsame.node]
      exact .of_put hindex hwrite
    · exact .of_added hindex hwrite hnew hnode
  | setBest hstored hhash hguarded hrun =>
    obtain ⟨w₁, w₂, -, -, -, htree, rfl⟩ := setBestChain_ok hrun
    exact .of_sameCore htree.core htree.files
  | setBestFailed hstored hhash hrun =>
    obtain ⟨hkept, hdropped⟩ := reject_setBestChain hrun
    exact (SameChain.of_dropped hkept hdropped).retains
  | checkpoint hextends hmain hrun => exact (SameChain.of_checkpoint hrun).retains
  | checkpointFailed hrun =>
    obtain ⟨hkept, hdropped⟩ := reject_writeSyncCheckpoint hrun
    exact (SameChain.of_dropped hkept hdropped).retains

/-- The transactions of all blocks that have been stored and indexed. -/
def Node.knownTxs (node : Node) : List CTransaction :=
  node.mapBlockIndex.toList.flatMap fun e => ((node.storedBlock e.1).map CBlock.vtx).getD []

theorem Node.mem_knownTxs {node : Node} {tx : CTransaction} :
    tx ∈ node.knownTxs ↔ ∃ p block, node.storedBlock p = some block ∧ tx ∈ block.vtx := by
  rw [knownTxs, List.mem_flatMap]
  constructor
  · rintro ⟨⟨p, index⟩, -, htx⟩
    cases hp : node.storedBlock p with
    | none => rw [hp] at htx; exact absurd htx List.not_mem_nil
    | some block => rw [hp] at htx; exact ⟨p, block, hp, htx⟩
  · rintro ⟨p, block, hp, htx⟩
    obtain ⟨index, hindex, -⟩ := Option.bind_eq_some_iff.mp hp
    exact ⟨(p, index), (Map.mem_toList _ _ _).mpr hindex, by rw [hp]; exact htx⟩

/-- No two known transactions have one hash, and heights fit their type. -/
structure Distinct (env : Env) (node : Node) : Prop where
  hashes : ∀ tx ∈ node.knownTxs, ∀ tx' ∈ node.knownTxs, tx.getHash env = tx'.getHash env → tx = tx'
  heights : ∀ e ∈ node.mapBlockIndex.toList, e.2.nHeight < 2 ^ 31

instance (env : Env) (node : Node) : Decidable (Distinct env node) :=
  decidable_of_iff (_ ∧ _) ⟨fun h => ⟨h.1, h.2⟩, fun h => ⟨h.hashes, h.heights⟩⟩

theorem Distinct.heightOf {env : Env} {node : Node} (h : Distinct env node) (p : Uint256) :
    node.heightOf p < 2 ^ 31 := by
  rw [Node.heightOf]
  cases hp : node.index? p with
  | none => decide
  | some index => exact h.heights (p, index) ((Map.mem_toList _ _ _).mpr hp)

theorem Node.Retains.distinct {env : Env} {node node' : Node} (h : node.Retains node')
    (hdistinct : Distinct env node') : Distinct env node := by
  have hknown : ∀ tx ∈ node.knownTxs, tx ∈ node'.knownTxs := fun tx htx => by
    obtain ⟨p, block, hp, htx⟩ := Node.mem_knownTxs.mp htx
    exact Node.mem_knownTxs.mpr ⟨p, block, h.blocks p block hp, htx⟩
  refine ⟨fun tx htx tx' htx' => hdistinct.hashes tx (hknown tx htx) tx' (hknown tx' htx'), ?_⟩
  rintro ⟨p, index⟩ hp
  obtain ⟨index', hp', hcore⟩ := h.objects p index ((Map.mem_toList _ _ _).mp hp)
  have hheight := hdistinct.heights (p, index') ((Map.mem_toList _ _ _).mpr hp')
  rw [CBlockIndex.eq_of_core hcore] at hheight
  exact hheight

/-! ## What the items of a chain are -/

section items

variable {env : Env} {node : Node} {p q : Uint256} {rest chain : List Uint256} {block : CBlock}

theorem mem_itemsAt {item : TxItem} (h : item ∈ node.itemsAt env p) :
    ∃ index block, node.index? p = some index ∧ node.storedBlock p = some block ∧
      ∃ tx ∈ block.vtx, ∃ pos, item = tx.item env pos ∧ pos.nFile = index.nFile := by
  unfold Node.itemsAt at h
  split at h
  · next index block hindex hblock => exact ⟨index, block, hindex, hblock, mem_txItems h⟩
  · exact absurd h List.not_mem_nil

/-- The transactions of the best chain have been stored. -/
theorem IndexInv.pos_not_null (hindex : IndexInv env node) {item : TxItem}
    (h : item ∈ node.itemsAt env p) : item.pos.isNull = false := by
  obtain ⟨index, -, hp, -, tx, -, pos, rfl, hfile⟩ := mem_itemsAt h
  obtain ⟨block, hholds, -⟩ := hindex.objects p index hp
  have hvalid := (Bool.and_eq_true_iff.mp hholds.valid).2
  show (pos.nFile == uint32Max) = false
  rw [hfile]
  exact beq_eq_false_iff_ne.mpr (of_decide_eq_true hvalid)

/-- A coin base begins with the height of its block. -/
theorem IndexInv.coinBase_height (hindex : IndexInv env node) (hparent : node.parent p = some q)
    (hstored : node.storedBlock p = some block) (hchecked : block.Checked env)
    {tx : CTransaction} (htx : tx ∈ block.vtx) (hbase : tx.isCoinBase = true) :
    ∃ txin vin, tx.vin = txin :: vin ∧ CScript.pushHeight (node.heightOf p) <+: txin.scriptSig := by
  obtain ⟨index, -, block', hp, -, hholds, -, -, -, hstarts, -⟩ := hindex.parent_some hparent
  obtain rfl : block' = block := by
    rw [Node.storedBlock, hp, Option.bind_some, hholds.stored] at hstored
    exact Option.some.inj hstored
  obtain ⟨coinbase, others, hvtx, -, hothers⟩ := hchecked.coinBase
  rw [hvtx] at htx
  obtain rfl : tx = coinbase := by
    rcases List.mem_cons.mp htx with rfl | htx
    · rfl
    · rw [hothers tx htx] at hbase
      exact absurd hbase Bool.false_ne_true
  unfold CBlock.startsWithHeight at hstarts
  rw [hvtx] at hstarts
  dsimp only at hstarts
  cases hvin : tx.vin with
  | nil =>
    rw [hvin] at hstarts
    exact absurd hstarts Bool.false_ne_true
  | cons txin vin =>
    rw [hvin] at hstarts
    rw [Node.heightOf, hp]
    exact ⟨txin, vin, rfl, List.isPrefixOf_iff_prefix.mp hstarts⟩

/-- A transaction of a block above a chain that has the hash of one of the chain spends what that
one spends. -/
theorem repeats_spends (hindex : IndexInv env node) (hdistinct : Distinct env node)
    (hlineage : Lineage node.parent (p :: q :: rest))
    (hchecked : ∀ x ∈ (p :: q :: rest).dropLast, ∀ block, node.storedBlock x = some block →
      block.Checked env) {item item' : TxItem} (h : item ∈ node.itemsAt env p)
    (h' : item' ∈ node.chainItems env (q :: rest)) (hhash : item'.hash = item.hash) :
    ∃ o ∈ item.spends, o ∈ item'.spends := by
  obtain ⟨x, hx, h'⟩ := List.mem_flatMap.mp h'
  have hx := List.mem_reverse.mp hx
  have hbelow : x ∈ (p :: q :: rest).dropLast := by
    rw [List.dropLast_cons_cons]
    exact List.mem_cons_of_mem _ hx
  have htop : p ∈ (p :: q :: rest).dropLast := by
    rw [List.dropLast_cons_cons]
    exact List.mem_cons_self
  obtain ⟨-, block, -, hblock, tx, htx, pos, rfl, -⟩ := mem_itemsAt h
  obtain ⟨-, block', -, hblock', tx', htx', pos', rfl, -⟩ := mem_itemsAt h'
  obtain rfl := hdistinct.hashes tx' (Node.mem_knownTxs.mpr ⟨x, block', hblock', htx'⟩) tx
    (Node.mem_knownTxs.mpr ⟨p, block, hblock, htx⟩) hhash
  cases hbase : tx'.isCoinBase with
  | true =>
    -- two heights cannot both stand at the beginning of its script
    obtain ⟨y, hparent'⟩ := hlineage.parent_of_mem hbelow
    obtain ⟨txin, vin, hvin, r, hr⟩ := hindex.coinBase_height hlineage.tail.1 hblock
      (hchecked p htop block hblock) htx hbase
    obtain ⟨txin', vin', hvin', r', hr'⟩ := hindex.coinBase_height hparent' hblock'
      (hchecked x hbelow block' hblock') htx' hbase
    obtain ⟨rfl, -⟩ := List.cons.inj (hvin.symm.trans hvin')
    have hheight := (prefixFree_pushHeight _ _ (hdistinct.heightOf p) (hdistinct.heightOf x) r r'
      (hr.trans hr'.symm)).1
    have hlt := hlineage.rank_lt hindex.heightOf_lt x (List.dropLast_subset _ hx)
    omega
  | false =>
    have hspends : tx'.spends = tx'.vin.map fun txin => txin.prevout.slot := by
      rw [CTransaction.spends, hbase, if_neg Bool.false_ne_true]
    obtain ⟨txin, hmem⟩ :=
      List.exists_mem_of_ne_nil _ ((hchecked p htop block hblock).txs tx' htx).vin_ne_nil
    have ho := hspends ▸ List.mem_map_of_mem hmem
    exact ⟨txin.prevout.slot, ho, ho⟩

end items

/-! ## The invariant -/

/-- The transaction index is the ledger of the chain, and its blocks have been checked. -/
structure LedgerInv (env : Env) (chain : List Uint256) (node : Node) : Prop where
  valid : SpendIndex.Valid .null (node.chainItems env chain)
  spends : node.txdb.spends = SpendIndex.ledger .null (node.chainItems env chain)
  checked : ∀ p ∈ chain.dropLast, ∀ block, node.storedBlock p = some block → block.Checked env

theorem TxDB.spends_congr {txdb txdb' : TxDB}
    (h : ∀ hash : Uint256, txdb'.view[DbKey.tx hash]? = txdb.view[DbKey.tx hash]?) :
    txdb'.spends = txdb.spends := by
  funext hash
  rw [spends, spends, readTxIndex_eq_view, readTxIndex_eq_view, h]

namespace LedgerInv

variable {env : Env} {chain : List Uint256} {node node' : Node}

theorem of_items (h : LedgerInv env chain node)
    (hitems : ∀ p ∈ chain, node'.itemsAt env p = node.itemsAt env p)
    (hblocks : ∀ p ∈ chain, node'.storedBlock p = node.storedBlock p)
    (hspends : node'.txdb.spends = node.txdb.spends) : LedgerInv env chain node' := by
  have hchain := Node.chainItems_congr hitems
  refine ⟨hchain ▸ h.valid, by rw [hspends, hchain]; exact h.spends, fun p hp block hblock => ?_⟩
  rw [hblocks p (List.dropLast_subset _ hp)] at hblock
  exact h.checked p hp block hblock

/-- Only index, files and database matter. -/
theorem of_sameCore (h : LedgerInv env chain node) (hcore : SameCore node node')
    (hfiles : node'.files = node.files) (hspends : node'.txdb.spends = node.txdb.spends) :
    LedgerInv env chain node' := by
  have hblocks := hcore.storedBlock hfiles
  refine h.of_items (fun p _ => ?_) (fun p _ => by rw [hblocks]) hspends
  rw [Node.itemsAt, Node.itemsAt, hblocks]
  cases hp : node.index? p with
  | none => rw [hcore.index_none hp]
  | some index =>
    obtain ⟨index', hp', hsame⟩ := hcore.index hp
    rw [hp', CBlockIndex.eq_of_core hsame]
    cases node.storedBlock p <;> rfl

theorem of_retains (h : LedgerInv env chain node) (hretains : node.Retains node')
    (hstored : ∀ p ∈ chain, ∃ block, node.storedBlock p = some block)
    (hspends : node'.txdb.spends = node.txdb.spends) : LedgerInv env chain node' := by
  refine h.of_items (fun p hp => ?_) (fun p hp => ?_) hspends <;>
    obtain ⟨block, hblock⟩ := hstored p hp
  · exact hretains.itemsAt hblock
  · rw [hblock, hretains.blocks p block hblock]

end LedgerInv

/-! ## Steps and runs -/

theorem TxnStep.ledger {env : Env} {chain chain' : List Uint256} {w w' : World}
    (h : TxnStep env chain w chain' w') (hopen : w.Open) (hindex : IndexInv env w.node)
    (hlineage : Lineage w.node.parent chain) (hdistinct : Distinct env w.node)
    (hledger : LedgerInv env chain w.node) : LedgerInv env chain' w'.node := by
  obtain ⟨ops, evs, hdelta⟩ := h.delta hopen
  -- the step changes the database only
  suffices hstep : LedgerInv env chain' { w.node with txdb := w'.node.txdb } from
    hstep.of_sameCore (.of_sameLinks hdelta.links) (by rw [hdelta.node]) rfl
  cases h with
  | @disconnect p q rest block _ w₁ _ hparent hstored hsame hrun =>
    obtain ⟨index, hdisconnects⟩ := CBlock.disconnectBlock_ok (hopen.of_sameNode hsame) hrun
    have hp : w.node.index? p = some index := by
      rw [← hsame.node]
      exact hdisconnects.object
    have hitems := Node.itemsAt_eq env hp hstored
    obtain ⟨hvalid, hspends, hchecked⟩ := hledger
    rw [Node.chainItems_cons] at hvalid hspends
    obtain ⟨hbelow, htop⟩ := SpendIndex.connectsAll_append.mp hvalid.1
    refine ⟨⟨hbelow, fun item hitem => hvalid.2 item (List.mem_append_left _ hitem)⟩, ?_,
      fun x hx => hchecked x (by rw [List.dropLast_cons_cons]; exact List.mem_cons_of_mem _ hx)⟩
    show w'.node.txdb.spends = _
    rw [hdisconnects.spends, hsame.node, hspends, SpendIndex.ledger, SpendIndex.connectAll_append,
      ← hitems]
    exact SpendIndex.disconnectAll_connectAll htop
  | @connect p q rest block _ w₁ _ hparent hfresh hstored hsame hrun =>
    obtain ⟨index, index', queue, hconnects⟩ :=
      CBlock.connectBlock_ok (hopen.of_sameNode hsame) hrun
    have hp : w.node.index? p = some index := by
      rw [← hsame.node]
      exact hconnects.object
    have hitems := Node.itemsAt_eq env hp hstored
    have hchecked : ∀ x ∈ (p :: q :: rest).dropLast, ∀ block, w.node.storedBlock x = some block →
        block.Checked env := by
      rw [List.dropLast_cons_cons]
      refine List.forall_mem_cons.mpr ⟨fun block' hblock' => ?_, hledger.checked⟩
      obtain rfl := Option.some.inj (hstored.symm.trans hblock')
      exact hconnects.checked
    have haccepts := hconnects.accepts
    have hspends := hconnects.spends (hopen.of_sameNode hsame)
    rw [hsame.node, hledger.spends, ← hitems] at haccepts hspends
    refine ⟨?_, ?_, hchecked⟩
    · show SpendIndex.Valid .null (w.node.chainItems env (p :: q :: rest))
      rw [Node.chainItems_cons]
      refine valid_append hledger.valid haccepts (fun item hitem => ?_) ?_ fun item h item' h' =>
        repeats_spends hindex hdistinct (.child hparent hlineage) hchecked h h'
      · rcases List.mem_append.mp hitem with hitem | hitem
        · obtain ⟨x, -, hitem⟩ := List.mem_flatMap.mp hitem
          exact hindex.pos_not_null hitem
        · exact hindex.pos_not_null hitem
      · rw [hitems, CBlock.items, CBlock.txItems_hash]
        exact hconnects.checked.nodup_hashes
    · show w'.node.txdb.spends = SpendIndex.ledger .null (w.node.chainItems env (p :: q :: rest))
      rw [hspends, Node.chainItems_cons, SpendIndex.ledger, SpendIndex.ledger,
        SpendIndex.connectAll_append]

theorem TxnRun.ledger {env : Env} {chain chain' : List Uint256} {w w' : World}
    (h : TxnRun env chain w chain' w') (hopen : w.Open) (hindex : IndexInv env w.node)
    (hlineage : Lineage w.node.parent chain) (hdistinct : Distinct env w.node)
    (hledger : LedgerInv env chain w.node) : LedgerInv env chain' w'.node := by
  induction h with
  | nil hsame =>
    rw [hsame.node]
    exact hledger
  | cons hstep _ ih =>
    obtain ⟨ops, evs, hdelta⟩ := hstep.delta hopen
    have hcore := SameCore.of_sameLinks hdelta.links
    have hfiles := congrArg Node.files hdelta.node
    exact ih (hdelta.open hopen) (hindex.of_sameCore hcore hfiles)
      (hcore.parent ▸ hstep.lineage hlineage)
      ((Node.Retains.of_sameCore hcore.symm hfiles.symm).distinct hdistinct)
      (hstep.ledger hopen hindex hlineage hdistinct hledger)

theorem TxDB.view_closed {txdb : TxDB} (h : txdb.activeBatch = none) : txdb.view = txdb.pdb := by
  obtain ⟨pdb, batch⟩ := txdb
  obtain rfl : batch = none := h
  rfl

theorem SameChain.ledger {env : Env} {chain : List Uint256} {w w' : World} (h : SameChain w w')
    (hclosed : w.node.txdb.activeBatch = none) (hledger : LedgerInv env chain w.node) :
    LedgerInv env chain w'.node := by
  refine hledger.of_sameCore (.of_sameLinks h.links) (congrArg (fun g => g.2.2.2.2.2) h.globals)
    (TxDB.spends_congr fun hash => ?_)
  rw [TxDB.view_closed hclosed, TxDB.view_closed (h.closed hclosed)]
  exact h.committed (.tx hash) trivial

/-- Opening a transaction changes nothing. -/
theorem LedgerInv.begun {env : Env} {chain : List Uint256} {w : World}
    (h : LedgerInv env chain w.node) (hclosed : w.node.txdb.activeBatch = none) :
    LedgerInv env chain w.begun.node := by
  refine h.of_sameCore (.of_sameLinks (.of_index rfl)) rfl (TxDB.spends_congr fun hash => ?_)
  rw [TxDB.view_closed hclosed]
  rfl

/-- A switch leads from the ledger of the old best chain to that of the new one. -/
theorem Switched.ledger {env : Env} {chain chain' : List Uint256} {w w₁ w₂ : World} {e : Event}
    (h : Switched env chain chain' (w.begun.addLog [e]) w₁ w₂) (hinv : ChainInv env chain w)
    (hdistinct : Distinct env w.node) (hledger : LedgerInv env chain w.node) :
    LedgerInv env chain' w₂.node := by
  have hrun := h.run.ledger rfl hinv.index.begun hinv.lineage
    ⟨hdistinct.hashes, hdistinct.heights⟩ (hledger.begun hinv.closed)
  obtain ⟨ops, evs, hdelta⟩ := h.run.delta rfl
  obtain ⟨p, -, htxdb⟩ := h.txdb
  refine hrun.of_sameCore h.core ?_ (TxDB.spends_congr fun hash => ?_)
  · rw [h.node, hdelta.node]
  · rw [htxdb, CTxDB.view_mk_none, Map.getElem?_insert_of_ne]
    exact fun heq => DbKey.noConfusion heq

theorem Switches.ledger {env : Env} {chain chain' : List Uint256} {w w' : World}
    (h : Switches env chain w chain' w') (hinv : ChainInv env chain w)
    (hdistinct : Distinct env w.node) (hledger : LedgerInv env chain w.node) :
    LedgerInv env chain' w'.node := by
  induction h with
  | nil hmoved => exact hmoved.sameChain.ledger hinv.closed hledger
  | @cons _ _ _ _ w w₀ w₁ w₂ _ hbefore he hswitch _ ih =>
    have hsame := hbefore.sameChain
    have hinv₀ := hinv.of_sameChain hsame
    obtain ⟨ops, evs, hdelta⟩ := hswitch.run.delta rfl
    have hcore := (SameCore.of_sameLinks hsame.links).trans
      ((SameCore.of_sameLinks hdelta.links).trans hswitch.core)
    have hfiles₀ : w₀.node.files = w.node.files := congrArg (fun g => g.2.2.2.2.2) hsame.globals
    have hfiles : w₂.node.files = w.node.files := by
      rw [hswitch.node]
      exact hfiles₀
    have hdistinct₀ := (Node.Retains.of_sameCore (SameCore.of_sameLinks hsame.links).symm
      hfiles₀.symm).distinct hdistinct
    exact ih (hswitch.chainInv he hinv₀)
      ((Node.Retains.of_sameCore hcore.symm hfiles.symm).distinct hdistinct)
      (hswitch.ledger hinv₀ hdistinct₀ (hsame.ledger hinv.closed hledger))

theorem ChainMove.ledger {env : Env} {chain chain' : List Uint256} {w w' : World}
    (h : ChainMove env chain w chain' w') (hinv : BestInv env chain w)
    (hretains : w.node.Retains w'.node) (hdistinct : Distinct env w'.node)
    (hledger : LedgerInv env chain w.node) : LedgerInv env chain' w'.node := by
  have hstored : ∀ p ∈ chain, ∃ block, w.node.storedBlock p = some block := by
    intro p hp
    obtain ⟨index, hindex⟩ := hinv.indexed hp
    obtain ⟨block, hholds, -⟩ := hinv.index.objects p index hindex
    exact ⟨block, Option.bind_eq_some_iff.mpr ⟨index, hindex, hholds.stored⟩⟩
  cases h with
  | keep hmove hsame hlog => exact hsame.ledger hinv.closed hledger
  | store hwrite hsame =>
    refine hledger.of_retains hretains hstored ?_
    rw [hsame.node, (writeToDisk_ok hwrite).2.2.2]
  | @insert block indexPrev index nFile nBlockPos hashProof recorded _ w₁ _ haccept hwrite hnew
      hnode hlog =>
    refine hledger.of_retains hretains hstored (TxDB.spends_congr fun hash => ?_)
    have htxdb : w₁.node.txdb = w.node.txdb := by rw [(writeToDisk_ok hwrite).2.2.2]
    rw [TxDB.view_closed hinv.closed, hnode, htxdb]
    cases recorded with
    | false => rfl
    | true =>
      show ((recordOp env (CDiskBlockIndex.ofIndex index)).apply
        w.node.txdb.pdb)[DbKey.tx hash]? = _
      rw [BatchOp.getElem?_apply, if_neg]
      exact fun heq => DbKey.noConfusion heq
  | switch hswitches hset hlog =>
    obtain ⟨index, -, hset⟩ := deref_bind_eq_ok.mp hset
    obtain ⟨-, rfl⟩ := EStateM.Result.ok.inj hset
    have hnew := hswitches.ledger hinv.toChainInv (hretains.distinct hdistinct) hledger
    exact hnew.of_sameCore (.of_sameLinks (.of_index rfl)) rfl rfl

/-- A node whose best chain is the first block has an empty index. -/
theorem Genesis.ledger {env : Env} {sys : Sys} {index : CBlockIndex} {w : World}
    (h : Genesis env sys index w) : LedgerInv env [env.genesisHash] w.node := by
  refine ⟨⟨trivial, fun item hitem => absurd hitem List.not_mem_nil⟩, ?_,
    fun p hp => absurd hp List.not_mem_nil⟩
  funext hash
  rw [TxDB.spends, TxDB.readTxIndex_eq_view, h.node]
  show ((((recordOp env (CDiskBlockIndex.ofIndex index)).apply ∅).insert .hashBestChain
    (.hash env.genesisHash))[DbKey.tx hash]?.bind DbVal.txindex?).map CTxIndex.entry = none
  rw [Map.getElem?_insert_of_ne, BatchOp.getElem?_apply, if_neg]
  · rfl
  · exact fun heq => DbKey.noConfusion heq
  · exact fun heq => DbKey.noConfusion heq

/-- The best chain of a run, and its ledger. -/
theorem Reaches.ledger {env : Env} {w : World} (h : Reaches env w) (hok : LogOk env w.log)
    (hdistinct : Distinct env w.node) :
    ∃ chain, ChainRun env chain w ∧ LedgerInv env chain w.node := by
  obtain ⟨w₀, hstart, hmoves⟩ := h.moves
  clear h
  induction hmoves with
  | refl =>
    obtain ⟨sys, index, w₁, hgenesis, honly, -⟩ := hstart.genesis
    exact ⟨_, .start hgenesis honly,
      honly.sameChain.ledger hgenesis.bestInv.closed hgenesis.ledger⟩
  | tail hmoves hmove ih =>
    have hretains := hmove.retains (Moves.treeInv hmoves hstart.treeInv).1.index
    obtain ⟨chain, hrun, hledger⟩ := ih (hok.of_prefix hmove.log_prefix) (hretains.distinct hdistinct)
    obtain ⟨chain', hchainMove⟩ := hmove.chainMove hrun.bestInv hok
    exact ⟨chain', .move hrun hchainMove,
      hchainMove.ledger hrun.bestInv hretains hdistinct hledger⟩

/-! ## Taking blocks back -/

/-- The newest block of a chain can be disconnected. -/
theorem LedgerInv.disconnect_run {env : Env} {p q : Uint256} {rest : List Uint256} {w : World}
    (h : LedgerInv env (p :: q :: rest) w.node) (hopen : w.Open) (hindex : IndexInv env w.node)
    (hparent : w.node.parent p = some q) :
    ∃ w', TxnStep env (p :: q :: rest) w (q :: rest) w' := by
  obtain ⟨index, indexPrev, block, hp, hq, hholds, -, hprev, -⟩ := hindex.parent_some hparent
  have hstored : w.node.storedBlock p = some block :=
    Option.bind_eq_some_iff.mpr ⟨index, hp, hholds.stored⟩
  have hitems := Node.itemsAt_eq env hp hstored
  obtain ⟨⟨hconnects, -⟩, hspends, -⟩ := h
  rw [Node.chainItems_cons, hitems] at hconnects hspends
  rw [SpendIndex.ledger, SpendIndex.connectAll_append] at hspends
  have hleads : CBlock.Leads w.node index.pprev := fun r hr => by
    rw [hprev] at hr
    exact ⟨indexPrev, Option.some.inj hr ▸ hq⟩
  obtain ⟨w', hrun⟩ := CBlock.disconnectBlock_run hopen hp hleads
    (SpendIndex.connectsAll_append.mp hconnects).2 hspends
  exact ⟨w', .disconnect hparent hstored ⟨rfl, rfl⟩ hrun⟩

theorem LedgerInv.disconnects_run {env : Env} {xs rest : List Uint256} {r : Uint256} {w : World}
    (h : LedgerInv env (xs ++ r :: rest) w.node) (hopen : w.Open) (hindex : IndexInv env w.node)
    (hlineage : Lineage w.node.parent (xs ++ r :: rest)) (hdistinct : Distinct env w.node) :
    ∃ w', TxnRun env (xs ++ r :: rest) w (r :: rest) w' := by
  induction xs generalizing w with
  | nil => exact ⟨w, .nil ⟨rfl, rfl⟩⟩
  | cons p xs ih =>
    obtain ⟨q, rest', hrest⟩ := List.exists_cons_of_ne_nil
      (List.append_ne_nil_of_right_ne_nil xs (List.cons_ne_nil r rest))
    rw [List.cons_append, hrest] at h hlineage
    obtain ⟨w₁, hstep⟩ := h.disconnect_run hopen hindex hlineage.tail.1
    obtain ⟨ops, evs, hdelta⟩ := hstep.delta hopen
    have hcore := SameCore.of_sameLinks hdelta.links
    have hfiles := congrArg Node.files hdelta.node
    have hledger := hstep.ledger hopen hindex hlineage hdistinct h
    obtain ⟨w', hrun⟩ := ih (hrest ▸ hledger) (hdelta.open hopen) (hindex.of_sameCore hcore hfiles)
      (hrest ▸ hcore.parent ▸ hlineage.tail.2)
      ((Node.Retains.of_sameCore hcore.symm hfiles.symm).distinct hdistinct)
    exact ⟨w', by rw [List.cons_append, hrest]; exact .cons hstep (hrest ▸ hrun)⟩

/-! ## The index of a run -/

/-- As long as no postponed block fails and no hash collides, the transaction index is the ledger
of the best chain: no entry has been overwritten, and a slot is null where no transaction of the
chain spends the output, and holds the position of the only one that does otherwise. -/
theorem txIndex_isLedger (env : Env) (w : World) (h : Reaches env w) (hok : LogOk env w.log)
    (hdistinct : Distinct env w.node) : ∃ chain, BestInv env chain w ∧
      w.node.txdb.spends = SpendIndex.ledger .null (w.node.chainItems env chain) ∧
      SpendIndex.Valid .null (w.node.chainItems env chain) ∧
      ∀ o q, w.node.txdb.spends.slot o = some q →
        (q = .null ∧ ∀ item ∈ w.node.chainItems env chain, o ∉ item.spends) ∨
          ∃ item ∈ w.node.chainItems env chain, o ∈ item.spends ∧ item.pos = q ∧
            ∀ item' ∈ w.node.chainItems env chain, o ∈ item'.spends → item' = item := by
  obtain ⟨chain, hrun, hledger⟩ := h.ledger hok hdistinct
  refine ⟨chain, hrun.bestInv, hledger.spends, hledger.valid, fun o q hslot => ?_⟩
  rw [hledger.spends] at hslot
  exact (SpendIndex.slot_ledger hledger.valid hslot).imp_right And.right

/-- In such a state the blocks of the best chain can be disconnected down to any of them, and what
is left is the ledger of the chain that remains. -/
theorem bestChain_disconnects (env : Env) (w : World) (h : Reaches env w) (hok : LogOk env w.log)
    (hdistinct : Distinct env w.node) : ∃ chain, BestInv env chain w ∧
      ∀ xs r rest, chain = xs ++ r :: rest → ∃ w', TxnRun env chain w.begun (r :: rest) w' ∧
        w'.node.txdb.spends = SpendIndex.ledger .null (w'.node.chainItems env (r :: rest)) := by
  obtain ⟨chain, hrun, hledger⟩ := h.ledger hok hdistinct
  have hinv := hrun.bestInv
  refine ⟨chain, hinv, fun xs r rest hchain => ?_⟩
  obtain rfl := hchain
  have hbegun := hledger.begun hinv.closed
  have hdistinct' : Distinct env w.begun.node := ⟨hdistinct.hashes, hdistinct.heights⟩
  obtain ⟨w', hdown⟩ := hbegun.disconnects_run rfl hinv.index.begun hinv.lineage hdistinct'
  exact ⟨w', hdown, (hdown.ledger rfl hinv.index.begun hinv.lineage hdistinct' hbegun).spends⟩

/-! ## A run with a fork -/

/-- A node that has switched to the side chain of two blocks. -/
theorem sideChain_reached : ∃ w, Reaches mainNet w ∧ LogOk mainNet w.log ∧
    Distinct mainNet w.node := by
  have hrun : runsTo mainNet (sysAt [])
      [(sysAt [], .processBlock true leftBlock), (sysAt [], .processBlock true sideBlock₁),
        (sysAt [], .processBlock true sideBlock₂)]
      (fun w => (w.log.all fun e => !e.isPostponed) && decide (Distinct mainNet w.node)) = true := by
    rw [mainNet_eq]
    decide +kernel
  obtain ⟨w, hreaches, htest⟩ := runsTo_reaches hrun
  obtain ⟨hnone, hdistinct⟩ := Bool.and_eq_true_iff.mp htest
  exact ⟨w, hreaches, .of_none hnone, of_decide_eq_true hdistinct⟩

theorem txIndex_isLedger_side : ∃ w chain, BestInv mainNet chain w ∧
    w.node.txdb.spends = SpendIndex.ledger .null (w.node.chainItems mainNet chain) := by
  obtain ⟨w, h, hok, hdistinct⟩ := sideChain_reached
  obtain ⟨chain, hinv, hspends, -⟩ := txIndex_isLedger mainNet w h hok hdistinct
  exact ⟨w, chain, hinv, hspends⟩

theorem bestChain_disconnects_side : ∃ w chain, BestInv mainNet chain w ∧
    ∀ xs r rest, chain = xs ++ r :: rest → ∃ w', TxnRun mainNet chain w.begun (r :: rest) w' := by
  obtain ⟨w, h, hok, hdistinct⟩ := sideChain_reached
  obtain ⟨chain, hinv, hdown⟩ := bestChain_disconnects mainNet w h hok hdistinct
  exact ⟨w, chain, hinv, fun xs r rest hchain => (hdown xs r rest hchain).imp fun _ => And.left⟩

end NoLimitCoin
