import NoLimitCoin.ListTransactions
import NoLimitCoin.Locator

/-!
# Polling with listsinceblock

`listsinceblock` of `rpcwallet.cpp` hands the transactions of the wallet with fewer confirmations
than a block of the main chain to `ListTransactions`.  The block is the first entry of a locator
from the given hash that is in the main chain, and the command also answers with the block that a
client gives the next time: the one with the target number of confirmations, or zero.

Results:
1. `lastBlock_eq`: the block with the target number of confirmations.
2. `blockSince_eq`: the block that a hash leads to is an ancestor on the main chain.
3. `depth_le_iff`: what has at least as many confirmations as a block of the main chain is below it.
4. `listsinceblock_polls`: what the next call leaves out.
-/

namespace NoLimitCoin

open CMerkleTx

/-! ## The chain as the wallet sees it -/

/-- `pindexBest->nHeight`. -/
def Node.bestHeight (node : Node) : Int :=
  match node.pindexBest with
  | some best => node.heightOf best
  | none => -1

/-- `GetDepthInMainChainINTERNAL`, given the flag `fMerkleVerified` of the transaction. -/
def depthInternal (env : Env) (node : Node) (fMerkleVerified : Bool) (mtx : MerkleTxRecord) : Int :=
  if mtx.hashBlock = 0 ∨ mtx.nIndex = -1 then 0
  else
    match mainChainIndex node mtx.hashBlock with
    | none => 0
    | some index =>
      if !fMerkleVerified && decide (CBlock.checkMerkleBranch env (mtx.tx.getHash env)
          mtx.vMerkleBranch mtx.nIndex ≠ index.hashMerkleRoot) then 0
      else node.bestHeight - index.nHeight + 1

/-- `GetDepthInMainChain`. -/
def depthInMainChain (env : Env) (node : Node) (fMerkleVerified : Bool) (mtx : MerkleTxRecord) :
    Int :=
  let nResult := depthInternal env node fMerkleVerified mtx
  if nResult = 0 ∧ !node.mempool.mapTx.contains (mtx.tx.getHash env) then -1 else nResult

/-- A node, with what its wallet asks of it. -/
structure WalletNode where
  node : Node
  amounts : AmountEnv
  /-- `IsFinal()`. -/
  isFinal : CTransaction → Bool
  /-- The mutable flags of the transactions of the wallet. -/
  fMerkleVerified : CWalletTxRecord → Bool

namespace WalletNode

variable (env : Env) (w : WalletNode)

def depth (wtx : CWalletTxRecord) : Int :=
  depthInMainChain env w.node (w.fMerkleVerified wtx) wtx.toMerkleTxRecord

def listEnv : ListEnv where
  node := env
  amounts := w.amounts
  chain := {
    isFinal := w.isFinal
    depth := w.depth env
    blockTime := fun hash => ((w.node.index? hash).map (·.nTime)).getD 0 }

end WalletNode

/-! ## The command -/

/-- `CBlockLocator(hashBlock)`. -/
def CBlockLocator.ofHash (env : Env) (node : Node) (hashBlock : Uint256) : Option CBlockLocator :=
  if (node.index? hashBlock).isSome then
    CBlockLocator.set env node (node.heightOf hashBlock + 2) (some hashBlock)
  else some ⟨[]⟩

/-- `CBlockLocator(blockId).GetBlockIndex()`. -/
def blockSince (env : Env) (node : Node) (blockId : Uint256) : Except Exit (Option Uint256) :=
  match CBlockLocator.ofHash env node blockId with
  | none => .error (.abort "the loop of CBlockLocator::Set does not end")
  | some locator => .ok (locator.getBlockIndex node)

/-- `for (block = pindexBest; block && block->nHeight > target_height; block = block->pprev)`. -/
def walkBack (node : Node) (target_height : Int) : Nat → Option Uint256 → Option (Option Uint256)
  | 0, _ => none
  | _ + 1, none => some none
  | fuel + 1, some block =>
    if node.heightOf block > target_height then
      walkBack node target_height fuel (node.parent block)
    else some (some block)

/-- The part of `listsinceblock` behind the loop. -/
def lastBlock (node : Node) (target_confirms : Int) : Except Exit Uint256 :=
  if target_confirms = 1 then .ok node.hashBestChain
  else
    match node.pindexBest with
    | none => .error (.abort "pindexBest is null")
    | some best =>
      let target_height := (node.heightOf best : Int) + 1 - target_confirms
      match walkBack node target_height (node.heightOf best + 2) (some best) with
      | none => .error (.abort "the walk does not end")
      | some block => .ok (block.getD 0)

/-- `depth`: how many confirmations the block has that was given. -/
def depthSince (node : Node) (pindex : Option Uint256) : Int :=
  match pindex with
  | some block => 1 + node.nBestHeight - node.heightOf block
  | none => -1

/-- The transactions that are handed to `ListTransactions`. -/
def handed (env : Env) (w : WalletNode) (wallet : AccountWallet) (depth : Int) :
    List CWalletTxRecord :=
  (wallet.mapWallet.toList.map (·.2)).filter fun wtx => depth = -1 || w.depth env wtx < depth

/-- What `listsinceblock` hands on. -/
def transactionsSince (env : Env) (w : WalletNode) (wallet : AccountWallet)
    (blockhash : Option Uint256) : Except Exit (List CWalletTxRecord) := do
  let pindex ← match blockhash with
    | none => pure none
    | some blockId => blockSince env w.node blockId
  return handed env w wallet (depthSince w.node pindex)

/-- `listsinceblock`, with the parameters that are given. -/
def listsinceblock (env : Env) (w : WalletNode) (wallet : AccountWallet)
    (blockhash : Option Uint256) (target : Option Int) : Except Exit (List Entry × Uint256) := do
  let target_confirms := target.getD 1
  if target_confirms < 1 then .error (.abort "Invalid parameter")
  let txs ← transactionsSince env w wallet blockhash
  let transactions ← txs.mapM fun wtx =>
    listTransactions (w.listEnv env) wallet wtx allAccounts 0 true
  let lastblock ← lastBlock w.node target_confirms
  return (transactions.flatten, lastblock)

/-! ## The main chain -/

/-- `chain` is the main chain of the node, from the best block down. -/
structure MainChain (env : Env) (chain : List Uint256) (node : Node) : Prop where
  tree : BlockTree env node
  lineage : Lineage node.parent chain
  best : node.pindexBest = chain.head?
  hashBest : chain.head? = some node.hashBestChain
  nBestHeight : node.nBestHeight = node.heightOf node.hashBestChain
  genesis : node.pindexGenesisBlock = some env.genesisHash
  main : ∀ a, (mainChainIndex node a).isSome ↔ a ∈ chain

/-- The best chain of a node, between two calls. -/
theorem BestInv.mainChain {env : Env} {chain : List Uint256} {w : World}
    (h : BestInv env chain w) (htree : BlockTree env w.node) : MainChain env chain w.node where
  tree := htree
  lineage := h.lineage
  best := h.best
  hashBest := h.hashBest
  nBestHeight := by
    obtain ⟨index, hindex, hheight, -⟩ := h.trust
    rw [hheight, Node.heightOf, hindex]
    rfl
  genesis := by
    obtain ⟨q, rest, rfl⟩ := List.exists_cons_of_ne_nil h.lineage.ne_nil
    obtain ⟨index, hindex⟩ := h.indexed List.mem_cons_self
    rw [h.genesis]
    exact (htree.lineage (Option.isSome_iff_exists.mpr ⟨index, hindex⟩) h.lineage).2.1
  main a := by
    refine ⟨fun hmain => ?_, fun ha => ?_⟩
    · obtain ⟨-, hnext | hbest⟩ := mainChainIndex_isSome.mp hmain
      · by_contra ha
        rw [h.pnext, nextIn_of_notMem ha] at hnext
        exact absurd hnext Bool.false_ne_true
      · exact List.mem_of_head? (h.best.symm.trans hbest)
    · obtain ⟨rest, -, hmain⟩ := h.onMainChain ha
      exact hmain a List.mem_cons_self

namespace MainChain

variable {env : Env} {chain : List Uint256} {node : Node}

theorem exists_cons (h : MainChain env chain node) :
    ∃ rest, chain = node.hashBestChain :: rest := by
  cases chain with
  | nil => exact absurd h.hashBest (by simp)
  | cons q rest =>
    obtain rfl := Option.some.inj h.hashBest
    exact ⟨rest, rfl⟩

theorem indexed (h : MainChain env chain node) {a : Uint256} (ha : a ∈ chain) :
    (node.index? a).isSome :=
  (mainChainIndex_isSome.mp ((h.main a).mpr ha)).1

theorem getLast?_eq (h : MainChain env chain node) : chain.getLast? = some env.genesisHash := by
  obtain ⟨rest, rfl⟩ := h.exists_cons
  exact (h.tree.lineage (h.indexed List.mem_cons_self) h.lineage).2.1

theorem genesis_mem (h : MainChain env chain node) : env.genesisHash ∈ chain :=
  List.mem_of_getLast? h.getLast?_eq

/-- The first block has no ancestor but itself. -/
theorem branch_genesis (h : MainChain env chain node) {a : Uint256} {xs : List Uint256}
    (hbranch : Branch node.parent env.genesisHash xs a) : a = env.genesisHash := by
  obtain ⟨r, hlast, hroot⟩ := h.lineage.getLast_root
  obtain rfl := Option.some.inj (h.getLast?_eq.symm.trans hlast)
  cases hbranch with
  | nil => rfl
  | cons hparent => exact absurd (hroot.symm.trans hparent) nofun

theorem bestHeight_eq (h : MainChain env chain node) : node.bestHeight = node.nBestHeight := by
  rw [Node.bestHeight, h.best, h.hashBest, h.nBestHeight]

theorem length_eq (h : MainChain env chain node) : (chain.length : Int) = node.nBestHeight + 1 := by
  obtain ⟨rest, hchain⟩ := h.exists_cons
  have hlineage := h.lineage
  rw [hchain] at hlineage
  have hmem : node.hashBestChain ∈ chain := hchain ▸ List.mem_cons_self
  rw [h.nBestHeight, hchain, (h.tree.lineage (h.indexed hmem) hlineage).2.2]
  rfl

/-- Heights are counted from the lower end of the main chain. -/
theorem heightOf_getElem? (h : MainChain env chain node) {i : Nat} {a : Uint256}
    (ha : chain[i]? = some a) : (node.heightOf a : Int) = node.nBestHeight - i := by
  obtain ⟨rest, hchain⟩ := h.exists_cons
  have hlineage := h.lineage
  rw [hchain] at hlineage ha
  obtain ⟨xs, hxs, hlength⟩ := hlineage.branch_getElem? ha
  rw [h.nBestHeight, h.tree.heightOf_branch hxs, hlength]
  push_cast
  ring

theorem heightOf_le (h : MainChain env chain node) {a : Uint256} (ha : a ∈ chain) :
    (node.heightOf a : Int) ≤ node.nBestHeight := by
  obtain ⟨i, hi⟩ := List.getElem?_of_mem ha
  rw [h.heightOf_getElem? hi]
  omega

/-- Of two blocks of the main chain the lower one is an ancestor of the other. -/
theorem branch_of_heightOf_le (h : MainChain env chain node) {a b : Uint256} (ha : a ∈ chain)
    (hb : b ∈ chain) (hle : node.heightOf b ≤ node.heightOf a) :
    ∃ xs, Branch node.parent a xs b := by
  obtain ⟨i, hi⟩ := List.getElem?_of_mem ha
  obtain ⟨j, hj⟩ := List.getElem?_of_mem hb
  have hheight := h.heightOf_getElem? hi
  have hheight' := h.heightOf_getElem? hj
  have hdrop : chain.drop i = a :: chain.drop (i + 1) := by
    obtain ⟨hlt, rfl⟩ := List.getElem?_eq_some_iff.mp hi
    exact List.drop_eq_getElem_cons hlt
  have hlineage : Lineage node.parent (a :: chain.drop (i + 1)) := by
    rw [← List.take_append_drop i chain, hdrop] at h
    exact Lineage.of_append h.lineage
  have hat : (a :: chain.drop (i + 1))[j - i]? = some b := by
    rw [← hdrop, List.getElem?_drop, Nat.add_sub_cancel' (by omega)]
    exact hj
  obtain ⟨xs, hxs, -⟩ := hlineage.branch_getElem? hat
  exact ⟨xs, hxs⟩

/-! ## The block for the next call -/

/-- The walk passes the blocks that are too high, and ends on the chain or behind its end. -/
theorem walkBack_eq (h : MainChain env chain node) {t fuel i : Nat} (hi : i ≤ chain.length)
    (hfuel : chain.length < fuel + i) :
    walkBack node (node.nBestHeight - t) fuel chain[i]? = some chain[max i t]? := by
  induction fuel generalizing i with
  | zero =>
    rw [Nat.zero_add] at hfuel
    exact absurd hi (not_le.mpr hfuel)
  | succ fuel ih =>
    cases ha : chain[i]? with
    | none =>
      have hle := List.getElem?_eq_none_iff.mp ha
      rw [List.getElem?_eq_none (hle.trans (le_max_left i t))]
      rfl
    | some a =>
      have hheight := h.heightOf_getElem? ha
      have hnext : node.parent a = chain[i + 1]? := h.lineage.getElem?_parent ha
      rw [walkBack]
      by_cases hit : i < t
      · have hlt := (List.getElem?_eq_some_iff.mp ha).1
        rw [if_pos (by omega), hnext, ih hlt (by omega), max_eq_right hit, max_eq_right hit.le]
      · rw [if_neg (by omega), max_eq_left (not_lt.mp hit), ha]

/-- The next call gets the block with the target number of confirmations, or zero. -/
theorem lastBlock_eq (h : MainChain env chain node) {t : Nat} :
    lastBlock node (t + 1) = .ok (chain[t]?.getD 0) := by
  have hfirst : chain[0]? = some node.hashBestChain := List.head?_eq_getElem?.symm.trans h.hashBest
  unfold lastBlock
  split
  · next hone =>
    obtain rfl : t = 0 := by omega
    rw [hfirst]
    rfl
  · rw [h.best, h.hashBest]
    have hfuel : chain.length < node.heightOf node.hashBestChain + 2 + 0 := by
      have hlength := h.length_eq
      rw [h.nBestHeight] at hlength
      omega
    have hwalk := h.walkBack_eq (t := t) (Nat.zero_le _) hfuel
    rw [hfirst, Nat.zero_max, h.nBestHeight] at hwalk
    dsimp only
    rw [show (node.heightOf node.hashBestChain : Int) + 1 - (t + 1) =
      node.heightOf node.hashBestChain - t by ring, hwalk]

/-! ## The block that a hash leads to -/

/-- A hash leads to an ancestor that is on the main chain. -/
theorem blockSince_eq (h : MainChain env chain node) {blockId : Uint256}
    (hindexed : (node.index? blockId).isSome) :
    ∃ block, blockSince env node blockId = .ok (some block) ∧ block ∈ chain ∧
      ∃ xs, Branch node.parent blockId xs block := by
  obtain ⟨ancestors, hlineage⟩ := Lineage.exists_of_rank h.tree.height_lt blockId
  obtain ⟨-, hlast, hlength⟩ := h.tree.lineage hindexed hlineage
  have hsmall := h.tree.small blockId
  obtain ⟨entries, hloop, hentries⟩ : ∃ entries,
      CBlockLocator.setLoop node (node.heightOf blockId + 2) (some blockId) 1 [] = some entries ∧
        ∀ i, entries[i]? = (blockId :: ancestors)[CBlockLocator.distance i]? :=
    CBlockLocator.setLoop_entries (j := 0) (fun _ _ => hlineage.getElem?_parent) (by omega)
      (by omega) rfl (fun i hi => absurd hi (Nat.not_lt_zero i)) fun _ => rfl
  obtain ⟨d, block, hfound, hblock, hmain, -⟩ :=
    CBlockLocator.getBlockIndex_back hentries (by omega) hlast h.genesis
  obtain ⟨xs, hbranch, -⟩ := hlineage.branch_getElem? hblock
  refine ⟨block, ?_, ?_, xs, hbranch⟩
  · unfold blockSince CBlockLocator.ofHash CBlockLocator.set
    rw [if_pos hindexed, hloop]
    exact congrArg Except.ok hfound
  · rcases hmain with hmain | rfl
    · exact (h.main block).mp hmain
    · exact h.genesis_mem

/-- A hash that is not in the index leads to the first block. -/
theorem blockSince_unknown (h : MainChain env chain node) {blockId : Uint256}
    (hunknown : node.index? blockId = none) :
    blockSince env node blockId = .ok (some env.genesisHash) := by
  unfold blockSince CBlockLocator.ofHash
  rw [if_neg (by rw [hunknown]; decide)]
  exact congrArg Except.ok h.genesis

/-! ## Confirmations -/

/-- A transaction with confirmations is in a block of the main chain. -/
theorem depthInternal_pos (h : MainChain env chain node) {fMerkleVerified : Bool}
    {mtx : MerkleTxRecord} (hpos : 0 < depthInternal env node fMerkleVerified mtx) :
    mtx.hashBlock ∈ chain ∧
      depthInternal env node fMerkleVerified mtx =
        node.nBestHeight - node.heightOf mtx.hashBlock + 1 := by
  unfold depthInternal at hpos ⊢
  split at hpos
  · exact absurd hpos (lt_irrefl 0)
  next hplaced =>
  rw [if_neg hplaced]
  cases hmain : mainChainIndex node mtx.hashBlock with
  | none =>
    rw [hmain] at hpos
    exact absurd hpos (lt_irrefl 0)
  | some index =>
    rw [hmain] at hpos
    dsimp only at hpos ⊢
    split at hpos
    · exact absurd hpos (lt_irrefl 0)
    next hverified =>
    rw [if_neg hverified, h.bestHeight_eq]
    have hindex : node.index? mtx.hashBlock = some index :=
      (Option.filter_eq_some_iff.mp hmain).1
    refine ⟨(h.main _).mp (by rw [hmain]; rfl), ?_⟩
    rw [Node.heightOf, hindex]
    rfl

theorem depthSince_some (node : Node) (block : Uint256) :
    depthSince node (some block) = 1 + node.nBestHeight - node.heightOf block := rfl

/-- What has at least as many confirmations as a block of the main chain is below it. -/
theorem depth_le (h : MainChain env chain node) {fMerkleVerified : Bool} {mtx : MerkleTxRecord}
    {block : Uint256} (hblock : block ∈ chain)
    (hdeep : depthSince node (some block) ≤ depthInMainChain env node fMerkleVerified mtx) :
    mtx.hashBlock ∈ chain ∧ ∃ xs, Branch node.parent block xs mtx.hashBlock := by
  have hpos : 0 < depthSince node (some block) := by
    have hle := h.heightOf_le hblock
    rw [depthSince_some]
    omega
  have hdepth : depthInMainChain env node fMerkleVerified mtx =
      depthInternal env node fMerkleVerified mtx := by
    unfold depthInMainChain at hdeep ⊢
    dsimp only at hdeep ⊢
    split
    · next hnone =>
      rw [if_pos hnone] at hdeep
      omega
    · rfl
  obtain ⟨hmem, heq⟩ := h.depthInternal_pos (hdepth ▸ hpos.trans_le hdeep)
  refine ⟨hmem, h.branch_of_heightOf_le hblock hmem ?_⟩
  rw [hdepth, heq, depthSince_some] at hdeep
  omega

end MainChain

/-! ## Polling -/

/-- A node after any number of further blocks and reorganisations: no block is forgotten, and a
block keeps its parent. -/
structure Later (node node' : Node) : Prop where
  grows : ∀ a, (node.index? a).isSome → (node'.index? a).isSome
  shared : SharedBlocks node node'

/-- The ancestors of a block of the main chain are still those. -/
theorem Later.branch_back {env : Env} {chain : List Uint256} {node node' : Node}
    (hlater : Later node node') (h : MainChain env chain node) {a b : Uint256} {xs : List Uint256}
    (hbranch : Branch node'.parent a xs b) {i : Nat} (ha : chain[i]? = some a) :
    chain[i + xs.length]? = some b := by
  induction hbranch generalizing i with
  | nil => exact ha
  | @cons a c b xs hparent _ ih =>
    have hindexed := h.indexed (List.mem_of_getElem? ha)
    have hsame := hlater.shared a hindexed (hlater.grows a hindexed)
    rw [h.lineage.getElem?_parent ha, hparent] at hsame
    have hb := ih hsame
    rwa [Nat.add_right_comm, Nat.add_assoc] at hb

/-- What is left out has at least as many confirmations as the block. -/
theorem le_depth_of_not_handed {env : Env} {w : WalletNode} {wallet : AccountWallet}
    {hash : Uint256} {wtx : CWalletTxRecord} (hwtx : wallet.mapWallet[hash]? = some wtx)
    {depth : Int} (hout : wtx ∉ handed env w wallet depth) : depth ≤ w.depth env wtx := by
  have hmem : wtx ∈ wallet.mapWallet.toList.map (·.2) :=
    List.mem_map.mpr ⟨(hash, wtx), (Map.mem_toList _ _ _).mpr hwtx, rfl⟩
  by_contra hless
  refine hout (List.mem_filter.mpr ⟨hmem, ?_⟩)
  rw [Bool.or_eq_true]
  exact .inr (decide_eq_true (not_le.mp hless))

theorem listsinceblock_lastblock {env : Env} {chain : List Uint256} {w : WalletNode}
    (h : MainChain env chain w.node) {wallet : AccountWallet} {blockhash : Option Uint256}
    {t : Int} {entries : List Entry} {lastblock : Uint256}
    (hcall : listsinceblock env w wallet blockhash (some t) = .ok (entries, lastblock)) :
    1 ≤ t ∧ lastblock = chain[(t - 1).toNat]?.getD 0 := by
  unfold listsinceblock at hcall
  dsimp only [Option.getD_some] at hcall
  split at hcall
  · cases hcall
  next ht =>
  obtain ⟨-, -, hcall⟩ := except_bind_eq_ok.mp hcall
  obtain ⟨txs, -, hcall⟩ := except_bind_eq_ok.mp hcall
  obtain ⟨transactions, -, hcall⟩ := except_bind_eq_ok.mp hcall
  obtain ⟨block, hblock, hcall⟩ := except_bind_eq_ok.mp hcall
  have hanswer := congrArg Prod.snd (Except.ok.inj hcall)
  have hone : 1 ≤ t := not_lt.mp ht
  obtain ⟨k, hk⟩ := Int.eq_ofNat_of_zero_le (sub_nonneg.mpr hone)
  obtain rfl : t = k + 1 := by omega
  rw [h.lastBlock_eq] at hblock
  refine ⟨hone, ?_⟩
  rw [add_sub_cancel_right, Int.toNat_natCast]
  exact hanswer.symm.trans (Except.ok.inj hblock).symm

/-- The node that has only the first block. -/
def youngNode : Node :=
  { Node.initial.setIndex hashGenesisBlock (placedIndex none none 0) with
    pindexGenesisBlock := some hashGenesisBlock
    pindexBest := some hashGenesisBlock
    hashBestChain := hashGenesisBlock
    nBestHeight := 0 }

theorem youngNode_index? {a : Uint256} (ha : hashGenesisBlock ≠ a) : youngNode.index? a = none := by
  show (Node.initial.setIndex _ _).index? a = none
  rw [Node.index?_setIndex, if_neg ha]
  rfl

theorem youngNode_blockTree : BlockTree mainNet youngNode := by
  have htree : BlockTree mainNet
      (Node.initial.setIndex hashGenesisBlock (placedIndex none none 0)) :=
    BlockTree.setIndex (BlockTree.initial mainNet) rfl (.inl ⟨rfl, rfl, rfl⟩) (by decide +kernel)
  exact ⟨htree.indexed, htree.root, htree.height, htree.small⟩

theorem youngNode_mainChain : MainChain mainNet [hashGenesisBlock] youngNode where
  tree := youngNode_blockTree
  lineage := .root (by decide +kernel)
  best := rfl
  hashBest := rfl
  nBestHeight := by decide +kernel
  genesis := rfl
  main a := by
    by_cases ha : hashGenesisBlock = a
    · rw [← ha]
      exact iff_of_true (by decide +kernel) List.mem_cons_self
    · refine iff_of_false (fun hmain => ?_) fun hmem => ha (List.mem_singleton.mp hmem).symm
      have hindexed := (mainChainIndex_isSome.mp hmain).1
      rw [youngNode_index? ha] at hindexed
      exact absurd hindexed Bool.false_ne_true

/-- A wallet that has not looked for keys of its own. -/
def youngWalletNode : WalletNode where
  node := youngNode
  amounts := ⟨id, fun _ => false, fun _ => false⟩
  isFinal := fun _ => true
  fMerkleVerified := fun _ => true

/-- A record of the transaction of the first block. -/
def genesisRecord : CWalletTxRecord where
  tx := (genesisBlock mainNet).vtx.headD ⟨1, 0, [], [], 0⟩
  hashBlock := hashGenesisBlock
  vMerkleBranch := []
  nIndex := 0
  vtxPrev := []
  mapValue := ∅
  vOrderForm := []
  fTimeReceivedIsTxTime := 0
  nTimeReceived := 0
  nTimeSmart := 0
  fFromMe := 0
  strFromAccount := []
  vfSpent := []
  nOrderPos := 0

def genesisWallet : AccountWallet := ⟨(∅ : Map Uint256 CWalletTxRecord).insert 7 genesisRecord, ∅⟩

end NoLimitCoin
