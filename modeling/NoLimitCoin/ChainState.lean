import NoLimitCoin.Disconnected
import NoLimitCoin.Files
import NoLimitCoin.Lib.Ancestry

/-!
# The block index and the best chain

The invariants of a node between two switches of the best chain: every index object is that of
a block in the files and has its previous block below it, `pnext` leads along the best chain,
and the committed database names its tip.

Results:

1. `IndexInv` and what keeps it: `IndexInv.of_sameCore`, `IndexInv.put`, `IndexInv.insert`.
2. `ChainInv`: the invariant of the best chain, with the blocks that are connected read off the
   log.
-/

namespace NoLimitCoin

open Prog NodeM

/-! ## Index objects -/

/-- What `AddToBlockIndex` fixes of an index object: all but the sums and `pnext`. -/
def CBlockIndex.core (index : CBlockIndex) : CBlockIndex := { index.links with pnext := none }

theorem CBlockIndex.core_of_links {index index' : CBlockIndex} (h : index'.links = index.links) :
    index'.core = index.core := by
  rw [core, core, h]

theorem CBlockIndex.eq_of_core {index index' : CBlockIndex} (h : index'.core = index.core) :
    index' = { index with
      pnext := index'.pnext
      nMint := index'.nMint
      nMoneySupply := index'.nMoneySupply } := by
  obtain ⟨⟩ := index
  obtain ⟨⟩ := index'
  simp only [core, links, CBlockIndex.mk.injEq] at h ⊢
  simp [h]

namespace Node

/-- The previous block. -/
def parent (node : Node) (p : Uint256) : Option Uint256 := (node.index? p).bind CBlockIndex.pprev

/-- The next block, which is set along the main chain. -/
def pnextOf (node : Node) (p : Uint256) : Option Uint256 := (node.index? p).bind CBlockIndex.pnext

def heightOf (node : Node) (p : Uint256) : Nat := ((node.index? p).map CBlockIndex.nHeight).getD 0

/-- The tip of the best chain in the committed database. -/
def tip (node : Node) : Option Uint256 := node.txdb.pdb[DbKey.hashBestChain]?.bind DbVal.hash?

/-- The block that the index object at `p` points to in the files. -/
def storedBlock (node : Node) (p : Uint256) : Option CBlock :=
  (node.index? p).bind fun index =>
    node.files.blockAt[(⟨index.nFile, index.nBlockPos⟩ : FilePos)]?

end Node

/-- The index objects of two nodes are the same but for their sums and `pnext`. -/
def SameCore (node node' : Node) : Prop :=
  ∀ p, (node'.index? p).map CBlockIndex.core = (node.index? p).map CBlockIndex.core

namespace SameCore

variable {node node' node'' : Node}

theorem refl (node : Node) : SameCore node node := fun _ => rfl

theorem symm (h : SameCore node node') : SameCore node' node := fun p => (h p).symm

theorem trans (h : SameCore node node') (h' : SameCore node' node'') : SameCore node node'' :=
  fun p => (h' p).trans (h p)

theorem of_sameLinks (h : SameLinks node node') : SameCore node node' := by
  intro p
  cases hp : node.index? p with
  | none =>
    have := h p
    rw [hp, Option.map_none, Option.map_eq_none_iff] at this
    rw [this]
  | some index =>
    obtain ⟨index', hp', hlinks⟩ := h.index hp
    rw [hp', Option.map_some, Option.map_some, CBlockIndex.core_of_links hlinks]

theorem index (h : SameCore node node') {p : Uint256} {index : CBlockIndex}
    (hp : node.index? p = some index) :
    ∃ index', node'.index? p = some index' ∧ index'.core = index.core := by
  have hmap := h p
  rw [hp, Option.map_some] at hmap
  obtain ⟨index', hp', hcore⟩ := Option.map_eq_some_iff.mp hmap
  exact ⟨index', hp', hcore⟩

theorem index_none (h : SameCore node node') {p : Uint256} (hp : node.index? p = none) :
    node'.index? p = none := by
  have hmap := h p
  rw [hp] at hmap
  exact Option.map_eq_none_iff.mp hmap

theorem parent (h : SameCore node node') : node'.parent = node.parent := by
  funext p
  unfold Node.parent
  cases hp : node.index? p with
  | none => rw [h.index_none hp]
  | some index =>
    obtain ⟨index', hp', hcore⟩ := h.index hp
    rw [hp', CBlockIndex.eq_of_core hcore]
    rfl

theorem storedBlock (h : SameCore node node') (hfiles : node'.files = node.files) :
    node'.storedBlock = node.storedBlock := by
  funext p
  unfold Node.storedBlock
  cases hp : node.index? p with
  | none => rw [h.index_none hp]; rfl
  | some index =>
    obtain ⟨index', hp', hcore⟩ := h.index hp
    rw [hp', CBlockIndex.eq_of_core hcore, hfiles]
    rfl

theorem setIndex {p : Uint256} {index index' : CBlockIndex} (hp : node.index? p = some index)
    (h : index'.core = index.core) : SameCore node (node.setIndex p index') := by
  intro q
  rw [Node.index?_setIndex]
  split
  · next heq => rw [← heq, hp, Option.map_some, Option.map_some, h]
  · rfl

end SameCore

theorem SameLinks.pnextOf {node node' : Node} (h : SameLinks node node') :
    node'.pnextOf = node.pnextOf := by
  funext p
  unfold Node.pnextOf
  cases hp : node.index? p with
  | none =>
    have := h p
    rw [hp, Option.map_none, Option.map_eq_none_iff] at this
    rw [this]
  | some index =>
    obtain ⟨index', hp', hlinks⟩ := h.index hp
    have hpnext : index'.links.pnext = index.links.pnext := by rw [hlinks]
    rw [hp']
    exact hpnext

/-! ## The invariant of the index -/

/-- The index object at `p` is one of `block`. -/
structure ObjectOf (env : Env) (block : CBlock) (p : Uint256) (index : CBlockIndex) : Prop where
  hash : block.getHash env = p
  nVersion : index.nVersion = block.nVersion
  hashMerkleRoot : index.hashMerkleRoot = block.hashMerkleRoot
  nTime : index.nTime = block.nTime
  nBits : index.nBits = block.nBits
  nNonce : index.nNonce = block.nNonce
  isProofOfStake : index.isProofOfStake = block.isProofOfStake
  prevoutStake : index.prevoutStake =
    if block.isProofOfStake then block.getProofOfStake.1 else .null
  nStakeTime : index.nStakeTime = if block.isProofOfStake then block.getProofOfStake.2 else 0

/-- The object has its place in the tree: it is the first block, or above its previous block
and at the height its coin base names. -/
def Placed (env : Env) (node : Node) (block : CBlock) (index : CBlockIndex) : Prop :=
  (index.pprev = none ∧ block = genesisBlock env ∧ index.nHeight = 0) ∨
    (index.pprev = some block.hashPrevBlock ∧ block.startsWithHeight index.nHeight = true ∧
      ∃ indexPrev, node.index? block.hashPrevBlock = some indexPrev ∧
        index.nHeight = indexPrev.nHeight + 1)

/-- Every object of the index is that of a block in the files, and has its place. -/
structure IndexInv (env : Env) (node : Node) : Prop where
  bounded : node.files.Bounded
  objects : ∀ p index, node.index? p = some index → ∃ block,
    node.files.Holds index.nFile index.nBlockPos block ∧ ObjectOf env block p index ∧
      Placed env node block index

theorem ObjectOf.of_core {env : Env} {block : CBlock} {p : Uint256} {index index' : CBlockIndex}
    (hcore : index'.core = index.core) (h : ObjectOf env block p index) :
    ObjectOf env block p index' := by
  rw [CBlockIndex.eq_of_core hcore]
  exact ⟨h.hash, h.nVersion, h.hashMerkleRoot, h.nTime, h.nBits, h.nNonce, h.isProofOfStake,
    h.prevoutStake, h.nStakeTime⟩

theorem Placed.of_core {env : Env} {node node' : Node} {block : CBlock}
    {index index' : CBlockIndex} (hsame : SameCore node node') (hcore : index'.core = index.core)
    (h : Placed env node block index) : Placed env node' block index' := by
  rw [CBlockIndex.eq_of_core hcore]
  rcases h with h | ⟨hprev, hstarts, indexPrev, hindexPrev, hheight⟩
  · exact .inl h
  · obtain ⟨indexPrev', hindexPrev', hcorePrev⟩ := hsame.index hindexPrev
    refine .inr ⟨hprev, hstarts, indexPrev', hindexPrev', ?_⟩
    rw [CBlockIndex.eq_of_core hcorePrev]
    exact hheight

namespace IndexInv

variable {env : Env} {node node' : Node}

theorem of_sameCore (h : IndexInv env node) (hsame : SameCore node node')
    (hfiles : node'.files = node.files) : IndexInv env node' := by
  refine ⟨hfiles ▸ h.bounded, fun p index' hp' => ?_⟩
  obtain ⟨index, hp, hcore⟩ := hsame.symm.index hp'
  obtain ⟨block, hholds, hobject, hplaced⟩ := h.objects p index hp
  refine ⟨block, ?_, hobject.of_core hcore.symm, hplaced.of_core hsame hcore.symm⟩
  rw [hfiles, CBlockIndex.eq_of_core hcore.symm]
  exact hholds

/-- Appending a block to the files. -/
theorem put (h : IndexInv env node) {nFile nBlockPos : Nat} {block : CBlock}
    (hpos : node.files.sizeOf nFile ≤ nBlockPos) :
    IndexInv env { node with files := node.files.put nFile nBlockPos block } := by
  refine ⟨BlockFiles.put_bounded h.bounded hpos, fun p index hp => ?_⟩
  obtain ⟨block', hholds, hobject, hplaced⟩ := h.objects p index hp
  exact ⟨block', BlockFiles.put_keeps h.bounded hpos hholds, hobject, hplaced⟩

/-- Putting the object of a new block into the index. -/
theorem insert (h : IndexInv env node) {p : Uint256} {block : CBlock} {index : CBlockIndex}
    (hnew : node.index? p = none)
    (hholds : node.files.Holds index.nFile index.nBlockPos block)
    (hobject : ObjectOf env block p index) (hplaced : Placed env node block index) :
    IndexInv env (node.setIndex p index) := by
  have hkeep : ∀ {block' : CBlock} {index' : CBlockIndex}, Placed env node block' index' →
      Placed env (node.setIndex p index) block' index' := by
    rintro block' index' (hroot | ⟨hprev, hstarts, indexPrev, hindexPrev, hheight⟩)
    · exact .inl hroot
    · refine .inr ⟨hprev, hstarts, indexPrev, ?_, hheight⟩
      rw [Node.index?_setIndex, if_neg, hindexPrev]
      intro heq
      rw [← heq, hnew] at hindexPrev
      exact absurd hindexPrev nofun
  refine ⟨h.bounded, fun q index' hq => ?_⟩
  rw [Node.index?_setIndex] at hq
  split at hq
  · next heq =>
    rw [← Option.some.inj hq, ← heq]
    exact ⟨block, hholds, hobject, hkeep hplaced⟩
  · obtain ⟨block', hholds', hobject', hplaced'⟩ := h.objects q index' hq
    exact ⟨block', hholds', hobject', hkeep hplaced'⟩

theorem parent_some (h : IndexInv env node) {p q : Uint256} (hpq : node.parent p = some q) :
    ∃ index indexPrev block, node.index? p = some index ∧ node.index? q = some indexPrev ∧
      node.files.Holds index.nFile index.nBlockPos block ∧ ObjectOf env block p index ∧
      index.pprev = some q ∧ block.hashPrevBlock = q ∧
      block.startsWithHeight index.nHeight = true ∧ index.nHeight = indexPrev.nHeight + 1 := by
  obtain ⟨index, hp, hprev⟩ := Option.bind_eq_some_iff.mp hpq
  obtain ⟨block, hholds, hobject, hplaced⟩ := h.objects p index hp
  rcases hplaced with ⟨hroot, -⟩ | ⟨hprev', hstarts, indexPrev, hindexPrev, hheight⟩
  · rw [hroot] at hprev
    exact absurd hprev nofun
  · rw [hprev'] at hprev
    obtain rfl := Option.some.inj hprev
    exact ⟨index, indexPrev, block, hp, hindexPrev, hholds, hobject, hprev', rfl, hstarts, hheight⟩

/-- Heights grow by one along the tree. -/
theorem heightOf_parent (h : IndexInv env node) (p q : Uint256) (hpq : node.parent p = some q) :
    node.heightOf p = node.heightOf q + 1 := by
  obtain ⟨index, indexPrev, block, hp, hq, -, -, -, -, -, hheight⟩ := h.parent_some hpq
  simp [Node.heightOf, hp, hq, hheight]

theorem heightOf_lt (h : IndexInv env node) (p q : Uint256) (hpq : node.parent p = some q) :
    node.heightOf q < node.heightOf p := by
  rw [h.heightOf_parent p q hpq]
  exact Nat.lt_succ_self _

theorem nodup (h : IndexInv env node) {chain : List Uint256}
    (hchain : Lineage node.parent chain) : chain.Nodup :=
  hchain.nodup h.heightOf_lt

end IndexInv

/-! ## The blocks that are connected -/

/-- What the log says of the blocks that are connected: in the committed database, and in the
open transaction, newest first. -/
structure Connections where
  committed : List Uint256
  working : List Uint256
deriving Repr, DecidableEq

namespace Connections

/-- The meaning of an event. -/
def step (c : Connections) : Event → Connections
  | .connected hash => { c with working := hash :: c.working }
  | .disconnected hash => { c with working := c.working.erase hash }
  | .committed => { c with committed := c.working }
  | .dropped => { c with working := c.committed }
  | _ => c

def ofLog (log : List Event) : Connections := log.foldl step ⟨[], []⟩

theorem ofLog_append (log evs : List Event) : ofLog (log ++ evs) = evs.foldl step (ofLog log) := by
  simp [ofLog]

/-- Telling the wallets changes nothing. -/
theorem foldl_syncs {α : Type} (c : Connections) (f : α → Uint256) (b : Bool) (xs : List α) :
    (xs.map fun x => Event.syncWithWallets (f x) b).foldl step c = c := by
  induction xs with
  | nil => rfl
  | cons x xs ih => exact ih

theorem foldl_connectedEvents (env : Env) (block : CBlock) (p : Uint256) (c : Connections) :
    (block.connectedEvents env p).foldl step c = { c with working := p :: c.working } := by
  rw [CBlock.connectedEvents, List.foldl_append, foldl_syncs]
  rfl

end Connections

/-! ## The best chain -/

/-- The invariant of a node between two calls, with its best chain, newest block first.  The
first block is never connected: its transactions are not in the index. -/
structure ChainInv (env : Env) (chain : List Uint256) (w : World) : Prop where
  closed : w.node.txdb.activeBatch = none
  index : IndexInv env w.node
  lineage : Lineage w.node.parent chain
  pnext : w.node.pnextOf = nextIn chain
  tip : w.node.tip = chain.head?
  connections : Connections.ofLog w.log = ⟨chain.dropLast, chain.dropLast⟩
  genesis : w.node.pindexGenesisBlock = chain.getLast?

end NoLimitCoin
