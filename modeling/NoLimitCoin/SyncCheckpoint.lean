import NoLimitCoin.Consistency

/-!
# The synchronized checkpoint

The checkpoint moves by messages of the master key and from the pending slot, while blocks
arrive in any order and chains are switched.  Whatever happens to the postponed blocks, `pnext`
leads along the way from a block of the main chain to the best block, so that a block that
passes `IsInMainChain` is one the best block descends from.

Results:

1. `Node.LinksTo` and what keeps it: `reorganize_linksTo`, `moveBestChain_linksTo`.
2. `TreeInv` and `Move.treeInv`: the invariant of every run, postponed blocks that fail included.
3. `syncCheckpoint_kept`: the checkpoint is in the index, moves up only, and with strict
   checkpoints stays on the chain of the best block.
-/

namespace NoLimitCoin

open Prog NodeM Checkpoints

/-! ## Where the links lead -/

/-- `pnext` leads from a block to its child on the way up to `best`. -/
def Node.LinksTo (node : Node) (best : Uint256) : Prop :=
  ∀ p n, node.pnextOf p = some n → node.parent n = some p ∧ node.Above best n

theorem Node.Above.refl (node : Node) (p : Uint256) : node.Above p p := ⟨[], .nil p⟩

theorem Node.Above.trans {node : Node} {p q r : Uint256} (h : node.Above p q)
    (h' : node.Above q r) : node.Above p r := by
  obtain ⟨xs, hxs⟩ := h
  obtain ⟨ys, hys⟩ := h'
  exact ⟨xs ++ ys, hxs.append hys⟩

theorem Node.Above.of_parent {node node' : Node} {p q : Uint256}
    (hparent : node'.parent = node.parent) (h : node.Above p q) : node'.Above p q := by
  obtain ⟨xs, hxs⟩ := h
  exact ⟨xs, hparent ▸ hxs⟩

theorem Node.Above.parent {node : Node} {p q : Uint256} (h : node.parent p = some q) :
    node.Above p q := ⟨[p], .cons h (.nil q)⟩

namespace Node.LinksTo

variable {node node' : Node} {best p q : Uint256}

theorem lift (h : node.LinksTo q) (habove : node.Above p q) : node.LinksTo p := by
  intro a n hnext
  obtain ⟨hparent, hn⟩ := h a n hnext
  exact ⟨hparent, habove.trans hn⟩

theorem of_same (hparent : node'.parent = node.parent) (hpnext : node'.pnextOf = node.pnextOf)
    (h : node.LinksTo best) : node'.LinksTo best := by
  intro a n hnext
  rw [hpnext] at hnext
  obtain ⟨hn, habove⟩ := h a n hnext
  exact ⟨hparent ▸ hn, habove.of_parent hparent⟩

/-- Taking back the link to the best block itself. -/
theorem unlink (h : node.LinksTo p) (hpq : node.parent p = some q)
    (hparent : node'.parent = node.parent)
    (hpnext : node'.pnextOf = Function.update node.pnextOf q none) : node'.LinksTo q := by
  intro a n hnext
  rw [hpnext, Function.update_apply] at hnext
  split at hnext
  · exact absurd hnext (by simp)
  · next hne =>
    obtain ⟨hn, xs, hbranch⟩ := h a n hnext
    refine ⟨hparent ▸ hn, Node.Above.of_parent hparent ?_⟩
    cases hbranch with
    | nil =>
      rw [hpq] at hn
      exact absurd (Option.some.inj hn).symm hne
    | cons hpb hrest =>
      rw [hpq] at hpb
      obtain rfl := Option.some.inj hpb
      exact ⟨_, hrest⟩

/-- Setting the link to a block on the way to the best one. -/
theorem link (h : node.LinksTo best) (habove : node.Above best p) (hpq : node.parent p = some q)
    (hparent : node'.parent = node.parent)
    (hpnext : node'.pnextOf = Function.update node.pnextOf q (some p)) : node'.LinksTo best := by
  intro a n hnext
  rw [hpnext, Function.update_apply] at hnext
  split at hnext
  · next heq =>
    obtain rfl := Option.some.inj hnext
    exact ⟨by rw [hparent, hpq, heq], habove.of_parent hparent⟩
  · obtain ⟨hn, hbest⟩ := h a n hnext
    exact ⟨hparent ▸ hn, hbest.of_parent hparent⟩

end Node.LinksTo

/-! ## Switches of the best chain -/

/-- In the tree given by `parent`, the links go on leading to `best`. -/
structure LinksKept (parent : Uint256 → Option Uint256) (best : Uint256) (w w' : World) :
    Prop where
  genesis : w'.node.pindexGenesisBlock = w.node.pindexGenesisBlock
  links : w.node.parent = parent →
    w'.node.parent = parent ∧ (w.node.LinksTo best → w'.node.LinksTo best)

section linksKept

variable {parent : Uint256 → Option Uint256} {best : Uint256}

instance : Std.Refl (LinksKept parent best) := ⟨fun _ => ⟨rfl, fun h => ⟨h, id⟩⟩⟩

instance : IsTrans World (LinksKept parent best) := by
  refine ⟨fun w w' w'' h h' => ⟨h'.genesis.trans h.genesis, fun hparent => ?_⟩⟩
  obtain ⟨hparent', hlinks⟩ := h.links hparent
  obtain ⟨hparent'', hlinks'⟩ := h'.links hparent'
  exact ⟨hparent'', fun hbest => hlinks' (hlinks hbest)⟩

namespace LinksKept

theorem of_links {w w' : World} (h : SameLinks w.node w'.node)
    (hgenesis : w'.node.pindexGenesisBlock = w.node.pindexGenesisBlock) :
    LinksKept parent best w w' := by
  have hparent := (SameCore.of_sameLinks h).parent
  exact ⟨hgenesis, fun hw => ⟨hparent.trans hw, Node.LinksTo.of_same hparent h.pnextOf⟩⟩

theorem of_index {w w' : World} (h : w'.node.mapBlockIndex = w.node.mapBlockIndex)
    (hgenesis : w'.node.pindexGenesisBlock = w.node.pindexGenesisBlock) :
    LinksKept parent best w w' := of_links (SameLinks.of_index h) hgenesis

theorem of_reads {α : Type} {x : NodeM α} (h : Reads x) : Keeps (LinksKept parent best) x :=
  h.mono fun _ _ hsame => of_index (by rw [hsame.node]) (by rw [hsame.node])

theorem of_poolOnly {α : Type} {x : NodeM α} (h : Keeps PoolOnly x) :
    Keeps (LinksKept parent best) x :=
  h.mono fun _ _ hpool => of_index (by rw [hpool.node]) (by rw [hpool.node])

theorem modifyNode {f : Node → Node} (h : ∀ node, (f node).mapBlockIndex = node.mapBlockIndex)
    (hgenesis : ∀ node, (f node).pindexGenesisBlock = node.pindexGenesisBlock) :
    Keeps (LinksKept parent best) (modifyNode f) := fun w => of_index (h w.node) (hgenesis w.node)

theorem change (op : BatchOp DbKey DbVal) : Keeps (LinksKept parent best) (change op) := by
  refine Keeps.bind (of_reads Reads.getNode) fun node => Keeps.bind ?_ fun status =>
    Keeps.bind (modifyNode (fun _ => rfl) fun _ => rfl) fun _ => Keeps.pure _
  exact of_reads (Keeps.ite (Reads.pure _) Reads.diskOk)

theorem frame : Frame (LinksKept parent best) where
  reads := of_reads
  change := change
  emit _ _ := fun _ => of_index rfl rfl
  setIndex _ hp h := of_links (SameLinks.setIndex hp h) rfl

theorem txnCommit : Keeps (LinksKept parent best) txnCommit := by
  refine Keeps.bind (of_reads Reads.diskOk) fun status =>
    Keeps.bind (of_reads Reads.getNode) fun node => ?_
  split
  · exact Keeps.bind (modifyNode (fun _ => rfl) fun _ => rfl) fun _ =>
      Keeps.bind (fun _ => of_index rfl rfl) fun _ => Keeps.pure _
  · exact Keeps.throw _

theorem txnAbort : Keeps (LinksKept parent best) txnAbort :=
  Keeps.bind (modifyNode (fun _ => rfl) fun _ => rfl) fun _ _ => of_index rfl rfl

theorem txnBegin : Keeps (LinksKept parent best) txnBegin := by
  intro w
  unfold NodeM.txnBegin
  split
  · exact of_index rfl rfl
  · exact Std.Refl.refl _

theorem invalidChainFound (pindexNew : Uint256) :
    Keeps (LinksKept parent best) (invalidChainFound pindexNew) := by
  refine Keeps.bind (of_reads (Reads.deref _)) fun index =>
    Keeps.bind (of_reads Reads.getNode) fun node => Keeps.ite ?_ (Keeps.pure _)
  refine Keeps.bind (modifyNode (fun _ => rfl) fun _ => rfl) fun _ => Keeps.bind ?_ fun _ => Keeps.pure _
  exact Keeps.bind (of_reads Reads.diskOk) fun _ =>
    Keeps.bind (modifyNode (fun _ => rfl) fun _ => rfl) fun _ => Keeps.pure _

theorem link {pindex pprev : Uint256} {indexPrev : CBlockIndex} {xs : List Uint256} {w : World}
    (habove : Branch parent best xs pindex) (hprev : w.node.parent pindex = some pprev)
    (hindexPrev : w.node.index? pprev = some indexPrev) : LinksKept parent best w
      { w with node := w.node.setIndex pprev { indexPrev with pnext := some pindex } } := by
  have hrelinked := relinked_setIndex (some pindex) hindexPrev
  refine ⟨rfl, fun hparent => ⟨hrelinked.core.parent.trans hparent, fun hlinks => ?_⟩⟩
  exact hlinks.link ⟨xs, hparent ▸ habove⟩ hprev hrelinked.core.parent
    (Node.pnextOf_setIndex _ _ _)

/-- `SetBestChainInner` of a block on the way to the best one. -/
theorem setBestChainInner {env : Env} {block : CBlock} {pindex : Uint256} {xs : List Uint256}
    (habove : Branch parent best xs pindex) :
    Keeps (LinksKept parent best) (block.setBestChainInner env pindex) := by
  refine Keeps.bind (fun _ => of_index rfl rfl) fun _ => Keeps.bind (Keeps.attempt ?_) fun r => ?_
  · exact Keeps.bind (frame.connectBlock _ _ _ _) fun _ =>
      Keeps.bind (change _) fun _ => frame.require _ _
  match r with
  | .error (.reject nDoS text) =>
    exact Keeps.bind txnAbort fun _ => Keeps.bind (invalidChainFound _) fun _ => Keeps.throw _
  | .error (.abort what) => exact Keeps.throw _
  | .ok () =>
    refine Keeps.bind txnCommit fun _ => Keeps.bind (frame.require _ _) fun _ w => ?_
    refine deref_bind_keeps fun index hp => ?_
    cases hprev : index.pprev with
    | none => exact Std.Refl.refl _
    | some pprev =>
      refine deref_bind_keeps fun indexPrev hindexPrev => ?_
      refine IsTrans.trans _ _ _ (link habove ?_ hindexPrev)
        (Keeps.forM (fun tx => of_poolOnly (poolOnly_modifyPool _)) block.vtx _)
      rw [Node.parent, hp]
      exact hprev

/-- The postponed blocks, which are all on the way to the best one, until one fails. -/
theorem connectPostponed {env : Env} {vpindex : List Uint256}
    (habove : ∀ p ∈ vpindex, ∃ xs, Branch parent best xs p) :
    Keeps (LinksKept parent best) (connectPostponed env vpindex) := by
  induction vpindex with
  | nil => exact Keeps.pure _
  | cons pindex rest ih =>
    obtain ⟨⟨xs, hpindex⟩, hrest⟩ := List.forall_mem_cons.mp habove
    refine Keeps.bind (fun _ => of_index rfl rfl) fun _ =>
      Keeps.bind (of_reads (Reads.readBlock env pindex)) fun found => ?_
    cases found with
    | none => exact Keeps.pure _
    | some block =>
      refine Keeps.bind txnBegin fun _ =>
        Keeps.bind (Keeps.attempt (setBestChainInner hpindex)) fun r => ?_
      match r with
      | .error (.reject nDoS text) => exact Keeps.pure _
      | .error (.abort what) => exact Keeps.throw _
      | .ok () => exact ih hrest

end LinksKept

end linksKept

/-- Taking back the links of a branch, from the top down. -/
theorem unlink_linksTo {a c : Uint256} {xs : List Uint256} {w w' : World}
    (hbranch : Branch w.node.parent a xs c) (hlinks : w.node.LinksTo a)
    (h : (xs.forM fun p => setPrevNext p none) w = .ok () w') :
    Relinked w w' ∧ w'.node.LinksTo c := by
  induction xs generalizing a w with
  | nil =>
    obtain ⟨-, rfl⟩ := pure_eq_ok.mp h
    cases hbranch
    exact ⟨.refl _, hlinks⟩
  | cons x xs ih =>
    cases hbranch with
    | cons hab hbranch =>
      obtain ⟨_, w₁, hone, h⟩ := bind_eq_ok.mp h
      obtain ⟨hrelinked, hpnext⟩ := setPrevNext_ok hab hone
      have hparent := hrelinked.core.parent
      obtain ⟨hrelinked', hlinks'⟩ := ih (hparent ▸ hbranch) (hlinks.unlink hab hparent hpnext) h
      exact ⟨hrelinked.trans hrelinked', hlinks'⟩

/-- Setting the links of a branch, from the bottom up. -/
theorem link_linksTo {a c : Uint256} {ys : List Uint256} {w w' : World}
    (hbranch : Branch w.node.parent a ys c) (hlinks : w.node.LinksTo c)
    (h : (ys.reverse.forM fun p => setPrevNext p (some p)) w = .ok () w') :
    Relinked w w' ∧ w'.node.LinksTo a := by
  induction hbranch generalizing w' with
  | nil =>
    obtain ⟨-, rfl⟩ := pure_eq_ok.mp h
    exact ⟨.refl _, hlinks⟩
  | @cons x b c xs hxb hbranch ih =>
    have h : forM (xs.reverse ++ [x]) (fun p => setPrevNext p (some p)) w = .ok () w' := by
      rwa [List.reverse_cons] at h
    rw [List.forM_append] at h
    obtain ⟨_, w₁, hfirst, h⟩ := bind_eq_ok.mp h
    obtain ⟨hrelinked₁, hlinks₁⟩ := ih hlinks hfirst
    obtain ⟨_, w₂, hone, h⟩ := bind_eq_ok.mp h
    obtain ⟨-, rfl⟩ := pure_eq_ok.mp h
    have hxb : w₁.node.parent x = some b := by rw [hrelinked₁.core.parent, hxb]
    obtain ⟨hrelinked, hpnext⟩ := setPrevNext_ok hxb hone
    have hlinked := (hlinks₁.lift (.parent hxb)).link (.refl _ x) hxb hrelinked.core.parent hpnext
    exact ⟨hrelinked₁.trans hrelinked, hlinked⟩

/-- The branches that `Reorganize` works on meet in the fork. -/
theorem switchBranches_branches {env : Env} {p : Uint256} {w w' : World}
    {r : List Uint256 × List Uint256 × List CTransaction × List CTransaction}
    (h : switchBranches env p w = .ok r w') : ∃ q pfork ys, w.node.pindexBest = some q ∧
      Branch w.node.parent q r.1 pfork ∧ Branch w.node.parent p ys pfork ∧ r.2.1 = ys.reverse := by
  unfold switchBranches at h
  rw [getNode_bind] at h
  obtain ⟨q, hq, h⟩ := nonNull_bind_eq_ok.mp h
  obtain ⟨pfork, w₁, hfork, h⟩ := bind_eq_ok.mp h
  have hsame₁ := (Reads.findFork _ _ _).ok hfork
  obtain ⟨vDisconnect, w₂, hdown, h⟩ := bind_eq_ok.mp h
  have hsame₂ := IsTrans.trans _ _ _ hsame₁ ((Reads.branchTo _ _ _).ok hdown)
  obtain ⟨vConnectRev, w₃, hup, h⟩ := bind_eq_ok.mp h
  obtain ⟨vResurrect, w₄, -, h⟩ := bind_eq_ok.mp h
  obtain ⟨vDelete, w₅, -, h⟩ := bind_eq_ok.mp h
  obtain ⟨ok, w₆, -, h⟩ := bind_eq_ok.mp h
  obtain ⟨-, h⟩ := require_bind_eq_ok.mp h
  obtain ⟨rfl, rfl⟩ := pure_eq_ok.mp h
  have hdown := branchTo_ok hdown
  have hup := branchTo_ok hup
  rw [hsame₁.node] at hdown
  rw [hsame₂.node] at hup
  exact ⟨q, pfork, vConnectRev, hq, hdown, hup, rfl⟩

/-- After a successful `Reorganize` the links lead to the new best block. -/
theorem reorganize_linksTo {env : Env} {p q : Uint256} {w w' : World}
    (hbest : w.node.pindexBest = some q) (hlinks : w.node.LinksTo q)
    (h : reorganize env p w = .ok () w') :
    w'.node.pindexGenesisBlock = w.node.pindexGenesisBlock ∧
      w'.node.parent = w.node.parent ∧ w'.node.LinksTo p := by
  unfold reorganize at h
  rw [emitCall_bind] at h
  obtain ⟨⟨vDisconnect, vConnect, vResurrect, vDelete⟩, w₁, hswitch, h⟩ := bind_eq_ok.mp h
  obtain ⟨q', pfork, ys, hq', hdown, hup, rfl⟩ := switchBranches_branches hswitch
  obtain rfl := Option.some.inj (hbest.symm.trans hq')
  obtain ⟨ok, w₂, hcommit, h⟩ := bind_eq_ok.mp h
  obtain ⟨-, h⟩ := require_bind_eq_ok.mp h
  have hkept : LinksKept w.node.parent q w w₂ :=
    IsTrans.trans _ _ _ (LinksKept.of_index rfl rfl : LinksKept w.node.parent q w (w.addLog _))
      (IsTrans.trans _ _ _ ((LinksKept.frame.switchBranches env p).ok hswitch)
        (LinksKept.txnCommit.ok hcommit))
  obtain ⟨hparent₂, hlinks₂⟩ := hkept.links rfl
  obtain ⟨_, w₃, hunlink, h⟩ := bind_eq_ok.mp h
  obtain ⟨_, w₄, hlink, h⟩ := bind_eq_ok.mp h
  obtain ⟨hunlinked, hlinks₃⟩ := unlink_linksTo (hparent₂ ▸ hdown) (hlinks₂ hlinks) hunlink
  have hparent₃ := hunlinked.core.parent.trans hparent₂
  obtain ⟨hlinked, hlinks₄⟩ := link_linksTo (hparent₃ ▸ hup) hlinks₃ hlink
  have hpool : LinksKept w.node.parent p w₄ w' := by
    obtain ⟨_, w₅, hresurrect, hdelete⟩ := bind_eq_ok.mp h
    exact IsTrans.trans _ _ _
      ((Keeps.forM (fun tx => LinksKept.of_poolOnly (poolOnly_resurrect env tx)) _).ok hresurrect)
      ((Keeps.forM (fun tx => LinksKept.of_poolOnly (poolOnly_poolForget env tx)) _).ok hdelete)
  obtain ⟨hparent, hkeeps⟩ := hpool.links (hlinked.core.parent.trans hparent₃)
  refine ⟨hpool.genesis.trans ?_, hparent, hkeeps hlinks₄⟩
  rw [hlinked.node, hunlinked.node]
  exact hkept.genesis

/-- What `SetBestChain` does before it sets the globals, whether the postponed blocks fail or
not. -/
theorem moveBestChain_linksTo {env : Env} {block : CBlock} {p : Uint256} {w w' : World}
    (hindex : IndexInv env w.node) (hgenesis : w.node.pindexGenesisBlock ≠ none)
    (hbest : w.node.pindexBest = some w.node.hashBestChain)
    (hlinks : w.node.LinksTo w.node.hashBestChain) (hstored : w.node.storedBlock p = some block)
    (h : block.moveBestChain env p w = .ok () w') :
    w'.node.pindexGenesisBlock = w.node.pindexGenesisBlock ∧
      w'.node.parent = w.node.parent ∧ w'.node.LinksTo p := by
  unfold CBlock.moveBestChain at h
  rw [getNode_bind] at h
  split at h
  · next hstart => exact absurd hstart.1 hgenesis
  split at h
  · next hprev =>
    have h := adaptExcept_eq_ok.mp h
    obtain ⟨q, hparent⟩ := setBestChainInner_parent h
    obtain ⟨index, -, block', hp, -, hholds, -, -, hprev', -⟩ := hindex.parent_some hparent
    obtain rfl : block = block' := by
      rw [Node.storedBlock, hp, Option.bind_some, hholds.stored] at hstored
      exact (Option.some.inj hstored).symm
    rw [← hprev, hprev'] at hlinks
    have hkept := (LinksKept.setBestChainInner
      (.nil p : Branch w.node.parent p [] p)).ok h
    obtain ⟨hparent', hkeeps⟩ := hkept.links rfl
    exact ⟨hkept.genesis, hparent', hkeeps (hlinks.lift (.parent hparent))⟩
  · unfold switchBestChain at h
    rw [getNode_bind] at h
    obtain ⟨q, hq, h⟩ := nonNull_bind_eq_ok.mp h
    obtain rfl := Option.some.inj (hbest.symm.trans hq)
    obtain ⟨indexBest, -, h⟩ := deref_bind_eq_ok.mp h
    obtain ⟨⟨vpindexSecondary, pindexIntermediate⟩, w₁, hpostpone, h⟩ := bind_eq_ok.mp h
    have hsame := (Reads.postpone _ _ _ _).ok hpostpone
    obtain ⟨xs, hxs, hbranch⟩ := postpone_ok hpostpone
    obtain rfl : vpindexSecondary = xs := hxs
    obtain ⟨r, w₂, hattempt, hrun⟩ := bind_eq_ok.mp h
    rcases attempt_eq_ok.mp hattempt with ⟨_, rfl, hreorganize⟩ | ⟨e, rfl, -⟩
    · obtain ⟨hgenesis₂, hparent₂, hlinks₂⟩ := reorganize_linksTo
        (by rw [hsame.node]; exact hbest) (by rw [hsame.node]; exact hlinks) hreorganize
      rw [hsame.node] at hgenesis₂ hparent₂
      have hpostponed : ∀ x ∈ vpindexSecondary.reverse, ∃ ys, Branch w.node.parent p ys x :=
        fun x hx => hbranch.above_of_mem (List.mem_reverse.mp hx)
      have hkept := (LinksKept.connectPostponed hpostponed).ok hrun
      obtain ⟨hparent, hkeeps⟩ := hkept.links hparent₂
      exact ⟨hkept.genesis.trans hgenesis₂, hparent, hkeeps (hlinks₂.lift ⟨_, hparent₂ ▸ hbranch⟩)⟩
    · cases e with
      | abort what => exact absurd hrun error_ne_ok
      | reject nDoS text =>
        obtain ⟨_, w₃, -, hrun⟩ := bind_eq_ok.mp hrun
        obtain ⟨_, w₄, -, hrun⟩ := bind_eq_ok.mp hrun
        exact absurd hrun error_ne_ok

/-! ## The invariant of every run -/

/-- What a node keeps even where postponed blocks fail. -/
structure TreeInv (env : Env) (node : Node) : Prop where
  index : IndexInv env node
  genesis : node.pindexGenesisBlock ≠ none
  best : node.pindexBest = some node.hashBestChain
  links : node.LinksTo node.hashBestChain
  indexed : ∃ index, node.index? node.hashSyncCheckpoint = some index
  guarded : Guarded env node node.hashBestChain

/-- What a move does to the sync-checkpoint: it goes up or stays, in a tree that only grows. -/
structure MovesUp (node node' : Node) : Prop where
  grows : ∀ p q, node.Above p q → node'.Above p q
  moved : node'.Above node'.hashSyncCheckpoint node.hashSyncCheckpoint

theorem MovesUp.of_tree {node node' : Node} (hparent : node'.parent = node.parent)
    (hsync : node'.hashSyncCheckpoint = node.hashSyncCheckpoint) : MovesUp node node' :=
  ⟨fun _ _ h => h.of_parent hparent, hsync ▸ .refl _ _⟩

namespace TreeInv

variable {env : Env} {w w' : World}

theorem of_sameChain (h : TreeInv env w.node) (hsame : SameChain w w')
    (hsync : w'.node.hashSyncCheckpoint = w.node.hashSyncCheckpoint) :
    TreeInv env w'.node ∧ MovesUp w.node w'.node := by
  have hcore := SameCore.of_sameLinks hsame.links
  have hgenesis : w'.node.pindexGenesisBlock = w.node.pindexGenesisBlock :=
    congrArg Prod.fst hsame.globals
  have hbest : w'.node.pindexBest = w.node.pindexBest := congrArg (fun g => g.2.1) hsame.globals
  have hhash : w'.node.hashBestChain = w.node.hashBestChain :=
    congrArg (fun g => g.2.2.1) hsame.globals
  have hfiles : w'.node.files = w.node.files := congrArg (fun g => g.2.2.2.2.2) hsame.globals
  refine ⟨⟨h.index.of_sameCore hcore hfiles, hgenesis ▸ h.genesis, ?_, ?_, ?_, fun hnet hmode => ?_⟩,
    .of_tree hcore.parent hsync⟩
  · rw [hbest, hhash, h.best]
  · exact hhash ▸ h.links.of_same hcore.parent hsame.links.pnextOf
  · obtain ⟨index, hindex⟩ := h.indexed
    obtain ⟨index', hindex', -⟩ := hcore.index hindex
    exact ⟨index', hsync ▸ hindex'⟩
  · rw [hhash, hsync]
    exact (h.guarded hnet hmode).of_parent hcore.parent

/-- A block of the main chain, by the test of the source, is one the best block descends from. -/
theorem above_of_inMainChain (h : TreeInv env w.node) {p : Uint256}
    (hmain : w.node.InMainChain p) : w.node.Above w.node.hashBestChain p := by
  obtain ⟨index, hp, hmain⟩ := hmain
  rw [Node.isInMainChain, Bool.or_eq_true] at hmain
  rcases hmain with hnext | hbest
  · obtain ⟨n, hn⟩ := Option.isSome_iff_exists.mp hnext
    obtain ⟨hparent, habove⟩ := h.links p n (by rw [Node.pnextOf, hp]; exact hn)
    exact habove.trans (.parent hparent)
  · have hbest := eq_of_beq hbest
    rw [h.best] at hbest
    rw [Option.some.inj hbest]
    exact .refl _ _

theorem of_put {block : CBlock} {nFile nBlockPos : Nat} (h : TreeInv env w.node)
    (hwrite : writeToDisk block w = .ok (nFile, nBlockPos) w') :
    TreeInv env w'.node ∧ MovesUp w.node w'.node := by
  obtain ⟨-, hpos, -, hnode⟩ := writeToDisk_ok hwrite
  rw [hnode]
  refine ⟨⟨h.index.put (hpos ▸ Nat.le_add_right _ 8), h.genesis, h.best, h.links, h.indexed,
    h.guarded⟩, .of_tree rfl rfl⟩

/-- A new block in the index, with or without its record in the database. -/
theorem of_inserted {block : CBlock} {nFile nBlockPos : Nat} {hashProof : Uint256}
    {index indexPrev : CBlockIndex} {pdb : Map DbKey DbVal} (h : TreeInv env w.node)
    (hholds : w.node.files.Holds nFile nBlockPos block)
    (hprev : w.node.index? block.hashPrevBlock = some indexPrev)
    (hstarts : block.startsWithHeight (indexPrev.nHeight + 1) = true)
    (hnew : block.IsNewIndex env w.node nFile nBlockPos hashProof index)
    (hnode : w'.node = { (w.inserted env block index).node with txdb := ⟨pdb, none⟩ }) :
    TreeInv env w'.node ∧ MovesUp w.node w'.node := by
  obtain ⟨hobject, hfile, hpos, hpnext⟩ := hnew.objectOf
  obtain ⟨hpprev, hheight, -⟩ := hnew.above hprev
  have hfresh : w.node.index? (block.getHash env) = none := by
    refine Std.ExtTreeMap.getElem?_eq_none fun hmem => ?_
    exact absurd (Std.ExtTreeMap.mem_iff_contains.mp hmem) (by rw [hnew.1]; simp)
  have hinserted := h.index.insert hfresh (by rw [hfile, hpos]; exact hholds) hobject
    (.inr ⟨hpprev, by rw [hheight]; exact hstarts, indexPrev, hprev, hheight⟩)
  have hindex : ∀ x, x ≠ block.getHash env → w'.node.index? x = w.node.index? x := by
    intro x hne
    rw [hnode]
    exact (Node.index?_setIndex _ _ _ _).trans (if_neg (Ne.symm hne))
  have hgrows : ∀ p q, w.node.Above p q → w'.node.Above p q := fun p q habove =>
    habove.inserted hfresh hindex
  have hold : ∀ {p q}, w.node.parent p = some q → w'.node.parent p = some q := by
    intro p q hpq
    rw [Node.parent, hindex, ← Node.parent, hpq]
    rintro rfl
    rw [Node.parent, hfresh] at hpq
    exact absurd hpq (by simp)
  have hpnextOf : w'.node.pnextOf = w.node.pnextOf := by
    have hnone : w.node.pnextOf (block.getHash env) = none := by rw [Node.pnextOf, hfresh]; rfl
    rw [hnode]
    show (w.node.setIndex (block.getHash env) index).pnextOf = _
    rw [Node.pnextOf_setIndex, hpnext, ← hnone, Function.update_eq_self]
  have hsync : w'.node.hashSyncCheckpoint = w.node.hashSyncCheckpoint := by rw [hnode]; rfl
  have hhash : w'.node.hashBestChain = w.node.hashBestChain := by rw [hnode]; rfl
  refine ⟨⟨?_, ?_, ?_, ?_, ?_, fun hnet hmode => ?_⟩, hgrows, hsync ▸ .refl _ _⟩
  · rw [hnode]
    exact ⟨hinserted.bounded, hinserted.objects⟩
  · rw [hnode]
    exact h.genesis
  · rw [hnode]
    exact h.best
  · intro p n hnext
    rw [hpnextOf] at hnext
    obtain ⟨hparent, habove⟩ := h.links p n hnext
    exact ⟨hold hparent, hhash ▸ hgrows _ _ habove⟩
  · obtain ⟨indexSync, hindexSync⟩ := h.indexed
    refine ⟨indexSync, ?_⟩
    rw [hsync, hindex, hindexSync]
    intro heq
    rw [heq, hfresh] at hindexSync
    exact absurd hindexSync (by simp)
  · rw [hhash, hsync]
    exact hgrows _ _ (h.guarded hnet hmode)

end TreeInv

theorem MovesUp.trans {node node' node'' : Node} (h : MovesUp node node')
    (h' : MovesUp node' node'') : MovesUp node node'' :=
  ⟨fun p q habove => h'.grows p q (h.grows p q habove), h'.moved.trans (h'.grows _ _ h.moved)⟩

/-- Storing a block and putting it into the index. -/
theorem TreeInv.of_added {env : Env} {block : CBlock} {nFile nBlockPos : Nat} {hashProof : Uint256}
    {index indexPrev : CBlockIndex} {pdb : Map DbKey DbVal} {w w₁ w' : World}
    (h : TreeInv env w.node) (haccept : Acceptable env w.node block indexPrev)
    (hwrite : writeToDisk block w = .ok (nFile, nBlockPos) w₁)
    (hnew : block.IsNewIndex env w₁.node nFile nBlockPos hashProof index)
    (hnode : w'.node = { (w₁.inserted env block index).node with txdb := ⟨pdb, none⟩ }) :
    TreeInv env w'.node ∧ MovesUp w.node w'.node := by
  obtain ⟨hinv₁, hup⟩ := h.of_put hwrite
  obtain ⟨hvalid, -, -, hnode₁⟩ := writeToDisk_ok hwrite
  have hholds : w₁.node.files.Holds nFile nBlockPos block := by
    rw [hnode₁]
    exact BlockFiles.put_holds hvalid
  have hprev : w₁.node.index? block.hashPrevBlock = some indexPrev := by
    rw [hnode₁]
    exact haccept.prev
  obtain ⟨hinv', hup'⟩ := hinv₁.of_inserted hholds hprev haccept.height hnew hnode
  exact ⟨hinv', hup.trans hup'⟩

/-- A new best block that is allowed. -/
theorem TreeInv.of_setBest {env : Env} {block : CBlock} {p : Uint256} {w w' : World}
    (h : TreeInv env w.node) (hstored : w.node.storedBlock p = some block)
    (hhash : block.getHash env = p) (hguarded : Guarded env w.node p)
    (hrun : block.setBestChain env p w = .ok () w') :
    TreeInv env w'.node ∧ MovesUp w.node w'.node := by
  obtain ⟨w₁, w₂, -, hmove, hset, htree, rfl⟩ := setBestChain_ok hrun
  obtain ⟨hgenesis₁, hparent₁, hlinks₁⟩ := moveBestChain_linksTo h.index.begun
    (show w.begun.node.pindexGenesisBlock ≠ none from h.genesis) h.best h.links hstored hmove
  obtain ⟨index, -, hset⟩ := deref_bind_eq_ok.mp hset
  obtain ⟨-, rfl⟩ := EStateM.Result.ok.inj hset
  have hparent := htree.core.parent
  have hsync := htree.hashSyncCheckpoint
  refine ⟨⟨h.index.of_sameCore htree.core htree.files, ?_, ?_, ?_, ?_, fun hnet hmode => ?_⟩,
    .of_tree hparent hsync⟩
  · exact fun hnone => h.genesis (hgenesis₁.symm.trans hnone)
  · exact congrArg some hhash.symm
  · exact hhash.symm ▸ hlinks₁
  · obtain ⟨indexSync, hindexSync⟩ := h.indexed
    obtain ⟨index', hindex', -⟩ := htree.core.index hindexSync
    exact ⟨index', hsync ▸ hindex'⟩
  · show Node.Above _ (block.getHash env) _
    rw [hhash]
    exact hsync ▸ (hguarded hnet hmode).of_parent hparent

/-- A checkpoint that has been accepted. -/
theorem TreeInv.of_checkpoint {env : Env} {hashCheckpoint : Uint256} {w w' : World}
    (h : TreeInv env w.node) (hextends : w.node.Extends hashCheckpoint)
    (hmain : w.node.InMainChain hashCheckpoint)
    (hrun : writeSyncCheckpoint hashCheckpoint w = .ok () w') :
    TreeInv env w'.node ∧ MovesUp w.node w'.node := by
  rw [(writeSyncCheckpoint_ok hrun).2.2]
  refine ⟨⟨⟨h.index.bounded, h.index.objects⟩, h.genesis, h.best, h.links, ?_, fun _ _ => ?_⟩,
    fun _ _ habove => habove, hextends.above⟩
  · obtain ⟨index, hp, -⟩ := hmain
    exact ⟨index, hp⟩
  · exact h.above_of_inMainChain hmain

/-- Every move keeps the invariant. -/
theorem Move.treeInv {env : Env} {w w' : World} (h : Move env w w') (hinv : TreeInv env w.node) :
    TreeInv env w'.node ∧ MovesUp w.node w'.node := by
  cases h with
  | aside haside =>
    refine hinv.of_sameChain (.of_aside haside) ?_
    show w'.node.chainOnly.hashSyncCheckpoint = w.node.chainOnly.hashSyncCheckpoint
    rw [haside.node]
  | added haccept hwrite hinsert =>
    obtain ⟨hnew, -, hnode, -⟩ := CBlock.insertIndex_ok hinsert
    exact hinv.of_added haccept hwrite hnew hnode
  | unrecorded haccept hwrite hinsert =>
    rcases CBlock.insertIndex_reject hinsert with hsame | ⟨index, hnew, hnode, -⟩
    · rw [hsame.node]
      exact hinv.of_put hwrite
    · exact hinv.of_added haccept hwrite hnew hnode
  | setBest hstored hhash hguarded hrun => exact hinv.of_setBest hstored hhash hguarded hrun
  | setBestFailed hstored hhash hrun =>
    obtain ⟨hkept, hdropped⟩ := reject_setBestChain hrun
    exact hinv.of_sameChain (.of_dropped hkept hdropped) (by rw [hkept.node])
  | checkpoint hextends hmain hrun => exact hinv.of_checkpoint hextends hmain hrun
  | checkpointFailed hrun =>
    obtain ⟨hkept, hdropped⟩ := reject_writeSyncCheckpoint hrun
    exact hinv.of_sameChain (.of_dropped hkept hdropped) (by rw [hkept.node])

/-! ## Runs -/

/-- After the initial `ResetSyncCheckpoint` the checkpoint is the first block. -/
theorem Starts.treeInv {env : Env} {w : World} (h : Starts env w) : TreeInv env w.node := by
  obtain ⟨sys, index, w₁, hgenesis, honly, hindexed⟩ := h.genesis
  have hinv := honly.sameChain.bestInv hgenesis.bestInv
  have hindex : ∀ p, w.node.index? p = if env.genesisHash = p then some index else none := by
    intro p
    rw [honly.node]
    exact hgenesis.index?_eq p
  have hbest : env.genesisHash = w.node.hashBestChain := Option.some.inj hinv.hashBest
  refine ⟨hinv.index, ?_, ?_, ?_, hindexed, fun _ _ => ?_⟩
  · rw [hinv.genesis]
    simp
  · rw [hinv.best, hinv.hashBest]
  · intro p n hnext
    rw [hinv.pnext] at hnext
    exact absurd hnext (by simp [nextIn])
  · obtain ⟨indexSync, hsync⟩ := hindexed
    rw [hindex] at hsync
    split at hsync
    · next heq =>
      rw [← heq, hbest]
      exact .refl _ _
    · exact absurd hsync (by simp)

theorem Moves.treeInv {env : Env} {w w' : World} (h : Moves env w w') (hinv : TreeInv env w.node) :
    TreeInv env w'.node ∧ MovesUp w.node w'.node := by
  induction h with
  | refl => exact ⟨hinv, .of_tree rfl rfl⟩
  | tail _ hmove ih =>
    obtain ⟨hinv₁, hup⟩ := ih
    obtain ⟨hinv', hup'⟩ := hmove.treeInv hinv₁
    exact ⟨hinv', hup.trans hup'⟩

theorem Reaches.treeInv {env : Env} {w : World} (h : Reaches env w) : TreeInv env w.node := by
  obtain ⟨w₀, hstart, hmoves⟩ := h.moves
  exact (hmoves.treeInv hstart.treeInv).1

theorem World.serveAll_moves {env : Env} {w w' : World} {calls : List (Sys × Call)}
    (h : w.serveAll env calls = some w') : Moves env w w' := by
  induction calls generalizing w with
  | nil =>
    obtain rfl := Option.some.inj h
    exact .refl
  | cons call calls ih =>
    obtain ⟨w₁, hcall, hcalls⟩ := Option.bind_eq_some_iff.mp h
    exact (Relation.ReflTransGen.head (.aside (Aside.of_sameNode ⟨rfl, rfl⟩))
      (World.serve_moves hcall)).trans (ih hcalls)

/-- What is asked of the sync-checkpoint from one state of a run to a later one: it names a block
of the index, which is the earlier checkpoint or descends from it, and with strict checkpoints
the best block descends from the earlier one too. -/
structure NotReverted (env : Env) (node node' : Node) : Prop where
  indexed : ∃ index, node'.index? node'.hashSyncCheckpoint = some index
  descends : node'.Above node'.hashSyncCheckpoint node.hashSyncCheckpoint
  main : env.fTestNet = false → env.checkpointsMode = .strict →
    ∃ best, node'.pindexBest = some best ∧ node'.Above best node.hashSyncCheckpoint

theorem Moves.notReverted {env : Env} {w w' : World} (h : Moves env w w')
    (hinv : TreeInv env w.node) : NotReverted env w.node w'.node := by
  obtain ⟨hinv', hup⟩ := h.treeInv hinv
  exact ⟨hinv'.indexed, hup.moved, fun hnet hmode =>
    ⟨_, hinv'.best, (hinv'.guarded hnet hmode).trans hup.moved⟩⟩

/-- In every run the sync-checkpoint is not reverted: not from one call to a later one, and not
from any move in a call to a later one. -/
theorem syncCheckpoint_kept (env : Env) (w : World) (h : Reaches env w) :
    (∀ calls w', w.serveAll env calls = some w' → NotReverted env w.node w'.node) ∧
      ∀ w₁ w₂, Moves env w w₁ → Moves env w₁ w₂ → NotReverted env w₁.node w₂.node :=
  ⟨fun _ _ hcalls => (World.serveAll_moves hcalls).notReverted h.treeInv,
    fun _ _ hmoves hmoves' => hmoves'.notReverted (hmoves.treeInv h.treeInv).1⟩

/-- A checkpoint that names a block of a side branch moves the best chain there. -/
theorem syncCheckpoint_kept_side : ∃ w w' calls, Reaches mainNet w ∧
    w.serveAll mainNet calls = some w' ∧
      w.node.hashBestChain = leftBlock.getHash mainNet ∧
      w'.node.hashBestChain = sideBlock₁.getHash mainNet ∧
      w'.node.hashSyncCheckpoint = sideBlock₁.getHash mainNet ∧
      NotReverted mainNet w.node w'.node := by
  have hrun : runsTo mainNet (sysAt [])
      [(sysAt [], .processBlock true leftBlock), (sysAt [], .processBlock true sideBlock₁)]
      (fun w => w.node.hashBestChain == leftBlock.getHash mainNet &&
        ((w.serveAll mainNet [(sysAt [], .processSyncCheckpoint true true
          (sideBlock₁.getHash mainNet))]).map fun w' =>
            w'.node.hashBestChain == sideBlock₁.getHash mainNet &&
              w'.node.hashSyncCheckpoint == sideBlock₁.getHash mainNet).getD false) = true := by
    rw [mainNet_eq]
    decide +kernel
  obtain ⟨w, hreaches, htest⟩ := runsTo_reaches hrun
  obtain ⟨hbest, htest⟩ := Bool.and_eq_true_iff.mp htest
  cases hserve : w.serveAll mainNet [(sysAt [], .processSyncCheckpoint true true
      (sideBlock₁.getHash mainNet))] with
  | none =>
    rw [hserve] at htest
    exact absurd htest Bool.false_ne_true
  | some w' =>
    rw [hserve] at htest
    obtain ⟨hbest', hsync⟩ := Bool.and_eq_true_iff.mp htest
    exact ⟨w, w', _, hreaches, hserve, eq_of_beq hbest, eq_of_beq hbest', eq_of_beq hsync,
      (syncCheckpoint_kept mainNet w hreaches).1 _ _ hserve⟩

end NoLimitCoin
