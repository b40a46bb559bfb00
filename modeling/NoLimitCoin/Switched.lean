import NoLimitCoin.Switch

/-!
# What a successful switch leaves behind

After the commit `SetBestChainInner` and `Reorganize` set the `pnext` links and then turn to the
memory pool.

Results:

1. `unlink_ok` and `link_ok`: the links follow the best chain.
2. `poolOnly_acceptToMemoryPool`: the pool functions change nothing but the pool.
3. `setBestChainInner_ok` and `reorganize_ok`: a successful call is a `Switched`, followed by
   the changes of the pool.
4. `Switched.chainInv`: the invariant holds of the new best chain.
-/

namespace NoLimitCoin

open Prog NodeM

/-! ## Beginning and committing -/

/-- A transaction has been begun. -/
def World.begun (w : World) : World :=
  { w with node := { w.node with txdb := ⟨w.node.txdb.pdb, some []⟩ } }

theorem World.open_begun (w : World) : w.begun.Open := rfl

theorem txnBegin_ok {w w' : World} {u : Unit} (h : txnBegin w = .ok u w') :
    w.node.txdb.activeBatch = none ∧ w' = w.begun := by
  unfold txnBegin CTxDB.txnBegin at h
  cases hbatch : w.node.txdb.activeBatch with
  | some batch =>
    rw [hbatch] at h
    exact absurd h nofun
  | none =>
    rw [hbatch] at h
    exact ⟨rfl, (EStateM.Result.ok.inj h).2.symm⟩

theorem txnCommit_ok {w w' : World} (hopen : w.Open) (h : txnCommit w = .ok true w') :
    w'.node = { w.node with txdb := ⟨w.node.txdb.view, none⟩ } ∧
      w'.log = w.log ++ [.committed] := by
  obtain ⟨batch, hbatch⟩ := Option.isSome_iff_exists.mp hopen
  obtain ⟨status, w₁, hstatus, h⟩ := bind_eq_ok.mp h
  have hsame := Reads.diskOk.ok hstatus
  rw [getNode_bind, hsame.node] at h
  simp only [CTxDB.txnCommit, hbatch] at h
  rw [modifyNode_bind] at h
  obtain ⟨rfl, rfl⟩ := EStateM.Result.ok.inj h
  rw [hsame.node, hsame.log, CTxDB.view, hbatch]
  exact ⟨rfl, rfl⟩

/-! ## Links -/

/-- Only the `pnext` links of index objects have changed. -/
structure Relinked (w w' : World) : Prop where
  node : w'.node = { w.node with mapBlockIndex := w'.node.mapBlockIndex }
  core : SameCore w.node w'.node
  log : w'.log = w.log

namespace Relinked

theorem refl (w : World) : Relinked w w := ⟨rfl, SameCore.refl _, rfl⟩

theorem trans {w w' w'' : World} (h : Relinked w w') (h' : Relinked w' w'') : Relinked w w'' :=
  ⟨by rw [h'.node, h.node], h.core.trans h'.core, h'.log.trans h.log⟩

end Relinked

theorem Node.pnextOf_setIndex (node : Node) (p : Uint256) (index : CBlockIndex) :
    (node.setIndex p index).pnextOf = Function.update node.pnextOf p index.pnext := by
  funext q
  rw [Node.pnextOf, Node.index?_setIndex, Function.update_apply]
  by_cases h : q = p
  · rw [if_pos h.symm, if_pos h, Option.bind_some]
  · rw [if_neg (Ne.symm h), if_neg h, Node.pnextOf]

theorem relinked_setIndex {w : World} {p : Uint256} {index : CBlockIndex} (pnext : Option Uint256)
    (hp : w.node.index? p = some index) :
    Relinked w { w with node := w.node.setIndex p { index with pnext := pnext } } :=
  ⟨rfl, SameCore.setIndex hp rfl, rfl⟩

theorem setPrevNext_ok {p q : Uint256} {pnext : Option Uint256} {w w' : World}
    (hparent : w.node.parent p = some q) (h : setPrevNext p pnext w = .ok () w') :
    Relinked w w' ∧ w'.node.pnextOf = Function.update w.node.pnextOf q pnext := by
  obtain ⟨index, hp, h⟩ := deref_bind_eq_ok.mp h
  have hprev : index.pprev = some q := by simpa [Node.parent, hp] using hparent
  rw [hprev] at h
  obtain ⟨indexPrev, hq, h⟩ := deref_bind_eq_ok.mp h
  obtain ⟨-, rfl⟩ := EStateM.Result.ok.inj h
  exact ⟨relinked_setIndex pnext hq, Node.pnextOf_setIndex _ _ _⟩

/-- The links of the blocks that were disconnected are taken back. -/
theorem unlink_ok {a c : Uint256} {xs rest : List Uint256} {w w' : World}
    (hbranch : Branch w.node.parent a xs c) (hnodup : (xs ++ c :: rest).Nodup)
    (hpnext : w.node.pnextOf = nextIn (xs ++ c :: rest))
    (h : (xs.forM fun p => setPrevNext p none) w = .ok () w') :
    Relinked w w' ∧ w'.node.pnextOf = nextIn (c :: rest) := by
  induction xs generalizing a w with
  | nil =>
    obtain ⟨-, rfl⟩ := pure_eq_ok.mp h
    exact ⟨Relinked.refl _, hpnext⟩
  | cons x xs ih =>
    cases hbranch with
    | cons hab hbranch =>
      obtain ⟨_, w₁, hone, h⟩ := bind_eq_ok.mp h
      obtain ⟨hrelinked, hpnext₁⟩ := setPrevNext_ok hab hone
      obtain ⟨tail, htail⟩ := hbranch.append_head rest
      rw [List.cons_append] at hnodup hpnext
      have hnodup := (List.nodup_cons.mp hnodup).2
      obtain ⟨hrest, hpnext'⟩ := ih (hrelinked.core.parent ▸ hbranch) hnodup (by
        rw [hpnext₁, hpnext, htail, update_nextIn_tail (htail ▸ hnodup)]) h
      exact ⟨hrelinked.trans hrest, hpnext'⟩

/-- The links of the blocks that were connected are set. -/
theorem link_ok {a c : Uint256} {ys rest : List Uint256} {w w' : World}
    (hbranch : Branch w.node.parent a ys c) (hpnext : w.node.pnextOf = nextIn (c :: rest))
    (h : (ys.reverse.forM fun p => setPrevNext p (some p)) w = .ok () w') :
    Relinked w w' ∧ w'.node.pnextOf = nextIn (ys ++ c :: rest) := by
  induction hbranch generalizing w' with
  | nil =>
    obtain ⟨-, rfl⟩ := pure_eq_ok.mp h
    exact ⟨Relinked.refl _, hpnext⟩
  | @cons x b c xs hxb hbranch ih =>
    have h : forM (xs.reverse ++ [x]) (fun p => setPrevNext p (some p)) w = .ok () w' := by
      rwa [List.reverse_cons] at h
    rw [List.forM_append] at h
    obtain ⟨_, w₁, hfirst, h⟩ := bind_eq_ok.mp h
    obtain ⟨hrelinked, hpnext₁⟩ := ih hpnext hfirst
    obtain ⟨_, w₂, hone, h⟩ := bind_eq_ok.mp h
    obtain ⟨-, rfl⟩ := pure_eq_ok.mp h
    obtain ⟨hrelinked', hpnext'⟩ := setPrevNext_ok (hrelinked.core.parent ▸ hxb) hone
    obtain ⟨tail, htail⟩ := hbranch.append_head rest
    refine ⟨hrelinked.trans hrelinked', ?_⟩
    rw [hpnext', hpnext₁, List.cons_append, htail, nextIn_cons_cons]

/-! ## The pool -/

/-- Only the memory pool has changed. -/
structure PoolOnly (w w' : World) : Prop where
  node : w'.node = { w.node with mempool := w'.node.mempool }
  log : w'.log = w.log

instance : Std.Refl PoolOnly := ⟨fun _ => ⟨rfl, rfl⟩⟩

instance : IsTrans World PoolOnly :=
  ⟨fun _ _ _ h h' => ⟨by rw [h'.node, h.node], h'.log.trans h.log⟩⟩

theorem Reads.poolOnly {α : Type} {x : NodeM α} (h : Reads x) : Keeps PoolOnly x :=
  h.mono fun _ _ hsame => ⟨by rw [hsame.node], hsame.log⟩

theorem poolOnly_modifyPool (f : CTxMemPool → Except Exit CTxMemPool) :
    Keeps PoolOnly (modifyPool f) :=
  Keeps.bind Reads.getNode.poolOnly fun _ => Keeps.bind (Keeps.fromExcept _) fun _ _ => ⟨rfl, rfl⟩

theorem poolOnly_acceptToMemoryPool (env : Env) (tx : CTransaction) (fCheckInputs : Bool) :
    Keeps PoolOnly (tx.acceptToMemoryPool env fCheckInputs) := by
  have hrequire : ∀ b e, Keeps PoolOnly (require b e : NodeM Unit) :=
    fun b e => (Reads.require b e).poolOnly
  exact Keeps.bind (Keeps.fromExcept _) fun _ => Keeps.bind Reads.getNode.poolOnly fun node =>
    Keeps.bind (hrequire _ _) fun _ => Keeps.bind (hrequire _ _) fun _ =>
      Keeps.bind (hrequire _ _) fun _ =>
        Keeps.bind (Keeps.ite (Reads.acceptInputs env tx).poolOnly (Keeps.pure _)) fun _ _ =>
          ⟨rfl, rfl⟩

/-- `Reorganize` puts a transaction of a disconnected block back, or does not. -/
def resurrect (env : Env) (tx : CTransaction) : NodeM Unit := do
  match ← attempt (tx.acceptToMemoryPool env false) with
  | .error (.abort what) => throw (.abort what)
  | _ => pure ()

theorem poolOnly_resurrect (env : Env) (tx : CTransaction) : Keeps PoolOnly (resurrect env tx) := by
  refine Keeps.bind (Keeps.attempt (poolOnly_acceptToMemoryPool env tx false)) fun r => ?_
  match r with
  | .error (.abort what) => exact Keeps.throw _
  | .error (.reject nDoS text) => exact Keeps.pure _
  | .ok () => exact Keeps.pure _

/-- The transactions of a connected block leave the pool, and those that conflict with them. -/
def poolForget (env : Env) (tx : CTransaction) : NodeM Unit := do
  poolRemove env tx
  poolRemoveConflicts env tx

theorem poolOnly_poolForget (env : Env) (tx : CTransaction) : Keeps PoolOnly (poolForget env tx) :=
  Keeps.bind (poolOnly_modifyPool _) fun _ => poolOnly_modifyPool _

/-! ## Switches -/

/-- The best chain has been switched from `chain` to `chain'`: the steps in the transaction led
from `w` to `w₁`, and in `w₂` they are committed and the links follow. -/
structure Switched (env : Env) (chain chain' : List Uint256) (w w₁ w₂ : World) : Prop where
  run : TxnRun env chain w chain' w₁
  node : w₂.node =
    { w.node with txdb := w₂.node.txdb, mapBlockIndex := w₂.node.mapBlockIndex }
  txdb : ∃ p, chain'.head? = some p ∧
    w₂.node.txdb = ⟨w₁.node.txdb.view.insert .hashBestChain (.hash p), none⟩
  core : SameCore w₁.node w₂.node
  pnext : w₂.node.pnextOf = nextIn chain'
  log : w₂.log = w₁.log ++ [.committed]

/-- What both functions do at the end of the transaction. -/
theorem commit_ok {α : Type} {w w₁ w' : World} {p : Uint256} {ok : Bool} {e : Exit}
    {f : Unit → NodeM α} {r : α} (hopen : w.Open) (hwrite : writeHashBestChain p w = .ok ok w₁)
    (h : (txnCommit >>= fun ok => require ok e >>= f) w₁ = .ok r w') :
    ∃ w₂, f () w₂ = .ok r w' ∧ w₂.log = w.log ++ [.committed] ∧
      w₂.node = { w.node with
        txdb := ⟨w.node.txdb.view.insert .hashBestChain (.hash p), none⟩ } := by
  obtain ⟨-, rfl⟩ := EStateM.Result.ok.inj ((change_run hopen _).symm.trans hwrite)
  obtain ⟨ok', w₂, hcommit, h⟩ := bind_eq_ok.mp h
  obtain ⟨rfl, h⟩ := require_bind_eq_ok.mp h
  obtain ⟨hnode, hlog⟩ := txnCommit_ok (hopen.addOps _) hcommit
  rw [World.view_addOps hopen] at hnode
  exact ⟨w₂, h, hlog, hnode⟩

/-- A run in the transaction, the commit and the change of the links are a switch. -/
theorem Switched.of_relinked {env : Env} {chain chain' : List Uint256} {w w₁ w₂ w₃ : World}
    {p : Uint256} (hopen : w.Open) (hrun : TxnRun env chain w chain' w₁) (hp : chain'.head? = some p)
    (hlog : w₂.log = w₁.log ++ [.committed])
    (hnode : w₂.node = { w₁.node with
      txdb := ⟨w₁.node.txdb.view.insert .hashBestChain (.hash p), none⟩ })
    (hrelinked : Relinked w₂ w₃) (hpnext : w₃.node.pnextOf = nextIn chain') :
    Switched env chain chain' w w₁ w₃ := by
  obtain ⟨ops, evs, hdelta⟩ := hrun.delta hopen
  refine ⟨hrun, ?_, ⟨p, hp, ?_⟩, ?_, hpnext, hrelinked.log.trans hlog⟩
  · rw [hrelinked.node, hnode, hdelta.node]
  · rw [hrelinked.node, hnode]
  · exact SameCore.trans (SameCore.of_sameLinks (SameLinks.of_index (by rw [hnode])))
      hrelinked.core

theorem setBestChainInner_ok {env : Env} {block : CBlock} {p q : Uint256} {rest : List Uint256}
    {w w' : World} (hopen : w.Open) (hindex : IndexInv env w.node)
    (hlineage : Lineage w.node.parent (q :: rest)) (hpnext : w.node.pnextOf = nextIn (q :: rest))
    (hparent : w.node.parent p = some q) (hstored : w.node.storedBlock p = some block)
    (hhash : block.getHash env = p)
    (h : block.setBestChainInner env p w = .ok () w') :
    ∃ w₁ w₂, Switched env (q :: rest) (p :: q :: rest)
        (w.addLog [.setBestChainInner w.node w.sys block p]) w₁ w₂ ∧
      block.vtx.forM (poolRemove env) w₂ = .ok () w' := by
  have hnodup := hindex.nodup (.child hparent hlineage)
  have hfresh : w.node.pnextOf p = none := by
    rw [hpnext]
    exact nextIn_of_notMem (List.nodup_cons.mp hnodup).1
  unfold CBlock.setBestChainInner at h
  rw [emitCall_bind] at h
  obtain ⟨r, w₂, hattempt, h⟩ := bind_eq_ok.mp h
  rcases attempt_eq_ok.mp hattempt with ⟨_, rfl, hconnect⟩ | ⟨e, rfl, -⟩
  · obtain ⟨_, w₁, hconnect, hwrite⟩ := bind_eq_ok.mp hconnect
    obtain ⟨ok, w₃, hwrite, hrequire⟩ := bind_eq_ok.mp hwrite
    obtain ⟨-, rfl⟩ := require_run_eq_ok.mp hrequire
    have hrun : TxnRun env (q :: rest) (w.addLog [.setBestChainInner w.node w.sys block p])
        (p :: q :: rest) w₁ := .single (.connect hparent hfresh hstored ⟨rfl, rfl⟩ hconnect)
    obtain ⟨ops, evs, hdelta⟩ := hrun.delta hopen
    obtain ⟨w₂, h, hlog, hnode⟩ := commit_ok (hdelta.open hopen) hwrite h
    obtain ⟨index, hp, h⟩ := deref_bind_eq_ok.mp h
    obtain ⟨q', hprev, h⟩ := nonNull_bind_eq_ok.mp h
    obtain ⟨indexPrev, hq, h⟩ := deref_bind_eq_ok.mp h
    rw [modifyNode_bind] at h
    have hlinks : SameLinks w.node w₂.node :=
      hdelta.links.trans (SameLinks.of_index (by rw [hnode]))
    have hparent₂ : w₂.node.parent p = some q' := by simp [Node.parent, hp, hprev]
    rw [(SameCore.of_sameLinks hlinks).parent, hparent] at hparent₂
    obtain rfl := Option.some.inj hparent₂
    refine ⟨w₁, _, Switched.of_relinked hopen hrun rfl hlog (hhash ▸ hnode)
      (relinked_setIndex (some p) hq) ?_, h⟩
    rw [Node.pnextOf_setIndex, hlinks.pnextOf, hpnext, nextIn_cons_cons]
  · cases e with
    | reject nDoS text =>
      obtain ⟨_, w₃, -, h⟩ := bind_eq_ok.mp h
      obtain ⟨_, w₄, -, h⟩ := bind_eq_ok.mp h
      exact absurd h error_ne_ok
    | abort what => exact absurd h error_ne_ok

/-- The part of `Reorganize` in the transaction, from `xs ++ pfork :: rest` to
`ys ++ pfork :: rest`. -/
theorem switchBranches_ok {env : Env} {p q : Uint256} {rest : List Uint256} {w w' : World}
    {r : List Uint256 × List Uint256 × List CTransaction × List CTransaction}
    (hopen : w.Open) (hindex : IndexInv env w.node)
    (hlineage : Lineage w.node.parent (q :: rest)) (hpnext : w.node.pnextOf = nextIn (q :: rest))
    (hbest : w.node.pindexBest = some q) (h : switchBranches env p w = .ok r w') :
    ∃ xs ys pfork rest' w₁, q :: rest = xs ++ pfork :: rest' ∧
      Branch w.node.parent q xs pfork ∧ Branch w.node.parent p ys pfork ∧
      TxnRun env (xs ++ pfork :: rest') w (ys ++ pfork :: rest') w₁ ∧
      writeHashBestChain p w₁ = .ok true w' ∧
      r = (xs, ys.reverse, (w.node.storedBlocks xs).flatMap CBlock.resurrected,
        (w.node.storedBlocks ys.reverse).flatMap CBlock.vtx) := by
  have hrank := hindex.heightOf_lt
  unfold switchBranches at h
  rw [getNode_bind] at h
  obtain ⟨q', hq', h⟩ := nonNull_bind_eq_ok.mp h
  obtain rfl := Option.some.inj (hbest.symm.trans hq')
  obtain ⟨pfork, w₁, hfork, h⟩ := bind_eq_ok.mp h
  obtain ⟨xs, ys, hxs, hys, hdisjoint⟩ := findFork_ok hindex hfork
  have hsame₁ := (Reads.findFork _ _ _).ok hfork
  obtain ⟨vDisconnect, w₂, hdown, h⟩ := bind_eq_ok.mp h
  have hsame₂ := IsTrans.trans _ _ _ hsame₁ ((Reads.branchTo _ _ _).ok hdown)
  have hdown := branchTo_ok hdown
  obtain ⟨vConnectRev, w₃, hup, h⟩ := bind_eq_ok.mp h
  have hsame := IsTrans.trans _ _ _ hsame₂ ((Reads.branchTo _ _ _).ok hup)
  have hup := branchTo_ok hup
  rw [hsame₁.node] at hdown
  rw [hsame₂.node] at hup
  obtain rfl := hxs.unique hrank hdown
  obtain rfl := hys.unique hrank hup
  obtain ⟨rest', hsplit⟩ := hxs.split hlineage
  have hfresh : ∀ x ∈ ys, w.node.pnextOf x = none := by
    intro x hx
    rw [hpnext, hsplit]
    refine nextIn_of_notMem fun hmem => ?_
    have hlt := ((hys.rank_bounds hrank).2 x hx).1
    rcases List.mem_append.mp hmem with hmem | hmem
    · exact hdisjoint x hmem hx
    · rcases List.mem_cons.mp hmem with rfl | hmem
      · omega
      · rw [hsplit] at hlineage
        have := Lineage.rank_lt hrank (Lineage.of_append hlineage) x hmem
        omega
  obtain ⟨vResurrect, w₄, hdisconnect, h⟩ := bind_eq_ok.mp h
  obtain ⟨vDelete, w₅, hconnect, h⟩ := bind_eq_ok.mp h
  obtain ⟨ok, w₆, hwrite, h⟩ := bind_eq_ok.mp h
  obtain ⟨rfl, h⟩ := require_bind_eq_ok.mp h
  obtain ⟨rfl, rfl⟩ := pure_eq_ok.mp h
  have hopen₃ := hopen.of_sameNode hsame
  obtain ⟨hrun₁, rfl⟩ := disconnects_ok rest' hopen₃ (hsame.node ▸ hxs) hdisconnect
  obtain ⟨ops, evs, hdelta⟩ := hrun₁.delta hopen₃
  have hcore := SameCore.of_sameLinks hdelta.links
  obtain ⟨hrun₂, rfl⟩ := connects_ok rest' (hdelta.open hopen₃)
    (hcore.parent ▸ hsame.node ▸ hys) (hdelta.links.pnextOf ▸ hsame.node ▸ hfresh) hconnect
  have hrun := TxnRun.trans (.nil hsame) (hrun₁.trans hrun₂)
  refine ⟨xs, ys, pfork, rest', w₅, hsplit, hxs, hys, hrun, hwrite, ?_⟩
  rw [hdelta.storedBlocks, hsame.node]
  rfl

/-- What a successful `Reorganize` does. -/
theorem reorganize_ok {env : Env} {p q : Uint256} {rest : List Uint256} {w w' : World}
    (hopen : w.Open) (hindex : IndexInv env w.node)
    (hlineage : Lineage w.node.parent (q :: rest)) (hpnext : w.node.pnextOf = nextIn (q :: rest))
    (hbest : w.node.pindexBest = some q) (h : reorganize env p w = .ok () w') :
    ∃ xs ys pfork rest' w₁ w₂ w₃, q :: rest = xs ++ pfork :: rest' ∧
      Branch w.node.parent q xs pfork ∧ Branch w.node.parent p ys pfork ∧
      Switched env (xs ++ pfork :: rest') (ys ++ pfork :: rest')
        (w.addLog [.reorganize w.node w.sys p]) w₁ w₂ ∧
      ((w.node.storedBlocks xs).flatMap CBlock.resurrected).forM (resurrect env) w₂ = .ok () w₃ ∧
      ((w.node.storedBlocks ys.reverse).flatMap CBlock.vtx).forM (poolForget env) w₃ =
        .ok () w' := by
  unfold reorganize at h
  rw [emitCall_bind] at h
  obtain ⟨r, w₂, hswitch, h⟩ := bind_eq_ok.mp h
  obtain ⟨xs, ys, pfork, rest', w₁, hsplit, hxs, hys, hrun, hwrite, rfl⟩ :=
    switchBranches_ok (hopen.addLog _) hindex hlineage hpnext hbest hswitch
  have hopen' : (w.addLog [.reorganize w.node w.sys p]).Open := hopen
  obtain ⟨ops, evs, hdelta⟩ := hrun.delta hopen'
  obtain ⟨w₃, h, hlog, hnode⟩ := commit_ok (hdelta.open hopen') hwrite h
  have hlinks : SameLinks w.node w₃.node := hdelta.links.trans (SameLinks.of_index (by rw [hnode]))
  have hparent := (SameCore.of_sameLinks hlinks).parent
  obtain ⟨_, w₄, hunlink, h⟩ := bind_eq_ok.mp h
  obtain ⟨_, w₅, hlink, h⟩ := bind_eq_ok.mp h
  obtain ⟨_, w₆, hresurrect, hdelete⟩ := bind_eq_ok.mp h
  have hnodup : (xs ++ pfork :: rest').Nodup := hsplit ▸ hindex.nodup hlineage
  obtain ⟨hrelinked₁, hpnext₁⟩ := unlink_ok (hparent ▸ hxs) hnodup
    (hlinks.pnextOf.trans (hsplit ▸ hpnext)) hunlink
  obtain ⟨hrelinked₂, hpnext₂⟩ :=
    link_ok (hrelinked₁.core.parent ▸ hparent ▸ hys) hpnext₁ hlink
  obtain ⟨tail, htail⟩ := hys.append_head rest'
  exact ⟨xs, ys, pfork, rest', w₁, w₅, w₆, hsplit, hxs, hys,
    Switched.of_relinked hopen' hrun (by rw [htail]; rfl) hlog hnode
      (hrelinked₁.trans hrelinked₂) hpnext₂, hresurrect, hdelete⟩

end NoLimitCoin
