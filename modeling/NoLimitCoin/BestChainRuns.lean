import NoLimitCoin.Moves

/-!
# Runs of the best chain

What a node keeps of its best chain from one call to the next.  `SetBestChain` switches chains
one or more times: once for `Reorganize` or `SetBestChainInner`, then once for every postponed
block.

Results:

1. `Switched.chainInv`: the invariant holds of the new best chain.
2. `moveBestChain_switches`: a successful `SetBestChain` as a sequence of switches, as long as
   no postponed block fails.
3. `Reaches.chainRun`: the runs of a node as runs of its best chain, and `ChainRun.bestInv`, the
   invariant they keep.
-/

namespace NoLimitCoin

open Prog NodeM Checkpoints

/-! ## What leaves the best chain alone -/

/-- The keys under which the database keeps blocks, transactions and the best chain. -/
def DbKey.ofChain : DbKey → Prop
  | .tx _ => True
  | .blockindex _ => True
  | .hashBestChain => True
  | _ => False

/-- The globals of the best chain, and the files. -/
def Node.bestGlobals (node : Node) :
    Option Uint256 × Option Uint256 × Uint256 × Int × Uint256 × BlockFiles :=
  (node.pindexGenesisBlock, node.pindexBest, node.hashBestChain, node.nBestHeight,
    node.nBestChainTrust, node.files)

/-- Nothing that concerns the best chain has changed. -/
structure SameChain (w w' : World) : Prop where
  globals : w'.node.bestGlobals = w.node.bestGlobals
  links : SameLinks w.node w'.node
  closed : w.node.txdb.activeBatch = none → w'.node.txdb.activeBatch = none
  committed : ∀ key : DbKey, key.ofChain → w'.node.txdb.pdb[key]? = w.node.txdb.pdb[key]?
  connections : (Connections.ofLog w.log).working = (Connections.ofLog w.log).committed →
    Connections.ofLog w'.log = Connections.ofLog w.log

/-- An event that says nothing of the blocks that are connected. -/
def Event.neutral (e : Event) : Prop := ∀ c : Connections, c.step e = c

theorem Connections.ofLog_neutral {log evs : List Event} (h : ∀ e ∈ evs, e.neutral) :
    ofLog (log ++ evs) = ofLog log := by
  rw [ofLog_append]
  induction evs generalizing log with
  | nil => rfl
  | cons e evs ih =>
    obtain ⟨he, hevs⟩ := List.forall_mem_cons.mp h
    rw [List.foldl_cons, he]
    exact ih hevs

theorem Event.neutral_of_toPeers {e : Event} (h : e.toPeers) : e.neutral := by
  cases e <;> first | exact fun _ => rfl | exact h.elim

theorem Connections.step_committed {c : Connections} (h : c.working = c.committed) :
    c.step .committed = c := by
  obtain ⟨committed, working⟩ := c
  obtain rfl : working = committed := h
  rfl

/-- A transaction that is dropped has connected nothing. -/
theorem Connections.ofLog_dropped {log evs : List Event} (h : ∀ e ∈ evs, e.inTxn ∨ e = .dropped)
    (hlast : ∃ log', log ++ evs = log' ++ [.dropped])
    (hsync : (ofLog log).working = (ofLog log).committed) : ofLog (log ++ evs) = ofLog log := by
  have hcommitted : ∀ (evs : List Event) (c : Connections), (∀ e ∈ evs, e.inTxn ∨ e = .dropped) →
      (evs.foldl step c).committed = c.committed := by
    intro evs
    induction evs with
    | nil => exact fun _ _ => rfl
    | cons e evs ih =>
      intro c h
      obtain ⟨he, hevs⟩ := List.forall_mem_cons.mp h
      rw [List.foldl_cons, ih _ hevs]
      cases e with
      | committed =>
        rcases he with he | he
        · exact he.elim
        · exact Event.noConfusion he
      | _ => rfl
  obtain ⟨log', hlog'⟩ := hlast
  have hkept : (ofLog (log ++ evs)).committed = (ofLog log).committed := by
    rw [ofLog_append, hcommitted _ _ h]
  have hdropped : (ofLog (log ++ evs)).working = (ofLog (log ++ evs)).committed := by
    rw [hlog', ofLog_append]
    rfl
  have hworking : (ofLog (log ++ evs)).working = (ofLog log).working := by
    rw [hdropped, hkept, hsync]
  calc ofLog (log ++ evs)
      = ⟨(ofLog (log ++ evs)).committed, (ofLog (log ++ evs)).working⟩ := rfl
    _ = ⟨(ofLog log).committed, (ofLog log).working⟩ := by rw [hkept, hworking]
    _ = ofLog log := rfl

namespace SameChain

theorem of_aside {w w' : World} (h : Aside w w') : SameChain w w' := by
  obtain ⟨evs, hlog, hevs⟩ := h.log
  have hindex : w'.node.mapBlockIndex = w.node.mapBlockIndex :=
    show w'.node.chainOnly.mapBlockIndex = w.node.chainOnly.mapBlockIndex by rw [h.node]
  have htxdb : w'.node.txdb = w.node.txdb :=
    show w'.node.chainOnly.txdb = w.node.chainOnly.txdb by rw [h.node]
  refine ⟨?_, SameLinks.of_index hindex, fun hclosed => htxdb ▸ hclosed, fun _ _ => by rw [htxdb],
    fun _ => ?_⟩
  · show w'.node.chainOnly.bestGlobals = w.node.chainOnly.bestGlobals
    rw [h.node]
  · rw [hlog]
    exact Connections.ofLog_neutral fun e he => Event.neutral_of_toPeers (hevs e he)

theorem of_dropped {w w' : World} (h : Kept w w') (hdropped : Dropped w') : SameChain w w' := by
  obtain ⟨hbatch, log, hlast⟩ := hdropped
  obtain ⟨evs, hlog, hevs⟩ := h.log
  refine ⟨by rw [h.node]; rfl, h.links, fun _ => hbatch, fun key hkey => h.committed key ?_, ?_⟩
  · rintro rfl
    exact hkey
  · intro hsync
    rw [hlog]
    exact Connections.ofLog_dropped hevs ⟨log, by rw [← hlog, hlast]⟩ hsync

end SameChain

namespace ChainInv

variable {env : Env} {chain : List Uint256} {w w' : World}

theorem sync (h : ChainInv env chain w) :
    (Connections.ofLog w.log).working = (Connections.ofLog w.log).committed := by
  rw [h.connections]

theorem of_sameChain (h : ChainInv env chain w) (hsame : SameChain w w') : ChainInv env chain w' := by
  have hcore := SameCore.of_sameLinks hsame.links
  have hfiles : w'.node.files = w.node.files :=
    congrArg (fun g => g.2.2.2.2.2) hsame.globals
  refine ⟨hsame.closed h.closed, h.index.of_sameCore hcore hfiles, hcore.parent ▸ h.lineage,
    hsame.links.pnextOf.trans h.pnext, ?_, (hsame.connections h.sync).trans h.connections, ?_⟩
  · rw [Node.tip, hsame.committed .hashBestChain trivial]
    exact h.tip
  · exact (congrArg Prod.fst hsame.globals).trans h.genesis

end ChainInv

/-- A switch leads from the invariant of the old best chain to that of the new one. -/
theorem Switched.chainInv {env : Env} {chain chain' : List Uint256} {w w₁ w₂ : World} {e : Event}
    (he : e.neutral) (h : Switched env chain chain' (w.begun.addLog [e]) w₁ w₂)
    (hinv : ChainInv env chain w) : ChainInv env chain' w₂ := by
  have hopen : (w.begun.addLog [e]).Open := rfl
  obtain ⟨ops, evs, hdelta⟩ := h.run.delta hopen
  have hcore : SameCore w.node w₂.node := (SameCore.of_sameLinks hdelta.links).trans h.core
  have hlog : Connections.ofLog (w.begun.addLog [e]).log = ⟨chain.dropLast, chain.dropLast⟩ :=
    (Connections.ofLog_neutral fun e' he' => List.mem_singleton.mp he' ▸ he).trans hinv.connections
  obtain ⟨p, hp, htxdb⟩ := h.txdb
  refine ⟨by rw [htxdb], hinv.index.of_sameCore hcore (by rw [h.node]; rfl), ?_, h.pnext, ?_, ?_, ?_⟩
  · rw [h.core.parent]
    exact h.run.lineage hopen hinv.lineage
  · rw [Node.tip, htxdb, hp, Map.getElem?_insert, if_pos rfl]
    rfl
  · rw [h.log, Connections.ofLog_append, h.run.connections hopen (by rw [hlog]), hlog]
    rfl
  · rw [h.run.getLast?, h.node]
    exact hinv.genesis

/-! ## Sequences of switches -/

/-- Only the pool has changed, and nothing was logged of the blocks that are connected. -/
structure PoolMoved (w w' : World) : Prop where
  node : w'.node = { w.node with mempool := w'.node.mempool }
  log : ∃ evs, w'.log = w.log ++ evs ∧ ∀ e ∈ evs, e.neutral

namespace PoolMoved

theorem refl (w : World) : PoolMoved w w :=
  ⟨rfl, [], (List.append_nil _).symm, fun _ he => absurd he List.not_mem_nil⟩

theorem of_poolOnly {w w' : World} (h : PoolOnly w w') : PoolMoved w w' :=
  ⟨h.node, [], by rw [h.log, List.append_nil], fun _ he => absurd he List.not_mem_nil⟩

theorem of_sameNode {w w' : World} (h : SameNode w w') : PoolMoved w w' :=
  of_poolOnly ⟨by rw [h.node], h.log⟩

theorem addLog (w : World) {e : Event} (he : e.neutral) : PoolMoved w (w.addLog [e]) :=
  ⟨rfl, [e], rfl, fun _ he' => List.mem_singleton.mp he' ▸ he⟩

theorem trans {w w' w'' : World} (h : PoolMoved w w') (h' : PoolMoved w' w'') : PoolMoved w w'' := by
  obtain ⟨evs, hlog, hevs⟩ := h.log
  obtain ⟨evs', hlog', hevs'⟩ := h'.log
  exact ⟨by rw [h'.node, h.node], evs ++ evs', by rw [hlog', hlog, List.append_assoc],
    List.forall_mem_append.mpr ⟨hevs, hevs'⟩⟩

theorem sameChain {w w' : World} (h : PoolMoved w w') : SameChain w w' := by
  obtain ⟨evs, hlog, hevs⟩ := h.log
  refine ⟨by rw [h.node]; rfl, SameLinks.of_index (by rw [h.node]), fun hclosed => ?_,
    fun _ _ => by rw [h.node], fun _ => by rw [hlog]; exact Connections.ofLog_neutral hevs⟩
  rw [h.node]
  exact hclosed

end PoolMoved

/-- A sequence of switches, each with a transaction of its own, with the changes of the pool
between them. -/
inductive Switches (env : Env) : List Uint256 → World → List Uint256 → World → Prop where
  | nil {chain : List Uint256} {w w' : World} (h : PoolMoved w w') : Switches env chain w chain w'
  | cons {chain chain' chain'' : List Uint256} {e : Event} {w w₀ w₁ w₂ w' : World}
      (hbefore : PoolMoved w w₀) (he : e.neutral)
      (hswitch : Switched env chain chain' (w₀.begun.addLog [e]) w₁ w₂)
      (hrest : Switches env chain' w₂ chain'' w') : Switches env chain w chain'' w'

namespace Switches

variable {env : Env} {chain chain' chain'' : List Uint256} {w w' w'' : World}

theorem before (hbefore : PoolMoved w w') (h : Switches env chain w' chain' w'') :
    Switches env chain w chain' w'' := by
  cases h with
  | nil h => exact .nil (hbefore.trans h)
  | cons hbefore' he hswitch hrest => exact .cons (hbefore.trans hbefore') he hswitch hrest

theorem trans (h : Switches env chain w chain' w') (h' : Switches env chain' w' chain'' w'') :
    Switches env chain w chain'' w'' := by
  induction h with
  | nil h => exact h'.before h
  | cons hbefore he hswitch _ ih => exact .cons hbefore he hswitch (ih h')

theorem chainInv (h : Switches env chain w chain' w') (hinv : ChainInv env chain w) :
    ChainInv env chain' w' := by
  induction h with
  | nil h => exact hinv.of_sameChain h.sameChain
  | cons hbefore he hswitch _ ih =>
    exact ih (hswitch.chainInv he (hinv.of_sameChain hbefore.sameChain))

end Switches

/-- The branch of `SetBestChain` for the postponed blocks goes well for `pindex`: its block can
be read, and `SetBestChainInner` succeeds. -/
def PostponedOk (env : Env) (node : Node) (sys : Sys) (pindex : Uint256) : Prop :=
  ∀ log, ∃ block w₁ w₂, readBlock env pindex ⟨node, sys, log⟩ = .ok (some block) w₁ ∧
    block.setBestChainInner env pindex w₁.begun = .ok () w₂

/-- No postponed block of the log has failed. -/
def LogOk (env : Env) (log : List Event) : Prop :=
  ∀ node sys pindex, Event.postponed node sys pindex ∈ log → PostponedOk env node sys pindex

theorem LogOk.of_prefix {env : Env} {log log' : List Event} (h : LogOk env log')
    (hinit : log <+: log') : LogOk env log :=
  fun node sys pindex hmem => h node sys pindex (hinit.subset hmem)

theorem LogGrows.isPrefix {log log' : List Event} (hgrows : LogGrows log log') : log <+: log' := by
  obtain ⟨evs, rfl, -⟩ := hgrows
  exact List.prefix_append _ _

theorem IndexInv.begun {env : Env} {w : World} (h : IndexInv env w.node) : IndexInv env w.begun.node :=
  ⟨h.bounded, h.objects⟩

theorem SameNode.of_begun {w w' : World} (h : SameNode w.begun w') :
    ∃ w₀, SameNode w w₀ ∧ w' = w₀.begun := by
  obtain ⟨node, sys, log⟩ := w'
  obtain ⟨rfl, rfl⟩ : node = w.begun.node ∧ log = w.log := ⟨h.node, h.log⟩
  exact ⟨⟨w.node, sys, w.log⟩, ⟨rfl, rfl⟩, rfl⟩

/-- Extending the best chain by one block. -/
theorem setBestChainInner_switches {env : Env} {block : CBlock} {p q : Uint256}
    {rest : List Uint256} {w w' : World} (hinv : ChainInv env (q :: rest) w)
    (hparent : w.node.parent p = some q) (hstored : w.node.storedBlock p = some block)
    (hhash : block.getHash env = p) (h : block.setBestChainInner env p w.begun = .ok () w') :
    Switches env (q :: rest) w (p :: q :: rest) w' := by
  obtain ⟨w₁, w₂, hswitched, hpool⟩ := setBestChainInner_ok w.open_begun hinv.index.begun
    hinv.lineage hinv.pnext hparent hstored hhash h
  exact .cons (.refl w) (fun _ => rfl) hswitched
    (.nil (PoolMoved.of_poolOnly ((Keeps.forM (fun _ => poolOnly_modifyPool _) _).ok hpool)))

/-- The postponed blocks, from the lowest up. -/
theorem connectPostponed_switches {env : Env} {p q : Uint256} {ps rest : List Uint256}
    {w w' : World} (hinv : ChainInv env (q :: rest) w)
    (hbranch : Branch w.node.parent p ps.reverse q) (hok : LogOk env w'.log)
    (h : connectPostponed env ps w = .ok () w') :
    ∃ rest', Switches env (q :: rest) w (p :: rest') w' := by
  induction ps generalizing q rest w with
  | nil =>
    obtain ⟨-, rfl⟩ := pure_eq_ok.mp h
    cases hbranch
    exact ⟨rest, .nil (.refl _)⟩
  | cons b ps ih =>
    rw [List.reverse_cons] at hbranch
    obtain ⟨hbranch, hparent⟩ := hbranch.of_concat
    unfold connectPostponed at h
    rw [emitCall_bind] at h
    change (readBlock env b >>= _) (w.addLog [.postponed w.node w.sys b]) = .ok () w' at h
    obtain ⟨found, w₁, hread, h⟩ := bind_eq_ok.mp h
    have hsame := (Reads.readBlock env b).ok hread
    have hlogged : Event.postponed w.node w.sys b ∈ w₁.log := by
      rw [hsame.log]
      exact List.mem_append_right _ (List.mem_singleton_self _)
    -- what the condition says of the run at hand
    have hgood : Event.postponed w.node w.sys b ∈ w'.log → ∃ block w₁ w₂,
        readBlock env b (w.addLog [.postponed w.node w.sys b]) = .ok (some block) w₁ ∧
          block.setBestChainInner env b w₁.begun = .ok () w₂ := fun hmem => hok _ _ _ hmem _
    cases found with
    | none =>
      obtain ⟨-, rfl⟩ := pure_eq_ok.mp h
      obtain ⟨block, w₂, w₃, hread', -⟩ := hgood hlogged
      obtain ⟨heq, -⟩ := EStateM.Result.ok.inj (hread.symm.trans hread')
      exact absurd heq (by simp)
    | some block =>
      obtain ⟨hstored, -⟩ := readBlock_ok hread
      have hmoved : PoolMoved w w₁ :=
        (PoolMoved.addLog w fun _ => rfl).trans (PoolMoved.of_sameNode hsame)
      have hinv₁ := hinv.of_sameChain hmoved.sameChain
      obtain ⟨_, w₂, hbegin, h⟩ := bind_eq_ok.mp h
      obtain ⟨-, rfl⟩ := txnBegin_ok hbegin
      obtain ⟨r, w₃, hattempt, h⟩ := bind_eq_ok.mp h
      rcases attempt_eq_ok.mp hattempt with ⟨_, rfl, hinner⟩ | ⟨e, rfl, hinner⟩
      · rw [← hsame.node] at hstored
        have hparent₁ : w₁.node.parent b = some q := by rw [hsame.node]; exact hparent
        have hone := setBestChainInner_switches hinv₁ hparent₁ hstored (readBlock_hash hread) hinner
        have htree := (SameTree.setBestChainInner env block b).ok hinner
        have hparents : w₃.node.parent = w.node.parent := by
          rw [htree.core.parent]
          show w₁.node.parent = w.node.parent
          rw [hsame.node]
          rfl
        obtain ⟨rest', hrest⟩ := ih (hone.chainInv hinv₁) (hparents ▸ hbranch) h
        exact ⟨rest', (hone.trans hrest).before hmoved⟩
      · have hgrows := ((SameTree.setBestChainInner env block b).error hinner).log
        cases e with
        | abort what => exact absurd h error_ne_ok
        | reject nDoS text =>
          obtain ⟨-, rfl⟩ := pure_eq_ok.mp h
          obtain ⟨block', w₂, w₄, hread', hinner'⟩ := hgood (hgrows.isPrefix.subset hlogged)
          obtain ⟨hblock, rfl⟩ := EStateM.Result.ok.inj (hread.symm.trans hread')
          obtain rfl := Option.some.inj hblock
          exact absurd (hinner'.symm.trans hinner) (by simp)

theorem postpone_ok {nBestTrust : Uint256} {fuel : Nat} {vpindex : List Uint256} {p : Uint256}
    {r : List Uint256 × Uint256} {w w' : World} (h : postpone nBestTrust fuel vpindex p w = .ok r w') :
    ∃ xs, r.1 = vpindex ++ xs ∧ Branch w.node.parent p xs r.2 := by
  induction fuel generalizing vpindex p with
  | zero => exact absurd h error_ne_ok
  | succ fuel ih =>
    obtain ⟨index, hp, h⟩ := deref_bind_eq_ok.mp h
    cases hprev : index.pprev with
    | none =>
      rw [hprev] at h
      obtain ⟨rfl, -⟩ := pure_eq_ok.mp h
      exact ⟨[], (List.append_nil _).symm, .nil _⟩
    | some pprev =>
      rw [hprev] at h
      obtain ⟨indexPrev, -, h⟩ := deref_bind_eq_ok.mp h
      split at h
      · obtain ⟨xs, hr, hbranch⟩ := ih h
        have hparent : w.node.parent p = some pprev := by rw [Node.parent, hp]; exact hprev
        exact ⟨p :: xs, by rw [hr, List.append_assoc]; rfl, .cons hparent hbranch⟩
      · obtain ⟨rfl, -⟩ := pure_eq_ok.mp h
        exact ⟨[], (List.append_nil _).symm, .nil _⟩

/-- A block that does not extend the best chain: `Reorganize`, then the postponed blocks. -/
theorem switchBestChain_switches {env : Env} {p q : Uint256} {rest : List Uint256} {w w' : World}
    (hinv : ChainInv env (q :: rest) w) (hbest : w.node.pindexBest = some q)
    (hok : LogOk env w'.log) (h : switchBestChain env p w.begun = .ok () w') :
    ∃ rest', Switches env (q :: rest) w (p :: rest') w' := by
  unfold switchBestChain at h
  rw [getNode_bind] at h
  obtain ⟨q', hq', h⟩ := nonNull_bind_eq_ok.mp h
  obtain rfl := Option.some.inj (hbest.symm.trans hq')
  obtain ⟨indexBest, -, h⟩ := deref_bind_eq_ok.mp h
  obtain ⟨⟨vpindexSecondary, pindexIntermediate⟩, w₁, hpostpone, h⟩ := bind_eq_ok.mp h
  have hsame := (Reads.postpone _ _ _ _).ok hpostpone
  obtain ⟨xs, hxs, hbranch⟩ := postpone_ok hpostpone
  obtain rfl : vpindexSecondary = xs := hxs
  obtain ⟨r, w₂, hattempt, hrun⟩ := bind_eq_ok.mp h
  rcases attempt_eq_ok.mp hattempt with ⟨_, rfl, hreorganize⟩ | ⟨e, rfl, -⟩
  · obtain ⟨w₀, hsame₀, rfl⟩ := hsame.of_begun
    have hmoved := PoolMoved.of_sameNode hsame₀
    have hinv₀ := hinv.of_sameChain hmoved.sameChain
    obtain ⟨xs, ys, pfork, rest', w₃, w₄, w₅, hsplit, -, hys, hswitched, hresurrect, hforget⟩ :=
      reorganize_ok w₀.open_begun hinv₀.index.begun hinv₀.lineage hinv₀.pnext
        (show w₀.node.pindexBest = some q by rw [hsame₀.node]; exact hbest) hreorganize
    have hpool := IsTrans.trans _ _ _ ((Keeps.forM (poolOnly_resurrect env) _).ok hresurrect)
      ((Keeps.forM (poolOnly_poolForget env) _).ok hforget)
    obtain ⟨tail, htail⟩ := hys.append_head rest'
    rw [← hsplit, htail] at hswitched
    have hone : Switches env (q :: rest) w (pindexIntermediate :: tail) w₂ :=
      .cons hmoved (fun _ => rfl) hswitched (.nil (PoolMoved.of_poolOnly hpool))
    have htree := (SameTree.reorganize env pindexIntermediate).ok hreorganize
    have hparents : w₂.node.parent = w.node.parent := by
      rw [htree.core.parent]
      show w₀.node.parent = w.node.parent
      rw [hsame₀.node]
    obtain ⟨rest'', hrest⟩ := connectPostponed_switches (hone.chainInv hinv)
      (by rw [List.reverse_reverse, hparents]; exact hbranch) hok hrun
    exact ⟨rest'', hone.trans hrest⟩
  · cases e with
    | abort what => exact absurd hrun error_ne_ok
    | reject nDoS text =>
      obtain ⟨_, w₃, -, hrun⟩ := bind_eq_ok.mp hrun
      obtain ⟨_, w₄, -, hrun⟩ := bind_eq_ok.mp hrun
      exact absurd hrun error_ne_ok

/-- `SetBestChainInner` succeeds for a block with a previous block only. -/
theorem setBestChainInner_parent {env : Env} {block : CBlock} {p : Uint256} {w w' : World}
    (h : block.setBestChainInner env p w = .ok () w') : ∃ q, w.node.parent p = some q := by
  unfold CBlock.setBestChainInner at h
  rw [emitCall_bind] at h
  obtain ⟨r, w₂, hattempt, h⟩ := bind_eq_ok.mp h
  have htree := (Keeps.attempt (SameTree.connectToBest env block p)).ok hattempt
  cases r with
  | error e =>
    cases e with
    | abort what => exact absurd h error_ne_ok
    | reject nDoS text =>
      obtain ⟨_, w₃, -, h⟩ := bind_eq_ok.mp h
      obtain ⟨_, w₄, -, h⟩ := bind_eq_ok.mp h
      exact absurd h error_ne_ok
  | ok _ =>
    obtain ⟨ok, w₃, hcommit, h⟩ := bind_eq_ok.mp h
    have htree := IsTrans.trans _ _ _ htree (SameTree.txnCommit.ok hcommit)
    obtain ⟨-, h⟩ := require_bind_eq_ok.mp h
    obtain ⟨index, hp, h⟩ := deref_bind_eq_ok.mp h
    obtain ⟨q, hprev, -⟩ := nonNull_bind_eq_ok.mp h
    have hparents : w₃.node.parent = w.node.parent := htree.core.parent
    refine ⟨q, ?_⟩
    rw [← hparents, Node.parent, hp]
    exact hprev

/-! ## The invariant of a node -/

/-- The invariant of the best chain with the globals. -/
structure BestInv (env : Env) (chain : List Uint256) (w : World) : Prop
    extends ChainInv env chain w where
  best : w.node.pindexBest = chain.head?
  hashBest : chain.head? = some w.node.hashBestChain
  trust : ∃ index, w.node.index? w.node.hashBestChain = some index ∧
    w.node.nBestHeight = index.nHeight ∧ w.node.nBestChainTrust = index.nChainTrust
  first : ∃ r index, chain.getLast? = some r ∧ w.node.index? r = some index

/-- What `SetBestChain` does before it sets the globals, as long as no postponed block fails. -/
theorem moveBestChain_switches {env : Env} {block : CBlock} {p : Uint256} {chain : List Uint256}
    {w w' : World} (hinv : BestInv env chain w) (hstored : w.node.storedBlock p = some block)
    (hhash : block.getHash env = p) (hok : LogOk env w'.log)
    (h : block.moveBestChain env p w.begun = .ok () w') :
    ∃ rest', Switches env chain w (p :: rest') w' := by
  obtain ⟨r, indexFirst, hfirst, -⟩ := hinv.first
  obtain ⟨q, rest, rfl⟩ : ∃ q rest, chain = q :: rest := by
    cases chain with
    | nil => exact absurd hfirst (by simp)
    | cons q rest => exact ⟨q, rest, rfl⟩
  have hbest : w.node.pindexBest = some q := hinv.best
  have hq : q = w.node.hashBestChain := Option.some.inj hinv.hashBest
  have hgenesis : w.node.pindexGenesisBlock = some r := hinv.genesis.trans hfirst
  unfold CBlock.moveBestChain at h
  rw [getNode_bind] at h
  split at h
  · next hstart => exact absurd (hgenesis.symm.trans hstart.1) (by simp)
  split at h
  · next hprev =>
    have h := adaptExcept_eq_ok.mp h
    obtain ⟨q', hparent⟩ := setBestChainInner_parent h
    obtain ⟨index, -, block', hp, -, hholds, -, -, hprev', -⟩ := hinv.index.parent_some hparent
    obtain rfl : block = block' := by
      rw [Node.storedBlock, hp, Option.bind_some, hholds.stored] at hstored
      exact (Option.some.inj hstored).symm
    have hparent : w.node.parent p = some q := by
      rw [hq, ← (show block.hashPrevBlock = w.node.hashBestChain from hprev), hprev']
      exact hparent
    exact ⟨_, setBestChainInner_switches hinv.toChainInv hparent hstored hhash h⟩
  · exact switchBestChain_switches hinv.toChainInv hbest hok h

section moves

variable {env : Env} {chain : List Uint256} {w w₁ w' : World}

theorem SameChain.bestInv (h : SameChain w w') (hinv : BestInv env chain w) :
    BestInv env chain w' := by
  have hbest : w'.node.pindexBest = w.node.pindexBest := congrArg (fun g => g.2.1) h.globals
  have hhash : w'.node.hashBestChain = w.node.hashBestChain := congrArg (fun g => g.2.2.1) h.globals
  have hheight : w'.node.nBestHeight = w.node.nBestHeight := congrArg (fun g => g.2.2.2.1) h.globals
  have htrust : w'.node.nBestChainTrust = w.node.nBestChainTrust :=
    congrArg (fun g => g.2.2.2.2.1) h.globals
  refine ⟨hinv.toChainInv.of_sameChain h, hbest.trans hinv.best, hhash ▸ hinv.hashBest, ?_, ?_⟩
  · obtain ⟨index, hindex, hheight', htrust'⟩ := hinv.trust
    obtain ⟨index', hindex', hlinks⟩ := h.links.index hindex
    have hcore := CBlockIndex.eq_of_core (CBlockIndex.core_of_links hlinks)
    refine ⟨index', hhash ▸ hindex', ?_, ?_⟩
    · rw [hheight, hheight', hcore]
    · rw [htrust, htrust', hcore]
  · obtain ⟨r, index, hr, hindex⟩ := hinv.first
    obtain ⟨index', hindex', -⟩ := h.links.index hindex
    exact ⟨r, index', hr, hindex'⟩

/-- All blocks of the best chain are in the index. -/
theorem BestInv.indexed (hinv : BestInv env chain w) {p : Uint256} (hp : p ∈ chain) :
    ∃ index, w.node.index? p = some index := by
  obtain ⟨r, indexFirst, hr, hfirst⟩ := hinv.first
  have hlineage := hinv.lineage
  clear hinv
  induction hlineage with
  | root =>
    obtain rfl := List.mem_singleton.mp hp
    obtain rfl := Option.some.inj hr
    exact ⟨indexFirst, hfirst⟩
  | @child a b rest hab _ ih =>
    rcases List.mem_cons.mp hp with rfl | hp
    · obtain ⟨index, hindex, -⟩ := Option.bind_eq_some_iff.mp hab
      exact ⟨index, hindex⟩
    · exact ih hp (by rwa [List.getLast?_cons_cons] at hr)

theorem Switches.sameCore {chain' : List Uint256} (h : Switches env chain w chain' w') :
    SameCore w.node w'.node ∧ w'.node.files = w.node.files := by
  induction h with
  | nil h => exact ⟨SameCore.of_sameLinks h.sameChain.links, by rw [h.node]⟩
  | @cons _ _ _ _ w w₀ _ _ _ hbefore he hswitch _ ih =>
    obtain ⟨ops, evs, hdelta⟩ := hswitch.run.delta rfl
    have hcore := (SameCore.of_sameLinks hbefore.sameChain.links).trans
      ((SameCore.of_sameLinks hdelta.links).trans hswitch.core)
    refine ⟨hcore.trans ih.1, ih.2.trans ?_⟩
    rw [hswitch.node]
    show w₀.node.files = w.node.files
    rw [hbefore.node]

theorem Switches.getLast? {chain' : List Uint256} (h : Switches env chain w chain' w') :
    chain'.getLast? = chain.getLast? := by
  induction h with
  | nil => rfl
  | cons _ _ hswitch _ ih => exact ih.trans hswitch.run.getLast?

/-- The globals are set to the tip of the new best chain. -/
theorem setBest_bestInv {p : Uint256} {rest : List Uint256} {w₂ : World}
    (hinv : BestInv env chain w) (hswitches : Switches env chain w (p :: rest) w₁)
    (hset : setBest p p w₁ = .ok () w₂) : BestInv env (p :: rest) w₂ := by
  have hchain := hswitches.chainInv hinv.toChainInv
  obtain ⟨index, hindex, hset⟩ := deref_bind_eq_ok.mp hset
  obtain ⟨-, rfl⟩ := EStateM.Result.ok.inj hset
  refine ⟨⟨hchain.closed, ⟨hchain.index.bounded, hchain.index.objects⟩, hchain.lineage,
    hchain.pnext, hchain.tip, hchain.connections, hchain.genesis⟩, rfl, rfl,
    ⟨index, hindex, rfl, rfl⟩, ?_⟩
  obtain ⟨r, indexFirst, hr, hfirst⟩ := hinv.first
  obtain ⟨index', hindex', -⟩ := hswitches.sameCore.1.index hfirst
  exact ⟨r, index', hswitches.getLast?.trans hr, hindex'⟩

/-- The object `AddToBlockIndex` makes is that of the block. -/
theorem CBlock.IsNewIndex.objectOf {block : CBlock} {node : Node} {nFile nBlockPos : Nat}
    {hashProof : Uint256} {index : CBlockIndex}
    (h : block.IsNewIndex env node nFile nBlockPos hashProof index) :
    ObjectOf env block (block.getHash env) index ∧ index.nFile = nFile ∧
      index.nBlockPos = nBlockPos ∧ index.pnext = none := by
  obtain ⟨-, modifier, -, rfl⟩ := h
  refine ⟨⟨rfl, rfl, rfl, rfl, rfl, rfl, ?_, rfl, rfl⟩, rfl, rfl, rfl⟩
  have hflags : ∀ (a c : Bool) (n : Nat), Nat.testBit ((if a then blockProofOfStake else 0) |||
      (if n = 1 then blockStakeEntropy else 0) ||| if c then blockStakeModifier else 0) 0 = a := by
    intro a c n
    cases a <;> cases c <;> by_cases h : n = 1 <;> simp [h, blockProofOfStake, blockStakeEntropy,
      blockStakeModifier]
  exact hflags _ _ _

/-- Its place is above the previous block. -/
theorem CBlock.IsNewIndex.above {block : CBlock} {node : Node} {nFile nBlockPos : Nat}
    {hashProof : Uint256} {index indexPrev : CBlockIndex}
    (h : block.IsNewIndex env node nFile nBlockPos hashProof index)
    (hprev : node.index? block.hashPrevBlock = some indexPrev) :
    index.pprev = some block.hashPrevBlock ∧ index.nHeight = indexPrev.nHeight + 1 ∧
      index.nChainTrust = (indexPrev.nChainTrust + index.getBlockTrust) % 2 ^ 256 := by
  obtain ⟨-, modifier, -, rfl⟩ := h
  refine ⟨?_, ?_, ?_⟩
  · simp [CBlock.finishIndex, CBlock.newIndex, hprev]
  · simp [CBlock.finishIndex, CBlock.newIndex, hprev]
  · simp only [CBlock.finishIndex, CBlock.newIndex, hprev]
    rfl

/-- The object of a block without a previous block is a root. -/
theorem CBlock.IsNewIndex.root {block : CBlock} {node : Node} {nFile nBlockPos : Nat}
    {hashProof : Uint256} {index : CBlockIndex}
    (h : block.IsNewIndex env node nFile nBlockPos hashProof index)
    (hprev : node.index? block.hashPrevBlock = none) :
    index.pprev = none ∧ index.nHeight = 0 ∧
      index.nChainTrust = index.getBlockTrust % 2 ^ 256 := by
  obtain ⟨-, modifier, -, rfl⟩ := h
  refine ⟨?_, ?_, ?_⟩
  · simp [CBlock.finishIndex, CBlock.newIndex, hprev]
  · simp [CBlock.finishIndex, CBlock.newIndex, hprev]
  · simp only [CBlock.finishIndex, CBlock.newIndex, hprev, Nat.zero_add]
    rfl

/-- Storing a block. -/
theorem BestInv.of_put {block : CBlock} {nFile nBlockPos : Nat} (hinv : BestInv env chain w)
    (hwrite : writeToDisk block w = .ok (nFile, nBlockPos) w₁) :
    BestInv env chain w₁ ∧ w₁.node.files.Holds nFile nBlockPos block := by
  obtain ⟨hvalid, hpos, hlog, hnode⟩ := writeToDisk_ok hwrite
  dsimp only at hpos hnode
  obtain ⟨node₁, sys₁, log₁⟩ := w₁
  obtain rfl : log₁ = w.log := hlog
  obtain rfl : node₁ = { w.node with files := w.node.files.put nFile nBlockPos block } := hnode
  refine ⟨⟨⟨hinv.closed, hinv.index.put (by omega), hinv.lineage, hinv.pnext, hinv.tip,
    hinv.connections, hinv.genesis⟩, hinv.best, hinv.hashBest, hinv.trust, hinv.first⟩, ?_⟩
  exact BlockFiles.put_holds hvalid

/-- A new block in the index, with or without its record in the database. -/
theorem BestInv.of_inserted {block : CBlock} {nFile nBlockPos : Nat} {hashProof : Uint256}
    {index indexPrev : CBlockIndex} {pdb : Map DbKey DbVal} (hinv : BestInv env chain w)
    (hholds : w.node.files.Holds nFile nBlockPos block)
    (hprev : w.node.index? block.hashPrevBlock = some indexPrev)
    (hstarts : block.startsWithHeight (indexPrev.nHeight + 1) = true)
    (hnew : block.IsNewIndex env w.node nFile nBlockPos hashProof index)
    (hnode : w'.node = { (w.inserted env block index).node with txdb := ⟨pdb, none⟩ })
    (hpdb : pdb[DbKey.hashBestChain]? = w.node.txdb.pdb[DbKey.hashBestChain]?)
    (hlog : Connections.ofLog w'.log = Connections.ofLog w.log) : BestInv env chain w' := by
  obtain ⟨hobject, hfile, hpos, hpnext⟩ := hnew.objectOf
  obtain ⟨hpprev, hheight, -⟩ := hnew.above hprev
  have hfresh : w.node.index? (block.getHash env) = none := by
    refine Std.ExtTreeMap.getElem?_eq_none fun hmem => ?_
    exact absurd (Std.ExtTreeMap.mem_iff_contains.mp hmem) (by rw [hnew.1]; simp)
  obtain ⟨node', sys', log'⟩ := w'
  obtain rfl : node' = { (w.inserted env block index).node with txdb := ⟨pdb, none⟩ } := hnode
  -- the objects of the new index
  have hindex' : ∀ p, Node.index? { (w.inserted env block index).node with txdb := ⟨pdb, none⟩ } p =
      if block.getHash env = p then some index else w.node.index? p :=
    fun p => Node.index?_setIndex _ _ _ _
  have hold : ∀ {p index₁}, w.node.index? p = some index₁ →
      Node.index? { (w.inserted env block index).node with txdb := ⟨pdb, none⟩ } p = some index₁ := by
    intro p index₁ hp
    rw [hindex', if_neg, hp]
    rintro rfl
    exact absurd (hfresh.symm.trans hp) (by simp)
  have hinserted := hinv.index.insert hfresh (by rw [hfile, hpos]; exact hholds) hobject
    (.inr ⟨hpprev, by rw [hheight]; exact hstarts, indexPrev, hprev, hheight⟩)
  refine ⟨⟨rfl, ⟨hinserted.bounded, hinserted.objects⟩, ?_, ?_, ?_, hlog.trans hinv.connections,
    hinv.genesis⟩, hinv.best, hinv.hashBest, ?_, ?_⟩
  · refine hinv.lineage.congr fun p hp => ?_
    obtain ⟨index₁, hp⟩ := hinv.indexed hp
    rw [Node.parent, Node.parent, hold hp, hp]
  · have hnone : w.node.pnextOf (block.getHash env) = none := by rw [Node.pnextOf, hfresh]; rfl
    show (w.node.setIndex (block.getHash env) index).pnextOf = _
    rw [Node.pnextOf_setIndex, hpnext, ← hnone, Function.update_eq_self, hinv.pnext]
  · rw [Node.tip, hpdb]
    exact hinv.tip
  · obtain ⟨index₁, hp, hrest⟩ := hinv.trust
    exact ⟨index₁, hold hp, hrest⟩
  · obtain ⟨r, index₁, hr, hp⟩ := hinv.first
    exact ⟨r, index₁, hr, hold hp⟩

end moves

/-! ## Moves of the best chain -/

/-- A move of a node, and what it does to the best chain. -/
inductive ChainMove (env : Env) : List Uint256 → World → List Uint256 → World → Prop where
  /-- The best chain stays as it is. -/
  | keep {chain : List Uint256} {w w' : World} (hmove : Move env w w') (hsame : SameChain w w')
      (hlog : LogGrows w.log w'.log) : ChainMove env chain w chain w'
  /-- A block has been stored. -/
  | store {chain : List Uint256} {block : CBlock} {nFile nBlockPos : Nat} {w w₁ w' : World}
      (hwrite : writeToDisk block w = .ok (nFile, nBlockPos) w₁) (hsame : SameNode w₁ w') :
      ChainMove env chain w chain w'
  /-- A block has been stored and put into the index; `r` tells whether its record was written. -/
  | insert {chain : List Uint256} {block : CBlock} {indexPrev index : CBlockIndex}
      {nFile nBlockPos : Nat} {hashProof : Uint256} {r : Bool} {w w₁ w' : World}
      (haccept : Acceptable env w.node block indexPrev)
      (hwrite : writeToDisk block w = .ok (nFile, nBlockPos) w₁)
      (hnew : block.IsNewIndex env w₁.node nFile nBlockPos hashProof index)
      (hnode : w'.node = { (w₁.inserted env block index).node with
        txdb := ⟨if r then (recordOp env (CDiskBlockIndex.ofIndex index)).apply
          w₁.node.txdb.pdb else w₁.node.txdb.pdb, none⟩ })
      (hlog : w'.log = w₁.log ++
        [.indexed w₁.sys (block.getHash env), if r then .committed else .dropped]) :
      ChainMove env chain w chain w'
  /-- The best chain has been set to `p`. -/
  | switch {chain rest : List Uint256} {p : Uint256} {w w₁ w₂ : World}
      (hswitches : Switches env chain w (p :: rest) w₁) (hset : setBest p p w₁ = .ok () w₂)
      (hlog : LogGrows w.log w₂.log) :
      ChainMove env chain w (p :: rest) (w₂.addLog [.bestChainSet w₂.node])

theorem writeToDisk_log {block : CBlock} {pos : Nat × Nat} {w w₁ : World}
    (h : writeToDisk block w = .ok pos w₁) : w₁.log = w.log := (writeToDisk_ok h).2.2.1

theorem ChainMove.bestInv {env : Env} {chain chain' : List Uint256} {w w' : World}
    (h : ChainMove env chain w chain' w') (hinv : BestInv env chain w) : BestInv env chain' w' := by
  cases h with
  | keep hmove hsame => exact hsame.bestInv hinv
  | store hwrite hsame =>
    exact (PoolMoved.of_sameNode hsame).sameChain.bestInv (hinv.of_put hwrite).1
  | @insert block indexPrev index nFile nBlockPos hashProof recorded _ w₁ _ haccept hwrite hnew
      hnode hlog =>
    obtain ⟨hinv₁, hholds⟩ := hinv.of_put hwrite
    have hprev : w₁.node.index? block.hashPrevBlock = some indexPrev := by
      rw [(writeToDisk_ok hwrite).2.2.2]
      exact haccept.prev
    refine hinv₁.of_inserted hholds hprev haccept.height hnew hnode ?_ ?_
    · cases recorded with
      | false => rfl
      | true =>
        rw [if_pos rfl, BatchOp.getElem?_apply, if_neg]
        exact fun heq => DbKey.noConfusion heq
    · rw [hlog, Connections.ofLog_append, hinv₁.connections]
      cases recorded <;> rfl
  | switch hswitches hset _ =>
    have hbest := setBest_bestInv hinv hswitches hset
    exact ((PoolMoved.addLog _ fun _ => rfl).sameChain).bestInv hbest

theorem Aside.logGrows {w w' : World} (h : Aside w w') : LogGrows w.log w'.log := by
  obtain ⟨evs, hlog, hevs⟩ := h.log
  refine ⟨evs, hlog, fun e he => ?_⟩
  have := hevs e he
  cases e <;> trivial

theorem Kept.logGrows {w w' : World} (h : Kept w w') : LogGrows w.log w'.log := by
  obtain ⟨evs, hlog, hevs⟩ := h.log
  refine ⟨evs, hlog, fun e he => ?_⟩
  rcases hevs e he with he | rfl
  · exact Event.quiet_of_inTxn he
  · trivial

/-- A checkpoint that has been written. -/
theorem writeSyncCheckpoint_ok {hashCheckpoint : Uint256} {w w' : World}
    (h : writeSyncCheckpoint hashCheckpoint w = .ok () w') :
    w.node.txdb.activeBatch = none ∧ w'.log = w.log ++ [.committed] ∧
      w'.node = { w.node with
        txdb := ⟨w.node.txdb.pdb.insert .hashSyncCheckpoint (.hash hashCheckpoint), none⟩
        hashSyncCheckpoint := hashCheckpoint } := by
  obtain ⟨_, w₁, hbegin, h⟩ := bind_eq_ok.mp h
  obtain ⟨hclosed, rfl⟩ := txnBegin_ok hbegin
  rw [bind_run, change_run w.open_begun] at h
  obtain ⟨ok, w₂, hcommit, h⟩ := bind_eq_ok.mp h
  obtain ⟨rfl, h⟩ := require_bind_eq_ok.mp h
  obtain ⟨-, rfl⟩ := EStateM.Result.ok.inj h
  obtain ⟨hnode, hlog⟩ := txnCommit_ok (w.open_begun.addOps _) hcommit
  rw [World.view_addOps w.open_begun] at hnode
  refine ⟨hclosed, hlog, ?_⟩
  show { w₂.node with hashSyncCheckpoint := hashCheckpoint } = _
  rw [hnode]
  rfl

theorem SameChain.of_checkpoint {hashCheckpoint : Uint256} {w w' : World}
    (h : writeSyncCheckpoint hashCheckpoint w = .ok () w') : SameChain w w' := by
  obtain ⟨-, hlog, hnode⟩ := writeSyncCheckpoint_ok h
  refine ⟨by rw [hnode]; rfl, SameLinks.of_index (by rw [hnode]), fun _ => by rw [hnode],
    fun key hkey => ?_, fun hsync => ?_⟩
  · rw [hnode]
    refine Map.getElem?_insert_of_ne _ _ ?_
    rintro rfl
    exact hkey
  · rw [hlog, Connections.ofLog_append]
    exact Connections.step_committed hsync

/-- What a move does to the best chain, as long as no postponed block fails. -/
theorem Move.chainMove {env : Env} {chain : List Uint256} {w w' : World} (h : Move env w w')
    (hinv : BestInv env chain w) (hok : LogOk env w'.log) : ∃ chain', ChainMove env chain w chain' w' := by
  cases h with
  | aside h => exact ⟨chain, .keep (.aside h) (SameChain.of_aside h) h.logGrows⟩
  | added haccept hwrite hinsert =>
    obtain ⟨hnew, -, hnode, hlog⟩ := CBlock.insertIndex_ok hinsert
    exact ⟨chain, ChainMove.insert (r := true) haccept hwrite hnew hnode hlog⟩
  | unrecorded haccept hwrite hinsert =>
    rcases CBlock.insertIndex_reject hinsert with hsame | ⟨index, hnew, hnode, hlog⟩
    · exact ⟨chain, .store hwrite hsame⟩
    · exact ⟨chain, ChainMove.insert (r := false) haccept hwrite hnew hnode hlog⟩
  | setBest hstored hhash hguarded hrun =>
    obtain ⟨w₁, w₂, hclosed, hmove, hset, htree, rfl⟩ := setBestChain_ok hrun
    have hgrows := ((SameTree.setBest _ _).ok hset).log
    obtain ⟨rest', hswitches⟩ := moveBestChain_switches hinv hstored hhash
      (hok.of_prefix (hgrows.isPrefix.trans (List.prefix_append _ _))) hmove
    rw [hhash] at hset
    exact ⟨_, .switch hswitches hset htree.log⟩
  | setBestFailed hstored hhash hrun =>
    obtain ⟨hkept, hdropped⟩ := reject_setBestChain hrun
    exact ⟨chain, .keep (.setBestFailed hstored hhash hrun) (SameChain.of_dropped hkept hdropped)
      hkept.logGrows⟩
  | checkpoint hextends hmain hrun =>
    refine ⟨chain, .keep (.checkpoint hextends hmain hrun) (SameChain.of_checkpoint hrun) ?_⟩
    rw [(writeSyncCheckpoint_ok hrun).2.1]
    exact LogGrows.single _ trivial
  | checkpointFailed hrun =>
    obtain ⟨hkept, hdropped⟩ := reject_writeSyncCheckpoint hrun
    exact ⟨chain, .keep (.checkpointFailed hrun) (SameChain.of_dropped hkept hdropped)
      hkept.logGrows⟩

/-! ## The start -/

/-- A node that has made the first block its best chain. -/
structure Genesis (env : Env) (sys : Sys) (index : CBlockIndex) (w : World) : Prop where
  hash : (genesisBlock env).getHash env = env.genesisHash
  bounded : w.node.files.Bounded
  holds : w.node.files.Holds index.nFile index.nBlockPos (genesisBlock env)
  new : (genesisBlock env).IsNewIndex env { Node.initial with files := w.node.files } index.nFile
    index.nBlockPos hashGenesisBlock index
  node : w.node = { Node.initial with
    mapBlockIndex := (∅ : Map Uint256 CBlockIndex).insert env.genesisHash index
    pindexGenesisBlock := some env.genesisHash
    pindexBest := some env.genesisHash
    hashBestChain := env.genesisHash
    nBestHeight := 0
    nBestChainTrust := index.nChainTrust
    txdb := ⟨((recordOp env (CDiskBlockIndex.ofIndex index)).apply ∅).insert .hashBestChain
      (.hash env.genesisHash), none⟩
    files := w.node.files }
  log : w.log = [.indexed sys env.genesisHash, .committed, .committed, .bestChainSet w.node]

/-- Only the checkpoints have changed, in memory and in the database. -/
structure CheckpointOnly (w w' : World) : Prop where
  node : w'.node = { w.node with
    txdb := w'.node.txdb
    hashSyncCheckpoint := w'.node.hashSyncCheckpoint
    hashPendingCheckpoint := w'.node.hashPendingCheckpoint }
  closed : w.node.txdb.activeBatch = none → w'.node.txdb.activeBatch = none
  committed : ∀ key : DbKey, key.ofChain → w'.node.txdb.pdb[key]? = w.node.txdb.pdb[key]?
  log : ∃ evs, w'.log = w.log ++ evs ∧ ∀ e ∈ evs, e = .committed

namespace CheckpointOnly

theorem trans {w w' w'' : World} (h : CheckpointOnly w w') (h' : CheckpointOnly w' w'') :
    CheckpointOnly w w'' := by
  obtain ⟨evs, hlog, hevs⟩ := h.log
  obtain ⟨evs', hlog', hevs'⟩ := h'.log
  exact ⟨by rw [h'.node, h.node], h'.closed ∘ h.closed,
    fun key hkey => (h'.committed key hkey).trans (h.committed key hkey), evs ++ evs',
    by rw [hlog', hlog, List.append_assoc], List.forall_mem_append.mpr ⟨hevs, hevs'⟩⟩

theorem of_write {hashCheckpoint : Uint256} {w w' : World}
    (h : writeSyncCheckpoint hashCheckpoint w = .ok () w') : CheckpointOnly w w' := by
  obtain ⟨-, hlog, hnode⟩ := writeSyncCheckpoint_ok h
  exact ⟨by rw [hnode], (SameChain.of_checkpoint h).closed, (SameChain.of_checkpoint h).committed,
    _, hlog, fun _ he => List.mem_singleton.mp he⟩

theorem sameChain {w w' : World} (h : CheckpointOnly w w') : SameChain w w' := by
  obtain ⟨evs, hlog, hevs⟩ := h.log
  refine ⟨by rw [h.node]; rfl, SameLinks.of_index (by rw [h.node]), h.closed, h.committed,
    fun hsync => ?_⟩
  rw [hlog]
  clear hlog
  induction evs using List.reverseRecOn with
  | nil => rw [List.append_nil]
  | append_singleton evs e ih =>
    have ih := ih fun e he => hevs e (List.mem_append_left _ he)
    obtain rfl := hevs e (List.mem_append_right _ (List.mem_singleton_self _))
    rw [← List.append_assoc, Connections.ofLog_append, ih]
    exact Connections.step_committed hsync

end CheckpointOnly

/-- The checkpoint that `ResetSyncCheckpoint` goes back to is in the index. -/
theorem resetTo_ok {checkpoints : List (Nat × Uint256)} {w w' : World}
    (h : resetTo checkpoints w = .ok () w') : CheckpointOnly w w' ∧
      ∃ index, w'.node.index? w'.node.hashSyncCheckpoint = some index := by
  induction checkpoints with
  | nil => exact absurd h error_ne_ok
  | cons checkpoint rest ih =>
    unfold resetTo at h
    rw [getNode_bind] at h
    cases hindex : w.node.index? checkpoint.2 with
    | none =>
      rw [hindex] at h
      exact ih h
    | some index =>
      rw [hindex] at h
      dsimp only at h
      split at h
      · have hwrite := adaptExcept_eq_ok.mp h
        refine ⟨CheckpointOnly.of_write hwrite, index, ?_⟩
        rw [(writeSyncCheckpoint_ok hwrite).2.2]
        exact hindex
      · exact ih h

theorem genesis_trust {env : Env} {index : CBlockIndex}
    (h : index.nBits = CBigNum.getCompact env.bnProofOfWorkLimit) :
    0 < index.getBlockTrust % 2 ^ 256 := by
  rw [CBlockIndex.getBlockTrust, h, Env.bnProofOfWorkLimit]
  clear h
  cases env.fTestNet <;> decide +kernel

/-- The first block is put into the index and becomes the best chain. -/
theorem initGenesis_ok {env : Env} {sys : Sys} {w : World}
    (h : initGenesis env ⟨.initial, sys, []⟩ = .ok () w) :
    ∃ sys' index w₁, Genesis env sys' index w₁ ∧ CheckpointOnly w₁ w ∧
      w.node.hashSyncCheckpoint = env.genesisHash := by
  unfold initGenesis at h
  obtain ⟨sys₀, w₀, hsys, h⟩ := bind_eq_ok.mp h
  obtain ⟨-, rfl⟩ := EStateM.Result.ok.inj hsys
  obtain ⟨-, h⟩ := require_bind_eq_ok.mp h
  obtain ⟨hhash, h⟩ := require_bind_eq_ok.mp h
  obtain ⟨_, -, h⟩ := fromExcept_bind_eq_ok.mp h
  obtain ⟨⟨nFile, nBlockPos⟩, w₁, hwrite, h⟩ := bind_eq_ok.mp h
  obtain ⟨_, w₂, hadd, h⟩ := bind_eq_ok.mp h
  have hcheckpoint := CheckpointOnly.of_write (adaptExcept_eq_ok.mp h)
  have hwritten : w.node.hashSyncCheckpoint = env.genesisHash := by
    rw [(writeSyncCheckpoint_ok (adaptExcept_eq_ok.mp h)).2.2]
  have hhash : (genesisBlock env).getHash env = env.genesisHash := eq_of_beq hhash
  obtain ⟨hvalid, hpos, hlog₁, hnode₁⟩ := writeToDisk_ok (adaptExcept_eq_ok.mp hwrite)
  obtain ⟨index, w₃, hinsert, hset⟩ := bind_eq_ok.mp (adaptExcept_eq_ok.mp hadd)
  obtain ⟨hnew, -, hnode₃, hlog₃⟩ := CBlock.insertIndex_ok hinsert
  obtain ⟨hobject, hfile, hblockPos, -⟩ := hnew.objectOf
  dsimp only at hvalid hpos hlog₁ hnode₁
  have hstake : index.isProofOfStake = false := hobject.isProofOfStake
  obtain ⟨-, hheight, htrust⟩ := hnew.root (by rw [hnode₁]; exact Std.ExtTreeMap.getElem?_empty)
  have htrust : 0 < index.nChainTrust := htrust ▸ genesis_trust hobject.nBits
  rw [getNode_bind, if_pos (show w₃.node.nBestChainTrust < index.nChainTrust by
    rw [hnode₃]
    show w₁.node.nBestChainTrust < _
    rw [hnode₁]
    exact htrust)] at hset
  obtain ⟨w₄, w₅, hclosed, hmove, hset, -, rfl⟩ := setBestChain_ok hset
  unfold CBlock.moveBestChain at hmove
  rw [getNode_bind, if_pos ⟨by rw [World.begun, hnode₃, World.inserted, hnode₁]; rfl, hhash⟩,
    CBlock.startBestChain] at hmove
  obtain ⟨ok, w₆, hwriteBest, hcommit⟩ := bind_eq_ok.mp hmove
  obtain ⟨w₇, hmove, hlog₇, hnode₇⟩ := commit_ok w₃.open_begun hwriteBest hcommit
  obtain ⟨-, rfl⟩ := EStateM.Result.ok.inj hmove
  obtain ⟨index', hindex', hset⟩ := deref_bind_eq_ok.mp hset
  obtain ⟨-, rfl⟩ := EStateM.Result.ok.inj hset
  have hindex₃ : w₃.node.index? env.genesisHash = some index := by
    rw [hnode₃, ← hhash]
    exact (Node.index?_setIndex _ _ _ _).trans (if_pos rfl)
  obtain rfl : index' = index := by
    have hindex' : w₇.node.index? ((genesisBlock env).getHash env) = some index' := hindex'
    rw [hnode₇, hhash] at hindex'
    exact Option.some.inj (hindex'.symm.trans hindex₃)
  have hnode : w₇.node = { Node.initial with
      mapBlockIndex := (∅ : Map Uint256 CBlockIndex).insert env.genesisHash index'
      txdb := ⟨((recordOp env (CDiskBlockIndex.ofIndex index')).apply ∅).insert .hashBestChain
        (.hash env.genesisHash), none⟩
      files := w₁.node.files } := by
    rw [hnode₇, World.begun, hnode₃, World.inserted, hnode₁, hhash, hstake]
    rfl
  have hput : w₁.node.files = BlockFiles.empty.put nFile nBlockPos (genesisBlock env) := by
    rw [hnode₁]
    rfl
  refine ⟨w₁.sys, index', _, ⟨hhash, ?_, ?_, ?_, ?_, ?_⟩, hcheckpoint, hwritten⟩
  · show w₇.node.files.Bounded
    rw [hnode]
    show w₁.node.files.Bounded
    rw [hput]
    exact BlockFiles.put_bounded BlockFiles.empty_bounded (hpos ▸ Nat.le_add_right _ 8)
  · show w₇.node.files.Holds _ _ _
    rw [hnode, hfile, hblockPos]
    show w₁.node.files.Holds _ _ _
    rw [hput]
    exact BlockFiles.put_holds hvalid
  · show (genesisBlock env).IsNewIndex env { Node.initial with files := w₇.node.files } _ _ _ _
    rw [hnode, hfile, hblockPos]
    rw [hnode₁] at hnew
    show (genesisBlock env).IsNewIndex env { Node.initial with files := w₁.node.files } _ _ _ _
    rw [hput]
    exact hnew
  · dsimp only [World.addLog]
    rw [hnode, hhash, hheight]
    rfl
  · dsimp only [World.addLog]
    rw [hlog₇, World.begun, hlog₃, hlog₁, hhash]
    rfl

namespace Genesis

variable {env : Env} {sys : Sys} {index : CBlockIndex} {w : World}

theorem index?_eq (h : Genesis env sys index w) (p : Uint256) :
    w.node.index? p = if env.genesisHash = p then some index else none := by
  rw [h.node]
  show ((∅ : Map Uint256 CBlockIndex).insert env.genesisHash index)[p]? = _
  rw [Map.getElem?_insert]
  split
  · rfl
  · exact Std.ExtTreeMap.getElem?_empty

theorem root (h : Genesis env sys index w) : index.pprev = none ∧ index.nHeight = 0 ∧
    index.nChainTrust = index.getBlockTrust % 2 ^ 256 :=
  h.new.root Std.ExtTreeMap.getElem?_empty

theorem bestInv (h : Genesis env sys index w) : BestInv env [env.genesisHash] w := by
  obtain ⟨hobject, -, -, hpnext⟩ := h.new.objectOf
  obtain ⟨hprev, hheight, -⟩ := h.root
  have hfirst : w.node.index? env.genesisHash = some index := (h.index?_eq _).trans (if_pos rfl)
  refine ⟨⟨by rw [h.node], ⟨h.bounded, fun p index' hp => ?_⟩, .root ?_, ?_, ?_, ?_, ?_⟩, ?_, ?_,
    ⟨index, ?_, ?_⟩, env.genesisHash, index, rfl, hfirst⟩
  · rw [h.index?_eq] at hp
    split at hp
    · next heq =>
      obtain rfl := Option.some.inj hp
      exact ⟨_, h.holds, by rw [← heq, ← h.hash]; exact hobject, .inl ⟨hprev, rfl, hheight⟩⟩
    · exact absurd hp (by simp)
  · rw [Node.parent, hfirst]
    exact hprev
  · funext p
    rw [Node.pnextOf, h.index?_eq]
    split
    · exact hpnext
    · rfl
  · rw [Node.tip, h.node]
    dsimp only
    rw [Map.getElem?_insert, if_pos rfl]
    rfl
  · rw [h.log]
    rfl
  · rw [h.node]
    rfl
  · rw [h.node]
    rfl
  · rw [h.node]
    rfl
  · rw [show w.node.hashBestChain = env.genesisHash by rw [h.node]]
    exact hfirst
  · rw [h.node, hheight]
    exact ⟨rfl, rfl⟩

end Genesis

/-- A node that has been started has the first block and the checkpoints. -/
theorem Starts.genesis {env : Env} {w : World} (h : Starts env w) :
    ∃ sys index w₁, Genesis env sys index w₁ ∧ CheckpointOnly w₁ w ∧
      ∃ indexSync, w.node.index? w.node.hashSyncCheckpoint = some indexSync := by
  obtain ⟨sys, h⟩ := h
  unfold loadBlockIndex at h
  obtain ⟨_, w₀, hinit, h⟩ := bind_eq_ok.mp h
  obtain ⟨sys', index, w₁, hgenesis, honly, hsync⟩ := initGenesis_ok hinit
  suffices hrest : CheckpointOnly w₀ w ∧
      ∃ indexSync, w.node.index? w.node.hashSyncCheckpoint = some indexSync from
    ⟨sys', index, w₁, hgenesis, honly.trans hrest.1, hrest.2⟩
  obtain ⟨_, w₂, hbegin, h⟩ := bind_eq_ok.mp h
  obtain ⟨-, rfl⟩ := txnBegin_ok hbegin
  rw [bind_run, change_run w₀.open_begun] at h
  obtain ⟨-, h⟩ := require_bind_eq_ok.mp h
  obtain ⟨ok, w₃, hcommit, h⟩ := bind_eq_ok.mp h
  obtain ⟨rfl, h⟩ := require_bind_eq_ok.mp h
  obtain ⟨hnode, hlog⟩ := txnCommit_ok (w₀.open_begun.addOps _) hcommit
  rw [World.view_addOps w₀.open_begun] at hnode
  have hpubKey : CheckpointOnly w₀ w₃ := by
    refine ⟨by rw [hnode]; rfl, fun _ => by rw [hnode], fun key hkey => ?_, _, hlog,
      fun _ he => List.mem_singleton.mp he⟩
    rw [hnode]
    refine Map.getElem?_insert_of_ne _ _ ?_
    rintro rfl
    exact hkey
  have hindex : ∀ p, w₃.node.index? p = w₁.node.index? p := fun p => by
    rw [(honly.trans hpubKey).node]
    rfl
  cases htest : env.fTestNet with
  | true =>
    rw [if_pos htest] at h
    obtain ⟨-, rfl⟩ := pure_eq_ok.mp h
    refine ⟨hpubKey, index, ?_⟩
    rw [show w.node.hashSyncCheckpoint = env.genesisHash by rw [hnode]; exact hsync, hindex,
      hgenesis.index?_eq, if_pos rfl]
  | false =>
    rw [if_neg (by rw [htest]; simp)] at h
    have h := adaptExcept_eq_ok.mp h
    unfold resetSyncCheckpoint at h
    rw [getNode_bind] at h
    -- no checkpoint but that of the first block is known yet
    have hlast : w₃.node.index? ((env.mapCheckpoints.getLast?.map Prod.snd).getD 0) = none := by
      rw [hindex, hgenesis.index?_eq, if_neg]
      rw [Env.genesisHash, Env.mapCheckpoints, htest]
      decide +kernel
    rw [hlast] at h
    obtain ⟨_, w₄, hpending, h⟩ := bind_eq_ok.mp h
    obtain ⟨-, rfl⟩ := EStateM.Result.ok.inj hpending
    obtain ⟨hreset, hindexed⟩ := resetTo_ok h
    refine ⟨hpubKey.trans (CheckpointOnly.trans ?_ hreset), hindexed⟩
    exact ⟨rfl, id, fun _ _ => rfl, [], (List.append_nil _).symm,
      fun _ he => absurd he List.not_mem_nil⟩

/-! ## Runs -/

/-- The sequences of moves of a best chain from a start. -/
inductive ChainRun (env : Env) : List Uint256 → World → Prop where
  | start {sys : Sys} {index : CBlockIndex} {w₀ w : World} (hgenesis : Genesis env sys index w₀)
      (honly : CheckpointOnly w₀ w) : ChainRun env [env.genesisHash] w
  | move {chain chain' : List Uint256} {w w' : World} (hrun : ChainRun env chain w)
      (hmove : ChainMove env chain w chain' w') : ChainRun env chain' w'

theorem ChainRun.bestInv {env : Env} {chain : List Uint256} {w : World} (h : ChainRun env chain w) :
    BestInv env chain w := by
  induction h with
  | start hgenesis honly => exact honly.sameChain.bestInv hgenesis.bestInv
  | move _ hmove ih => exact hmove.bestInv ih

theorem Move.log_prefix {env : Env} {w w' : World} (h : Move env w w') : w.log <+: w'.log := by
  cases h with
  | aside h => exact h.logGrows.isPrefix
  | added haccept hwrite hinsert =>
    rw [(CBlock.insertIndex_ok hinsert).2.2.2, writeToDisk_log hwrite]
    exact List.prefix_append _ _
  | unrecorded haccept hwrite hinsert =>
    rw [← writeToDisk_log hwrite]
    rcases CBlock.insertIndex_reject hinsert with hsame | ⟨index, -, -, hlog⟩
    · rw [hsame.log]
    · rw [hlog]
      exact List.prefix_append _ _
  | setBest hstored hhash hguarded hrun =>
    obtain ⟨w₁, w₂, -, -, -, htree, rfl⟩ := setBestChain_ok hrun
    exact htree.log.isPrefix.trans (List.prefix_append _ _)
  | setBestFailed hstored hhash hrun => exact (reject_setBestChain hrun).1.logGrows.isPrefix
  | checkpoint hextends hmain hrun =>
    rw [(writeSyncCheckpoint_ok hrun).2.1]
    exact List.prefix_append _ _
  | checkpointFailed hrun => exact (reject_writeSyncCheckpoint hrun).1.logGrows.isPrefix

/-- As long as no postponed block fails, a node has a best chain that its moves lead along. -/
theorem Reaches.chainRun {env : Env} {w : World} (h : Reaches env w) (hok : LogOk env w.log) :
    ∃ chain, ChainRun env chain w := by
  obtain ⟨w₀, hstart, hmoves⟩ := h.moves
  clear h
  induction hmoves with
  | refl =>
    obtain ⟨sys, index, w₁, hgenesis, honly, -⟩ := hstart.genesis
    exact ⟨_, .start hgenesis honly⟩
  | tail _ hmove ih =>
    obtain ⟨chain, hrun⟩ := ih (hok.of_prefix hmove.log_prefix)
    obtain ⟨chain', hchainMove⟩ := hmove.chainMove hrun.bestInv hok
    exact ⟨chain', .move hrun hchainMove⟩

end NoLimitCoin
