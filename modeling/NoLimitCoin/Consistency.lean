import NoLimitCoin.BestChainRuns

/-!
# Best-chain consistency

What must hold whenever `SetBestChain` returns `true`: the database, the links in memory and the
globals describe one and the same chain of connected blocks.

Results:

1. `bestChain_consistent`: it does in every run in which no postponed block fails.
2. `bestChain_inconsistent`: a run in which one fails to connect, and it does not.
-/

namespace NoLimitCoin

open Prog NodeM

/-- The state `node`, before which `log` was logged, has `path` for its best chain, newest block
first. -/
structure ConsistentOn (node : Node) (log : List Event) (path : List Uint256) : Prop where
  /-- `path` is the way from `pindexBest` by `pprev` to the first block. -/
  lineage : Lineage node.parent path
  best : path.head? = node.pindexBest
  first : path.getLast? = node.pindexGenesisBlock
  /-- All its blocks but the first, whose transactions are never connected, are connected. -/
  connected : ∀ p ∈ path, node.pindexGenesisBlock ≠ some p →
    p ∈ (Connections.ofLog log).committed
  /-- The best block is the same in the database and in memory. -/
  tip : node.tip = some node.hashBestChain
  hash : node.pindexBest = some node.hashBestChain
  /-- `pnext` leads from the first block along `path`, and ends there. -/
  pnext : Lineage node.pnextOf path.reverse

/-- The state is consistent. -/
def Consistent (node : Node) (log : List Event) : Prop := ∃ path, ConsistentOn node log path

theorem BestInv.consistent {env : Env} {chain : List Uint256} {w : World}
    (hinv : BestInv env chain w) : Consistent w.node w.log := by
  refine ⟨chain, hinv.lineage, hinv.best.symm, hinv.genesis.symm, fun p hp hne => ?_, ?_, ?_, ?_⟩
  · obtain ⟨r, hr, -⟩ := hinv.lineage.getLast_root
    rw [hinv.genesis, hr] at hne
    rw [hinv.connections]
    rw [← List.dropLast_append_getLast? r hr] at hp
    rcases List.mem_append.mp hp with hp | hp
    · exact hp
    · exact absurd (congrArg some (List.mem_singleton.mp hp).symm) hne
  · exact hinv.tip.trans hinv.hashBest
  · exact hinv.best.trans hinv.hashBest
  · rw [hinv.pnext]
    exact lineage_nextIn_reverse hinv.lineage.ne_nil hinv.lineage.nodup_self

/-- Whatever the log tells of a state that `SetBestChain` has left is consistent. -/
def History (w : World) : Prop :=
  ∀ pre node post, w.log = pre ++ .bestChainSet node :: post → Consistent node pre

theorem LogGrows.bestChainSet {log log' pre post : List Event} {node : Node}
    (h : LogGrows log log') (hlog : log' = pre ++ .bestChainSet node :: post) :
    ∃ post', log = pre ++ .bestChainSet node :: post' := by
  obtain ⟨evs, rfl, hevs⟩ := h
  rcases List.append_eq_append_iff.mp hlog with ⟨as, rfl, hrest⟩ | ⟨as, rfl, hrest⟩
  · exact absurd (hevs (.bestChainSet node) (hrest ▸ List.mem_append_right _ (List.mem_cons_self)))
      id
  · cases as with
    | nil =>
      refine absurd (hevs (.bestChainSet node) ?_) id
      rw [show evs = .bestChainSet node :: post from hrest.symm]
      exact List.mem_cons_self
    | cons e as =>
      obtain ⟨rfl, -⟩ := List.cons.inj hrest
      exact ⟨as, rfl⟩

theorem History.of_grows {w w' : World} (h : History w) (hgrows : LogGrows w.log w'.log) :
    History w' := fun pre node post hlog => by
  obtain ⟨post', hlog'⟩ := hgrows.bestChainSet hlog
  exact h pre node post' hlog'

theorem History.set {w : World} (h : History w) (hconsistent : Consistent w.node w.log) :
    History (w.addLog [.bestChainSet w.node]) := by
  intro pre node post hlog
  rcases List.append_eq_append_iff.mp hlog with ⟨as, rfl, hrest⟩ | ⟨as, hlog', hrest⟩
  · cases as with
    | nil =>
      obtain ⟨heq, -⟩ := List.cons.inj hrest
      obtain rfl := Event.bestChainSet.inj heq
      rw [List.append_nil]
      exact hconsistent
    | cons e as => exact absurd (congrArg List.length hrest) (by simp)
  · cases as with
    | nil =>
      obtain ⟨heq, -⟩ := List.cons.inj hrest
      obtain rfl := Event.bestChainSet.inj heq
      rw [List.append_nil] at hlog'
      exact hlog' ▸ hconsistent
    | cons e as =>
      obtain ⟨rfl, -⟩ := List.cons.inj hrest
      exact h pre node as hlog'

theorem Consistent.congr {node : Node} {log log' : List Event} (h : Consistent node log)
    (hlog : Connections.ofLog log' = Connections.ofLog log) : Consistent node log' := by
  obtain ⟨path, hpath⟩ := h
  exact ⟨path, hpath.lineage, hpath.best, hpath.first,
    fun p hp hne => hlog ▸ hpath.connected p hp hne, hpath.tip, hpath.hash, hpath.pnext⟩

theorem Genesis.history {env : Env} {sys : Sys} {index : CBlockIndex} {w : World}
    (h : Genesis env sys index w) : History w := by
  have hbefore : History { w with log := [.indexed sys env.genesisHash, .committed, .committed] } := by
    intro pre node post hlog
    have hmem : Event.bestChainSet node ∈ pre ++ .bestChainSet node :: post :=
      List.mem_append_right _ List.mem_cons_self
    rw [← hlog] at hmem
    exact absurd hmem (by simp)
  have hset := hbefore.set (h.bestInv.consistent.congr (by rw [h.log]; rfl))
  intro pre node post hlog
  exact hset pre node post (h.log.symm.trans hlog)

/-- Every move keeps the history: only a switch adds to it, and it does so in a state that the
invariant describes. -/
theorem ChainRun.history {env : Env} {chain : List Uint256} {w : World} (h : ChainRun env chain w) :
    History w := by
  induction h with
  | start hgenesis honly =>
    obtain ⟨evs, hlog, hevs⟩ := honly.log
    exact hgenesis.history.of_grows ⟨evs, hlog, fun e he => by rw [hevs e he]; trivial⟩
  | move hrun hmove ih =>
    have hinv := hrun.bestInv
    cases hmove with
    | keep _ _ hlog => exact ih.of_grows hlog
    | store hwrite hsame =>
      refine ih.of_grows ?_
      rw [hsame.log, writeToDisk_log hwrite]
      exact LogGrows.refl _
    | @insert block _ _ _ _ _ r _ w₁ _ _ hwrite _ _ hlog =>
      refine ih.of_grows ⟨_, by rw [hlog, writeToDisk_log hwrite], ?_⟩
      cases r <;> simp [Event.quiet]
    | switch hswitches hset hlog =>
      exact (ih.of_grows hlog).set (setBest_bestInv hinv hswitches hset).consistent

/-! ## Two chains -/

/-- The first block of the chain that is left. -/
def leftBlock : CBlock := coinBaseBlock hashGenesisBlock
  0x7b062b7a4527caffda330d33d11f49783ff116bb65cc96b0a3c93ed826f995a4 1464466700 16436915 1 [.empty]

/-- The chain beside it. -/
def sideBlock₁ : CBlock := coinBaseBlock hashGenesisBlock
  0x453527041a87d69df54428eb0f7dd68d8a822b2472945dbfdcc31bc37ea6ef2b 1464466710 14803530 1 [.empty]

def sideBlock₂ : CBlock :=
  coinBaseBlock 0x99212903982edc5b9b5cb9aef17c97a9cae510e452b7b16d0e09a8edc3
    0xb3f58959538daf622f92ad0218dfb8404b49359157c24794714f72998b5b7171 1464466900 15393683 2 [.empty]

/-- Its third block pays its miner what no third block may. -/
def sideBlock₃ : CBlock :=
  coinBaseBlock 0x4eb6d53c47268c503d8d3b6ab707750ea03c3e16d97acb0cca2913043e
    0xd2279c723c7fff96e7b87561b52e04e52ae0c0b77ccf06be6fb24a7478db5414 1464467100 12950690 3
    [⟨100000000, [0x51]⟩]

/-- The outside while a block is processed; the disk operations of `failing` do not work. -/
def sysAt (failing : List Nat) : Sys := ⟨1464467200, fun n => !failing.contains n, true, false, false⟩

/-- In every run in which no postponed block of `SetBestChain` fails to be read, to connect or to
commit, every state in which `SetBestChain` has returned `true` is consistent. -/
theorem bestChain_consistent (env : Env) (w : World) (h : Reaches env w) (hok : LogOk env w.log)
    (pre post : List Event) (node : Node) (hlog : w.log = pre ++ .bestChainSet node :: post) :
    Consistent node pre := by
  obtain ⟨chain, hrun⟩ := h.chainRun hok
  exact hrun.history pre node post hlog

def Event.isPostponed : Event → Bool
  | .postponed .. => true
  | _ => false

theorem LogOk.of_none {env : Env} {log : List Event}
    (h : (log.all fun e => !e.isPostponed) = true) : LogOk env log := by
  intro node sys pindex hmem
  exact absurd (List.all_eq_true.mp h _ hmem) Bool.false_ne_true

/-- The event is the return of `SetBestChain` with this best block. -/
def Event.setsBest (hash : Uint256) : Event → Bool
  | .bestChainSet node => node.hashBestChain == hash
  | _ => false

/-- The second block of the side chain makes the node switch to it. -/
theorem bestChain_consistent_side : ∃ w pre node post, Reaches mainNet w ∧
    w.log = pre ++ .bestChainSet node :: post ∧
      node.hashBestChain = 0x4eb6d53c47268c503d8d3b6ab707750ea03c3e16d97acb0cca2913043e ∧
      Consistent node pre := by
  have hrun : runsTo mainNet (sysAt [])
      [(sysAt [], .processBlock true leftBlock), (sysAt [], .processBlock true sideBlock₁),
        (sysAt [], .processBlock true sideBlock₂)]
      (fun w => (w.log.all fun e => !e.isPostponed) && w.log.any (Event.setsBest
        0x4eb6d53c47268c503d8d3b6ab707750ea03c3e16d97acb0cca2913043e)) = true := by
    rw [mainNet_eq]
    decide +kernel
  obtain ⟨w, hreaches, htest⟩ := runsTo_reaches hrun
  obtain ⟨hnone, hany⟩ := Bool.and_eq_true_iff.mp htest
  obtain ⟨e, hmem, he⟩ := List.any_eq_true.mp hany
  obtain ⟨pre, post, hlog⟩ := List.append_of_mem hmem
  cases e with
  | bestChainSet node =>
    exact ⟨w, pre, node, post, hreaches, hlog, beq_iff_eq.mp he,
      bestChain_consistent mainNet w hreaches (.of_none hnone) pre post node hlog⟩
  | _ => exact absurd he Bool.false_ne_true

/-! ## A postponed block that fails -/

/-- The disk fails in the reorganisation to the second side block, so that it is still to be made
when the third one comes, which is postponed and does not connect. -/
def failedForkCalls : List (Sys × Call) :=
  [(sysAt [], .processBlock true leftBlock), (sysAt [], .processBlock true sideBlock₁),
    (sysAt [2], .processBlock true sideBlock₂), (sysAt [], .processBlock true sideBlock₃)]

/-- The event is the return of `SetBestChain` with another best block in memory than in the
database. -/
def Event.tipDiffers : Event → Bool
  | .bestChainSet node => node.tip != some node.hashBestChain
  | _ => false

/-- `SetBestChain` has returned `true` with the third side block as best block, which was never
connected. -/
theorem bestChain_inconsistent : ∃ w, Reaches mainNet w ∧
    ∃ pre node post, w.log = pre ++ .bestChainSet node :: post ∧ ¬ Consistent node pre := by
  have hrun : runsTo mainNet (sysAt []) failedForkCalls (fun w => w.log.any Event.tipDiffers) =
      true := by
    rw [mainNet_eq]
    decide +kernel
  obtain ⟨w, hreaches, hany⟩ := runsTo_reaches hrun
  obtain ⟨e, hmem, he⟩ := List.any_eq_true.mp hany
  obtain ⟨pre, post, hlog⟩ := List.append_of_mem hmem
  cases e with
  | bestChainSet node =>
    refine ⟨w, hreaches, pre, node, post, hlog, ?_⟩
    rintro ⟨path, hpath⟩
    exact absurd hpath.tip (bne_iff_ne.mp he)
  | _ => exact absurd he Bool.false_ne_true

end NoLimitCoin
