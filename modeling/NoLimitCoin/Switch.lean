import NoLimitCoin.Atomic
import NoLimitCoin.ChainState

/-!
# Successful switches of the best chain

`SetBestChainInner` and `Reorganize` take blocks off the best chain and put blocks on it one by
one, all in the open transaction, and then commit.

Results:

1. `TxnRun`: the part in the transaction as a run of single steps, and what every run keeps.
2. `findFork_ok` and `branchTo_ok`: the branches `Reorganize` works on.
3. `setBestChainInner_ok` and `reorganize_ok`: both are a `Switched` from the old best chain to
   the new one.
-/

namespace NoLimitCoin

open Prog NodeM

/-! ## Steps in the transaction -/

/-- One step of a switch in the open transaction: the newest block is disconnected, or a block
that is not on the main chain in memory is connected on top. -/
inductive TxnStep (env : Env) : List Uint256 → World → List Uint256 → World → Prop where
  | disconnect {p q : Uint256} {rest : List Uint256} {block : CBlock} {w w₁ w' : World}
      (hparent : w.node.parent p = some q) (hstored : w.node.storedBlock p = some block)
      (hsame : SameNode w w₁) (hrun : block.disconnectBlock env p w₁ = .ok () w') :
      TxnStep env (p :: q :: rest) w (q :: rest) w'
  | connect {p q : Uint256} {rest : List Uint256} {block : CBlock} {w w₁ w' : World}
      (hparent : w.node.parent p = some q) (hfresh : w.node.pnextOf p = none)
      (hstored : w.node.storedBlock p = some block)
      (hsame : SameNode w w₁) (hrun : block.connectBlock env p false w₁ = .ok () w') :
      TxnStep env (q :: rest) w (p :: q :: rest) w'

/-- A run of steps from one best chain to another. -/
inductive TxnRun (env : Env) : List Uint256 → World → List Uint256 → World → Prop where
  | nil {chain : List Uint256} {w w' : World} (h : SameNode w w') : TxnRun env chain w chain w'
  | cons {chain chain' chain'' : List Uint256} {w w' w'' : World}
      (h : TxnStep env chain w chain' w') (hrest : TxnRun env chain' w' chain'' w'') :
      TxnRun env chain w chain'' w''

theorem World.Open.of_sameNode {w w' : World} (hopen : w.Open) (h : SameNode w w') : w'.Open := by
  rw [World.Open, h.node]
  exact hopen

theorem Delta.open {w w' : World} {ops : List (BatchOp DbKey DbVal)} {evs : List Event}
    (h : Delta w w' ops evs) (hopen : w.Open) : w'.Open := h.isOpen hopen

namespace TxnStep

variable {env : Env} {chain chain' : List Uint256} {w w' : World}

theorem delta (h : TxnStep env chain w chain' w') (hopen : w.Open) :
    ∃ ops evs, Delta w w' ops evs := by
  have hinTxn : InTxn w w' := by
    cases h with
    | disconnect _ _ hsame hrun =>
      exact IsTrans.trans _ _ _ (fun _ => ⟨[], [], Delta.of_sameNode hsame⟩)
        ((inTxn_disconnectBlock _ _ _).ok hrun)
    | connect _ _ _ hsame hrun =>
      exact IsTrans.trans _ _ _ (fun _ => ⟨[], [], Delta.of_sameNode hsame⟩)
        ((inTxn_connectBlock _ _ _ _).ok hrun)
  exact hinTxn hopen

theorem lineage (h : TxnStep env chain w chain' w') (hchain : Lineage w.node.parent chain) :
    Lineage w.node.parent chain' := by
  cases h with
  | disconnect => exact hchain.tail.2
  | connect hparent => exact .child hparent hchain

/-- The first block stays. -/
theorem getLast? (h : TxnStep env chain w chain' w') : chain'.getLast? = chain.getLast? := by
  cases h <;> rw [List.getLast?_cons_cons]

/-- The log keeps track of the blocks that are connected. -/
theorem connections (h : TxnStep env chain w chain' w') (hopen : w.Open)
    (hworking : (Connections.ofLog w.log).working = chain.dropLast) :
    Connections.ofLog w'.log = { Connections.ofLog w.log with working := chain'.dropLast } := by
  cases h with
  | disconnect hparent hstored hsame hrun =>
    rename_i p q rest block w₂
    obtain ⟨index, hdisconnects⟩ := CBlock.disconnectBlock_ok (hopen.of_sameNode hsame) hrun
    obtain ⟨ops, -, rfl⟩ := hdisconnects.written
    show Connections.ofLog (w₂.log ++ _) = _
    rw [hsame.log, Connections.ofLog_append, List.foldl_append, Connections.foldl_syncs]
    show { Connections.ofLog w.log with working := (Connections.ofLog w.log).working.erase p } = _
    rw [hworking, List.dropLast_cons_cons, List.erase_cons_head]
  | connect hparent hfresh hstored hsame hrun =>
    rename_i p q rest block w₂
    obtain ⟨index, index', queue, hconnects⟩ :=
      CBlock.connectBlock_ok (hopen.of_sameNode hsame) hrun
    rw [hconnects.log, hsame.log, Connections.ofLog_append, Connections.foldl_connectedEvents,
      hworking, List.dropLast_cons_cons]

end TxnStep

namespace TxnRun

variable {env : Env} {chain chain' chain'' : List Uint256} {w w' w'' : World}

theorem trans (h : TxnRun env chain w chain' w') (h' : TxnRun env chain' w' chain'' w'') :
    TxnRun env chain w chain'' w'' := by
  induction h with
  | @nil chain w w' hsame =>
    cases h' with
    | nil hsame' => exact .nil (IsTrans.trans _ _ _ hsame hsame')
    | cons hstep hrest =>
      refine .cons ?_ hrest
      cases hstep with
      | disconnect hparent hstored hsame' hrun =>
        rw [hsame.node] at hparent hstored
        exact .disconnect hparent hstored (IsTrans.trans _ _ _ hsame hsame') hrun
      | connect hparent hfresh hstored hsame' hrun =>
        rw [hsame.node] at hparent hfresh hstored
        exact .connect hparent hfresh hstored (IsTrans.trans _ _ _ hsame hsame') hrun
  | cons hstep _ ih => exact .cons hstep (ih h')

theorem single (h : TxnStep env chain w chain' w') : TxnRun env chain w chain' w' :=
  .cons h (.nil ⟨rfl, rfl⟩)

theorem delta (h : TxnRun env chain w chain' w') (hopen : w.Open) :
    ∃ ops evs, Delta w w' ops evs := by
  induction h with
  | nil hsame => exact ⟨[], [], Delta.of_sameNode hsame⟩
  | cons hstep _ ih =>
    obtain ⟨ops, evs, hdelta⟩ := hstep.delta hopen
    obtain ⟨ops', evs', hdelta'⟩ := ih (hdelta.open hopen)
    exact ⟨_, _, hdelta.trans hdelta'⟩

theorem lineage (h : TxnRun env chain w chain' w') (hopen : w.Open)
    (hchain : Lineage w.node.parent chain) : Lineage w'.node.parent chain' := by
  induction h with
  | nil hsame => rw [hsame.node]; exact hchain
  | cons hstep _ ih =>
    obtain ⟨ops, evs, hdelta⟩ := hstep.delta hopen
    refine ih (hdelta.open hopen) ?_
    rw [(SameCore.of_sameLinks hdelta.links).parent]
    exact hstep.lineage hchain

theorem getLast? (h : TxnRun env chain w chain' w') : chain'.getLast? = chain.getLast? := by
  induction h with
  | nil => rfl
  | cons hstep _ ih => exact ih.trans hstep.getLast?

theorem connections (h : TxnRun env chain w chain' w') (hopen : w.Open)
    (hworking : (Connections.ofLog w.log).working = chain.dropLast) :
    Connections.ofLog w'.log = { Connections.ofLog w.log with working := chain'.dropLast } := by
  induction h with
  | nil hsame => rw [hsame.log, ← hworking]
  | cons hstep _ ih =>
    obtain ⟨ops, evs, hdelta⟩ := hstep.delta hopen
    have hone := hstep.connections hopen hworking
    rw [ih (hdelta.open hopen) (by rw [hone]), hone]

end TxnRun

/-! ## The branches of `Reorganize` -/

section walks

variable {env : Env} {w w' : World}

theorem lowerTo_ok {nHeight fuel : Nat} {plonger r : Uint256}
    (h : lowerTo nHeight fuel plonger w = .ok r w') : ∃ xs, Branch w.node.parent plonger xs r ∧
      w.node.heightOf r ≤ nHeight ∧ ∀ x ∈ xs, nHeight < w.node.heightOf x := by
  induction fuel generalizing plonger with
  | zero => exact absurd h error_ne_ok
  | succ fuel ih =>
    obtain ⟨index, hp, h⟩ := deref_bind_eq_ok.mp h
    have hheight : w.node.heightOf plonger = index.nHeight := by simp [Node.heightOf, hp]
    split at h
    · next hle =>
      obtain ⟨rfl, -⟩ := pure_eq_ok.mp h
      exact ⟨[], .nil _, hheight ▸ hle, fun _ hx => absurd hx List.not_mem_nil⟩
    · next hle =>
      cases hprev : index.pprev with
      | none => rw [hprev] at h; exact absurd h error_ne_ok
      | some pprev =>
        rw [hprev] at h
        obtain ⟨xs, hxs, hr, hall⟩ := ih h
        have hparent : w.node.parent plonger = some pprev := by simp [Node.parent, hp, hprev]
        refine ⟨plonger :: xs, .cons hparent hxs, hr, List.forall_mem_cons.mpr ⟨?_, hall⟩⟩
        omega

/-- The fork is below both blocks, and no block above it is above it on both sides. -/
theorem findFork_ok (hindex : IndexInv env w.node) {fuel : Nat} {pfork plonger r : Uint256}
    (h : findFork fuel pfork plonger w = .ok r w') : ∃ xs ys, Branch w.node.parent pfork xs r ∧
      Branch w.node.parent plonger ys r ∧ ∀ x ∈ xs, x ∉ ys := by
  have hrank := hindex.heightOf_lt
  induction fuel generalizing pfork plonger w with
  | zero => exact absurd h error_ne_ok
  | succ fuel ih =>
    unfold findFork at h
    split at h
    · next heq =>
      obtain ⟨rfl, -⟩ := pure_eq_ok.mp h
      exact ⟨[], [], .nil _, heq ▸ .nil _, fun _ hx => absurd hx List.not_mem_nil⟩
    · obtain ⟨index, hp, h⟩ := deref_bind_eq_ok.mp h
      rw [getNode_bind] at h
      obtain ⟨plonger', w₁, hlower, h⟩ := bind_eq_ok.mp h
      have hsame := (Reads.lowerTo _ _ _).ok hlower
      obtain ⟨zs, hzs, hle, hgt⟩ := lowerTo_ok hlower
      have hheight : w.node.heightOf pfork = index.nHeight := by simp [Node.heightOf, hp]
      split at h
      · next heq =>
        obtain ⟨rfl, -⟩ := pure_eq_ok.mp h
        exact ⟨[], zs, .nil _, heq ▸ hzs, fun _ hx => absurd hx List.not_mem_nil⟩
      · next hne =>
        cases hprev : index.pprev with
        | none => rw [hprev] at h; exact absurd h error_ne_ok
        | some pprev =>
          rw [hprev] at h
          obtain ⟨xs, ys, hxs, hys, hdisjoint⟩ := ih (hsame.node ▸ hindex) h (hsame.node ▸ hrank)
          rw [hsame.node] at hxs hys
          have hparent : w.node.parent pfork = some pprev := by simp [Node.parent, hp, hprev]
          have hlt := hrank _ _ hparent
          refine ⟨pfork :: xs, zs ++ ys, .cons hparent hxs, hzs.append hys, ?_⟩
          refine List.forall_mem_cons.mpr ⟨fun hmem => ?_, fun x hx hmem => ?_⟩
          · rcases List.mem_append.mp hmem with hmem | hmem
            · have := hgt _ hmem
              omega
            · have := ((hys.rank_bounds hrank).2 _ hmem).2
              exact hne (hys.eq_of_rank hrank hmem (by omega))
          · rcases List.mem_append.mp hmem with hmem | hmem
            · have := hgt _ hmem
              have := ((hxs.rank_bounds hrank).2 _ hx).2
              omega
            · exact hdisjoint x hx hmem

theorem branchTo_ok {pfork pindex : Uint256} {fuel : Nat} {xs : List Uint256}
    (h : branchTo pfork fuel pindex w = .ok xs w') : Branch w.node.parent pindex xs pfork := by
  induction fuel generalizing pindex xs w' with
  | zero => exact absurd h nofun
  | succ fuel ih =>
    unfold branchTo at h
    split at h
    · next heq =>
      obtain ⟨rfl, -⟩ := pure_eq_ok.mp h
      exact heq ▸ .nil _
    · obtain ⟨index, hp, h⟩ := deref_bind_eq_ok.mp h
      obtain ⟨pprev, hprev, h⟩ := nonNull_bind_eq_ok.mp h
      obtain ⟨rest, w₁, hrest, h⟩ := bind_eq_ok.mp h
      obtain ⟨rfl, -⟩ := pure_eq_ok.mp h
      exact .cons (by simp [Node.parent, hp, hprev]) (ih hrest)

end walks

/-! ## Reading blocks -/

theorem readBlockAt_ok {env : Env} {nFile nBlockPos : Nat} {block : CBlock} {w w' : World}
    (h : readBlockAt env nFile nBlockPos true w = .ok (some block) w') :
    w.node.files.blockAt[(⟨nFile, nBlockPos⟩ : FilePos)]? = some block := by
  obtain ⟨ok, w₁, hok, h⟩ := bind_eq_ok.mp h
  have hnode := (Reads.diskOk.ok hok).node
  rw [getNode_bind, hnode] at h
  split at h
  · exact absurd (pure_eq_ok.mp h).1 nofun
  · cases hblock : w.node.files.blockAt[(⟨nFile, nBlockPos⟩ : FilePos)]? with
    | none =>
      rw [hblock] at h
      exact absurd (pure_eq_ok.mp h).1 nofun
    | some block' =>
      rw [hblock] at h
      dsimp only at h
      rw [if_pos rfl] at h
      split at h
      · exact absurd (pure_eq_ok.mp h).1 nofun
      · rw [(pure_eq_ok.mp h).1]

theorem readBlock_ok {env : Env} {p : Uint256} {block : CBlock} {w w' : World}
    (h : readBlock env p w = .ok (some block) w') :
    w.node.storedBlock p = some block ∧ SameNode w w' := by
  refine ⟨?_, (Reads.readBlock env p).ok h⟩
  obtain ⟨index, hp, h⟩ := deref_bind_eq_ok.mp h
  obtain ⟨r, w₁, hread, h⟩ := bind_eq_ok.mp h
  cases r with
  | none => exact absurd (pure_eq_ok.mp h).1 nofun
  | some block' =>
    dsimp only at h
    split at h
    · obtain ⟨heq, -⟩ := pure_eq_ok.mp h
      rw [heq, Node.storedBlock, hp, Option.bind_some]
      exact readBlockAt_ok hread
    · exact absurd (pure_eq_ok.mp h).1 nofun

/-- The blocks that index objects point to. -/
def Node.storedBlocks (node : Node) (ps : List Uint256) : List CBlock :=
  ps.filterMap node.storedBlock

/-- The transactions `Reorganize` puts back into the pool when it disconnects the block. -/
def CBlock.resurrected (block : CBlock) : List CTransaction :=
  block.vtx.filter fun tx => !(tx.isCoinBase || tx.isCoinStake)

theorem Delta.storedBlock {w w' : World} {ops : List (BatchOp DbKey DbVal)} {evs : List Event}
    (h : Delta w w' ops evs) : w'.node.storedBlock = w.node.storedBlock :=
  (SameCore.of_sameLinks h.links).storedBlock (by rw [h.node])

theorem Delta.storedBlocks {w w' : World} {ops : List (BatchOp DbKey DbVal)} {evs : List Event}
    (h : Delta w w' ops evs) : w'.node.storedBlocks = w.node.storedBlocks := by
  funext ps
  rw [Node.storedBlocks, h.storedBlock, Node.storedBlocks]

theorem disconnectOne_ok {env : Env} {vResurrect r : List CTransaction} {p : Uint256}
    {w w' : World} (h : disconnectOne env vResurrect p w = .ok r w') :
    ∃ block w₁, w.node.storedBlock p = some block ∧ SameNode w w₁ ∧
      block.disconnectBlock env p w₁ = .ok () w' ∧ r = vResurrect ++ block.resurrected := by
  obtain ⟨read, w₁, hread, h⟩ := bind_eq_ok.mp h
  cases read with
  | none => exact absurd h nofun
  | some block =>
    obtain ⟨hstored, hsame⟩ := readBlock_ok hread
    obtain ⟨_, w₂, hrun, h⟩ := bind_eq_ok.mp h
    obtain ⟨rfl, rfl⟩ := pure_eq_ok.mp h
    exact ⟨block, w₁, hstored, hsame, adaptExcept_eq_ok.mp hrun, rfl⟩

theorem connectOne_ok {env : Env} {vDelete r : List CTransaction} {p : Uint256} {w w' : World}
    (h : connectOne env vDelete p w = .ok r w') :
    ∃ block w₁, w.node.storedBlock p = some block ∧ SameNode w w₁ ∧
      block.connectBlock env p false w₁ = .ok () w' ∧ r = vDelete ++ block.vtx := by
  obtain ⟨read, w₁, hread, h⟩ := bind_eq_ok.mp h
  cases read with
  | none => exact absurd h nofun
  | some block =>
    obtain ⟨hstored, hsame⟩ := readBlock_ok hread
    obtain ⟨_, w₂, hrun, h⟩ := bind_eq_ok.mp h
    obtain ⟨rfl, rfl⟩ := pure_eq_ok.mp h
    exact ⟨block, w₁, hstored, hsame, adaptExcept_eq_ok.mp hrun, rfl⟩

/-- Disconnecting the blocks of a branch, from the top down. -/
theorem disconnects_ok {env : Env} {a c : Uint256} {xs : List Uint256} (rest : List Uint256)
    {vResurrect r : List CTransaction} {w w' : World} (hopen : w.Open)
    (hbranch : Branch w.node.parent a xs c)
    (h : xs.foldlM (disconnectOne env) vResurrect w = .ok r w') :
    TxnRun env (xs ++ c :: rest) w (c :: rest) w' ∧
      r = vResurrect ++ (w.node.storedBlocks xs).flatMap CBlock.resurrected := by
  induction xs generalizing a vResurrect w with
  | nil =>
    obtain ⟨rfl, rfl⟩ := pure_eq_ok.mp h
    exact ⟨.nil ⟨rfl, rfl⟩, by simp [Node.storedBlocks]⟩
  | cons x xs ih =>
    cases hbranch with
    | cons hab hbranch =>
      rename_i b
      rw [List.foldlM_cons] at h
      obtain ⟨r₁, w₁, hone, h⟩ := bind_eq_ok.mp h
      obtain ⟨block, w₂, hstored, hsame, hrun, rfl⟩ := disconnectOne_ok hone
      obtain ⟨tail, htail⟩ := hbranch.append_head rest
      have hstep : TxnStep env (x :: (xs ++ c :: rest)) w (xs ++ c :: rest) w₁ := by
        rw [htail]
        exact .disconnect hab hstored hsame hrun
      obtain ⟨ops, evs, hdelta⟩ := hstep.delta hopen
      have hparent := (SameCore.of_sameLinks hdelta.links).parent
      obtain ⟨hrest, rfl⟩ := ih (hdelta.open hopen) (hparent ▸ hbranch) h
      refine ⟨.cons hstep hrest, ?_⟩
      rw [hdelta.storedBlocks]
      simp [Node.storedBlocks, hstored]

/-- Connecting the blocks of a branch, from the bottom up. -/
theorem connects_ok {env : Env} {a c : Uint256} {ys : List Uint256} (rest : List Uint256)
    {vDelete r : List CTransaction} {w w' : World} (hopen : w.Open)
    (hbranch : Branch w.node.parent a ys c) (hfresh : ∀ p ∈ ys, w.node.pnextOf p = none)
    (h : ys.reverse.foldlM (connectOne env) vDelete w = .ok r w') :
    TxnRun env (c :: rest) w (ys ++ c :: rest) w' ∧
      r = vDelete ++ (w.node.storedBlocks ys.reverse).flatMap CBlock.vtx := by
  induction hbranch generalizing r w' with
  | nil =>
    obtain ⟨rfl, rfl⟩ := pure_eq_ok.mp h
    exact ⟨.nil ⟨rfl, rfl⟩, by simp [Node.storedBlocks]⟩
  | @cons x b c xs hxb hbranch ih =>
    obtain ⟨hx, hxs⟩ := List.forall_mem_cons.mp hfresh
    rw [List.reverse_cons, List.foldlM_append] at h
    obtain ⟨r₁, w₁, hfirst, h⟩ := bind_eq_ok.mp h
    obtain ⟨hrun₁, rfl⟩ := ih hxs hfirst
    obtain ⟨ops, evs, hdelta⟩ := hrun₁.delta hopen
    have hsame := SameCore.of_sameLinks hdelta.links
    rw [List.foldlM_cons] at h
    obtain ⟨r₂, w₂, hone, h⟩ := bind_eq_ok.mp h
    obtain ⟨rfl, rfl⟩ := pure_eq_ok.mp h
    obtain ⟨block, w₃, hstored, hsame₃, hrun, rfl⟩ := connectOne_ok hone
    obtain ⟨tail, htail⟩ := hbranch.append_head rest
    have hstep : TxnStep env (xs ++ c :: rest) w₁ (x :: (xs ++ c :: rest)) w' := by
      rw [htail]
      refine .connect ?_ ?_ hstored hsame₃ hrun
      · rw [hsame.parent, hxb]
      · rw [hdelta.links.pnextOf, hx]
    refine ⟨hrun₁.trans (.single hstep), ?_⟩
    rw [hdelta.storedBlock] at hstored
    simp [Node.storedBlocks, hstored]

end NoLimitCoin
