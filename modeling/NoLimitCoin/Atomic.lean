import NoLimitCoin.Frames

/-!
# A failed switch is atomic

Every way out of `SetBestChain` with `false` comes before the first effect that is not part of
the database transaction.

Results:

1. `reject_setBestChainInner` and `reject_reorganize`: what the two functions leave behind.
2. `setBestChain_atomic`: what a failed `SetBestChain` leaves behind.
-/

namespace NoLimitCoin

open Prog NodeM

/-- The state a failed switch of the best chain must restore: the committed database but for
`bnBestInvalidTrust`, the links of the index, the best-chain globals and the memory pool. -/
structure SwitchUnchanged (node node' : Node) : Prop where
  committed : ∀ key : DbKey, key ≠ .bnBestInvalidTrust → node'.txdb.pdb[key]? = node.txdb.pdb[key]?
  pnext : ∀ p, (node'.index? p).map CBlockIndex.pnext = (node.index? p).map CBlockIndex.pnext
  pindexBest : node'.pindexBest = node.pindexBest
  hashBestChain : node'.hashBestChain = node.hashBestChain
  nBestHeight : node'.nBestHeight = node.nBestHeight
  nBestChainTrust : node'.nBestChainTrust = node.nBestChainTrust
  mempool : node'.mempool = node.mempool

/-- All that has changed are the open transaction, the sums of index objects and the trust of
the best invalid chain, and nothing has been committed. -/
structure Kept (w w' : World) : Prop where
  node : w'.node = { w.node with
    txdb := w'.node.txdb
    mapBlockIndex := w'.node.mapBlockIndex
    nBestInvalidTrust := w'.node.nBestInvalidTrust }
  links : SameLinks w.node w'.node
  committed : ∀ key : DbKey, key ≠ .bnBestInvalidTrust →
    w'.node.txdb.pdb[key]? = w.node.txdb.pdb[key]?
  log : ∃ evs, w'.log = w.log ++ evs ∧ ∀ e ∈ evs, e.inTxn ∨ e = .dropped

/-- The open transaction has just been dropped. -/
def Dropped (w : World) : Prop :=
  w.node.txdb.activeBatch = none ∧ ∃ log, w.log = log ++ [.dropped]

namespace Kept

theorem trans {w w' w'' : World} (h : Kept w w') (h' : Kept w' w'') : Kept w w'' where
  node := by rw [h'.node, h.node]
  links := h.links.trans h'.links
  committed key hkey := (h'.committed key hkey).trans (h.committed key hkey)
  log := by
    obtain ⟨evs, hlog, hevs⟩ := h.log
    obtain ⟨evs', hlog', hevs'⟩ := h'.log
    refine ⟨evs ++ evs', by rw [hlog', hlog, List.append_assoc], fun e he => ?_⟩
    rcases List.mem_append.mp he with he | he
    · exact hevs e he
    · exact hevs' e he

theorem of_sameNode {w w' : World} (h : SameNode w w') : Kept w w' where
  node := by rw [h.node]
  links := by rw [h.node]; exact SameLinks.refl _
  committed key _ := by rw [h.node]
  log := ⟨[], by rw [h.log, List.append_nil], fun _ he => absurd he nofun⟩

theorem of_inTxn {w w' : World} (h : InTxn w w')
    (hopen : w.node.txdb.activeBatch.isSome = true) : Kept w w' := by
  obtain ⟨ops, evs, hdelta⟩ := h hopen
  refine ⟨?_, hdelta.links, fun key _ => ?_, evs, hdelta.log, fun e he => .inl (hdelta.inTxn e he)⟩
  · rw [hdelta.node]
  · rw [hdelta.txdb]

theorem switchUnchanged {w w' : World} (h : Kept w w') : SwitchUnchanged w.node w'.node where
  committed := h.committed
  pnext p := by
    have hlinks := congrArg (Option.map CBlockIndex.pnext) (h.links p)
    rw [Option.map_map, Option.map_map] at hlinks
    exact hlinks
  pindexBest := by rw [h.node]
  hashBestChain := by rw [h.node]
  nBestHeight := by rw [h.node]
  nBestChainTrust := by rw [h.node]
  mempool := by rw [h.node]

end Kept

/-! ## The ways out -/

theorem kept_txnBegin {w w' : World} {u : Unit} (h : txnBegin w = .ok u w') :
    Kept w w' ∧ w'.node.txdb.activeBatch = some [] ∧ w'.log = w.log := by
  unfold txnBegin CTxDB.txnBegin at h
  split at h
  · next txdb htxdb =>
    split at htxdb
    · exact absurd htxdb (by simp)
    · obtain rfl := Option.some.inj htxdb
      obtain ⟨-, rfl⟩ := EStateM.Result.ok.inj h
      exact ⟨⟨rfl, SameLinks.of_index rfl, fun _ _ => rfl, [], (List.append_nil _).symm,
        fun _ he => absurd he nofun⟩, rfl, rfl⟩
  · exact absurd h (by simp)

theorem kept_txnAbort {w w' : World} {u : Unit} (h : txnAbort w = .ok u w') :
    Kept w w' ∧ Dropped w' := by
  obtain ⟨-, rfl⟩ := EStateM.Result.ok.inj h
  exact ⟨⟨rfl, SameLinks.of_index rfl, fun _ _ => rfl, _, rfl,
    fun e he => .inr (List.mem_singleton.mp he)⟩, rfl, w.log, rfl⟩

/-- The trust of the best invalid chain is written past the transaction. -/
theorem kept_invalidChainFound {pindexNew : Uint256} {w w' : World} {u : Unit}
    (h : invalidChainFound pindexNew w = .ok u w') :
    Kept w w' ∧ w'.log = w.log ∧ w'.node.txdb.activeBatch = w.node.txdb.activeBatch := by
  unfold invalidChainFound at h
  obtain ⟨index, -, h⟩ := deref_bind_eq_ok.mp h
  rw [getNode_bind] at h
  split at h
  · obtain ⟨-, rfl⟩ := EStateM.Result.ok.inj h
    refine ⟨⟨rfl, SameLinks.of_index rfl, fun key hkey => ?_, [], (List.append_nil _).symm,
      fun _ he => absurd he nofun⟩, rfl, rfl⟩
    show (if _ then _ else _ : Map DbKey DbVal)[key]? = _
    split
    · exact Map.getElem?_insert_of_ne _ _ (Ne.symm hkey)
    · rfl
  · obtain ⟨-, rfl⟩ := pure_eq_ok.mp h
    exact ⟨Kept.of_sameNode ⟨rfl, rfl⟩, rfl, rfl⟩

/-- A commit that LevelDB does not carry out only drops the batch. -/
theorem kept_txnCommit_false {w w' : World} (h : txnCommit w = .ok false w') :
    Kept w w' ∧ Dropped w' := by
  unfold txnCommit at h
  obtain ⟨status, w₁, hstatus, h⟩ := bind_eq_ok.mp h
  have hsame := Reads.diskOk.ok hstatus
  rw [getNode_bind] at h
  cases hbatch : w₁.node.txdb.activeBatch with
  | none =>
    simp only [CTxDB.txnCommit, hbatch] at h
    exact absurd h (by simp [throw_run])
  | some batch =>
    simp only [CTxDB.txnCommit, hbatch] at h
    obtain ⟨rfl, rfl⟩ := EStateM.Result.ok.inj h
    refine ⟨(Kept.of_sameNode hsame).trans ?_, rfl, w₁.log, rfl⟩
    exact ⟨rfl, SameLinks.of_index rfl, fun key _ => rfl, _, rfl,
      fun e he => .inr (List.mem_singleton.mp he)⟩

theorem onlyAborts_txnCommit : OnlyAborts txnCommit := by
  refine OnlyAborts.bind OnlyAborts.diskOk fun status =>
    OnlyAborts.bind OnlyAborts.getNode fun node => ?_
  split
  · exact OnlyAborts.bind (OnlyAborts.modifyNode _) fun _ =>
      OnlyAborts.bind (fun _ _ _ h => absurd h (by simp [emit])) fun _ => OnlyAborts.pure _
  · exact OnlyAborts.abort _

/-- What follows a commit in the two switching functions. -/
theorem reject_after_commit {α : Type} {w w' : World} {nDoS : Nat} {text : String} {e : Exit}
    {k : NodeM α} (hk : OnlyAborts k)
    (h : (txnCommit >>= fun ok => require ok e >>= fun _ => k) w = .error (.reject nDoS text) w') :
    Kept w w' ∧ Dropped w' := by
  rcases bind_eq_error.mp h with h | ⟨ok, w₁, hcommit, h⟩
  · obtain ⟨what, hwhat⟩ := onlyAborts_txnCommit _ _ _ h
    exact absurd hwhat (by simp)
  · cases ok with
    | true =>
      obtain ⟨what, hwhat⟩ := hk _ _ _ h
      exact absurd hwhat (by simp)
    | false =>
      have hrun : EStateM.Result.error e w₁ = .error (.reject nDoS text) w' := h
      obtain ⟨-, rfl⟩ := EStateM.Result.error.inj hrun
      exact kept_txnCommit_false hcommit

theorem onlyAborts_invalidChainFound (pindexNew : Uint256) :
    OnlyAborts (invalidChainFound pindexNew) := by
  refine OnlyAborts.bind (OnlyAborts.deref _) fun index =>
    OnlyAborts.bind OnlyAborts.getNode fun node => ?_
  split
  · refine OnlyAborts.bind (OnlyAborts.modifyNode _) fun _ =>
      OnlyAborts.bind (fun _ _ _ h => ?_) fun _ => OnlyAborts.pure _
    exact absurd h nofun
  · exact OnlyAborts.pure _

/-- The branch of `SetBestChainInner` and `SetBestChain` for a chain that turned out invalid. -/
theorem reject_invalid {α : Type} {w w' : World} {pindexNew : Uint256} {e : Exit} {nDoS : Nat}
    {text : String} (h : (txnAbort >>= fun _ => invalidChainFound pindexNew >>= fun _ =>
      (throw e : NodeM α)) w = .error (.reject nDoS text) w') : Kept w w' ∧ Dropped w' := by
  rcases bind_eq_error.mp h with h | ⟨_, w₁, habort, h⟩
  · exact absurd h (by simp [txnAbort, bind_run, modifyNode, emit])
  obtain ⟨hkept, hbatch, log, hlog⟩ := kept_txnAbort habort
  rcases bind_eq_error.mp h with h | ⟨_, w₂, hfound, h⟩
  · obtain ⟨what, hwhat⟩ := onlyAborts_invalidChainFound pindexNew _ _ _ h
    exact absurd hwhat (by simp)
  · have hrun : EStateM.Result.error e w₂ = .error (.reject nDoS text) w' := h
    obtain ⟨-, rfl⟩ := EStateM.Result.error.inj hrun
    obtain ⟨hkept', hlog', hbatch'⟩ := kept_invalidChainFound hfound
    exact ⟨hkept.trans hkept', hbatch'.trans hbatch, log, hlog'.trans hlog⟩

/-! ## The switching functions -/

theorem kept_emitCall {e : Node → Sys → Event} {w w' : World} {u : Unit}
    (h : emitCall e w = .ok u w') (he : ∀ node sys, (e node sys).inTxn) :
    Kept w w' ∧ w'.node = w.node := by
  obtain ⟨-, rfl⟩ := EStateM.Result.ok.inj h
  refine ⟨⟨rfl, SameLinks.refl _, fun _ _ => rfl, _, rfl, fun e he' => .inl ?_⟩, rfl⟩
  rw [List.mem_singleton.mp he']
  exact he _ _

theorem inTxn_connectToBest (env : Env) (block : CBlock) (pindexNew : Uint256) :
    Keeps InTxn (block.connectToBest env pindexNew) :=
  Keeps.bind (inTxn_connectBlock _ _ _ _) fun _ => Keeps.bind (inTxn_change _) fun _ =>
    inTxn_require _ _

/-- A failed `SetBestChainInner` has dropped the transaction. -/
theorem reject_setBestChainInner {env : Env} {block : CBlock} {pindexNew : Uint256} {w w' : World}
    {nDoS : Nat} {text : String} (hopen : w.node.txdb.activeBatch.isSome = true)
    (h : block.setBestChainInner env pindexNew w = .error (.reject nDoS text) w') :
    Kept w w' ∧ Dropped w' := by
  unfold CBlock.setBestChainInner at h
  rcases bind_eq_error.mp h with h | ⟨_, w₁, hemit, h⟩
  · exact absurd h (by simp [emitCall])
  obtain ⟨hkept₁, hnode⟩ := kept_emitCall hemit fun _ _ => trivial
  have hopen₁ : w₁.node.txdb.activeBatch.isSome = true := by rw [hnode]; exact hopen
  rcases bind_eq_error.mp h with h | ⟨r, w₂, hattempt, h⟩
  · exact absurd h attempt_ne_error
  have hkept := hkept₁.trans (Kept.of_inTxn
    ((Keeps.attempt (inTxn_connectToBest env block pindexNew)).ok hattempt) hopen₁)
  cases r with
  | error e =>
    cases e with
    | reject nDoS' text' =>
      obtain ⟨hkept', hdropped⟩ := reject_invalid h
      exact ⟨hkept.trans hkept', hdropped⟩
    | abort what =>
      have hrun : EStateM.Result.error (Exit.abort what) w₂ = .error (.reject nDoS text) w' := h
      exact absurd hrun (by simp)
  | ok u =>
    obtain ⟨hkept', hdropped⟩ := reject_after_commit (OnlyAborts.bind (OnlyAborts.deref _)
      fun index => OnlyAborts.bind (OnlyAborts.nonNull _) fun pprev =>
        OnlyAborts.bind (OnlyAborts.deref _) fun indexPrev =>
          OnlyAborts.bind (OnlyAborts.modifyNode _) fun _ =>
            OnlyAborts.forM (OnlyAborts.poolRemove env) _) h
    exact ⟨hkept.trans hkept', hdropped⟩

/-- A failed `Reorganize` has done nothing outside the transaction. -/
theorem reject_reorganize {env : Env} {pindexNew : Uint256} {w w' : World} {nDoS : Nat}
    {text : String} (hopen : w.node.txdb.activeBatch.isSome = true)
    (h : reorganize env pindexNew w = .error (.reject nDoS text) w') : Kept w w' := by
  unfold reorganize at h
  rcases bind_eq_error.mp h with h | ⟨_, w₁, hemit, h⟩
  · exact absurd h (by simp [emitCall])
  obtain ⟨hkept, hnode⟩ := kept_emitCall hemit fun _ _ => trivial
  refine hkept.trans ?_
  have hopen₁ : w₁.node.txdb.activeBatch.isSome = true := by rw [hnode]; exact hopen
  have hswitch := inTxn_switchBranches env pindexNew
  rcases bind_eq_error.mp h with h | ⟨⟨vDisconnect, vConnect, vResurrect, vDelete⟩, w₂, hrun, h⟩
  · exact Kept.of_inTxn (hswitch.error h) hopen₁
  · exact (Kept.of_inTxn (hswitch.ok hrun) hopen₁).trans
      (reject_after_commit (OnlyAborts.finishReorganize env _ _ _ _) h).1

theorem reject_switchBestChain {env : Env} {pindexNew : Uint256} {w w' : World} {nDoS : Nat}
    {text : String} (hopen : w.node.txdb.activeBatch.isSome = true)
    (h : switchBestChain env pindexNew w = .error (.reject nDoS text) w') :
    Kept w w' ∧ Dropped w' := by
  unfold switchBestChain at h
  rw [getNode_bind] at h
  rcases bind_eq_error.mp h with h | ⟨pindexBest, w₂, hbest, h⟩
  · obtain ⟨what, hwhat⟩ := OnlyAborts.nonNull _ _ _ _ h
    exact absurd hwhat (by simp)
  rcases bind_eq_error.mp h with h | ⟨indexBest, w₃, hindex, h⟩
  · obtain ⟨what, hwhat⟩ := OnlyAborts.deref _ _ _ _ h
    exact absurd hwhat (by simp)
  rcases bind_eq_error.mp h with h | ⟨⟨vpindexSecondary, pindexIntermediate⟩, w₄, hpostpone, h⟩
  · obtain ⟨what, hwhat⟩ := OnlyAborts.postpone _ _ _ _ _ _ _ h
    exact absurd hwhat (by simp)
  have hsame := IsTrans.trans _ _ _ ((Reads.nonNull _).ok hbest)
    (IsTrans.trans _ _ _ ((Reads.deref _).ok hindex) ((Reads.postpone _ _ _ _).ok hpostpone))
  have hopen₄ : w₄.node.txdb.activeBatch.isSome = true := by rw [hsame.node]; exact hopen
  rcases bind_eq_error.mp h with h | ⟨r, w₅, hattempt, h⟩
  · exact absurd h attempt_ne_error
  rcases attempt_eq_ok.mp hattempt with ⟨_, rfl, hreorg⟩ | ⟨e, rfl, hreorg⟩
  · obtain ⟨what, hwhat⟩ := OnlyAborts.connectPostponed env _ _ _ _ h
    exact absurd hwhat (by simp)
  · cases e with
    | reject nDoS' text' =>
      obtain ⟨hkept, hdropped⟩ := reject_invalid h
      exact ⟨(Kept.of_sameNode hsame).trans ((reject_reorganize hopen₄ hreorg).trans hkept), hdropped⟩
    | abort what =>
      have hrun : EStateM.Result.error (Exit.abort what) w₅ = .error (.reject nDoS text) w' := h
      exact absurd hrun (by simp)

theorem reject_startBestChain {hash pindexNew : Uint256} {w w' : World} {nDoS : Nat}
    {text : String} (hopen : w.node.txdb.activeBatch.isSome = true)
    (h : CBlock.startBestChain hash pindexNew w = .error (.reject nDoS text) w') :
    Kept w w' ∧ Dropped w' := by
  obtain ⟨batch, hbatch⟩ := Option.isSome_iff_exists.mp hopen
  unfold CBlock.startBestChain writeHashBestChain at h
  rw [bind_run, change_open _ hbatch] at h
  have hdelta := (change_delta _ hopen (change_open (.put .hashBestChain (.hash hash)) hbatch)).2
  obtain ⟨hkept, hdropped⟩ := reject_after_commit (OnlyAborts.modifyNode _) h
  exact ⟨(Kept.of_inTxn (fun _ => ⟨_, _, hdelta⟩) hopen).trans hkept, hdropped⟩

theorem reject_moveBestChain {env : Env} {block : CBlock} {pindexNew : Uint256} {w w' : World}
    {nDoS : Nat} {text : String} (hopen : w.node.txdb.activeBatch.isSome = true)
    (h : block.moveBestChain env pindexNew w = .error (.reject nDoS text) w') :
    Kept w w' ∧ Dropped w' := by
  unfold CBlock.moveBestChain at h
  rw [getNode_bind] at h
  split at h
  · exact reject_startBestChain hopen h
  · split at h
    · obtain ⟨e, hinner, he⟩ := adaptExcept_eq_error.mp h
      cases e with
      | reject nDoS' text' => exact reject_setBestChainInner hopen hinner
      | abort what => exact absurd he (by simp [Exit.because])
    · exact reject_switchBestChain hopen h

/-- A `SetBestChain` that fails has dropped its transaction. -/
theorem reject_setBestChain {env : Env} {block : CBlock} {pindexNew : Uint256} {w w' : World}
    {nDoS : Nat} {text : String}
    (h : block.setBestChain env pindexNew w = .error (.reject nDoS text) w') :
    Kept w w' ∧ Dropped w' := by
  unfold CBlock.setBestChain at h
  rcases bind_eq_error.mp h with h | ⟨_, w₁, hbegin, h⟩
  · obtain ⟨what, hwhat⟩ := OnlyAborts.txnBegin _ _ _ h
    exact absurd hwhat (by simp)
  obtain ⟨hkept, hbatch, -⟩ := kept_txnBegin hbegin
  have hopen : w₁.node.txdb.activeBatch.isSome = true := by rw [hbatch]; rfl
  rcases bind_eq_error.mp h with h | ⟨_, w₂, hmove, h⟩
  · obtain ⟨hkept', hdropped⟩ := reject_moveBestChain hopen h
    exact ⟨hkept.trans hkept', hdropped⟩
  · obtain ⟨what, hwhat⟩ := OnlyAborts.bind (OnlyAborts.setBest _ _)
      (fun _ => OnlyAborts.emitCall _) _ _ _ h
    exact absurd hwhat (by simp)

/-- After `SetBestChain` has returned `false`, the committed database, the links of the index,
the best-chain globals and the memory pool are what they were before the call, whatever the
state, the block and the point of failure. -/
theorem setBestChain_atomic (env : Env) (block : CBlock) (pindexNew : Uint256) (w w' : World)
    (nDoS : Nat) (text : String)
    (h : block.setBestChain env pindexNew w = .error (.reject nDoS text) w') :
    SwitchUnchanged w.node w'.node :=
  (reject_setBestChain h).1.switchUnchanged

/-- A node on the branch 1, 2 that also knows the longer branch 1, 3, 4, and whose disk has
stopped working. -/
def twoBranches : World :=
  let object (pprev pnext : Option Uint256) (nHeight : Nat) : CBlockIndex :=
    { CBlockIndex.ofBlock 1 8 ⟨1, 0, 0, 0, 0, 0, [], []⟩ with
      pprev := pprev, pnext := pnext, nHeight := nHeight, nChainTrust := nHeight }
  { node := { Node.initial with
      mapBlockIndex :=
        (((Node.initial.mapBlockIndex.insert 1 (object none (some 2) 0)).insert 2
          (object (some 1) none 1)).insert 3 (object (some 1) none 1)).insert 4
            (object (some 3) none 2)
      pindexGenesisBlock := some 1
      pindexBest := some 2
      hashBestChain := 2
      nBestHeight := 1
      nBestChainTrust := 1 }
    sys := ⟨0, fun _ => false, true, false, false⟩
    log := [] }

/-- The call has returned `false`. -/
def rejected : Except Exit Unit → Bool
  | .error (.reject _ _) => true
  | _ => false

/-- `Reorganize` cannot read the first block it must disconnect. -/
theorem setBestChain_atomic_unreadable : ∃ nDoS text w',
    CBlock.setBestChain mainNet ⟨1, 3, 0, 0, 0, 0, [], []⟩ 4 twoBranches =
      .error (.reject nDoS text) w' ∧ SwitchUnchanged twoBranches.node w'.node := by
  have hfails : succeeds (fun r _ => rejected r)
      (attempt (CBlock.setBestChain mainNet ⟨1, 3, 0, 0, 0, 0, [], []⟩ 4) twoBranches) = true := by
    decide +kernel
  obtain ⟨r, w', hattempt, hr⟩ := succeeds_iff.mp hfails
  rcases attempt_eq_ok.mp hattempt with ⟨_, rfl, -⟩ | ⟨e, rfl, hrun⟩
  · exact Bool.noConfusion hr
  cases e with
  | abort what => exact Bool.noConfusion hr
  | reject nDoS text =>
    exact ⟨nDoS, text, w', hrun, setBestChain_atomic mainNet _ _ _ _ _ _ hrun⟩

end NoLimitCoin
