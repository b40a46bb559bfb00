import NoLimitCoin.Reads

/-!
# What a block does inside a transaction

Connecting and disconnecting a block, and everything `Reorganize` does before it commits, adds
entries to the open batch, updates the mint and money supply of index objects and logs events;
the store, the links of the index, the best-chain globals and the pool stay as they are.

Results:

1. `Frame`: a relation kept by the steps that connecting and disconnecting are made of is kept by
   `disconnectBlock`, `connectBlock` and `switchBranches`; `frame_inTxn`: `InTxn` is one.
2. `OnlyAborts`: the functions that run after a commit never return `false`.
-/

namespace NoLimitCoin

open Prog NodeM

/-- An index object without the two sums that `ConnectBlock` updates. -/
def CBlockIndex.links (index : CBlockIndex) : CBlockIndex :=
  { index with nMint := 0, nMoneySupply := 0 }

/-- The index objects of two nodes are the same, up to the two sums. -/
def SameLinks (node node' : Node) : Prop :=
  ∀ p, (node'.index? p).map CBlockIndex.links = (node.index? p).map CBlockIndex.links

theorem SameLinks.refl (node : Node) : SameLinks node node := fun _ => rfl

theorem SameLinks.trans {node node' node'' : Node} (h : SameLinks node node')
    (h' : SameLinks node' node'') : SameLinks node node'' := fun p => (h' p).trans (h p)

theorem SameLinks.of_index {node node' : Node} (h : node'.mapBlockIndex = node.mapBlockIndex) :
    SameLinks node node' := by
  intro p
  unfold Node.index?
  rw [h]

theorem SameLinks.index {node node' : Node} (h : SameLinks node node') {p : Uint256}
    {index : CBlockIndex} (hp : node.index? p = some index) :
    ∃ index', node'.index? p = some index' ∧ index'.links = index.links := by
  have hmap := h p
  rw [hp] at hmap
  cases hp' : node'.index? p with
  | none => rw [hp'] at hmap; exact absurd hmap (by simp)
  | some index' =>
    rw [hp'] at hmap
    exact ⟨index', rfl, Option.some.inj hmap⟩

theorem SameLinks.setIndex {node : Node} {p : Uint256} {index index' : CBlockIndex}
    (hp : node.index? p = some index) (h : index'.links = index.links) :
    SameLinks node (node.setIndex p index') := by
  intro q
  simp only [Node.index?, Node.setIndex, Map.getElem?_insert]
  split
  · next hpq =>
    subst hpq
    have hp' : node.mapBlockIndex[p]? = some index := hp
    rw [hp', Option.map_some, Option.map_some, h]
  · rfl

@[simp] theorem Node.index?_setIndex (node : Node) (p q : Uint256) (index : CBlockIndex) :
    (node.setIndex p index).index? q = if p = q then some index else node.index? q := by
  simp [Node.index?, Node.setIndex]

/-! ## The frame of a transaction -/

/-- An event that does not end a transaction, and does not tell of a new best chain. -/
def Event.inTxn : Event → Prop
  | .committed => False
  | .dropped => False
  | .bestChainSet _ => False
  | _ => True

/-- In the open transaction `ops` have been added to the batch and `evs` have been logged. -/
structure Delta (w w' : World) (ops : List (BatchOp DbKey DbVal)) (evs : List Event) : Prop where
  node : w'.node = { w.node with txdb := w'.node.txdb, mapBlockIndex := w'.node.mapBlockIndex }
  links : SameLinks w.node w'.node
  txdb : w'.node.txdb = ⟨w.node.txdb.pdb, w.node.txdb.activeBatch.map (· ++ ops)⟩
  log : w'.log = w.log ++ evs
  inTxn : ∀ e ∈ evs, e.inTxn

theorem Delta.of_sameNode {w w' : World} (h : SameNode w w') : Delta w w' [] [] := by
  refine ⟨?_, ?_, ?_, ?_, ?_⟩
  · rw [h.node]
  · rw [h.node]; exact SameLinks.refl _
  · rw [h.node]; obtain ⟨pdb, batch⟩ := w.node.txdb; cases batch <;> simp
  · rw [h.log]; simp
  · intro e he; cases he

theorem Delta.trans {w w' w'' : World} {ops ops' : List (BatchOp DbKey DbVal)}
    {evs evs' : List Event} (h : Delta w w' ops evs) (h' : Delta w' w'' ops' evs') :
    Delta w w'' (ops ++ ops') (evs ++ evs') := by
  refine ⟨?_, h.links.trans h'.links, ?_, ?_, ?_⟩
  · rw [h'.node, h.node]
  · rw [h'.txdb, h.txdb]
    cases w.node.txdb.activeBatch <;> simp
  · rw [h'.log, h.log, List.append_assoc]
  · intro e he
    rcases List.mem_append.mp he with he | he
    · exact h.inTxn e he
    · exact h'.inTxn e he

theorem Delta.isOpen {w w' : World} {ops : List (BatchOp DbKey DbVal)} {evs : List Event}
    (h : Delta w w' ops evs) (hopen : w.node.txdb.activeBatch.isSome = true) :
    w'.node.txdb.activeBatch.isSome = true := by
  rw [h.txdb]
  simpa using hopen

/-- As long as a transaction is open, all that happens is a `Delta`. -/
def InTxn (w w' : World) : Prop :=
  w.node.txdb.activeBatch.isSome = true → ∃ ops evs, Delta w w' ops evs

instance : Std.Refl InTxn := ⟨fun _ _ => ⟨[], [], Delta.of_sameNode ⟨rfl, rfl⟩⟩⟩

instance : IsTrans World InTxn := by
  refine ⟨fun w w' w'' h h' hopen => ?_⟩
  obtain ⟨ops, evs, hdelta⟩ := h hopen
  obtain ⟨ops', evs', hdelta'⟩ := h' (hdelta.isOpen hopen)
  exact ⟨_, _, hdelta.trans hdelta'⟩

variable {α : Type}

/-- Reading is working in the transaction. -/
theorem Reads.inTxn {x : NodeM α} (h : Reads x) : Keeps InTxn x :=
  h.mono fun _ _ hsame _ => ⟨[], [], Delta.of_sameNode hsame⟩

/-- A change of the database while a transaction is open goes into the batch. -/
theorem change_open (op : BatchOp DbKey DbVal) {w : World} {batch : List (BatchOp DbKey DbVal)}
    (hopen : w.node.txdb.activeBatch = some batch) :
    change op w = .ok true
      { w with node := { w.node with txdb := ⟨w.node.txdb.pdb, some (batch ++ [op])⟩ } } := by
  obtain ⟨node, sys, log⟩ := w
  have hsome : node.txdb.activeBatch.isSome = true := by
    rw [show node.txdb.activeBatch = some batch from hopen]; rfl
  unfold change
  rw [bind_run]
  show (EStateM.bind (if node.txdb.activeBatch.isSome = true then _ else _) _) _ = _
  rw [if_pos hsome]
  have hchange : (node.txdb.change op true).2 = ⟨node.txdb.pdb, some (batch ++ [op])⟩ := by
    unfold CTxDB.change
    rw [show node.txdb.activeBatch = some batch from hopen]
  show EStateM.Result.ok true _ = _
  rw [← hchange]

theorem change_delta (op : BatchOp DbKey DbVal) {w w' : World} {ok : Bool}
    (hopen : w.node.txdb.activeBatch.isSome = true) (h : change op w = .ok ok w') :
    ok = true ∧ Delta w w' [op] [] := by
  obtain ⟨batch, hbatch⟩ := Option.isSome_iff_exists.mp hopen
  rw [change_open op hbatch] at h
  obtain ⟨rfl, rfl⟩ := EStateM.Result.ok.inj h
  refine ⟨rfl, rfl, SameLinks.of_index rfl, ?_, by simp, by simp⟩
  rw [hbatch]
  rfl

theorem inTxn_change (op : BatchOp DbKey DbVal) : Keeps InTxn (change op) := by
  intro w hopen
  obtain ⟨batch, hbatch⟩ := Option.isSome_iff_exists.mp hopen
  rw [change_open op hbatch]
  exact ⟨_, _, (change_delta op hopen (change_open op hbatch)).2⟩

theorem inTxn_emit (e : Event) (he : e.inTxn) : Keeps InTxn (emit e) := by
  intro w _
  refine ⟨[], [e], rfl, SameLinks.refl _, ?_, rfl, ?_⟩
  · show w.node.txdb = _
    obtain ⟨pdb, batch⟩ := w.node.txdb
    cases batch <;> simp
  · intro e' he'
    rw [List.mem_singleton.mp he']
    exact he

/-- Updating the sums of an index object that is there. -/
theorem inTxn_setIndex {p : Uint256} {index : CBlockIndex} (index' : CBlockIndex) {w : World}
    (hp : w.node.index? p = some index) (h : index'.links = index.links) :
    InTxn w { w with node := w.node.setIndex p index' } := by
  intro _
  refine ⟨[], [], rfl, SameLinks.setIndex hp h, ?_, by simp, by simp⟩
  show w.node.txdb = _
  obtain ⟨pdb, batch⟩ := w.node.txdb
  cases batch <;> simp

/-- A relation that is kept by the steps that connecting and disconnecting are made of. -/
structure Frame (r : World → World → Prop) [Std.Refl r] [IsTrans World r] : Prop where
  reads : ∀ {α : Type} {x : NodeM α}, Reads x → Keeps r x
  change : ∀ op, Keeps r (change op)
  emit : ∀ e : Event, e.inTxn → Keeps r (emit e)
  setIndex : ∀ {w : World} {p : Uint256} {index : CBlockIndex} (index' : CBlockIndex),
    w.node.index? p = some index → index'.links = index.links →
      r w { w with node := w.node.setIndex p index' }

theorem frame_inTxn : Frame InTxn where
  reads := Reads.inTxn
  change := inTxn_change
  emit := inTxn_emit
  setIndex index' hp h := inTxn_setIndex index' hp h

theorem Keeps.forM {r : World → World → Prop} [Std.Refl r] [IsTrans World r] {β : Type}
    {f : β → NodeM Unit} (h : ∀ y, Keeps r (f y)) (xs : List β) : Keeps r (List.forM xs f) := by
  induction xs with
  | nil => exact Keeps.pure _
  | cons y ys ih => exact Keeps.bind (h y) fun _ => ih

theorem Keeps.adaptExcept {r : World → World → Prop} (f : Exit → Exit) {x : NodeM α}
    (h : Keeps r x) : Keeps r (x.adaptExcept f) := by
  intro w
  have hx := h w
  unfold EStateM.adaptExcept
  cases hrun : x w <;> rw [hrun] at hx <;> exact hx

/-- The checks of `ConnectBlock`, which come before anything is written: the index object of
the block and the outcome of the loop. -/
def CBlock.checkConnect (env : Env) (block : CBlock) (pindex : Uint256) (fJustCheck : Bool) :
    NodeM (CBlockIndex × ConnectState) := do
  let sys ← getSys
  fromExcept (block.checkBlock env sys.adjustedTime (!fJustCheck) (!fJustCheck) false)
  let index ← deref pindex
  let nTxPos := if fJustCheck then 1 else block.firstTxPos index.nBlockPos
  let s ← block.vtx.foldlM (connectTx env pindex index fJustCheck) (ConnectState.start nTxPos)
  block.checkReward env s
  pure (index, s)

theorem CBlock.connectBlock_eq (env : Env) (block : CBlock) (pindex : Uint256)
    (fJustCheck : Bool) :
    block.connectBlock env pindex fJustCheck = (do
      let (index, s) ← block.checkConnect env pindex fJustCheck
      block.writeConnected env pindex index fJustCheck s) := by
  simp only [connectBlock, checkConnect, bind_assoc, pure_bind]

theorem Reads.checkConnect (env : Env) (block : CBlock) (pindex : Uint256) (fJustCheck : Bool) :
    Reads (block.checkConnect env pindex fJustCheck) :=
  Keeps.bind Reads.getSys fun _ => Keeps.bind (Keeps.fromExcept _) fun _ =>
    Keeps.bind (Reads.deref pindex) fun _ =>
      Keeps.bind (Keeps.foldlM (Reads.connectTx env pindex _ fJustCheck) _ _) fun _ =>
        Keeps.bind (Reads.checkReward _ _ _) fun _ => Reads.pure _

/-- The index object the checks return is the one behind the pointer. -/
theorem CBlock.checkConnect_index {env : Env} {block : CBlock} {pindex : Uint256}
    {fJustCheck : Bool} {w w' : World} {index : CBlockIndex} {s : ConnectState}
    (h : block.checkConnect env pindex fJustCheck w = .ok (index, s) w') :
    w.node.index? pindex = some index := by
  unfold checkConnect at h
  obtain ⟨sys, w₁, hsys, h⟩ := bind_eq_ok.mp h
  obtain ⟨_, w₂, hcheck, h⟩ := bind_eq_ok.mp h
  obtain ⟨index', w₃, hindex, h⟩ := bind_eq_ok.mp h
  obtain ⟨s', w₄, hloop, h⟩ := bind_eq_ok.mp h
  obtain ⟨_, w₅, hreward, h⟩ := bind_eq_ok.mp h
  obtain ⟨heq, rfl⟩ := pure_eq_ok.mp h
  obtain ⟨rfl, rfl⟩ := Prod.mk.inj heq
  have h₂ := (Reads.getSys.ok hsys).node
  have h₃ := (Keeps.ok (r := SameNode) (Keeps.fromExcept _) hcheck).node
  rw [← h₂, ← h₃]
  unfold NodeM.deref at hindex
  split at hindex
  · next index'' hp =>
    obtain ⟨rfl, rfl⟩ := EStateM.Result.ok.inj hindex
    exact hp
  · exact absurd hindex (by simp)

namespace Frame

variable {r : World → World → Prop} [Std.Refl r] [IsTrans World r]

theorem require (h : Frame r) (b : Bool) (e : Exit) : Keeps r (require b e : NodeM Unit) :=
  h.reads (Reads.require b e)

theorem writeHashNext (h : Frame r) (env : Env) (pprev : Option Uint256) (hashNext : Uint256)
    (e : Exit) : Keeps r (CBlock.writeHashNext env pprev hashNext e) := by
  cases pprev with
  | none => exact Keeps.pure _
  | some p =>
    exact Keeps.bind (h.reads (Reads.deref p)) fun _ =>
      Keeps.bind (h.change _) fun _ => h.require _ _

theorem syncWithWallets (h : Frame r) (env : Env) (fConnect : Bool) (txs : List CTransaction) :
    Keeps r (txs.forM fun tx => NodeM.emit (.syncWithWallets (tx.getHash env) fConnect)) :=
  Keeps.forM (fun _ => h.emit _ (by trivial)) _

/-! ## Disconnecting and connecting -/

theorem unspendInput (h : Frame r) (txin : CTxIn) : Keeps r (CTransaction.unspendInput txin) := by
  refine Keeps.bind (h.reads (Reads.readTxIndex _)) fun found => ?_
  cases found with
  | none => exact Keeps.throw _
  | some txindex =>
    exact Keeps.bind (h.require _ _) fun _ => Keeps.bind (h.change _) fun _ => h.require _ _

theorem disconnectInputs (h : Frame r) (env : Env) (tx : CTransaction) :
    Keeps r (CTransaction.disconnectInputs env tx) :=
  Keeps.bind (Keeps.ite (Keeps.pure _) (Keeps.forM h.unspendInput _)) fun _ =>
    Keeps.bind (h.change _) fun _ => Keeps.pure _

theorem disconnectBlock (h : Frame r) (env : Env) (block : CBlock) (pindex : Uint256) :
    Keeps r (block.disconnectBlock env pindex) :=
  Keeps.bind (Keeps.forM (h.disconnectInputs env) _) fun _ =>
    Keeps.bind (h.reads (Reads.deref pindex)) fun _ =>
      Keeps.bind (h.writeHashNext _ _ _ _) fun _ =>
        Keeps.bind (h.syncWithWallets _ _ _) fun _ => h.emit _ (by trivial)

theorem writeQueued (h : Frame r) (entry : Uint256 × CTxIndex) :
    Keeps r (CBlock.writeQueued entry) :=
  Keeps.bind (h.change _) fun _ => h.require _ _

/-- What `ConnectBlock` writes, for the index object that `pindex` points to. -/
theorem writeConnected (h : Frame r) (env : Env) (block : CBlock) {pindex : Uint256}
    {index : CBlockIndex} (fJustCheck : Bool) (s : ConnectState) {w : World}
    (hp : w.node.index? pindex = some index) :
    r w (endState (block.writeConnected env pindex index fJustCheck s w)) := by
  unfold CBlock.writeConnected
  rw [bind_run]
  have hreads := Reads.prevMoneySupply index.pprev
  cases hrun : CBlock.prevMoneySupply index.pprev w with
  | error e w₁ => exact (h.reads hreads).error hrun
  | ok n w₁ =>
    have hp₁ : w₁.node.index? pindex = some index := by rw [(hreads.ok hrun).node]; exact hp
    refine IsTrans.trans _ _ _ ((h.reads hreads).ok hrun) ?_
    refine IsTrans.trans _ _ _ (h.setIndex { index with
        nMint := s.nValueOut - s.nValueIn + s.nFees
        nMoneySupply := n + s.nValueOut - s.nValueIn } hp₁ rfl) ?_
    exact (Keeps.bind (h.change _) fun _ => Keeps.bind (h.require _ _) fun _ =>
      Keeps.ite (Keeps.pure _) (Keeps.bind (Keeps.forM h.writeQueued _) fun _ =>
        Keeps.bind (h.writeHashNext _ _ _ _) fun _ =>
          Keeps.bind (h.syncWithWallets _ _ _) fun _ => h.emit _ (by trivial))) _

theorem connectBlock (h : Frame r) (env : Env) (block : CBlock) (pindex : Uint256)
    (fJustCheck : Bool) : Keeps r (block.connectBlock env pindex fJustCheck) := by
  intro w
  rw [CBlock.connectBlock_eq, bind_run]
  have hreads := Reads.checkConnect env block pindex fJustCheck
  cases hrun : block.checkConnect env pindex fJustCheck w with
  | error e w₁ => exact (h.reads hreads).error hrun
  | ok result w₁ =>
    obtain ⟨index, s⟩ := result
    have hp := CBlock.checkConnect_index hrun
    have hp₁ : w₁.node.index? pindex = some index := by rw [(hreads.ok hrun).node]; exact hp
    exact IsTrans.trans _ _ _ ((h.reads hreads).ok hrun)
      (h.writeConnected env block fJustCheck s hp₁)

/-! ## Switching branches -/

theorem disconnectOne (h : Frame r) (env : Env) (vResurrect : List CTransaction)
    (pindex : Uint256) : Keeps r (disconnectOne env vResurrect pindex) := by
  refine Keeps.bind (h.reads (Reads.readBlock env pindex)) fun found => ?_
  cases found with
  | none => exact Keeps.throw _
  | some block =>
    exact Keeps.bind (Keeps.adaptExcept _ (h.disconnectBlock _ _ _)) fun _ => Keeps.pure _

theorem connectOne (h : Frame r) (env : Env) (vDelete : List CTransaction) (pindex : Uint256) :
    Keeps r (connectOne env vDelete pindex) := by
  refine Keeps.bind (h.reads (Reads.readBlock env pindex)) fun found => ?_
  cases found with
  | none => exact Keeps.throw _
  | some block =>
    exact Keeps.bind (Keeps.adaptExcept _ (h.connectBlock _ _ _ _)) fun _ => Keeps.pure _

theorem switchBranches (h : Frame r) (env : Env) (pindexNew : Uint256) :
    Keeps r (switchBranches env pindexNew) :=
  Keeps.bind (h.reads Reads.getNode) fun _ => Keeps.bind (h.reads (Reads.nonNull _)) fun _ =>
    Keeps.bind (h.reads (Reads.findFork _ _ _)) fun _ =>
      Keeps.bind (h.reads (Reads.branchTo _ _ _)) fun _ =>
        Keeps.bind (h.reads (Reads.branchTo _ _ _)) fun _ =>
          Keeps.bind (Keeps.foldlM (h.disconnectOne env) _ _) fun _ =>
            Keeps.bind (Keeps.foldlM (h.connectOne env) _ _) fun _ =>
              Keeps.bind (h.change _) fun _ => Keeps.bind (h.require _ _) fun _ => Keeps.pure _

end Frame

theorem inTxn_disconnectBlock (env : Env) (block : CBlock) (pindex : Uint256) :
    Keeps InTxn (block.disconnectBlock env pindex) := frame_inTxn.disconnectBlock env block pindex

theorem inTxn_connectBlock (env : Env) (block : CBlock) (pindex : Uint256) (fJustCheck : Bool) :
    Keeps InTxn (block.connectBlock env pindex fJustCheck) :=
  frame_inTxn.connectBlock env block pindex fJustCheck

theorem inTxn_switchBranches (env : Env) (pindexNew : Uint256) :
    Keeps InTxn (switchBranches env pindexNew) := frame_inTxn.switchBranches env pindexNew

theorem inTxn_require (b : Bool) (e : Exit) : Keeps InTxn (require b e : NodeM Unit) :=
  frame_inTxn.require b e

/-! ## Functions that never return false -/

/-- A function whose only way to end early is an abort. -/
def OnlyAborts (x : NodeM α) : Prop := ∀ w e w', x w = .error e w' → ∃ what, e = .abort what

namespace OnlyAborts

theorem pure (a : α) : OnlyAborts (Pure.pure a) := by
  intro w e w' h
  exact absurd h (by simp [pure_run])

theorem abort (what : String) : OnlyAborts (MonadExcept.throw (.abort what) : NodeM α) := by
  intro w e w' h
  have h' : (EStateM.Result.error (Exit.abort what) w : EStateM.Result Exit World α) = .error e w' := h
  obtain ⟨rfl, rfl⟩ := EStateM.Result.error.inj h'
  exact ⟨what, rfl⟩

theorem bind {β : Type} {x : NodeM α} {f : α → NodeM β} (hx : OnlyAborts x)
    (hf : ∀ a, OnlyAborts (f a)) : OnlyAborts (x >>= f) := by
  intro w e w' h
  rw [bind_run] at h
  cases hrun : x w with
  | ok a w₁ => rw [hrun] at h; exact hf a _ _ _ h
  | error e₁ w₁ =>
    rw [hrun] at h
    obtain ⟨rfl, rfl⟩ := EStateM.Result.error.inj h
    exact hx _ _ _ hrun

theorem forM {β : Type} {f : β → NodeM Unit} (h : ∀ y, OnlyAborts (f y)) (xs : List β) :
    OnlyAborts (List.forM xs f) := by
  induction xs with
  | nil => exact pure _
  | cons y ys ih => exact bind (h y) fun _ => ih

theorem attempt {x : NodeM α} : OnlyAborts (Prog.attempt x) := fun _ _ _ h =>
  absurd h attempt_ne_error

theorem getNode : OnlyAborts getNode := fun _ _ _ h => absurd h (by simp [NodeM.getNode])

theorem modifyNode (f : Node → Node) : OnlyAborts (modifyNode f) := fun _ _ _ h =>
  absurd h (by simp [NodeM.modifyNode])

theorem emitCall (e : Node → Sys → Event) : OnlyAborts (emitCall e) := fun _ _ _ h =>
  absurd h (by simp [NodeM.emitCall])

theorem deref (pindex : Uint256) : OnlyAborts (deref pindex) := by
  intro w e w' h
  unfold NodeM.deref at h
  split at h
  · exact absurd h (by simp)
  · obtain ⟨rfl, rfl⟩ := EStateM.Result.error.inj h
    exact ⟨_, rfl⟩

theorem nonNull (p : Option α) : OnlyAborts (nonNull p) := by
  cases p with
  | none => exact abort _
  | some a => exact pure a

theorem diskOk : OnlyAborts diskOk := fun _ _ _ h => absurd h (by simp [NodeM.diskOk])

theorem txnBegin : OnlyAborts txnBegin := by
  intro w e w' h
  unfold NodeM.txnBegin at h
  split at h
  · exact absurd h (by simp)
  · obtain ⟨rfl, rfl⟩ := EStateM.Result.error.inj h
    exact ⟨_, rfl⟩

theorem readBlock (env : Env) (pindex : Uint256) : OnlyAborts (readBlock env pindex) := by
  refine bind (deref pindex) fun index => bind ?_ fun r => ?_
  · refine bind diskOk fun ok => bind getNode fun node => ?_
    split
    · exact pure _
    · split
      · exact pure _
      · split
        · split <;> exact pure _
        · exact pure _
  · cases r with
    | none => exact pure _
    | some block => dsimp only; split <;> exact pure _

theorem postpone (nBestTrust : Uint256) (fuel : Nat) (vpindexSecondary : List Uint256)
    (pindex : Uint256) : OnlyAborts (postpone nBestTrust fuel vpindexSecondary pindex) := by
  induction fuel generalizing vpindexSecondary pindex with
  | zero => exact abort _
  | succ fuel ih =>
    refine bind (deref pindex) fun index => ?_
    cases index.pprev with
    | none => exact pure _
    | some pprev =>
      refine bind (deref pprev) fun _ => ?_
      split
      · exact ih _ _
      · exact pure _

theorem setPrevNext (pindex : Uint256) (pnext : Option Uint256) :
    OnlyAborts (setPrevNext pindex pnext) := by
  refine bind (deref pindex) fun index => ?_
  split
  · exact pure _
  · exact bind (deref _) fun _ => modifyNode _

/-- A change of the pool whose only failure is an abort. -/
theorem modifyPool {f : CTxMemPool → Except Exit CTxMemPool}
    (h : ∀ pool e, f pool = .error e → ∃ what, e = .abort what) : OnlyAborts (modifyPool f) := by
  refine bind getNode fun node => bind ?_ fun pool => modifyNode _
  intro w e w' hrun
  cases hf : f node.mempool with
  | ok pool => rw [hf] at hrun; exact absurd hrun (by simp [fromExcept, pure_run])
  | error e₁ =>
    rw [hf] at hrun
    have hrun' : EStateM.Result.error e₁ w = .error e w' := hrun
    obtain ⟨rfl, rfl⟩ := EStateM.Result.error.inj hrun'
    exact h _ _ hf

end OnlyAborts

/-! ### The pool -/

namespace CTxMemPool

/-- A pure function whose only failure is an abort. -/
def OnlyAborts {β : Type} (x : Except Exit β) : Prop := ∀ e, x = .error e → ∃ what, e = .abort what

theorem OnlyAborts.pure {β : Type} (b : β) : OnlyAborts (.ok b) := fun _ h => absurd h (by simp)

theorem OnlyAborts.bind {β γ : Type} {x : Except Exit β} {f : β → Except Exit γ}
    (hx : OnlyAborts x) (hf : ∀ b, OnlyAborts (f b)) : OnlyAborts (x >>= f) := by
  cases x with
  | ok b => exact hf b
  | error e => exact fun e' h => hx e' (congrArg Except.error (Except.error.inj h))

theorem OnlyAborts.foldlM {β γ : Type} {f : β → γ → Except Exit β}
    (h : ∀ b c, OnlyAborts (f b c)) (cs : List γ) (b : β) : OnlyAborts (cs.foldlM f b) := by
  induction cs generalizing b with
  | nil => exact OnlyAborts.pure b
  | cons c cs ih =>
    rw [List.foldlM_cons]
    exact OnlyAborts.bind (h b c) ih

theorem onlyAborts_lookupInPoint (pool : CTxMemPool) (inpoint : CInPoint) :
    OnlyAborts (pool.lookupInPoint inpoint) := by
  unfold lookupInPoint
  split
  · exact OnlyAborts.pure _
  · exact fun e h => ⟨_, (Except.error.inj h).symm⟩

theorem onlyAborts_remove (env : Env) (fuel : Nat) (pool : CTxMemPool) (tx : CTransaction)
    (fRecursive : Bool) : OnlyAborts (remove env fuel pool tx fRecursive) := by
  induction fuel generalizing pool tx fRecursive with
  | zero => exact fun e h => ⟨_, (Except.error.inj h).symm⟩
  | succ fuel ih =>
    unfold remove
    dsimp only
    split
    · exact OnlyAborts.pure _
    · refine OnlyAborts.bind ?_ fun pool => OnlyAborts.pure _
      split
      · refine OnlyAborts.foldlM (fun pool i => ?_) _ _
        split
        · exact OnlyAborts.pure _
        · exact OnlyAborts.bind (onlyAborts_lookupInPoint _ _) fun txNext => ih _ _ _
      · exact OnlyAborts.pure _

theorem onlyAborts_removeConflicts (env : Env) (pool : CTxMemPool) (tx : CTransaction) :
    OnlyAborts (pool.removeConflicts env tx) := by
  refine OnlyAborts.foldlM (fun pool txin => ?_) _ _
  unfold removeConflict
  split
  · exact OnlyAborts.pure _
  · refine OnlyAborts.bind (onlyAborts_lookupInPoint _ _) fun txConflict => ?_
    split
    · exact OnlyAborts.pure _
    · exact onlyAborts_remove _ _ _ _ _

end CTxMemPool

namespace OnlyAborts

theorem poolRemove (env : Env) (tx : CTransaction) : OnlyAborts (poolRemove env tx) :=
  modifyPool fun pool => CTxMemPool.onlyAborts_remove env _ pool tx false

theorem poolRemoveConflicts (env : Env) (tx : CTransaction) :
    OnlyAborts (poolRemoveConflicts env tx) :=
  modifyPool fun pool => CTxMemPool.onlyAborts_removeConflicts env pool tx

theorem finishReorganize (env : Env) (vDisconnect vConnect : List Uint256)
    (vResurrect vDelete : List CTransaction) :
    OnlyAborts (finishReorganize env vDisconnect vConnect vResurrect vDelete) := by
  refine bind (forM (fun _ => setPrevNext _ _) _) fun _ =>
    bind (forM (fun _ => setPrevNext _ _) _) fun _ => bind (forM (fun tx => ?_) _) fun _ =>
      forM (fun tx => bind (poolRemove env tx) fun _ => poolRemoveConflicts env tx) _
  refine bind attempt fun r => ?_
  split
  · exact abort _
  · exact pure _

theorem connectPostponed (env : Env) (pindices : List Uint256) :
    OnlyAborts (connectPostponed env pindices) := by
  induction pindices with
  | nil => exact pure _
  | cons pindex rest ih =>
    refine bind (emitCall _) fun _ => bind (readBlock env pindex) fun r => ?_
    cases r with
    | none => exact pure _
    | some block =>
      refine bind txnBegin fun _ => bind attempt fun r => ?_
      match r with
      | .error (.reject _ _) => exact pure _
      | .error (.abort _) => exact abort _
      | .ok () => exact ih

theorem setBest (hash pindexNew : Uint256) : OnlyAborts (setBest hash pindexNew) :=
  bind (deref pindexNew) fun _ => modifyNode _

end OnlyAborts

end NoLimitCoin
