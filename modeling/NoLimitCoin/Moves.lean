import NoLimitCoin.Switched

/-!
# The moves of a node

Whatever a call does to the block index, the files, the database and the best chain, it does in
a few kinds of moves.  The traversal of the calls is done here once; what holds of every move
then holds of every state a node reaches.

Results:

1. `Steps`: a relation between the states before and after a function that returns.
2. `setBestChain_ok`: a successful `SetBestChain` keeps the tree of blocks and what is beside it.
3. `Call.moves` and `Reaches.moves`: every call is a sequence of moves.
-/

namespace NoLimitCoin

open Prog NodeM Checkpoints

/-! ## Functions that return -/

/-- Whether it succeeds or returns `false`, the function leads from the state to a related one.
Nothing is said of an abort, after which the node does not go on. -/
def StepsAt {α : Type} (r : World → World → Prop) (w : World) (x : NodeM α) : Prop :=
  (∀ a w', x w = .ok a w' → r w w') ∧ ∀ nDoS text w', x w = .error (.reject nDoS text) w' → r w w'

/-- The same from every state. -/
def Steps {α : Type} (r : World → World → Prop) (x : NodeM α) : Prop := ∀ w, StepsAt r w x

section steps

variable {α β : Type} {r : World → World → Prop} {x : NodeM α} {f : α → NodeM β} {w : World}

namespace StepsAt

theorem bind [IsTrans World r] (hx : StepsAt r w x)
    (hf : ∀ a w₁, x w = .ok a w₁ → StepsAt r w₁ (f a)) : StepsAt r w (x >>= f) := by
  constructor
  · intro b w' h
    obtain ⟨a, w₁, hrun, h⟩ := bind_eq_ok.mp h
    exact IsTrans.trans _ _ _ (hx.1 a w₁ hrun) ((hf a w₁ hrun).1 b w' h)
  · intro n t w' h
    rcases bind_eq_error.mp h with h | ⟨a, w₁, hrun, h⟩
    · exact hx.2 n t w' h
    · exact IsTrans.trans _ _ _ (hx.1 a w₁ hrun) ((hf a w₁ hrun).2 n t w' h)

theorem adaptExcept {g : Exit → Exit} (hg : ∀ e n t, g e = .reject n t → ∃ n' t', e = .reject n' t')
    (h : StepsAt r w x) : StepsAt r w (x.adaptExcept g) := by
  refine ⟨fun a w' hx => h.1 a w' (adaptExcept_eq_ok.mp hx), fun n t w' hx => ?_⟩
  obtain ⟨e, hrun, he⟩ := adaptExcept_eq_error.mp hx
  obtain ⟨n', t', rfl⟩ := hg e n t he
  exact h.2 n' t' w' hrun

theorem getNode_bind {f : Node → NodeM β} (h : StepsAt r w (f w.node)) :
    StepsAt r w (getNode >>= f) := h

theorem require_bind [Std.Refl r] {b : Bool} {e : Exit} {f : Unit → NodeM β}
    (h : b = true → StepsAt r w (f ())) : StepsAt r w (require b e >>= f) := by
  cases b with
  | true => exact h rfl
  | false =>
    refine ⟨fun b w' h => absurd h error_ne_ok, fun n t w' h => ?_⟩
    obtain ⟨-, rfl⟩ := EStateM.Result.error.inj h
    exact Std.Refl.refl _

theorem fromExcept_bind [Std.Refl r] {x : Except Exit α} {f : α → NodeM β}
    (h : ∀ a, x = .ok a → StepsAt r w (f a)) : StepsAt r w (fromExcept x >>= f) := by
  cases hx : x with
  | ok a => exact h a hx
  | error e =>
    refine ⟨fun b w' h => absurd h error_ne_ok, fun n t w' h => ?_⟩
    obtain ⟨-, rfl⟩ := EStateM.Result.error.inj h
    exact Std.Refl.refl _

/-- A caller that goes on after a failure, but not after an abort. -/
theorem attempt_bind [IsTrans World r] {k : Except Exit α → NodeM β} (hx : StepsAt r w x)
    (hok : ∀ a w₁, x w = .ok a w₁ → StepsAt r w₁ (k (.ok a)))
    (hreject : ∀ n t w₁, x w = .error (.reject n t) w₁ → StepsAt r w₁ (k (.error (.reject n t))))
    (habort : ∀ what w₁, ∃ w₂, k (.error (.abort what)) w₁ = .error (.abort what) w₂) :
    StepsAt r w (attempt x >>= k) := by
  constructor
  · intro b w' h
    obtain ⟨res, w₁, hattempt, h⟩ := bind_eq_ok.mp h
    rcases attempt_eq_ok.mp hattempt with ⟨a, rfl, hrun⟩ | ⟨e, rfl, hrun⟩
    · exact IsTrans.trans _ _ _ (hx.1 a w₁ hrun) ((hok a w₁ hrun).1 b w' h)
    · cases e with
      | reject n t =>
        exact IsTrans.trans _ _ _ (hx.2 n t w₁ hrun) ((hreject n t w₁ hrun).1 b w' h)
      | abort what =>
        obtain ⟨w₂, hthrow⟩ := habort what w₁
        rw [hthrow] at h
        exact absurd h error_ne_ok
  · intro n t w' h
    rcases bind_eq_error.mp h with h | ⟨res, w₁, hattempt, h⟩
    · exact absurd h attempt_ne_error
    · rcases attempt_eq_ok.mp hattempt with ⟨a, rfl, hrun⟩ | ⟨e, rfl, hrun⟩
      · exact IsTrans.trans _ _ _ (hx.1 a w₁ hrun) ((hok a w₁ hrun).2 n t w' h)
      · cases e with
        | reject n' t' =>
          exact IsTrans.trans _ _ _ (hx.2 n' t' w₁ hrun) ((hreject n' t' w₁ hrun).2 n t w' h)
        | abort what =>
          obtain ⟨w₂, hthrow⟩ := habort what w₁
          rw [hthrow] at h
          obtain ⟨heq, -⟩ := EStateM.Result.error.inj h
          exact absurd heq (by simp)

end StepsAt

namespace Steps

theorem of_keeps (h : Keeps r x) : Steps r x := fun _ =>
  ⟨fun _ _ hx => h.ok hx, fun _ _ _ hx => h.error hx⟩

theorem pure [Std.Refl r] (a : α) : Steps r (Pure.pure a) := of_keeps (Keeps.pure a)

theorem throw [Std.Refl r] (e : Exit) : Steps r (MonadExcept.throw e : NodeM α) :=
  of_keeps (Keeps.throw e)

theorem bind [IsTrans World r] (hx : Steps r x) (hf : ∀ a, Steps r (f a)) : Steps r (x >>= f) :=
  fun w => StepsAt.bind (hx w) fun a w₁ _ => hf a w₁

theorem adaptExcept {g : Exit → Exit} (hg : ∀ e n t, g e = .reject n t → ∃ n' t', e = .reject n' t')
    (h : Steps r x) : Steps r (x.adaptExcept g) := fun w => (h w).adaptExcept hg

theorem attempt_bind [IsTrans World r] {k : Except Exit α → NodeM β} (hx : Steps r x)
    (hok : ∀ a, Steps r (k (.ok a))) (hreject : ∀ n t, Steps r (k (.error (.reject n t))))
    (habort : ∀ what w₁, ∃ w₂, k (.error (.abort what)) w₁ = .error (.abort what) w₂) :
    Steps r (attempt x >>= k) := fun w =>
  StepsAt.attempt_bind (hx w) (fun a w₁ _ => hok a w₁) (fun n t w₁ _ => hreject n t w₁) habort

theorem foldlM [Std.Refl r] [IsTrans World r] {g : α → β → NodeM α} (h : ∀ a y, Steps r (g a y))
    (xs : List β) (a : α) : Steps r (xs.foldlM g a) := by
  induction xs generalizing a with
  | nil => exact Steps.pure a
  | cons y ys ih =>
    rw [List.foldlM_cons]
    exact Steps.bind (h a y) fun a' => ih a'

theorem ite {b : Prop} [Decidable b] {y : NodeM α} (hx : Steps r x) (hy : Steps r y) :
    Steps r (if b then x else y) := by
  split
  · exact hx
  · exact hy

end Steps

end steps

theorem Exit.because_eq_reject {text : String} (e : Exit) (n : Nat) (t : String)
    (h : e.because text = .reject n t) : ∃ n' t', e = .reject n' t' := by
  cases e with
  | reject n' t' => exact ⟨n', t', rfl⟩
  | abort what => exact absurd h (by simp [Exit.because])

/-- A function that goes on from an object of the index. -/
theorem deref_bind_keeps {r : World → World → Prop} [Std.Refl r] {α : Type} {p : Uint256}
    {f : CBlockIndex → NodeM α} {w : World}
    (h : ∀ index, w.node.index? p = some index → r w (endState (f index w))) :
    r w (endState ((deref p >>= f) w)) := by
  rw [bind_run, deref]
  cases hp : w.node.index? p with
  | none => exact Std.Refl.refl _
  | some index => exact h index hp

/-! ## The tree -/

/-- A node without its index, its database, its pool and the globals of the best chain. -/
def Node.beside (node : Node) : Node :=
  { node with
    mapBlockIndex := ∅
    txdb := ⟨∅, none⟩
    mempool := ⟨∅, ∅⟩
    pindexGenesisBlock := none
    pindexBest := none
    hashBestChain := 0
    nBestHeight := 0
    nBestChainTrust := 0
    nBestInvalidTrust := 0 }

/-- Every event but the return of a successful `SetBestChain`. -/
def Event.quiet : Event → Prop
  | .bestChainSet _ => False
  | _ => True

theorem Event.quiet_of_inTxn {e : Event} (h : e.inTxn) : e.quiet := by
  cases e with
  | bestChainSet => exact h.elim
  | _ => trivial

/-- The log has grown by quiet events. -/
def LogGrows (log log' : List Event) : Prop := ∃ evs, log' = log ++ evs ∧ ∀ e ∈ evs, e.quiet

theorem LogGrows.refl (log : List Event) : LogGrows log log :=
  ⟨[], (List.append_nil _).symm, fun _ he => absurd he List.not_mem_nil⟩

theorem LogGrows.trans {log log' log'' : List Event} (h : LogGrows log log')
    (h' : LogGrows log' log'') : LogGrows log log'' := by
  obtain ⟨evs, rfl, hevs⟩ := h
  obtain ⟨evs', rfl, hevs'⟩ := h'
  exact ⟨evs ++ evs', List.append_assoc _ _ _, List.forall_mem_append.mpr ⟨hevs, hevs'⟩⟩

theorem LogGrows.single (log : List Event) {e : Event} (he : e.quiet) : LogGrows log (log ++ [e]) :=
  ⟨[e], rfl, fun _ he' => List.mem_singleton.mp he' ▸ he⟩

/-- The tree of blocks, the files, the orphans and the sync-checkpoints are the same. -/
structure SameTree (w w' : World) : Prop where
  beside : w'.node.beside = w.node.beside
  core : SameCore w.node w'.node
  log : LogGrows w.log w'.log

instance : Std.Refl SameTree := ⟨fun _ => ⟨rfl, SameCore.refl _, LogGrows.refl _⟩⟩

instance : IsTrans World SameTree :=
  ⟨fun _ _ _ h h' => ⟨h'.beside.trans h.beside, h.core.trans h'.core, h.log.trans h'.log⟩⟩

namespace SameTree

theorem files {w w' : World} (h : SameTree w w') : w'.node.files = w.node.files :=
  show w'.node.beside.files = w.node.beside.files by rw [h.beside]

theorem hashSyncCheckpoint {w w' : World} (h : SameTree w w') :
    w'.node.hashSyncCheckpoint = w.node.hashSyncCheckpoint :=
  show w'.node.beside.hashSyncCheckpoint = w.node.beside.hashSyncCheckpoint by rw [h.beside]

theorem of_index {w w' : World} (h : w'.node.beside = w.node.beside)
    (hindex : w'.node.mapBlockIndex = w.node.mapBlockIndex) (hlog : LogGrows w.log w'.log) :
    SameTree w w' := ⟨h, SameCore.of_sameLinks (SameLinks.of_index hindex), hlog⟩

theorem of_sameNode {w w' : World} (h : SameNode w w') : SameTree w w' :=
  of_index (by rw [h.node]) (by rw [h.node]) (h.log ▸ LogGrows.refl _)

theorem of_reads {α : Type} {x : NodeM α} (h : Reads x) : Keeps SameTree x :=
  h.mono fun _ _ => of_sameNode

theorem modifyNode {f : Node → Node} (h : ∀ node, (f node).beside = node.beside)
    (hindex : ∀ node, (f node).mapBlockIndex = node.mapBlockIndex) :
    Keeps SameTree (modifyNode f) := fun w => of_index (h w.node) (hindex w.node) (LogGrows.refl _)

theorem emit {e : Event} (he : e.quiet) : Keeps SameTree (emit e) := fun w =>
  of_index rfl rfl (LogGrows.single w.log he)

theorem emitCall {e : Node → Sys → Event} (he : ∀ node sys, (e node sys).quiet) :
    Keeps SameTree (emitCall e) := fun w => of_index rfl rfl (LogGrows.single w.log (he _ _))

theorem txnBegin : Keeps SameTree txnBegin := by
  intro w
  unfold NodeM.txnBegin
  split
  · exact of_index rfl rfl (LogGrows.refl _)
  · exact Std.Refl.refl _

theorem txnCommit : Keeps SameTree txnCommit := by
  refine Keeps.bind (of_reads Reads.diskOk) fun status =>
    Keeps.bind (of_reads Reads.getNode) fun node => ?_
  split
  · refine Keeps.bind (modifyNode (fun _ => rfl) fun _ => rfl) fun _ =>
      Keeps.bind (emit ?_) fun _ => Keeps.pure _
    split <;> trivial
  · exact Keeps.throw _

theorem txnAbort : Keeps SameTree txnAbort :=
  Keeps.bind (modifyNode (fun _ => rfl) fun _ => rfl) fun _ => emit trivial

theorem change (op : BatchOp DbKey DbVal) : Keeps SameTree (change op) := by
  refine Keeps.bind (of_reads Reads.getNode) fun node => Keeps.bind ?_ fun status =>
    Keeps.bind (modifyNode (fun _ => rfl) fun _ => rfl) fun _ => Keeps.pure _
  exact of_reads (Keeps.ite (Reads.pure _) Reads.diskOk)

theorem writeDirect (key : DbKey) (value : DbVal) : Keeps SameTree (writeDirect key value) :=
  Keeps.bind (of_reads Reads.diskOk) fun _ =>
    Keeps.bind (modifyNode (fun _ => rfl) fun _ => rfl) fun _ => Keeps.pure _

theorem of_poolOnly {α : Type} {x : NodeM α} (h : Keeps PoolOnly x) : Keeps SameTree x :=
  h.mono fun _ _ hpool =>
    of_index (by rw [hpool.node]; rfl) (by rw [hpool.node]) (hpool.log ▸ LogGrows.refl _)

theorem invalidChainFound (pindexNew : Uint256) : Keeps SameTree (invalidChainFound pindexNew) := by
  refine Keeps.bind (of_reads (Reads.deref _)) fun index =>
    Keeps.bind (of_reads Reads.getNode) fun node => Keeps.ite ?_ (Keeps.pure _)
  exact Keeps.bind (modifyNode (fun _ => rfl) fun _ => rfl) fun _ =>
    Keeps.bind (writeDirect _ _) fun _ => Keeps.pure _

theorem setIndex {w : World} {p : Uint256} {index index' : CBlockIndex}
    (hp : w.node.index? p = some index) (h : index'.core = index.core) :
    SameTree w { w with node := w.node.setIndex p index' } :=
  ⟨rfl, SameCore.setIndex hp h, LogGrows.refl _⟩

theorem frame : Frame SameTree where
  reads := of_reads
  change := change
  emit _ he := emit (Event.quiet_of_inTxn he)
  setIndex _ hp h := setIndex hp (CBlockIndex.core_of_links h)

/-- Setting a link. -/
theorem linkPrev {q : Uint256} {indexPrev : CBlockIndex} (pnext : Option Uint256) {w : World}
    (hq : w.node.index? q = some indexPrev) :
    SameTree w { w with node := w.node.setIndex q { indexPrev with pnext := pnext } } :=
  setIndex hq rfl

theorem setPrevNext (pindex : Uint256) (pnext : Option Uint256) :
    Keeps SameTree (setPrevNext pindex pnext) := by
  intro w
  refine deref_bind_keeps fun index _ => ?_
  cases index.pprev with
  | none => exact Std.Refl.refl _
  | some pprev => exact deref_bind_keeps fun indexPrev hprev => linkPrev pnext hprev

theorem finishReorganize (env : Env) (vDisconnect vConnect : List Uint256)
    (vResurrect vDelete : List CTransaction) :
    Keeps SameTree (finishReorganize env vDisconnect vConnect vResurrect vDelete) :=
  Keeps.bind (Keeps.forM (fun _ => setPrevNext _ _) _) fun _ =>
    Keeps.bind (Keeps.forM (fun _ => setPrevNext _ _) _) fun _ =>
      Keeps.bind (Keeps.forM (fun tx => of_poolOnly (poolOnly_resurrect env tx)) _) fun _ =>
        Keeps.forM (fun tx => of_poolOnly (poolOnly_poolForget env tx)) _

theorem reorganize (env : Env) (pindexNew : Uint256) : Keeps SameTree (reorganize env pindexNew) :=
  Keeps.bind (emitCall fun _ _ => trivial) fun _ =>
    Keeps.bind (frame.switchBranches _ _) fun _ => Keeps.bind txnCommit fun _ =>
      Keeps.bind (frame.require _ _) fun _ => finishReorganize _ _ _ _ _

theorem connectToBest (env : Env) (block : CBlock) (pindexNew : Uint256) :
    Keeps SameTree (block.connectToBest env pindexNew) :=
  Keeps.bind (frame.connectBlock _ _ _ _) fun _ => Keeps.bind (change _) fun _ => frame.require _ _

theorem setBestChainInner (env : Env) (block : CBlock) (pindexNew : Uint256) :
    Keeps SameTree (block.setBestChainInner env pindexNew) := by
  refine Keeps.bind (emitCall fun _ _ => trivial) fun _ =>
    Keeps.bind (Keeps.attempt (connectToBest env block pindexNew)) fun r => ?_
  match r with
  | .error (.reject nDoS text) =>
    exact Keeps.bind txnAbort fun _ => Keeps.bind (invalidChainFound _) fun _ => Keeps.throw _
  | .error (.abort what) => exact Keeps.throw _
  | .ok () =>
    refine Keeps.bind txnCommit fun _ => Keeps.bind (frame.require _ _) fun _ w => ?_
    refine deref_bind_keeps fun index _ => ?_
    cases index.pprev with
    | none => exact Std.Refl.refl _
    | some pprev =>
      refine deref_bind_keeps fun indexPrev hprev => ?_
      exact IsTrans.trans _ _ _ (linkPrev (some pindexNew) hprev)
        (Keeps.forM (fun tx => of_poolOnly (poolOnly_modifyPool _)) block.vtx _)

theorem connectPostponed (env : Env) (vpindex : List Uint256) :
    Keeps SameTree (connectPostponed env vpindex) := by
  induction vpindex with
  | nil => exact Keeps.pure _
  | cons pindex rest ih =>
    refine Keeps.bind (emitCall fun _ _ => trivial) fun _ =>
      Keeps.bind (of_reads (Reads.readBlock env pindex)) fun found => ?_
    cases found with
    | none => exact Keeps.pure _
    | some block =>
      refine Keeps.bind txnBegin fun _ =>
        Keeps.bind (Keeps.attempt (setBestChainInner env block pindex)) fun r => ?_
      match r with
      | .error (.reject nDoS text) => exact Keeps.pure _
      | .error (.abort what) => exact Keeps.throw _
      | .ok () => exact ih

theorem switchBestChain (env : Env) (pindexNew : Uint256) :
    Keeps SameTree (switchBestChain env pindexNew) := by
  refine Keeps.bind (of_reads Reads.getNode) fun node =>
    Keeps.bind (of_reads (Reads.nonNull _)) fun pindexBest =>
      Keeps.bind (of_reads (Reads.deref _)) fun indexBest =>
        Keeps.bind (of_reads (Reads.postpone _ _ _ _)) fun found =>
          Keeps.bind (Keeps.attempt (reorganize _ _)) fun r => ?_
  match r with
  | .error (.reject nDoS text) =>
    exact Keeps.bind txnAbort fun _ => Keeps.bind (invalidChainFound _) fun _ => Keeps.throw _
  | .error (.abort what) => exact Keeps.throw _
  | .ok () => exact connectPostponed env _

theorem moveBestChain (env : Env) (block : CBlock) (pindexNew : Uint256) :
    Keeps SameTree (block.moveBestChain env pindexNew) := by
  refine Keeps.bind (of_reads Reads.getNode) fun node => Keeps.ite ?_ (Keeps.ite ?_ ?_)
  · exact Keeps.bind (change _) fun _ => Keeps.bind txnCommit fun _ =>
      Keeps.bind (frame.require _ _) fun _ => modifyNode (fun _ => rfl) fun _ => rfl
  · exact Keeps.adaptExcept _ (setBestChainInner env block pindexNew)
  · exact switchBestChain env pindexNew

theorem setBest (hash pindexNew : Uint256) : Keeps SameTree (setBest hash pindexNew) :=
  Keeps.bind (of_reads (Reads.deref _)) fun _ => modifyNode (fun _ => rfl) fun _ => rfl

end SameTree

/-- A successful `SetBestChain` moves the best chain through a tree that stays as it is, sets the
globals and returns. -/
theorem setBestChain_ok {env : Env} {block : CBlock} {p : Uint256} {w w' : World} {u : Unit}
    (h : block.setBestChain env p w = .ok u w') : ∃ w₁ w₂,
      w.node.txdb.activeBatch = none ∧ block.moveBestChain env p w.begun = .ok () w₁ ∧
      setBest (block.getHash env) p w₁ = .ok () w₂ ∧ SameTree w w₂ ∧
      w' = w₂.addLog [.bestChainSet w₂.node] := by
  obtain ⟨_, w₀, hbegin, h⟩ := bind_eq_ok.mp h
  have hsame := SameTree.txnBegin.ok hbegin
  obtain ⟨hclosed, rfl⟩ := txnBegin_ok hbegin
  obtain ⟨_, w₁, hmove, h⟩ := bind_eq_ok.mp h
  obtain ⟨_, w₂, hset, h⟩ := bind_eq_ok.mp h
  obtain ⟨-, rfl⟩ := EStateM.Result.ok.inj h
  exact ⟨w₁, w₂, hclosed, hmove, hset, IsTrans.trans _ _ _ hsame (IsTrans.trans _ _ _
    ((SameTree.moveBestChain env block p).ok hmove) ((SameTree.setBest _ p).ok hset)), rfl⟩

/-! ## Moves -/

/-- An event that concerns peers only. -/
def Event.toPeers : Event → Prop
  | .misbehaving _ => True
  | .askFor _ => True
  | .pushGetBlocks _ => True
  | .pushInventory _ => True
  | _ => False

/-- A node without its pool, its orphans and the checkpoints it waits for or has refused. -/
def Node.chainOnly (node : Node) : Node :=
  { node with
    mempool := ⟨∅, ∅⟩
    mapOrphanBlocks := ∅
    mapOrphanBlocksByPrev := []
    setStakeSeenOrphan := ∅
    hashPendingCheckpoint := 0
    hashInvalidCheckpoint := 0 }

/-- Nothing has changed in the tree, the files, the database and the best chain. -/
structure Aside (w w' : World) : Prop where
  node : w'.node.chainOnly = w.node.chainOnly
  log : ∃ evs, w'.log = w.log ++ evs ∧ ∀ e ∈ evs, e.toPeers

instance : Std.Refl Aside :=
  ⟨fun _ => ⟨rfl, [], (List.append_nil _).symm, fun _ he => absurd he List.not_mem_nil⟩⟩

instance : IsTrans World Aside := by
  refine ⟨fun w w' w'' h h' => ⟨h'.node.trans h.node, ?_⟩⟩
  obtain ⟨evs, hlog, hevs⟩ := h.log
  obtain ⟨evs', hlog', hevs'⟩ := h'.log
  refine ⟨evs ++ evs', by rw [hlog', hlog, List.append_assoc], fun e he => ?_⟩
  rcases List.mem_append.mp he with he | he
  · exact hevs e he
  · exact hevs' e he

namespace Aside

theorem of_sameNode {w w' : World} (h : SameNode w w') : Aside w w' :=
  ⟨by rw [h.node], [], by rw [h.log, List.append_nil], fun _ he => absurd he List.not_mem_nil⟩

theorem of_reads {α : Type} {x : NodeM α} (h : Reads x) : Keeps Aside x :=
  h.mono fun _ _ => of_sameNode

theorem emit {e : Event} (he : e.toPeers) : Keeps Aside (emit e) := fun _ =>
  ⟨rfl, [e], rfl, fun _ he' => List.mem_singleton.mp he' ▸ he⟩

theorem modifyNode {f : Node → Node} (h : ∀ node, (f node).chainOnly = node.chainOnly) :
    Keeps Aside (modifyNode f) := fun w =>
  ⟨h w.node, [], (List.append_nil _).symm, fun _ he => absurd he List.not_mem_nil⟩

theorem of_poolOnly {α : Type} {x : NodeM α} (h : Keeps PoolOnly x) : Keeps Aside x :=
  h.mono fun _ _ hpool => ⟨by rw [hpool.node]; rfl, [], by rw [hpool.log, List.append_nil],
    fun _ he => absurd he List.not_mem_nil⟩

end Aside

/-- `hashCheckpoint` is a proper descendant of the sync-checkpoint. -/
def Node.Extends (node : Node) (hashCheckpoint : Uint256) : Prop :=
  ∃ xs, xs ≠ [] ∧ Branch node.parent hashCheckpoint xs node.hashSyncCheckpoint

/-- `p` is `q` or descends from it. -/
def Node.Above (node : Node) (p q : Uint256) : Prop := ∃ xs, Branch node.parent p xs q

/-- Where the checkpoints are strict, the block is above the sync-checkpoint. -/
def Guarded (env : Env) (node : Node) (p : Uint256) : Prop :=
  env.fTestNet = false → env.checkpointsMode = .strict → node.Above p node.hashSyncCheckpoint

/-- The block is in the main chain, by the test of the source. -/
def Node.InMainChain (node : Node) (p : Uint256) : Prop :=
  ∃ index, node.index? p = some index ∧ node.isInMainChain p index = true

/-- What `AcceptBlock` has checked of a block when it stores it. -/
structure Acceptable (env : Env) (node : Node) (block : CBlock) (indexPrev : CBlockIndex) :
    Prop where
  new : node.mapBlockIndex.contains (block.getHash env) = false
  prev : node.index? block.hashPrevBlock = some indexPrev
  context : block.checkContext env node indexPrev = .ok ()
  sync : env.checkpointsMode = .strict → ∃ w w', w.node = node ∧
    checkSync env (block.getHash env) block.hashPrevBlock w = .ok true w'
  height : block.startsWithHeight (indexPrev.nHeight + 1) = true

/-- One move of a node. -/
inductive Move (env : Env) : World → World → Prop where
  /-- The tree and the best chain stay as they are. -/
  | aside {w w' : World} (h : Aside w w') : Move env w w'
  /-- A block has been stored and put into the index. -/
  | added {block : CBlock} {indexPrev index : CBlockIndex} {nFile nBlockPos : Nat}
      {hashProof : Uint256} {w w₁ w' : World} (haccept : Acceptable env w.node block indexPrev)
      (hwrite : writeToDisk block w = .ok (nFile, nBlockPos) w₁)
      (hinsert : block.insertIndex env nFile nBlockPos hashProof w₁ = .ok index w') : Move env w w'
  /-- A block has been stored, but could not be put into the index or its record not be
  written. -/
  | unrecorded {block : CBlock} {indexPrev : CBlockIndex} {nFile nBlockPos nDoS : Nat}
      {hashProof : Uint256} {text : String} {w w₁ w' : World}
      (haccept : Acceptable env w.node block indexPrev)
      (hwrite : writeToDisk block w = .ok (nFile, nBlockPos) w₁)
      (hinsert : block.insertIndex env nFile nBlockPos hashProof w₁ = .error (.reject nDoS text) w') :
      Move env w w'
  /-- The best chain has been set. -/
  | setBest {block : CBlock} {p : Uint256} {w w' : World}
      (hstored : w.node.storedBlock p = some block) (hhash : block.getHash env = p)
      (hguarded : Guarded env w.node p) (hrun : block.setBestChain env p w = .ok () w') : Move env w w'
  /-- The best chain could not be set. -/
  | setBestFailed {block : CBlock} {p : Uint256} {nDoS : Nat} {text : String} {w w' : World}
      (hstored : w.node.storedBlock p = some block) (hhash : block.getHash env = p)
      (hrun : block.setBestChain env p w = .error (.reject nDoS text) w') : Move env w w'
  /-- The sync-checkpoint has been moved. -/
  | checkpoint {hashCheckpoint : Uint256} {w w' : World} (hextends : w.node.Extends hashCheckpoint)
      (hmain : w.node.InMainChain hashCheckpoint)
      (hrun : writeSyncCheckpoint hashCheckpoint w = .ok () w') : Move env w w'
  /-- The sync-checkpoint could not be written. -/
  | checkpointFailed {hashCheckpoint : Uint256} {nDoS : Nat} {text : String} {w w' : World}
      (hrun : writeSyncCheckpoint hashCheckpoint w = .error (.reject nDoS text) w') : Move env w w'

/-- A sequence of moves. -/
abbrev Moves (env : Env) : World → World → Prop := Relation.ReflTransGen (Move env)

namespace Moves

variable {env : Env}

theorem of_aside {α : Type} {x : NodeM α} (h : Keeps Aside x) : Steps (Moves env) x :=
  Steps.of_keeps (h.mono fun _ _ haside => .single (.aside haside))

theorem of_reads {α : Type} {x : NodeM α} (h : Reads x) : Steps (Moves env) x :=
  of_aside (Aside.of_reads h)

theorem setBestChain {block : CBlock} {p : Uint256} {w : World}
    (hstored : w.node.storedBlock p = some block) (hhash : block.getHash env = p)
    (hguarded : Guarded env w.node p) : StepsAt (Moves env) w (block.setBestChain env p) :=
  ⟨fun _ _ h => .single (.setBest hstored hhash hguarded h),
    fun _ _ _ h => .single (.setBestFailed hstored hhash h)⟩

end Moves

/-! ## The sync-checkpoint -/

theorem readBlock_hash {env : Env} {p : Uint256} {block : CBlock} {w w' : World}
    (h : readBlock env p w = .ok (some block) w') : block.getHash env = p := by
  obtain ⟨index, -, h⟩ := deref_bind_eq_ok.mp h
  obtain ⟨r, w₁, -, h⟩ := bind_eq_ok.mp h
  cases r with
  | none => exact absurd (pure_eq_ok.mp h).1 (by simp)
  | some block' =>
    dsimp only at h
    split at h
    · next heq =>
      obtain ⟨hblock, -⟩ := pure_eq_ok.mp h
      rw [Option.some.inj hblock]
      exact heq
    · exact absurd (pure_eq_ok.mp h).1 (by simp)

theorem traceBack_branch {node : Node} {nHeight fuel : Nat} {p q : Uint256} {index : CBlockIndex}
    (h : traceBack node nHeight fuel p = some (q, index)) :
    (∃ xs, Branch node.parent p xs q) ∧ node.index? q = some index ∧ index.nHeight ≤ nHeight := by
  induction fuel generalizing p with
  | zero => exact absurd h (by simp [traceBack])
  | succ fuel ih =>
    rw [traceBack] at h
    cases hp : node.index? p with
    | none => rw [hp] at h; exact absurd h (by simp)
    | some index' =>
      rw [hp] at h
      dsimp only at h
      split at h
      · next hle =>
        obtain ⟨rfl, rfl⟩ := Prod.mk.inj (Option.some.inj h)
        exact ⟨⟨[], .nil _⟩, hp, hle⟩
      · obtain ⟨pprev, hprev, h⟩ := Option.bind_eq_some_iff.mp h
        obtain ⟨⟨xs, hbranch⟩, hq, hle⟩ := ih h
        have hparent : node.parent p = some pprev := by rw [Node.parent, hp]; exact hprev
        exact ⟨⟨p :: xs, .cons hparent hbranch⟩, hq, hle⟩

/-- A checkpoint that is found valid is a proper descendant of the current one. -/
theorem validateSyncCheckpoint_ok {hashCheckpoint : Uint256} {w w' : World}
    (h : validateSyncCheckpoint hashCheckpoint w = .ok true w') :
    w.node.Extends hashCheckpoint ∧ w' = w := by
  unfold validateSyncCheckpoint at h
  rw [getNode_bind] at h
  cases hsync : w.node.index? w.node.hashSyncCheckpoint with
  | none =>
    rw [hsync] at h
    exact absurd (pure_eq_ok.mp h).1 (by simp)
  | some indexSync =>
    cases hrecv : w.node.index? hashCheckpoint with
    | none =>
      rw [hsync, hrecv] at h
      exact absurd (pure_eq_ok.mp h).1 (by simp)
    | some indexRecv =>
      rw [hsync, hrecv] at h
      dsimp only at h
      split at h
      · -- an ancestor of the current checkpoint is refused, whether it is one or not
        cases htrace : traceBack w.node indexRecv.nHeight (w.node.mapBlockIndex.size + 1)
            w.node.hashSyncCheckpoint with
        | none =>
          rw [htrace] at h
          exact absurd (pure_eq_ok.mp h).1 (by simp)
        | some found =>
          rw [htrace] at h
          obtain ⟨_, w₁, -, h⟩ := bind_eq_ok.mp h
          exact absurd (pure_eq_ok.mp h).1 (by simp)
      · next hheight =>
        cases htrace : traceBack w.node indexSync.nHeight (w.node.mapBlockIndex.size + 1)
            hashCheckpoint with
        | none =>
          rw [htrace] at h
          exact absurd (pure_eq_ok.mp h).1 (by simp)
        | some found =>
          rw [htrace] at h
          dsimp only at h
          split at h
          · obtain ⟨_, w₁, -, h⟩ := bind_eq_ok.mp h
            exact absurd (pure_eq_ok.mp h).1 (by simp)
          · next heq =>
            obtain ⟨⟨xs, hbranch⟩, -, -⟩ := traceBack_branch htrace
            rw [Decidable.not_not.mp heq] at hbranch
            refine ⟨⟨xs, ?_, hbranch⟩, (pure_eq_ok.mp h).2⟩
            rintro rfl
            cases hbranch
            rw [hsync] at hrecv
            obtain rfl := Option.some.inj hrecv
            exact hheight (Nat.le_refl _)

theorem aside_setInvalid (hash : Uint256) : Keeps Aside (setInvalid hash) :=
  Aside.modifyNode fun _ => rfl

theorem aside_setPending (hash : Uint256) : Keeps Aside
    (modifyNode fun node => { node with hashPendingCheckpoint := hash }) :=
  Aside.modifyNode fun _ => rfl

theorem aside_validateSyncCheckpoint (hashCheckpoint : Uint256) :
    Keeps Aside (validateSyncCheckpoint hashCheckpoint) := by
  refine Keeps.bind (Aside.of_reads Reads.getNode) fun node => ?_
  cases node.index? node.hashSyncCheckpoint with
  | none => exact Keeps.pure _
  | some indexSync =>
    cases node.index? hashCheckpoint with
    | none => exact Keeps.pure _
    | some indexRecv =>
      refine Keeps.ite ?_ ?_
      · cases traceBack node indexRecv.nHeight (node.mapBlockIndex.size + 1)
            node.hashSyncCheckpoint with
        | none => exact Keeps.pure _
        | some found =>
          exact Keeps.bind (Keeps.ite (aside_setInvalid _) (Keeps.pure _)) fun _ => Keeps.pure _
      · cases traceBack node indexSync.nHeight (node.mapBlockIndex.size + 1) hashCheckpoint with
        | none => exact Keeps.pure _
        | some found =>
          exact Keeps.ite (Keeps.bind (aside_setInvalid _) fun _ => Keeps.pure _) (Keeps.pure _)

/-- A successful `SetBestChain` has made the block the best one. -/
theorem setBestChain_pindexBest {env : Env} {block : CBlock} {p : Uint256} {w w' : World} {u : Unit}
    (h : block.setBestChain env p w = .ok u w') :
    w'.node.pindexBest = some p ∧ ∃ index, w'.node.index? p = some index := by
  obtain ⟨w₁, w₂, -, -, hset, -, rfl⟩ := setBestChain_ok h
  obtain ⟨index, hp, hset⟩ := deref_bind_eq_ok.mp hset
  obtain ⟨-, rfl⟩ := EStateM.Result.ok.inj hset
  exact ⟨rfl, index, hp⟩

theorem Node.Extends.above {node : Node} {hashCheckpoint : Uint256}
    (h : node.Extends hashCheckpoint) : node.Above hashCheckpoint node.hashSyncCheckpoint := by
  obtain ⟨xs, -, hbranch⟩ := h
  exact ⟨xs, hbranch⟩

/-- What `SetBestChain` is called for when a checkpoint is not in the main chain. -/
theorem switchToCheckpoint_moves {env : Env} {hashCheckpoint : Uint256} {fSetInvalid : Bool}
    {eRead eSwitch : Exit} {w : World} (hextends : w.node.Extends hashCheckpoint) :
    StepsAt (Moves env) w (switchToCheckpoint env hashCheckpoint fSetInvalid eRead eSwitch) := by
  refine StepsAt.getNode_bind ?_
  refine StepsAt.bind (Moves.of_reads (Reads.deref _) w) fun index w₀ hderef => ?_
  rw [show w₀ = w from (deref_ok hderef).2]
  split
  · exact Steps.pure _ w
  refine StepsAt.bind (Moves.of_reads (Reads.readBlock env hashCheckpoint) w) fun found w₁ hread => ?_
  cases found with
  | none => exact Steps.throw _ _
  | some block =>
    obtain ⟨hstored, hsame⟩ := readBlock_ok hread
    rw [← hsame.node] at hstored hextends
    refine StepsAt.attempt_bind (Moves.setBestChain hstored (readBlock_hash hread)
      fun _ _ => hextends.above) (fun _ w₂ _ => Steps.pure _ w₂) (fun _ _ w₂ _ => ?_) fun _ _ => ⟨_, rfl⟩
    exact Steps.bind (Moves.of_aside (Keeps.ite (aside_setInvalid _) (Keeps.pure _)))
      (fun _ => Steps.throw _) w₂

/-- After it the checkpoint is in the main chain, and the tree is the same. -/
theorem switchToCheckpoint_ok {env : Env} {hashCheckpoint : Uint256} {fSetInvalid : Bool}
    {eRead eSwitch : Exit} {w w' : World} {u : Unit}
    (h : switchToCheckpoint env hashCheckpoint fSetInvalid eRead eSwitch w = .ok u w') :
    w'.node.beside = w.node.beside ∧ SameCore w.node w'.node ∧
      w'.node.InMainChain hashCheckpoint := by
  unfold switchToCheckpoint at h
  rw [getNode_bind] at h
  obtain ⟨index, hp, h⟩ := deref_bind_eq_ok.mp h
  split at h
  · next hmain =>
    obtain ⟨-, rfl⟩ := pure_eq_ok.mp h
    exact ⟨rfl, SameCore.refl _, index, hp, hmain⟩
  · obtain ⟨found, w₁, hread, h⟩ := bind_eq_ok.mp h
    cases found with
    | none => exact absurd h error_ne_ok
    | some block =>
      obtain ⟨r, w₂, hattempt, h⟩ := bind_eq_ok.mp h
      rcases attempt_eq_ok.mp hattempt with ⟨_, rfl, hrun⟩ | ⟨e, rfl, hrun⟩
      · obtain ⟨-, rfl⟩ := pure_eq_ok.mp h
        obtain ⟨hbest, index', hp'⟩ := setBestChain_pindexBest hrun
        obtain ⟨w₃, w₄, -, -, -, htree, rfl⟩ := setBestChain_ok hrun
        have hsame := IsTrans.trans _ _ _ (SameTree.of_sameNode (readBlock_ok hread).2) htree
        refine ⟨hsame.beside, hsame.core, index', hp', ?_⟩
        rw [Node.isInMainChain, hbest]
        simp
      · cases e with
        | reject n t =>
          obtain ⟨_, w₃, -, h⟩ := bind_eq_ok.mp h
          exact absurd h error_ne_ok
        | abort what => exact absurd h error_ne_ok

theorem Node.Extends.of_core {node node' : Node} {hashCheckpoint : Uint256}
    (hbeside : node'.beside = node.beside) (hcore : SameCore node node')
    (hextends : node.Extends hashCheckpoint) : node'.Extends hashCheckpoint := by
  have hsync : node'.beside.hashSyncCheckpoint = node.beside.hashSyncCheckpoint := by rw [hbeside]
  obtain ⟨xs, hne, hbranch⟩ := hextends
  exact ⟨xs, hne, hcore.parent ▸ hsync ▸ hbranch⟩

/-- A `WriteSyncCheckpoint` that fails has dropped its transaction. -/
theorem reject_writeSyncCheckpoint {hashCheckpoint : Uint256} {w w' : World} {nDoS : Nat}
    {text : String} (h : writeSyncCheckpoint hashCheckpoint w = .error (.reject nDoS text) w') :
    Kept w w' ∧ Dropped w' := by
  unfold writeSyncCheckpoint at h
  rcases bind_eq_error.mp h with h | ⟨_, w₁, hbegin, h⟩
  · obtain ⟨what, hwhat⟩ := OnlyAborts.txnBegin _ _ _ h
    exact absurd hwhat (by simp)
  obtain ⟨hkept, hbatch, -⟩ := kept_txnBegin hbegin
  have hopen : w₁.node.txdb.activeBatch.isSome = true := by rw [hbatch]; rfl
  rw [bind_run, change_open _ hbatch] at h
  have hdelta := (change_delta _ hopen
    (change_open (.put .hashSyncCheckpoint (.hash hashCheckpoint)) hbatch)).2
  obtain ⟨hkept', hdropped⟩ := reject_after_commit (OnlyAborts.modifyNode _) h
  exact ⟨hkept.trans ((Kept.of_inTxn (fun _ => ⟨_, _, hdelta⟩) hopen).trans hkept'), hdropped⟩

theorem writeSyncCheckpoint_moves {env : Env} {hashCheckpoint : Uint256} {w : World}
    (hextends : w.node.Extends hashCheckpoint) (hmain : w.node.InMainChain hashCheckpoint) :
    StepsAt (Moves env) w (writeSyncCheckpoint hashCheckpoint) :=
  ⟨fun _ _ h => .single (.checkpoint hextends hmain h),
    fun _ _ _ h => .single (.checkpointFailed h)⟩

/-- A checkpoint is accepted once it is valid and in the main chain. -/
theorem acceptCheckpoint_moves {env : Env} {hashCheckpoint : Uint256} {fSetInvalid : Bool}
    {eRead eSwitch : Exit} {text : String} {w : World}
    (hextends : w.node.Extends hashCheckpoint) :
    StepsAt (Moves env) w (do
      switchToCheckpoint env hashCheckpoint fSetInvalid eRead eSwitch
      (writeSyncCheckpoint hashCheckpoint).adaptExcept (Exit.because text)
      modifyNode fun node => { node with hashPendingCheckpoint := 0 }) := by
  refine StepsAt.bind (switchToCheckpoint_moves hextends) fun _ w₁ hswitch => ?_
  obtain ⟨hbeside, hcore, hmain⟩ := switchToCheckpoint_ok hswitch
  refine StepsAt.bind (StepsAt.adaptExcept Exit.because_eq_reject
    (writeSyncCheckpoint_moves (hextends.of_core hbeside hcore) hmain)) fun _ w₂ _ => ?_
  exact Moves.of_aside (aside_setPending 0) w₂

theorem acceptPendingSyncCheckpoint_moves (env : Env) :
    Steps (Moves env) (acceptPendingSyncCheckpoint env) := by
  refine Steps.bind (Moves.of_reads Reads.getNode) fun node => Steps.ite (fun w => ?_) (Steps.throw _)
  refine StepsAt.bind (Moves.of_aside (aside_validateSyncCheckpoint _) w) fun valid w₁ hvalid => ?_
  cases valid with
  | false =>
    rw [if_pos (show (!false) = true from rfl)]
    exact Steps.bind (Moves.of_aside (aside_setPending 0)) (fun _ => Steps.throw _) w₁
  | true =>
    obtain ⟨hextends, rfl⟩ := validateSyncCheckpoint_ok hvalid
    exact acceptCheckpoint_moves hextends

theorem processSyncCheckpoint_moves (env : Env) (pfrom signed : Bool) (hashCheckpoint : Uint256) :
    Steps (Moves env) (processSyncCheckpoint env pfrom signed hashCheckpoint) := by
  refine Steps.bind (Moves.of_reads (Reads.require _ _)) fun _ =>
    Steps.bind (Moves.of_reads Reads.getNode) fun node => Steps.ite ?_ fun w => ?_
  · refine Moves.of_aside (Keeps.bind (aside_setPending _) fun _ =>
      Keeps.bind (Keeps.ite ?_ (Keeps.pure _)) fun _ => Keeps.throw _)
    exact Keeps.bind (Aside.emit trivial) fun _ => Aside.emit trivial
  · refine StepsAt.bind (Moves.of_aside (aside_validateSyncCheckpoint _) w)
      fun valid w₁ hvalid => ?_
    cases valid with
    | false => exact Steps.throw _ w₁
    | true =>
      obtain ⟨hextends, rfl⟩ := validateSyncCheckpoint_ok hvalid
      exact acceptCheckpoint_moves hextends

/-! ## Blocks -/

theorem failsClean_writeToDisk (block : CBlock) : FailsClean (writeToDisk block) := by
  refine FailsClean.bind Reads.diskOk fun ok => FailsClean.bind Reads.getNode fun node => ?_
  cases node.files.appendBlockFile with
  | none => exact fun _ _ _ h => (Reads.throw _).error h
  | some nFile =>
    refine FailsClean.bind (Reads.require _ _) fun _ => ?_
    exact fun _ _ _ h => absurd h.symm error_ne_ok

/-- The state in which `AddToBlockIndex` goes on to write the record of the block. -/
def World.inserted (env : Env) (w : World) (block : CBlock) (index : CBlockIndex) : World :=
  { w with
    node := { w.node.setIndex (block.getHash env) index with
      setStakeSeen :=
        if index.isProofOfStake then insert (index.prevoutStake, index.nStakeTime) w.node.setStakeSeen
        else w.node.setStakeSeen }
    log := w.log ++ [.indexed w.sys (block.getHash env)] }

/-- `index` is the object that `AddToBlockIndex` makes of a block that is new. -/
def CBlock.IsNewIndex (env : Env) (node : Node) (block : CBlock) (nFile nBlockPos : Nat)
    (hashProof : Uint256) (index : CBlockIndex) : Prop :=
  node.mapBlockIndex.contains (block.getHash env) = false ∧
    ∃ modifier, node.computeNextStakeModifier env
        (block.newIndex env node nFile nBlockPos hashProof).pprev = some modifier ∧
      index = CBlock.finishIndex env node (block.newIndex env node nFile nBlockPos hashProof) modifier

theorem txnCommit_false {w w' : World} (h : txnCommit w = .ok false w') :
    w'.node = { w.node with txdb := ⟨w.node.txdb.pdb, none⟩ } ∧ w'.log = w.log ++ [.dropped] := by
  obtain ⟨status, w₁, hstatus, h⟩ := bind_eq_ok.mp h
  have hsame := Reads.diskOk.ok hstatus
  rw [getNode_bind, hsame.node] at h
  cases hbatch : w.node.txdb.activeBatch with
  | none =>
    simp only [CTxDB.txnCommit, hbatch] at h
    exact absurd h error_ne_ok
  | some batch =>
    simp only [CTxDB.txnCommit, hbatch] at h
    rw [modifyNode_bind] at h
    obtain ⟨rfl, rfl⟩ := EStateM.Result.ok.inj h
    rw [hsame.node, hsame.log]
    exact ⟨rfl, rfl⟩

/-- The end of `AddToBlockIndex` before the best chain: one record in a transaction. -/
def CBlock.recordIndex (env : Env) (index : CBlockIndex) : NodeM CBlockIndex := do
  txnBegin
  let _ ← writeBlockIndex env (CDiskBlockIndex.ofIndex index)
  let ok ← txnCommit
  require ok .returnFalse
  pure index

section insertIndex

variable {env : Env} {block : CBlock} {index index' : CBlockIndex} {nFile nBlockPos nDoS : Nat}
  {hashProof : Uint256} {text : String} {w w' : World}

theorem CBlock.recordIndex_ok (h : CBlock.recordIndex env index w = .ok index' w') :
    index' = index ∧ w.node.txdb.activeBatch = none ∧
      w'.node = { w.node with
        txdb := ⟨(recordOp env (CDiskBlockIndex.ofIndex index)).apply w.node.txdb.pdb, none⟩ } ∧
      w'.log = w.log ++ [.committed] := by
  obtain ⟨_, w₁, hbegin, h⟩ := bind_eq_ok.mp h
  obtain ⟨hclosed, rfl⟩ := txnBegin_ok hbegin
  rw [bind_run, writeBlockIndex_run w.open_begun] at h
  obtain ⟨ok, w₂, hcommit, h⟩ := bind_eq_ok.mp h
  obtain ⟨rfl, h⟩ := require_bind_eq_ok.mp h
  obtain ⟨rfl, rfl⟩ := pure_eq_ok.mp h
  obtain ⟨hnode, hlog⟩ := txnCommit_ok (w.open_begun.addOps _) hcommit
  rw [World.view_addOps w.open_begun] at hnode
  exact ⟨rfl, hclosed, hnode, hlog⟩

theorem CBlock.recordIndex_reject
    (h : CBlock.recordIndex env index w = .error (.reject nDoS text) w') :
    w'.node = { w.node with txdb := ⟨w.node.txdb.pdb, none⟩ } ∧ w'.log = w.log ++ [.dropped] := by
  rcases bind_eq_error.mp h with h | ⟨_, w₁, hbegin, h⟩
  · obtain ⟨what, hwhat⟩ := OnlyAborts.txnBegin _ _ _ h
    exact absurd hwhat (by simp)
  obtain ⟨-, rfl⟩ := txnBegin_ok hbegin
  rw [bind_run, writeBlockIndex_run w.open_begun] at h
  rcases bind_eq_error.mp h with h | ⟨ok, w₂, hcommit, h⟩
  · obtain ⟨what, hwhat⟩ := onlyAborts_txnCommit _ _ _ h
    exact absurd hwhat (by simp)
  cases ok with
  | true => exact absurd h.symm error_ne_ok
  | false =>
    obtain ⟨-, rfl⟩ := EStateM.Result.error.inj h
    obtain ⟨hnode, hlog⟩ := txnCommit_false hcommit
    exact ⟨hnode, hlog⟩

theorem CBlock.insertIndex_ok (h : block.insertIndex env nFile nBlockPos hashProof w = .ok index w') :
    block.IsNewIndex env w.node nFile nBlockPos hashProof index ∧
      w.node.txdb.activeBatch = none ∧
      w'.node = { (w.inserted env block index).node with
        txdb := ⟨(recordOp env (CDiskBlockIndex.ofIndex index)).apply w.node.txdb.pdb, none⟩ } ∧
      w'.log = w.log ++ [.indexed w.sys (block.getHash env), .committed] := by
  unfold CBlock.insertIndex at h
  rw [getNode_bind] at h
  obtain ⟨hnew, h⟩ := require_bind_eq_ok.mp h
  dsimp only at h
  cases hmodifier : w.node.computeNextStakeModifier env
      (block.newIndex env w.node nFile nBlockPos hashProof).pprev with
  | none =>
    rw [hmodifier] at h
    exact absurd h error_ne_ok
  | some modifier =>
    rw [hmodifier] at h
    obtain ⟨rfl, hclosed, hnode, hlog⟩ := CBlock.recordIndex_ok
      (w := w.inserted env block _) h
    refine ⟨⟨by simpa using hnew, modifier, hmodifier, rfl⟩, hclosed, hnode, ?_⟩
    rw [hlog, World.inserted, List.append_assoc]
    rfl

theorem CBlock.insertIndex_reject
    (h : block.insertIndex env nFile nBlockPos hashProof w = .error (.reject nDoS text) w') :
    SameNode w w' ∨ ∃ index, block.IsNewIndex env w.node nFile nBlockPos hashProof index ∧
      w'.node = { (w.inserted env block index).node with txdb := ⟨w.node.txdb.pdb, none⟩ } ∧
      w'.log = w.log ++ [.indexed w.sys (block.getHash env), .dropped] := by
  unfold CBlock.insertIndex at h
  rw [getNode_bind] at h
  rcases bind_eq_error.mp h with h | ⟨_, w₁, hnew, h⟩
  · exact .inl ((Reads.require _ _).error h)
  obtain ⟨hnew, hw⟩ := require_run_eq_ok.mp hnew
  rw [hw] at h
  dsimp only at h
  cases hmodifier : w.node.computeNextStakeModifier env
      (block.newIndex env w.node nFile nBlockPos hashProof).pprev with
  | none =>
    rw [hmodifier] at h
    exact .inl ((Reads.throw _).error h)
  | some modifier =>
    rw [hmodifier] at h
    obtain ⟨hnode, hlog⟩ := CBlock.recordIndex_reject (w := w.inserted env block _) h
    refine .inr ⟨_, ⟨by simpa using hnew, modifier, hmodifier, rfl⟩, hnode, ?_⟩
    rw [hlog, World.inserted, List.append_assoc]
    rfl

end insertIndex

/-- The block that has just been put into the index is the one that was stored. -/
theorem added_storedBlock {env : Env} {block : CBlock} {index : CBlockIndex} {nFile nBlockPos : Nat}
    {hashProof : Uint256} {w w₁ w' : World}
    (hwrite : writeToDisk block w = .ok (nFile, nBlockPos) w₁)
    (hinsert : block.insertIndex env nFile nBlockPos hashProof w₁ = .ok index w') :
    w'.node.storedBlock (block.getHash env) = some block := by
  obtain ⟨hvalid, -, -, hput⟩ := writeToDisk_ok hwrite
  obtain ⟨⟨-, modifier, -, rfl⟩, -, hnode, -⟩ := CBlock.insertIndex_ok hinsert
  have hindex : w'.node.index? (block.getHash env) = some (CBlock.finishIndex env w₁.node
      (block.newIndex env w₁.node nFile nBlockPos hashProof) modifier) := by
    rw [hnode]
    exact (Node.index?_setIndex _ _ _ _).trans (if_pos rfl)
  rw [Node.storedBlock, hindex, Option.bind_some, hnode]
  show w₁.node.files.blockAt[(⟨nFile, nBlockPos⟩ : FilePos)]? = some block
  rw [hput]
  exact (BlockFiles.put_holds hvalid).stored

/-- A new block passes `CheckSync` only above the sync-checkpoint. -/
theorem checkSync_above {env : Env} {hash pindexPrev : Uint256} {w w' : World}
    (hnet : env.fTestNet = false) (hnew : w.node.mapBlockIndex.contains hash = false)
    (h : checkSync env hash pindexPrev w = .ok true w') :
    w.node.Above pindexPrev w.node.hashSyncCheckpoint := by
  unfold checkSync at h
  rw [if_neg (by rw [hnet]; simp), getNode_bind] at h
  obtain ⟨indexPrev, -, h⟩ := deref_bind_eq_ok.mp h
  obtain ⟨indexSync, hsync, h⟩ := deref_bind_eq_ok.mp h
  split at h
  · cases htrace : traceBack w.node indexSync.nHeight (w.node.mapBlockIndex.size + 1) pindexPrev with
    | none =>
      rw [htrace] at h
      exact absurd (pure_eq_ok.mp h).1 (by simp)
    | some found =>
      rw [htrace] at h
      obtain ⟨hfound, -⟩ := pure_eq_ok.mp h
      obtain ⟨hbranch, -, -⟩ := traceBack_branch htrace
      obtain ⟨-, heq⟩ : indexSync.nHeight ≤ found.2.nHeight ∧
          found.1 = w.node.hashSyncCheckpoint := by simpa using hfound
      exact heq ▸ hbranch
  split at h
  · -- the sync-checkpoint itself is not new
    have heq : hash = w.node.hashSyncCheckpoint := eq_of_beq (pure_eq_ok.mp h).1.symm
    have hmem : w.node.mapBlockIndex.contains hash = true := by
      rw [heq, Std.ExtTreeMap.contains_eq_isSome_getElem?]
      exact Option.isSome_iff_exists.mpr ⟨indexSync, hsync⟩
    rw [hnew] at hmem
    exact absurd hmem (by simp)
  · have hmem := (pure_eq_ok.mp h).1
    rw [hnew] at hmem
    exact absurd hmem.symm (by simp)

/-- Putting a new block into the index keeps the tree below it. -/
theorem Node.Above.inserted {node node' : Node} {hash p q : Uint256}
    (hfresh : node.index? hash = none)
    (hindex : ∀ x, x ≠ hash → node'.index? x = node.index? x) (h : node.Above p q) :
    node'.Above p q := by
  obtain ⟨xs, hbranch⟩ := h
  refine ⟨xs, hbranch.congr fun x b hx => ?_⟩
  have hne : x ≠ hash := by
    rintro rfl
    rw [Node.parent, hfresh] at hx
    exact absurd hx (by simp)
  rw [Node.parent, hindex x hne]
  exact hx

/-- A block that has been accepted is above the sync-checkpoint once it is in the index. -/
theorem added_guarded {env : Env} {block : CBlock} {indexPrev index : CBlockIndex}
    {nFile nBlockPos : Nat} {hashProof : Uint256} {w w₁ w' : World}
    (haccept : Acceptable env w.node block indexPrev)
    (hwrite : writeToDisk block w = .ok (nFile, nBlockPos) w₁)
    (hinsert : block.insertIndex env nFile nBlockPos hashProof w₁ = .ok index w') :
    Guarded env w'.node (block.getHash env) := by
  intro hnet hmode
  obtain ⟨w₂, w₃, hnode₂, hsync⟩ := haccept.sync hmode
  obtain ⟨-, -, -, hput⟩ := writeToDisk_ok hwrite
  obtain ⟨⟨-, modifier, -, rfl⟩, -, hnode, -⟩ := CBlock.insertIndex_ok hinsert
  have hprev : w₁.node.index? block.hashPrevBlock = some indexPrev := by
    rw [hput]
    exact haccept.prev
  have hfresh : w₁.node.index? (block.getHash env) = none := by
    rw [hput]
    refine Std.ExtTreeMap.getElem?_eq_none fun hmem => ?_
    exact absurd (Std.ExtTreeMap.mem_iff_contains.mp hmem) (by rw [haccept.new]; simp)
  obtain ⟨xs, hbelow⟩ : w'.node.Above block.hashPrevBlock w'.node.hashSyncCheckpoint := by
    have habove := checkSync_above hnet (hnode₂ ▸ haccept.new) hsync
    rw [hnode₂] at habove
    have habove : w₁.node.Above block.hashPrevBlock w'.node.hashSyncCheckpoint := by
      rw [hnode]
      show w₁.node.Above block.hashPrevBlock w₁.node.hashSyncCheckpoint
      rw [hput]
      exact habove
    refine habove.inserted hfresh fun x hne => ?_
    rw [hnode]
    exact (Node.index?_setIndex _ _ _ _).trans (if_neg (Ne.symm hne))
  refine ⟨block.getHash env :: xs, .cons ?_ hbelow⟩
  rw [hnode]
  refine (congrArg (Option.bind · CBlockIndex.pprev)
    ((Node.index?_setIndex _ _ _ _).trans (if_pos rfl))).trans ?_
  simp [CBlock.finishIndex, CBlock.newIndex, hprev]

theorem storeBlock_moves {env : Env} {block : CBlock} {indexPrev : CBlockIndex}
    {hashProof : Uint256} {w : World} (haccept : Acceptable env w.node block indexPrev) :
    StepsAt (Moves env) w (block.storeBlock env hashProof) := by
  refine StepsAt.bind (Moves.of_reads Reads.getSys w) fun sys w₁ hsys => ?_
  refine StepsAt.bind (Moves.of_reads (Reads.require _ _) w₁) fun _ w₂ hspace => ?_
  have hsame := IsTrans.trans _ _ _ (Reads.getSys.ok hsys) ((Reads.require _ _).ok hspace)
  -- the three outcomes of the block on its way to the index
  have hwrite : ∀ n t w₃, writeToDisk block w₂ = .error (.reject n t) w₃ → Moves env w₂ w₃ :=
    fun n t w₃ h => .single (.aside (Aside.of_sameNode (failsClean_writeToDisk block _ _ _ h)))
  have hadd : ∀ pos w₃, writeToDisk block w₂ = .ok pos w₃ → (∀ index w₄,
      block.insertIndex env pos.1 pos.2 hashProof w₃ = .ok index w₄ → Moves env w₂ w₄) ∧
      ∀ n t w₄, block.insertIndex env pos.1 pos.2 hashProof w₃ = .error (.reject n t) w₄ →
        Moves env w₂ w₄ :=
    fun pos w₃ h => ⟨fun index w₄ hinsert => .single (.added (hsame.node ▸ haccept) h hinsert),
      fun n t w₄ hinsert => .single (.unrecorded (hsame.node ▸ haccept) h hinsert)⟩
  have hguarded : ∀ (pos : Nat × Nat) w₃ index w₄, writeToDisk block w₂ = .ok pos w₃ →
      block.insertIndex env pos.1 pos.2 hashProof w₃ = .ok index w₄ →
        Guarded env w₄.node (block.getHash env) :=
    fun _ _ _ _ => added_guarded (hsame.node ▸ haccept)
  constructor
  · intro u w' h
    obtain ⟨pos, w₃, hrun, h⟩ := bind_eq_ok.mp h
    have hrun := adaptExcept_eq_ok.mp hrun
    obtain ⟨index, w₄, hinsert, h⟩ := bind_eq_ok.mp (adaptExcept_eq_ok.mp h)
    refine ((hadd pos w₃ hrun).1 index w₄ hinsert).trans ?_
    rw [getNode_bind] at h
    split at h
    · exact (Moves.setBestChain (added_storedBlock hrun hinsert) rfl (hguarded pos w₃ index w₄ hrun hinsert)).1 u w' h
    · rw [(pure_eq_ok.mp h).2]
  · intro n t w' h
    rcases bind_eq_error.mp h with h | ⟨pos, w₃, hrun, h⟩
    · obtain ⟨e, h, he⟩ := adaptExcept_eq_error.mp h
      obtain ⟨n', t', rfl⟩ := Exit.because_eq_reject e n t he
      exact hwrite n' t' w' h
    have hrun := adaptExcept_eq_ok.mp hrun
    obtain ⟨e, h, he⟩ := adaptExcept_eq_error.mp h
    obtain ⟨n', t', rfl⟩ := Exit.because_eq_reject e n t he
    rcases bind_eq_error.mp h with h | ⟨index, w₄, hinsert, h⟩
    · exact (hadd pos w₃ hrun).2 n' t' w' h
    refine ((hadd pos w₃ hrun).1 index w₄ hinsert).trans ?_
    rw [getNode_bind] at h
    split at h
    · exact (Moves.setBestChain (added_storedBlock hrun hinsert) rfl (hguarded pos w₃ index w₄ hrun hinsert)).2 n' t' w' h
    · exact absurd h.symm error_ne_ok

theorem acceptBlock_moves (env : Env) (block : CBlock) :
    Steps (Moves env) (block.acceptBlock env) := by
  intro w
  refine StepsAt.require_bind fun _ => StepsAt.getNode_bind (StepsAt.require_bind fun hnew => ?_)
  cases hprev : w.node.index? block.hashPrevBlock with
  | none => exact Steps.throw _ _
  | some indexPrev =>
    refine StepsAt.fromExcept_bind fun _ hcontext => ?_
    refine StepsAt.bind (Moves.of_reads (Reads.blockProof env block) w) fun hashProof w₁ hproof => ?_
    refine StepsAt.bind (Moves.of_reads (Reads.checkSync env _ _) w₁) fun cpSatisfies w₂ hsync => ?_
    refine StepsAt.require_bind fun hstrict => StepsAt.require_bind fun hheight => ?_
    have hsame₁ := (Reads.blockProof env block).ok hproof
    have hsame := IsTrans.trans _ _ _ hsame₁ ((Reads.checkSync env _ _).ok hsync)
    have haccept : Acceptable env w₂.node block indexPrev := by
      rw [hsame.node]
      refine ⟨by simpa using hnew, hprev, hcontext, fun hmode => ⟨w₁, w₂, hsame₁.node, ?_⟩, hheight⟩
      rw [hmode] at hstrict
      cases cpSatisfies with
      | true => exact hsync
      | false => exact Bool.noConfusion hstrict
    refine StepsAt.bind (storeBlock_moves haccept) fun _ w₃ _ => ?_
    have hpush : ∀ (p : Prop) [Decidable p], Steps (Moves env)
        (if p then emit (.pushInventory (block.getHash env)) else pure ()) := fun _ _ =>
      Moves.of_aside (Keeps.ite (Aside.emit trivial) (Keeps.pure _))
    refine StepsAt.getNode_bind (StepsAt.bind (hpush _ w₃) fun _ w₄ _ => ?_)
    refine StepsAt.attempt_bind (acceptPendingSyncCheckpoint_moves env w₄) ?_ ?_ ?_
    · exact fun _ w₅ _ => Steps.pure _ w₅
    · exact fun _ _ w₅ _ => Steps.pure _ w₅
    · exact fun _ _ => ⟨_, rfl⟩

theorem processOrphan_moves (env : Env) (vWorkQueue : List Uint256) (orphan : Uint256 × CBlock) :
    Steps (Moves env) (processOrphan env vWorkQueue orphan) := by
  have hleaves : Keeps Aside (modifyNode fun node =>
      { node with
        mapOrphanBlocks := node.mapOrphanBlocks.erase (orphan.2.getHash env)
        setStakeSeenOrphan := node.setStakeSeenOrphan.erase orphan.2.getProofOfStake }) :=
    Aside.modifyNode fun _ => rfl
  exact Steps.attempt_bind (acceptBlock_moves env orphan.2)
    (fun _ => Steps.bind (Moves.of_aside hleaves) fun _ => Steps.pure _)
    (fun _ _ => Steps.bind (Moves.of_aside hleaves) fun _ => Steps.pure _) fun _ _ => ⟨_, rfl⟩

theorem processOrphans_moves (env : Env) (fuel : Nat) (vWorkQueue : List Uint256) :
    Steps (Moves env) (processOrphans env fuel vWorkQueue) := by
  induction fuel generalizing vWorkQueue with
  | zero => exact Steps.pure _
  | succ fuel ih =>
    cases vWorkQueue with
    | nil => exact Steps.pure _
    | cons hashPrev vWorkQueue =>
      exact Steps.bind (Moves.of_reads Reads.getNode) fun node =>
        Steps.bind (Steps.foldlM (processOrphan_moves env) _ _) fun vWorkQueue =>
          Steps.bind (Moves.of_aside (Aside.modifyNode fun _ => rfl)) fun _ => ih vWorkQueue

theorem aside_checkNewBlock (env : Env) (pfrom : Bool) (block : CBlock) :
    Keeps Aside (checkNewBlock env pfrom block) := by
  have hrequire : ∀ b e, Keeps Aside (require b e : NodeM Unit) :=
    fun b e => Aside.of_reads (Reads.require b e)
  refine Keeps.bind (Aside.of_reads Reads.getNode) fun node =>
    Keeps.bind (Aside.of_reads Reads.getSys) fun sys => Keeps.bind (hrequire _ _) fun _ =>
      Keeps.bind (hrequire _ _) fun _ => Keeps.bind (hrequire _ _) fun _ =>
        Keeps.bind (Keeps.fromExcept _) fun _ => Keeps.ite (Keeps.pure _) ?_
  exact Keeps.bind (Keeps.ite (Aside.emit trivial) (Keeps.pure _)) fun _ => Keeps.throw _

theorem aside_holdOrphan (env : Env) (pfrom : Bool) (block : CBlock) :
    Keeps Aside (holdOrphan env pfrom block) := by
  refine Keeps.bind (Aside.of_reads Reads.getNode) fun node =>
    Keeps.bind (Aside.of_reads (Reads.require _ _)) fun _ => Keeps.bind ?_ fun _ =>
      Keeps.bind (Aside.of_reads Reads.getNode) fun node =>
        Keeps.bind (Aside.of_reads Reads.getSys) fun sys => Keeps.ite ?_ (Keeps.pure _)
  · exact Aside.modifyNode fun _ => rfl
  · exact Keeps.bind (Aside.emit trivial) fun _ =>
      Keeps.ite (Keeps.pure _) (Aside.emit trivial)

theorem sendSyncCheckpoint_moves (env : Env) :
    Steps (Moves env) (do
      let hashCheckpoint ← autoSelectSyncCheckpoint env
      match ← attempt (sendSyncCheckpoint env hashCheckpoint) with
      | .error (.abort what) => throw (.abort what)
      | _ => pure ()) := by
  refine Steps.bind (Moves.of_reads ?_) fun hashCheckpoint => ?_
  · exact Keeps.bind Reads.getNode fun _ => Keeps.bind (Reads.nonNull _) fun _ =>
      Keeps.bind (Reads.deref _) fun _ => Keeps.pure _
  · refine Steps.attempt_bind (processSyncCheckpoint_moves env false true hashCheckpoint) ?_ ?_ ?_
    · exact fun _ => Steps.pure _
    · exact fun _ _ => Steps.pure _
    · exact fun _ _ => ⟨_, rfl⟩

theorem processBlock_moves (env : Env) (pfrom : Bool) (block : CBlock) :
    Steps (Moves env) (processBlock env pfrom block) := by
  refine Steps.bind (Moves.of_aside (aside_checkNewBlock env pfrom block)) fun _ =>
    Steps.bind (Moves.of_reads Reads.getNode) fun node =>
      Steps.bind (Moves.of_reads Reads.getSys) fun sys => Steps.bind ?_ fun _ => Steps.ite ?_ ?_
  · refine Steps.ite (Steps.pure _) (Moves.of_aside ?_)
    exact Keeps.bind (Aside.of_reads Reads.getNode) fun _ =>
      Keeps.ite (Aside.emit trivial) (Keeps.pure _)
  · exact Moves.of_aside (aside_holdOrphan env pfrom block)
  · refine Steps.bind (Steps.adaptExcept Exit.because_eq_reject (acceptBlock_moves env block))
      fun _ => Steps.bind (Moves.of_reads Reads.getNode) fun node =>
        Steps.bind (processOrphans_moves env _ _) fun _ => Steps.ite ?_ (Steps.pure _)
    exact sendSyncCheckpoint_moves env

/-! ## Runs -/

/-- Every call is a sequence of moves. -/
theorem Call.moves (env : Env) (call : Call) : Steps (Moves env) (call.exec env) := by
  cases call with
  | processBlock pfrom block => exact processBlock_moves env pfrom block
  | processSyncCheckpoint pfrom signed hashCheckpoint =>
    exact processSyncCheckpoint_moves env pfrom signed hashCheckpoint
  | acceptToMemoryPool tx =>
    exact Moves.of_aside (Aside.of_poolOnly (poolOnly_acceptToMemoryPool env tx true))

theorem World.serve_moves {env : Env} {w w' : World} {sys : Sys} {call : Call}
    (h : w.serve env sys call = some w') : Moves env { w with sys := sys } w' := by
  unfold World.serve at h
  cases hrun : call.exec env { w with sys := sys } with
  | ok u w₁ =>
    rw [hrun] at h
    obtain rfl := Option.some.inj h
    exact (Call.moves env call _).1 u _ hrun
  | error e w₁ =>
    rw [hrun] at h
    cases e with
    | reject n t =>
      obtain rfl := Option.some.inj h
      exact (Call.moves env call _).2 n t _ hrun
    | abort what => exact absurd h (by simp)

/-- The states a node reaches are those it gets into by moves from a start. -/
theorem Reaches.moves {env : Env} {w : World} (h : Reaches env w) :
    ∃ w₀, Starts env w₀ ∧ Moves env w₀ w := by
  induction h with
  | @start w h => exact ⟨w, h, .refl⟩
  | serve _ hcall ih =>
    obtain ⟨w₀, hstart, hmoves⟩ := ih
    refine ⟨w₀, hstart, (hmoves.tail ?_).trans (World.serve_moves hcall)⟩
    exact .aside (Aside.of_sameNode ⟨rfl, rfl⟩)

end NoLimitCoin
