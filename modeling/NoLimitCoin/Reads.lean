import NoLimitCoin.ProcessBlock

/-!
# Functions that only read

The checks of a block read the node and the disk and change neither: all they leave behind is
that some disk operations have been used up.

Results: `Reads` for the functions that fetch inputs, check a block in its context and walk
the block index.
-/

namespace NoLimitCoin

open Prog NodeM

/-! ## Runs that begin with a primitive -/

section runs

variable {α : Type} {w w' : World} {a : α}

theorem getNode_bind (f : Node → NodeM α) (w : World) : (getNode >>= f) w = f w.node w := rfl

theorem getSys_bind (f : Sys → NodeM α) (w : World) : (getSys >>= f) w = f w.sys w := rfl

theorem modifyNode_bind (g : Node → Node) (f : Unit → NodeM α) (w : World) :
    (modifyNode g >>= f) w = f () { w with node := g w.node } := rfl

theorem emitCall_bind (e : Node → Sys → Event) (f : Unit → NodeM α) (w : World) :
    (emitCall e >>= f) w = f () { w with log := w.log ++ [e w.node w.sys] } := rfl

theorem deref_bind_eq_ok {p : Uint256} {f : CBlockIndex → NodeM α} :
    (deref p >>= f) w = .ok a w' ↔ ∃ index, w.node.index? p = some index ∧ f index w = .ok a w' := by
  rw [bind_run, deref]
  cases w.node.index? p <;> simp

theorem nonNull_bind_eq_ok {β : Type} {p : Option β} {f : β → NodeM α} :
    (nonNull p >>= f) w = .ok a w' ↔ ∃ b, p = some b ∧ f b w = .ok a w' := by
  rw [bind_run]
  cases p <;> simp [nonNull, pure_run, throw_run]

theorem require_run_eq_ok {b : Bool} {e : Exit} {u : Unit} :
    (require b e : NodeM Unit) w = .ok u w' ↔ b = true ∧ w' = w := by
  cases b with
  | false => exact ⟨fun h => absurd h nofun, fun h => absurd h.1 nofun⟩
  | true => exact pure_eq_ok.trans ⟨fun h => ⟨rfl, h.2⟩, fun h => ⟨rfl, h.2⟩⟩

theorem require_bind_eq_ok {b : Bool} {e : Exit} {f : Unit → NodeM α} :
    (require b e >>= f) w = .ok a w' ↔ b = true ∧ f () w = .ok a w' := by
  rw [bind_run]
  cases b with
  | false => exact ⟨fun h => absurd h nofun, fun h => absurd h.1 nofun⟩
  | true => exact ⟨fun h => ⟨rfl, h⟩, fun h => h.2⟩

theorem fromExcept_bind_eq_ok {β : Type} {x : Except Exit β} {f : β → NodeM α} :
    (fromExcept x >>= f) w = .ok a w' ↔ ∃ b, x = .ok b ∧ f b w = .ok a w' := by
  rw [bind_run]
  cases x <;> simp [fromExcept, pure_run, throw_run]

end runs

/-- Two worlds with the same node and the same log. -/
structure SameNode (w w' : World) : Prop where
  node : w'.node = w.node
  log : w'.log = w.log

instance : Std.Refl SameNode := ⟨fun _ => ⟨rfl, rfl⟩⟩

instance : IsTrans World SameNode :=
  ⟨fun _ _ _ h h' => ⟨h'.node.trans h.node, h'.log.trans h.log⟩⟩

/-- A function that changes nothing but the disk operations to come. -/
abbrev Reads {α : Type} (x : NodeM α) : Prop := Keeps SameNode x

namespace Reads

variable {α β : Type}

theorem pure (a : α) : Reads (Pure.pure a) := Keeps.pure a

theorem throw (e : Exit) : Reads (MonadExcept.throw e : NodeM α) := Keeps.throw e

theorem getNode : Reads getNode := fun _ => ⟨rfl, rfl⟩

theorem getSys : Reads getSys := fun _ => ⟨rfl, rfl⟩

theorem diskOk : Reads diskOk := fun _ => ⟨rfl, rfl⟩

theorem deref (pindex : Uint256) : Reads (deref pindex) := by
  intro w
  unfold NodeM.deref
  split <;> exact ⟨rfl, rfl⟩

theorem nonNull (p : Option α) : Reads (nonNull p) := by
  cases p with
  | none => exact Reads.throw _
  | some a => exact Reads.pure a

theorem readTxIndex (hash : Uint256) : Reads (readTxIndex hash) := fun _ => ⟨rfl, rfl⟩

theorem require (b : Bool) (e : Exit) : Reads (require b e) := by
  cases b with
  | false => exact Reads.throw e
  | true => exact Reads.pure ()

theorem adaptExcept (f : Exit → Exit) {x : NodeM α} (h : Reads x) :
    Reads (x.adaptExcept f) := by
  intro w
  have hx := h w
  unfold EStateM.adaptExcept
  cases hrun : x w <;> rw [hrun] at hx <;> exact hx

theorem readBlockAt (env : Env) (nFile nBlockPos : Nat) (fReadTransactions : Bool) :
    Reads (readBlockAt env nFile nBlockPos fReadTransactions) := by
  refine Keeps.bind diskOk fun ok => Keeps.bind getNode fun node => Keeps.ite (Reads.pure _) ?_
  split
  · exact Reads.pure _
  · exact Keeps.ite (Keeps.ite (Reads.pure _) (Reads.pure _)) (Reads.pure _)

theorem readBlock (env : Env) (pindex : Uint256) : Reads (readBlock env pindex) := by
  refine Keeps.bind (deref pindex) fun index => Keeps.bind (readBlockAt env _ _ _) fun r => ?_
  cases r with
  | none => exact Reads.pure _
  | some block => exact Keeps.ite (Reads.pure _) (Reads.pure _)

theorem readTxAt (pos : CDiskTxPos) : Reads (readTxAt pos) :=
  Keeps.bind diskOk fun _ => Keeps.bind getNode fun _ => Keeps.ite (Reads.pure _) (Reads.pure _)

theorem readTxFromDisk (txdb : TxDB) (prevout : COutPoint) :
    Reads (readTxFromDisk txdb prevout) := by
  unfold NodeM.readTxFromDisk
  split
  · exact Reads.pure _
  · refine Keeps.bind (readTxAt _) fun r => ?_
    cases r with
    | none => exact Reads.pure _
    | some txPrev => exact Keeps.ite (Reads.pure _) (Reads.pure _)

/-! ## Inputs -/

theorem fetchFromPool (txindex : Option CTxIndex) (hash : Uint256) :
    Reads (CTransaction.fetchFromPool txindex hash) := by
  refine Keeps.bind getNode fun node => ?_
  split
  · exact Reads.throw _
  · exact Reads.pure _

theorem fetchInput (mapTestPool : Map Uint256 CTxIndex) (fBlock fMiner : Bool) (inputs : MapPrevTx)
    (txin : CTxIn) : Reads (CTransaction.fetchInput mapTestPool fBlock fMiner inputs txin) := by
  refine Keeps.ite (Reads.pure _) (Keeps.bind (Keeps.ite (Reads.pure _) (readTxIndex _)) ?_)
  intro found
  cases found with
  | none =>
    exact Keeps.ite (Reads.throw _) (Keeps.bind (fetchFromPool _ _) fun _ => Reads.pure _)
  | some txindex =>
    refine Keeps.ite (Keeps.bind (fetchFromPool _ _) fun _ => Reads.pure _)
      (Keeps.bind (readTxAt _) fun r => ?_)
    cases r with
    | none => exact Reads.throw _
    | some txPrev => exact Reads.pure _

theorem fetchInputs (tx : CTransaction) (mapTestPool : Map Uint256 CTxIndex)
    (fBlock fMiner : Bool) : Reads (tx.fetchInputs mapTestPool fBlock fMiner) :=
  Keeps.ite (Reads.pure _) <|
    Keeps.bind (Keeps.foldlM (fetchInput mapTestPool fBlock fMiner) _ _) fun _ =>
      Keeps.bind (require _ _) fun _ => Reads.pure _

theorem acceptInputs (env : Env) (tx : CTransaction) : Reads (tx.acceptInputs env) := by
  refine Keeps.bind (Keeps.attempt (fetchInputs tx _ _ _)) fun r => ?_
  cases r with
  | error e =>
    cases e with
    | reject nDoS text => exact Keeps.ite (Reads.throw _) (Reads.throw _)
    | abort what => exact Reads.throw _
  | ok inputs =>
    exact Keeps.bind (require _ _) fun _ => Keeps.bind getNode fun _ => Keeps.bind getSys fun _ =>
      Keeps.bind (Keeps.fromExcept _) fun _ => Keeps.bind (Keeps.fromExcept _) fun _ =>
        Keeps.bind (Keeps.fromExcept _) fun _ => Keeps.bind (require _ _) fun _ =>
          Keeps.bind (require _ _) fun _ => Keeps.bind (Keeps.fromExcept _) fun _ => Reads.pure _

theorem inputCoinAge (env : Env) (txdb : TxDB) (tx : CTransaction) (bnCentSecond : Option Int)
    (txin : CTxIn) : Reads (CTransaction.inputCoinAge env txdb tx bnCentSecond txin) := by
  cases bnCentSecond with
  | none => exact Reads.pure _
  | some bn =>
    refine Keeps.bind (readTxFromDisk _ _) fun r => ?_
    cases r with
    | none => exact Reads.pure _
    | some prev =>
      refine Keeps.ite (Reads.pure _) (Keeps.bind (readBlockAt _ _ _ _) fun r => ?_)
      cases r with
      | none => exact Reads.pure _
      | some block =>
        refine Keeps.ite (Reads.pure _) ?_
        split
        · exact Reads.throw _
        · exact Reads.pure _

theorem getCoinAge (env : Env) (txdb : TxDB) (tx : CTransaction) :
    Reads (tx.getCoinAge env txdb) := by
  refine Keeps.ite (Reads.pure _) (Keeps.bind (Keeps.foldlM (inputCoinAge env txdb tx) _ _) ?_)
  intro r
  cases r with
  | none => exact Reads.pure _
  | some bn => exact Reads.pure _

/-! ## The checks of a block -/

theorem connectSpend (env : Env) (pindex : Uint256) (posThisTx : CDiskTxPos) (s : ConnectState)
    (tx : CTransaction) : Reads (CBlock.connectSpend env pindex posThisTx s tx) :=
  Keeps.bind (adaptExcept _ (fetchInputs _ _ _ _)) fun _ =>
    Keeps.bind (Keeps.fromExcept _) fun _ => Keeps.bind (require _ _) fun _ =>
      Keeps.bind getNode fun _ => Keeps.bind (Keeps.fromExcept _) fun _ =>
        Keeps.bind (Keeps.fromExcept _) fun _ => Reads.pure _

theorem connectCoinBase (s : ConnectState) (tx : CTransaction) :
    Reads (CBlock.connectCoinBase s tx) :=
  Keeps.bind (Keeps.fromExcept _) fun _ => Keeps.bind (Keeps.fromExcept _) fun _ => Reads.pure _

theorem connectTx (env : Env) (pindex : Uint256) (index : CBlockIndex) (fJustCheck : Bool)
    (s : ConnectState) (tx : CTransaction) :
    Reads (CBlock.connectTx env pindex index fJustCheck s tx) :=
  Keeps.bind (readTxIndex _) fun _ => Keeps.bind (require _ _) fun _ =>
    Keeps.bind (require _ _) fun _ =>
      Keeps.bind (Keeps.ite (connectCoinBase _ _) (connectSpend _ _ _ _ _)) fun _ => Reads.pure _

theorem checkReward (env : Env) (block : CBlock) (s : ConnectState) :
    Reads (block.checkReward env s) := by
  refine Keeps.bind getNode fun node => ?_
  split
  · refine Keeps.bind (getCoinAge _ _ _) fun r => ?_
    cases r with
    | none => exact Reads.throw _
    | some n => exact Keeps.bind (Keeps.fromExcept _) fun _ => require _ _
  · exact Keeps.bind (nonNull _) fun _ => Keeps.bind (deref _) fun _ =>
      Keeps.bind (Keeps.fromExcept _) fun _ => Keeps.bind (Keeps.fromExcept _) fun _ =>
        require _ _
  · exact Reads.throw _

theorem prevMoneySupply (pprev : Option Uint256) : Reads (CBlock.prevMoneySupply pprev) := by
  cases pprev with
  | none => exact Reads.pure _
  | some p => exact Keeps.bind (deref p) fun _ => Reads.pure _

/-! ## Walks along the block index -/

theorem lowerTo (nHeight fuel : Nat) (plonger : Uint256) :
    Reads (lowerTo nHeight fuel plonger) := by
  induction fuel generalizing plonger with
  | zero => exact Reads.throw _
  | succ fuel ih =>
    refine Keeps.bind (deref plonger) fun index => Keeps.ite (Reads.pure _) ?_
    cases index.pprev with
    | none => exact Reads.throw _
    | some pprev => exact ih pprev

theorem findFork (fuel : Nat) (pfork plonger : Uint256) : Reads (findFork fuel pfork plonger) := by
  induction fuel generalizing pfork plonger with
  | zero => exact Reads.throw _
  | succ fuel ih =>
    refine Keeps.ite (Reads.pure _) (Keeps.bind (deref pfork) fun indexFork =>
      Keeps.bind getNode fun node => Keeps.bind (lowerTo _ _ _) fun plonger =>
        Keeps.ite (Reads.pure _) ?_)
    cases indexFork.pprev with
    | none => exact Reads.throw _
    | some pprev => exact ih pprev plonger

theorem branchTo (pfork : Uint256) (fuel : Nat) (pindex : Uint256) :
    Reads (branchTo pfork fuel pindex) := by
  induction fuel generalizing pindex with
  | zero => exact Reads.throw _
  | succ fuel ih =>
    exact Keeps.ite (Reads.pure _) (Keeps.bind (deref pindex) fun index =>
      Keeps.bind (nonNull _) fun pprev => Keeps.bind (ih pprev) fun _ => Reads.pure _)

theorem postpone (nBestTrust : Uint256) (fuel : Nat) (vpindexSecondary : List Uint256)
    (pindex : Uint256) : Reads (postpone nBestTrust fuel vpindexSecondary pindex) := by
  induction fuel generalizing vpindexSecondary pindex with
  | zero => exact Reads.throw _
  | succ fuel ih =>
    refine Keeps.bind (deref pindex) fun index => ?_
    cases index.pprev with
    | none => exact Reads.pure _
    | some pprev =>
      exact Keeps.bind (deref pprev) fun _ => Keeps.ite (ih _ _) (Reads.pure _)

theorem checkProofOfStake (env : Env) (tx : CTransaction) (nBits : Nat) :
    Reads (checkProofOfStake env tx nBits) := by
  refine Keeps.bind (require _ _) fun _ => ?_
  split
  · exact Reads.throw _
  · refine Keeps.bind getNode fun node => Keeps.bind (readTxFromDisk _ _) fun r => ?_
    cases r with
    | none => exact Reads.throw _
    | some prev =>
      refine Keeps.bind (require _ _) fun _ => Keeps.bind (readBlockAt _ _ _ _) fun r => ?_
      cases r with
      | none => exact Reads.throw _
      | some block =>
        dsimp only
        split
        · exact Reads.throw _
        · exact Reads.pure _

theorem blockProof (env : Env) (block : CBlock) : Reads (block.blockProof env) := by
  unfold CBlock.blockProof
  split
  · exact adaptExcept _ (checkProofOfStake _ _ _)
  · exact Reads.pure _

theorem checkSync (env : Env) (hashBlock pindexPrev : Uint256) :
    Reads (Checkpoints.checkSync env hashBlock pindexPrev) := by
  refine Keeps.ite (Reads.pure _) (Keeps.bind getNode fun node => Keeps.bind (deref _) fun _ =>
    Keeps.bind (deref _) fun _ => Keeps.ite ?_ (Keeps.ite (Reads.pure _) (Reads.pure _)))
  split <;> exact Reads.pure _

end Reads

/-- A function that changes nothing but the disk operations to come when it fails. -/
def FailsClean {α : Type} (x : NodeM α) : Prop := ∀ w e w', x w = .error e w' → SameNode w w'

namespace FailsClean

variable {α β : Type}

theorem bind {x : NodeM α} {f : α → NodeM β} (hx : Reads x) (hf : ∀ a, FailsClean (f a)) :
    FailsClean (x >>= f) := by
  intro w e w' h
  rcases bind_eq_error.mp h with h | ⟨a, w₁, h₁, h⟩
  · exact hx.error h
  · exact IsTrans.trans _ _ _ (hx.ok h₁) (hf a w₁ e w' h)

theorem modifyNode (f : Node → Node) : FailsClean (modifyNode f) :=
  fun _ _ _ h => absurd h.symm error_ne_ok

end FailsClean

end NoLimitCoin
