import NoLimitCoin.Node

/-!
# Checks that need no context

`CTransaction::CheckTransaction` and `CBlock::CheckBlock`: what is checked of a block before
its place in the chain is known, and again whenever it is connected.

Results: `checkTransaction_ok` and `checkBlock_ok`, what an accepted transaction and block
satisfy.
-/

namespace NoLimitCoin

/-! ## Transactions -/

namespace CTransaction

/-- The loop of `CheckTransaction` over the outputs: no empty output outside of coin base and
coin stake, and every value and the running total in the money range. -/
def checkOutputs (fMayBeEmpty : Bool) : (nValueOut : Int) → List CTxOut → Except Exit Unit
  | _, [] => .ok ()
  | nValueOut, txout :: rest => do
    require (!(txout.isEmpty && !fMayBeEmpty))
      (.reject 100 "CTransaction::CheckTransaction() : txout empty for user transaction")
    require (decide (0 ≤ txout.nValue))
      (.reject 100 "CTransaction::CheckTransaction() : txout.nValue negative")
    require (decide (txout.nValue ≤ maxMoney))
      (.reject 100 "CTransaction::CheckTransaction() : txout.nValue too high")
    require (moneyRange (nValueOut + txout.nValue))
      (.reject 100 "CTransaction::CheckTransaction() : txout total out of range")
    checkOutputs fMayBeEmpty (nValueOut + txout.nValue) rest

/-- The last check of `CheckTransaction`: the size of a coin base script, and no null input
anywhere else. -/
def checkPrevouts (tx : CTransaction) : Except Exit Unit :=
  match tx.isCoinBase, tx.vin with
  | true, txin :: _ =>
    require (decide (2 ≤ txin.scriptSig.length) && decide (txin.scriptSig.length ≤ 100))
      (.reject 100 "CTransaction::CheckTransaction() : coinbase script size is invalid")
  | _, vin =>
    require (vin.all fun txin => !txin.prevout.isNull)
      (.reject 10 "CTransaction::CheckTransaction() : prevout is null")

/-- `CTransaction::CheckTransaction`. -/
def checkTransaction (tx : CTransaction) : Except Exit Unit := do
  require (!tx.vin.isEmpty) (.reject 10 "CTransaction::CheckTransaction() : vin empty")
  require (!tx.vout.isEmpty) (.reject 10 "CTransaction::CheckTransaction() : vout empty")
  require (decide (tx.getSerializeSize ≤ maxBlockSize))
    (.reject 100 "CTransaction::CheckTransaction() : size limits failed")
  checkOutputs (tx.isCoinBase || tx.isCoinStake) 0 tx.vout
  require (decide (tx.vin.map CTxIn.prevout).Nodup) .returnFalse
  tx.checkPrevouts

end CTransaction

/-! ## Blocks -/

namespace CBlock

/-- One level of the merkle tree from the level below; an odd hash is paired with itself. -/
def merkleLevel (env : Env) : List Uint256 → List Uint256
  | [] => []
  | [a] => [env.hashOf (serializeHash a ++ serializeHash a)]
  | a :: b :: rest => env.hashOf (serializeHash a ++ serializeHash b) :: merkleLevel env rest

/-- The levels above `level`, up to the root.  A level has at most half of the hashes of the
one below, rounded up, so `fuel` is the number of transactions. -/
def merkleLevels (env : Env) : (fuel : Nat) → List Uint256 → List Uint256
  | 0, _ => []
  | fuel + 1, level =>
    if level.length ≤ 1 then []
    else
      let above := merkleLevel env level
      above ++ merkleLevels env fuel above

/-- `vMerkleTree`: the transaction hashes and every level above them. -/
def vMerkleTree (env : Env) (block : CBlock) : List Uint256 :=
  let leaves := block.vtx.map (CTransaction.getHash env)
  leaves ++ merkleLevels env leaves.length leaves

/-- `BuildMerkleTree`: the last hash of the tree. -/
def buildMerkleTree (env : Env) (block : CBlock) : Uint256 :=
  ((block.vMerkleTree env).getLast?).getD 0

/-- `CheckBlockSignature`: a proof-of-work block carries no signature. -/
def checkBlockSignature (env : Env) (block : CBlock) : Bool :=
  match block.isProofOfStake, block.vtx with
  | true, _ :: tx :: _ =>
    match tx.vout with
    | _ :: txout :: _ =>
      !block.vchBlockSig.isEmpty &&
        env.verifyBlockSig txout.scriptPubKey (block.getHash env) block.vchBlockSig
    | _ => false
  | _, _ => block.vchBlockSig.isEmpty

/-- The branch of `CheckBlock` for proof-of-stake blocks. -/
def checkStakeShape (env : Env) (fCheckSig : Bool) (block : CBlock) : Except Exit Unit :=
  match block.isProofOfStake, block.vtx with
  | true, coinbase :: coinstake :: rest => do
    require (match coinbase.vout with
      | [txout] => txout.isEmpty
      | _ => false)
      (.reject 100 "CheckBlock() : coinbase output not empty for proof-of-stake block")
    require coinstake.isCoinStake (.reject 100 "CheckBlock() : second tx is not coinstake")
    require (rest.all fun tx => !tx.isCoinStake)
      (.reject 100 "CheckBlock() : more than one coinstake")
    require (decide (block.getBlockTime = (coinstake.nTime : Int)))
      (.reject 50 "CheckBlock() : coinstake timestamp violation nTimeBlock=%d nTimeTx=%u")
    require (!fCheckSig || block.checkBlockSignature env)
      (.reject 100 "CheckBlock() : bad proof-of-stake block signature")
  | _, _ => .ok ()

/-- The check `CheckBlock` makes of each transaction on its own. -/
def checkTx (block : CBlock) (tx : CTransaction) : Except Exit Unit := do
  tx.checkTransaction
  require (decide ((tx.nTime : Int) ≤ block.getBlockTime))
    (.reject 50 "CheckBlock() : block timestamp earlier than transaction timestamp")

/-- The first transaction is a coin base, the rest are not, and its time is not too early. -/
def checkCoinBase (block : CBlock) : Except Exit Unit :=
  match block.vtx with
  | [] => .error (.reject 100 "CheckBlock() : first tx is not coinbase")
  | coinbase :: rest => do
    require coinbase.isCoinBase (.reject 100 "CheckBlock() : first tx is not coinbase")
    require (rest.all fun tx => !tx.isCoinBase)
      (.reject 100 "CheckBlock() : more than one coinbase")
    require (decide (block.getBlockTime ≤ futureDrift coinbase.nTime))
      (.reject 50 "CheckBlock() : coinbase timestamp is too early")

/-- `CBlock::CheckBlock`. -/
def checkBlock (env : Env) (adjustedTime : Int) (fCheckPOW fCheckMerkleRoot fCheckSig : Bool)
    (block : CBlock) : Except Exit Unit := do
  require (!block.vtx.isEmpty && decide (block.vtx.length ≤ maxBlockSize) &&
      decide (block.getSerializeSize ≤ maxBlockSize))
    (.reject 100 "CheckBlock() : size limits failed")
  require (!(fCheckPOW && block.isProofOfWork &&
      !checkProofOfWork env (block.getHash env) block.nBits))
    (.reject 50 "CheckBlock() : proof of work failed")
  require (decide (block.getBlockTime ≤ futureDrift adjustedTime))
    (.reject 0 "CheckBlock() : block timestamp too far in the future")
  block.checkCoinBase
  block.checkStakeShape env fCheckSig
  block.vtx.forM block.checkTx
  require (decide (block.vtx.map (CTransaction.getHash env)).Nodup)
    (.reject 100 "CheckBlock() : duplicate transaction")
  require (decide ((block.vtx.map CTransaction.getLegacySigOpCount).sum ≤ maxBlockSigops))
    (.reject 100 "CheckBlock() : out-of-bounds SigOpCount")
  require (!(fCheckMerkleRoot && decide (block.hashMerkleRoot ≠ block.buildMerkleTree env)))
    (.reject 100 "CheckBlock() : hashMerkleRoot mismatch")

end CBlock

/-! ## What accepted transactions and blocks satisfy -/

theorem require_eq_ok {b : Bool} {e : Exit} {u : Unit} :
    (require b e : Except Exit Unit) = .ok u ↔ b = true := by
  cases b <;> simp [require, pure, Except.pure, throw, throwThe, MonadExceptOf.throw]

theorem except_seq_eq_ok {β : Type} {x : Except Exit Unit} {f : Unit → Except Exit β} {b : β} :
    (x >>= f) = .ok b ↔ x = .ok () ∧ f () = .ok b := by
  cases x with
  | error e => simp [bind, Except.bind]
  | ok a => simp [bind, Except.bind]

theorem except_bind_eq_ok {α β : Type} {x : Except Exit α} {f : α → Except Exit β} {b : β} :
    (x >>= f) = .ok b ↔ ∃ a, x = .ok a ∧ f a = .ok b := by
  cases x with
  | error e => simp [bind, Except.bind]
  | ok a => simp [bind, Except.bind]

theorem mapError_eq_ok {α : Type} {x : Except Exit α} {f : Exit → Exit} {a : α} :
    x.mapError f = .ok a ↔ x = .ok a := by
  cases x with
  | error e => simp [Except.mapError]
  | ok b => simp [Except.mapError]

theorem forM_eq_ok {α : Type} {f : α → Except Exit Unit} {xs : List α} {u : Unit} :
    List.forM xs f = .ok u ↔ ∀ x ∈ xs, f x = .ok () := by
  induction xs with
  | nil => simp [pure, Except.pure]
  | cons x xs ih =>
    show (f x >>= fun _ => List.forM xs f) = .ok u ↔ _
    rw [except_seq_eq_ok, List.forall_mem_cons, ih]

namespace CTransaction

/-- What `CheckTransaction` guarantees. -/
structure Checked (tx : CTransaction) : Prop where
  vin_ne_nil : tx.vin ≠ []
  vout_ne_nil : tx.vout ≠ []
  nodup_prevouts : (tx.vin.map CTxIn.prevout).Nodup
  values : ∀ txout ∈ tx.vout, 0 ≤ txout.nValue
  prevouts : tx.isCoinBase = false → ∀ txin ∈ tx.vin, txin.prevout.isNull = false

theorem checkOutputs_ok {fMayBeEmpty : Bool} {nValueOut : Int} {vout : List CTxOut}
    (h : checkOutputs fMayBeEmpty nValueOut vout = .ok ()) :
    ∀ txout ∈ vout, 0 ≤ txout.nValue := by
  induction vout generalizing nValueOut with
  | nil => intro txout hmem; cases hmem
  | cons txout rest ih =>
    simp only [checkOutputs, except_seq_eq_ok, require_eq_ok, decide_eq_true_eq] at h
    obtain ⟨-, hnonneg, -, -, hrest⟩ := h
    rw [List.forall_mem_cons]
    exact ⟨hnonneg, ih hrest⟩

theorem checkPrevouts_ok {tx : CTransaction} (h : tx.checkPrevouts = .ok ())
    (hbase : tx.isCoinBase = false) : ∀ txin ∈ tx.vin, txin.prevout.isNull = false := by
  unfold checkPrevouts at h
  rw [hbase] at h
  simp only [require_eq_ok, List.all_eq_true, Bool.not_eq_true'] at h
  exact h

theorem checkTransaction_ok {tx : CTransaction} (h : tx.checkTransaction = .ok ()) :
    tx.Checked := by
  simp only [checkTransaction, except_seq_eq_ok, require_eq_ok, Bool.not_eq_true',
    List.isEmpty_eq_false_iff, decide_eq_true_eq] at h
  obtain ⟨hvin, hvout, -, houtputs, hnodup, hprevouts⟩ := h
  exact ⟨hvin, hvout, hnodup, checkOutputs_ok houtputs, checkPrevouts_ok hprevouts⟩

end CTransaction

namespace CBlock

/-- What `CheckBlock` guarantees, whatever it is told to leave out. -/
structure Checked (env : Env) (block : CBlock) : Prop where
  /-- Exactly the first transaction is a coin base. -/
  coinBase : ∃ coinbase rest, block.vtx = coinbase :: rest ∧ coinbase.isCoinBase = true ∧
    ∀ tx ∈ rest, tx.isCoinBase = false
  /-- In a proof-of-stake block exactly the second transaction is a coin stake. -/
  coinStake : block.isProofOfStake = true → ∃ coinbase coinstake rest,
    block.vtx = coinbase :: coinstake :: rest ∧ coinbase.vout = [CTxOut.empty] ∧
      coinstake.isCoinStake = true ∧ ∀ tx ∈ rest, tx.isCoinStake = false
  txs : ∀ tx ∈ block.vtx, tx.Checked
  nodup_hashes : (block.vtx.map (CTransaction.getHash env)).Nodup

theorem checkCoinBase_ok {block : CBlock} (h : block.checkCoinBase = .ok ()) :
    ∃ coinbase rest, block.vtx = coinbase :: rest ∧ coinbase.isCoinBase = true ∧
      ∀ tx ∈ rest, tx.isCoinBase = false := by
  unfold checkCoinBase at h
  split at h
  · exact absurd h (by simp)
  · next coinbase rest hvtx =>
    simp only [except_seq_eq_ok, require_eq_ok, List.all_eq_true, Bool.not_eq_true'] at h
    obtain ⟨hbase, hrest, -⟩ := h
    exact ⟨coinbase, rest, hvtx, hbase, hrest⟩

theorem checkStakeShape_ok {env : Env} {fCheckSig : Bool} {block : CBlock}
    (h : block.checkStakeShape env fCheckSig = .ok ()) (hpos : block.isProofOfStake = true) :
    ∃ coinbase coinstake rest, block.vtx = coinbase :: coinstake :: rest ∧
      coinbase.vout = [CTxOut.empty] ∧ coinstake.isCoinStake = true ∧
      ∀ tx ∈ rest, tx.isCoinStake = false := by
  unfold checkStakeShape at h
  split at h
  · next coinbase coinstake rest _ hvtx =>
    simp only [except_seq_eq_ok, require_eq_ok, List.all_eq_true, Bool.not_eq_true'] at h
    obtain ⟨hempty, hstake, hrest, -⟩ := h
    refine ⟨coinbase, coinstake, rest, hvtx, ?_, hstake, hrest⟩
    split at hempty
    · next txout hvout =>
      obtain ⟨nValue, scriptPubKey⟩ := txout
      simp only [CTxOut.isEmpty, Bool.and_eq_true, beq_iff_eq, List.isEmpty_iff] at hempty
      rw [hvout, CTxOut.empty, hempty.1, hempty.2]
    · exact absurd hempty (by simp)
  · next hshape =>
    have hpos' := hpos
    unfold isProofOfStake at hpos'
    split at hpos'
    · next coinbase coinstake rest hvtx =>
      exact (hshape coinbase coinstake rest hpos hvtx).elim
    · exact absurd hpos' (by simp)

theorem checkTx_ok {block : CBlock} {tx : CTransaction} (h : block.checkTx tx = .ok ()) :
    tx.Checked := by
  simp only [checkTx, except_seq_eq_ok] at h
  obtain ⟨htx, -⟩ := h
  exact CTransaction.checkTransaction_ok htx

theorem checkBlock_ok {env : Env} {adjustedTime : Int}
    {fCheckPOW fCheckMerkleRoot fCheckSig : Bool} {block : CBlock}
    (h : block.checkBlock env adjustedTime fCheckPOW fCheckMerkleRoot fCheckSig = .ok ()) :
    block.Checked env := by
  simp only [checkBlock, except_seq_eq_ok, require_eq_ok, decide_eq_true_eq] at h
  obtain ⟨-, -, -, hbase, hstake, htxs, hnodup, -⟩ := h
  exact ⟨checkCoinBase_ok hbase, checkStakeShape_ok hstake,
    fun tx htx => checkTx_ok (forM_eq_ok.mp htxs tx htx), hnodup⟩

end CBlock

end NoLimitCoin
