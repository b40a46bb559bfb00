import NoLimitCoin.CoinSelection
import NoLimitCoin.SignatureCommits
import NoLimitCoin.Standard

/-!
# Verifying what the wallet signs

`VerifyScript` sees of a transaction only what `SignatureHash` leaves of it, so an input stays
verified while the wallet signs the others.  `CheckBlockSignature` finds the key of a block in the
script of its staked output.

Results:
1. `scriptVerifier_unsigned`: scripts of inputs have no part in the verification of another input.
2. `signLoop_spec`: every input that has been signed is verified in the transaction as it leaves
   the loop.
3. `solver_keyScript`: the script for a public key is solved by that key.
-/

namespace NoLimitCoin

open Interpreter

/-! ## The transaction without its signatures -/

/-- The transaction with the scripts of its inputs blanked out. -/
def CTransaction.unsigned (tx : CTransaction) : CTransaction :=
  { tx with vin := tx.vin.map fun txin => { txin with scriptSig := [] } }

theorem blankSignatures_unsigned (scriptCode : CScript) (nIn : Nat) (vin : List CTxIn) :
    blankSignatures scriptCode nIn (vin.map fun txin => { txin with scriptSig := [] }) =
      blankSignatures scriptCode nIn vin := by
  unfold blankSignatures
  rw [List.map_map]
  rfl

theorem signatureTx_unsigned (scriptCode : CScript) (tx : CTransaction) (nIn : Nat)
    (nHashType : Int) :
    signatureTx scriptCode tx.unsigned nIn nHashType = signatureTx scriptCode tx nIn nHashType := by
  unfold signatureTx CTransaction.unsigned
  dsimp only
  rw [List.length_map, blankSignatures_unsigned]

/-! ## The verifier -/

section verifier

variable {Key : Type} {base : EvalEnv} {sig : SigEnv Key} {t₁ t₂ : CTransaction}

/-- The environment in which input `nIn` of `txTo` is verified; the cache has no part in a
verdict. -/
def inputEnv (base : EvalEnv) (sig : SigEnv Key) (txTo : CTransaction) (nIn : Nat) : EvalEnv :=
  { base with
    checkSig := fun vchSig vchPubKey scriptCode =>
      (sig.checkSig ∅ ⟨vchSig, vchPubKey, scriptCode, txTo, nIn, 0, 0, fun _ => 0⟩).2 }

/-- `VerifyScript(scriptSig, scriptPubKey, txTo, nIn, 0)`. -/
def scriptVerifier (base : EvalEnv) (sig : SigEnv Key) (scriptSig scriptPubKey : CScript)
    (txTo : CTransaction) (nIn : Nat) : Bool :=
  (verifyScript (inputEnv base sig txTo nIn) scriptSig scriptPubKey).2.isOk

theorem checkSig_unsigned (h : t₁.unsigned = t₂.unsigned) (vchSig vchPubKey : Valtype)
    (scriptCode : CScript) (nIn : Nat) :
    sig.checkSig ∅ ⟨vchSig, vchPubKey, scriptCode, t₁, nIn, 0, 0, fun _ => 0⟩ =
      sig.checkSig ∅ ⟨vchSig, vchPubKey, scriptCode, t₂, nIn, 0, 0, fun _ => 0⟩ := by
  have hhash : ∀ nHashType, signatureHash sig scriptCode t₁ nIn nHashType =
      signatureHash sig scriptCode t₂ nIn nHashType := by
    intro nHashType
    unfold signatureHash
    rw [← signatureTx_unsigned, h, signatureTx_unsigned]
  unfold SigEnv.checkSig
  simp only [hhash]

/-- The scripts of the inputs have no part in what a signature is checked against. -/
theorem scriptVerifier_unsigned (h : t₁.unsigned = t₂.unsigned)
    (scriptSig scriptPubKey : CScript) (nIn : Nat) :
    scriptVerifier base sig scriptSig scriptPubKey t₁ nIn =
      scriptVerifier base sig scriptSig scriptPubKey t₂ nIn := by
  have henv : inputEnv base sig t₁ nIn = inputEnv base sig t₂ nIn := by
    unfold inputEnv
    simp only [checkSig_unsigned h]
  unfold scriptVerifier
  rw [henv]

/-- The part of `CheckBlockSignature` after the staked output has been found. -/
def blockSigVerifier (sig : SigEnv Key) (scriptPubKey : CScript) (hash : Uint256)
    (vchBlockSig : Valtype) : Bool :=
  match solver scriptPubKey with
  | (true, .pubkey, vchPubKey :: _) =>
    match sig.setPubKey vchPubKey with
    | none => false
    | some key => sig.verify key hash vchBlockSig
  | _ => false

/-- The node verifies scripts and block signatures by the code above. -/
structure Env.Verifies (env : Env) (base : EvalEnv) (sig : SigEnv Key) : Prop where
  verifyScript : env.verifyScript = scriptVerifier base sig
  verifyBlockSig : env.verifyBlockSig = blockSigVerifier sig

end verifier

/-! ## Signing the inputs -/

/-- Put a script into input `nIn`. -/
def CTransaction.setScriptSig (tx : CTransaction) (nIn : Nat) (scriptSig : CScript) :
    CTransaction :=
  { tx with vin := tx.vin.modify nIn fun txin => { txin with scriptSig := scriptSig } }

/-- `SignSignature` for the inputs from `nIn` on. -/
def signLoop (sign : CTransaction → CTransaction → Nat → Option CScript) :
    (nIn : Nat) → List Coin → CTransaction → Option CTransaction
  | _, [], tx => some tx
  | nIn, c :: coins, tx =>
    match sign c.1 tx nIn with
    | none => none
    | some scriptSig => signLoop sign (nIn + 1) coins (tx.setScriptSig nIn scriptSig)

/-- `SignSignature` tests its solution with `VerifyScript`. -/
def Tests (env : Env) (sign : CTransaction → CTransaction → Nat → Option CScript) : Prop :=
  ∀ (txFrom txTo : CTransaction) (nIn : Nat) (scriptSig : CScript) (txin : CTxIn) (txout : CTxOut),
    sign txFrom txTo nIn = some scriptSig → txTo.vin[nIn]? = some txin →
    txFrom.vout[txin.prevout.n]? = some txout →
    env.verifyScript scriptSig txout.scriptPubKey (txTo.setScriptSig nIn scriptSig) nIn = true

namespace CTransaction

variable {tx : CTransaction} {nIn : Nat} {scriptSig : CScript}

theorem unsigned_setScriptSig : (tx.setScriptSig nIn scriptSig).unsigned = tx.unsigned := by
  have hvin : (tx.vin.modify nIn fun txin => { txin with scriptSig := scriptSig }).map
      (fun txin => ({ txin with scriptSig := [] } : CTxIn)) =
      tx.vin.map fun txin => { txin with scriptSig := [] } := by
    refine List.ext_getElem? fun j => ?_
    rw [List.getElem?_map, List.getElem?_map, List.getElem?_modify]
    cases tx.vin[j]? with
    | none => split <;> rfl
    | some txin => split <;> rfl
  unfold unsigned setScriptSig
  rw [hvin]

theorem getElem?_setScriptSig_ne {j : Nat} (h : nIn ≠ j) :
    (tx.setScriptSig nIn scriptSig).vin[j]? = tx.vin[j]? :=
  List.getElem?_modify_ne _ _ h

theorem getElem?_setScriptSig {txin : CTxIn} (h : tx.vin[nIn]? = some txin) :
    (tx.setScriptSig nIn scriptSig).vin[nIn]? = some { txin with scriptSig := scriptSig } := by
  unfold setScriptSig
  rw [List.getElem?_modify_eq, h]
  rfl

theorem prevouts_unsigned : tx.unsigned.vin.map CTxIn.prevout = tx.vin.map CTxIn.prevout := by
  unfold unsigned
  rw [List.map_map]
  rfl

end CTransaction

section sign

variable {Key : Type} {env : Env} {base : EvalEnv} {sig : SigEnv Key}
  {sign : CTransaction → CTransaction → Nat → Option CScript}

/-- The inputs from `nIn` on spend the coins. -/
def SpendsFrom (tx : CTransaction) (nIn : Nat) (coins : List Coin) : Prop :=
  ∀ (i : Nat) (c : Coin), coins[i]? = some c → c.1.vout[c.2]? = some c.txout ∧
    ∃ txin, tx.vin[nIn + i]? = some txin ∧ txin.prevout.n = c.2

theorem SpendsFrom.setScriptSig {tx : CTransaction} {nIn : Nat} {c : Coin} {coins : List Coin}
    (h : SpendsFrom tx nIn (c :: coins)) (scriptSig : CScript) :
    SpendsFrom (tx.setScriptSig nIn scriptSig) (nIn + 1) coins := by
  intro i d hd
  obtain ⟨hvout, txin, htxin, hn⟩ := h (i + 1) d hd
  refine ⟨hvout, txin, ?_, hn⟩
  rw [CTransaction.getElem?_setScriptSig_ne (by omega), Nat.add_assoc, Nat.add_comm 1 i]
  exact htxin

/-- All inputs that the loop has signed are verified in the transaction that it returns. -/
theorem signLoop_spec (hverifies : env.verifyScript = scriptVerifier base sig)
    (htests : Tests env sign) {coins : List Coin} {nIn : Nat} {tx tx' : CTransaction}
    (hspends : SpendsFrom tx nIn coins) (h : signLoop sign nIn coins tx = some tx') :
    tx'.unsigned = tx.unsigned ∧ (∀ j < nIn, tx'.vin[j]? = tx.vin[j]?) ∧
      ∀ (i : Nat) (c : Coin), coins[i]? = some c → ∃ txin, tx'.vin[nIn + i]? = some txin ∧
        env.verifyScript txin.scriptSig c.txout.scriptPubKey tx' (nIn + i) = true := by
  induction coins generalizing nIn tx with
  | nil =>
    obtain rfl := Option.some.inj h
    exact ⟨rfl, fun _ _ => rfl, fun i c hc => by cases hc⟩
  | cons c coins ih =>
    rw [signLoop] at h
    cases hsign : sign c.1 tx nIn with
    | none =>
      rw [hsign] at h
      cases h
    | some scriptSig =>
      rw [hsign] at h
      obtain ⟨hunsigned, hbefore, hlater⟩ := ih (hspends.setScriptSig scriptSig) h
      rw [CTransaction.unsigned_setScriptSig] at hunsigned
      refine ⟨hunsigned, fun j hj => ?_, fun i d hd => ?_⟩
      · rw [hbefore j (Nat.lt_succ_of_lt hj),
          CTransaction.getElem?_setScriptSig_ne (Nat.ne_of_gt hj)]
      · cases i with
        | zero =>
          obtain rfl := Option.some.inj hd
          obtain ⟨hvout, txin, htxin, hn⟩ := hspends 0 c rfl
          have htested := htests c.1 tx nIn scriptSig txin c.txout hsign htxin (hn ▸ hvout)
          refine ⟨{ txin with scriptSig := scriptSig }, ?_, ?_⟩
          · rw [Nat.add_zero, hbefore nIn (Nat.lt_succ_self _)]
            exact CTransaction.getElem?_setScriptSig htxin
          · rw [hverifies] at htested ⊢
            rw [← htested]
            refine scriptVerifier_unsigned ?_ scriptSig c.txout.scriptPubKey nIn
            rw [hunsigned, CTransaction.unsigned_setScriptSig]
        | succ i =>
          obtain ⟨txin, htxin, hverified⟩ := hlater i d hd
          rw [Nat.add_assoc, Nat.add_comm 1 i] at htxin hverified
          exact ⟨txin, htxin, hverified⟩

end sign

/-! ## The script of a public key -/

/-- `scriptPubKeyOut << key.GetPubKey() << OP_CHECKSIG`. -/
theorem solver_keyScript {key : Valtype} (hsize : isPubKeySize key = true) :
    solver (pushOf key ++ [UInt8.ofNat opCheckSig]) = (true, .pubkey, [key]) := by
  obtain ⟨hlow, hhigh⟩ : 33 ≤ key.length ∧ key.length ≤ 120 := by
    rw [isPubKeySize, Bool.and_eq_true, decide_eq_true_eq, decide_eq_true_eq] at hsize
    exact hsize
  obtain ⟨opcode, hcode, hpush⟩ := @getOp_pushOf key (by omega) [UInt8.ofNat opCheckSig]
  have hlength : key.length < (pushOf key).length := by
    unfold pushOf
    split
    · exact Nat.lt_succ_self _
    split
    · rw [List.length_cons, List.length_cons]
      omega
    · omega
  have hhash : (pushOf key ++ [UInt8.ofNat opCheckSig]).isPayToScriptHash = false := by
    unfold CScript.isPayToScriptHash
    have hne : ((pushOf key ++ [UInt8.ofNat opCheckSig]).length == 23) = false := by
      rw [List.length_append, beq_eq_false_iff_ne]
      omega
    rw [hne]
    rfl
  have hmatch : matchTemplate [.pubkey, .op opCheckSig] (pushOf key ++ [UInt8.ofNat opCheckSig]) =
      some [key] := by
    rw [matchTemplate, hpush]
    · dsimp only
      rw [matchOp, if_pos hsize]
      rfl
    · exact fun h => by cases h
  unfold solver
  rw [hhash, if_neg (by decide), templates, scanTemplates, hmatch]

end NoLimitCoin
