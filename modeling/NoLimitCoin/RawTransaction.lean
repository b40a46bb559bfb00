import NoLimitCoin.Signing

/-!
# Signing raw transactions

`signrawtransaction` of `rpcrawtransaction.cpp` signs the inputs of a transaction one after the
other and merges in the scripts that variants of the transaction have for them.  What
`FetchInputs` finds for an output, and a key store that is not locked, are parameters.

Results:
1. `mergedScript_unsigned`: the script for an input depends on no script of the transaction.
2. `signInput_eq`: what an input gets, and what stays as it was.
3. `Signed.step`, `Signed.run`: the loop over the inputs.
-/

namespace NoLimitCoin.RawTransaction

open Interpreter

/-! ## The arguments -/

/-- How `signrawtransaction` ends without a result. -/
inductive Failure where
  | rpcError (message : String)
  | prevOutMismatch (known given : CScript)
  /-- An input is read that a variant does not have. -/
  | outOfRange
deriving Repr, DecidableEq

/-- `mapSigHashValues`. -/
def mapSigHashValues : List (String × Nat) :=
  [("ALL", 1), ("ALL|ANYONECANPAY", 0x81), ("NONE", 2), ("NONE|ANYONECANPAY", 0x82), ("SINGLE", 3),
    ("SINGLE|ANYONECANPAY", 0x83)]

/-- `nHashType`. -/
def hashType : (strHashType : Option String) → Except Failure Nat
  | none => .ok 1
  | some strHashType =>
    match mapSigHashValues.lookup strHashType with
    | some nHashType => .ok nHashType
    | none => .error (.rpcError "Invalid sighash param")

/-- `(nHashType & ~SIGHASH_ANYONECANPAY) == SIGHASH_SINGLE`. -/
def hashSingle (nHashType : Nat) : Bool := nHashType == 3 || nHashType == 0x83

/-- The outputs that are found for the inputs. -/
def fetchPrevOuts (fetch : COutPoint → Option CScript) (vin : List CTxIn) : Map COutPoint CScript :=
  vin.foldl (fun mapPrevOut txin =>
    match fetch txin.prevout with
    | some scriptPubKey => mapPrevOut.insert txin.prevout scriptPubKey
    | none => mapPrevOut) ∅

/-- A previous output that is given in the call. -/
def addPrevOut (mapPrevOut : Map COutPoint CScript) (prevOut : COutPoint × CScript) :
    Except Failure (Map COutPoint CScript) :=
  match mapPrevOut[prevOut.1]? with
  | some known =>
    if known ≠ prevOut.2 then .error (.prevOutMismatch known prevOut.2) else .ok mapPrevOut
  | none => .ok (mapPrevOut.insert prevOut.1 prevOut.2)

/-! ## The loop -/

section loop

variable {Key : Type} (base : EvalEnv) (senv : SignEnv Key)
  (keystore : CKeyStore Key (base.hash .hash160) senv.pubKey)

/-- `CTransaction()` has no inputs, so no signature depends on its time. -/
def emptyEnv : EvalEnv := inputEnv base senv.toSigEnv ⟨CTransaction.currentVersion, 0, [], [], 0⟩ 0

/-- The script for an input is merged with the one of a variant. -/
def mergeVariant (prevPubKey : CScript) (nIn : Nat) (mergedTx txv : CTransaction) :
    Except Failure CTransaction :=
  match mergedTx.vin[nIn]?, txv.vin[nIn]? with
  | some txin, some txinv =>
    .ok (mergedTx.setScriptSig nIn (combineSignatures (emptyEnv base senv)
      (inputEnv base senv.toSigEnv mergedTx nIn) prevPubKey txin.scriptSig txinv.scriptSig))
  | _, _ => .error .outOfRange

/-- An input of the merged transaction, and `fComplete`. -/
def signInput (mapPrevOut : Map COutPoint CScript) (nHashType : Nat)
    (txVariants : List CTransaction) (s : CTransaction × Bool) (nIn : Nat) :
    Except Failure (CTransaction × Bool) :=
  match s.1.vin[nIn]? with
  | none => .error .outOfRange
  | some txin =>
    match mapPrevOut[txin.prevout]? with
    | none => .ok (s.1, false)
    | some prevPubKey => do
      let cleared := s.1.setScriptSig nIn []
      let signed :=
        if !hashSingle nHashType || decide (nIn < cleared.vout.length) then
          (signSignature base senv keystore prevPubKey cleared nIn nHashType).2
        else cleared
      let mergedTx ← txVariants.foldlM (mergeVariant base senv prevPubKey nIn) signed
      match mergedTx.vin[nIn]? with
      | none => throw .outOfRange
      | some txin =>
        return (mergedTx, s.2 &&
          scriptVerifier base senv.toSigEnv txin.scriptSig prevPubKey mergedTx nIn)

/-- `signrawtransaction`: the merged transaction and `complete`. -/
def signrawtransaction (fetch : COutPoint → Option CScript) (txVariants : List CTransaction)
    (prevTxs : List (COutPoint × CScript)) (strHashType : Option String) :
    Except Failure (CTransaction × Bool) :=
  match txVariants with
  | [] => .error (.rpcError "Missing transaction")
  | tx :: _ => do
    let mapPrevOut ← prevTxs.foldlM addPrevOut (fetchPrevOuts fetch tx.vin)
    let nHashType ← hashType strHashType
    (List.range tx.vin.length).foldlM
      (signInput base senv keystore mapPrevOut nHashType txVariants) (tx, true)

end loop

/-! ## One input -/

section input

variable {Key : Type} {base : EvalEnv} {senv : SignEnv Key}
  {keystore : CKeyStore Key (base.hash .hash160) senv.pubKey} {mapPrevOut : Map COutPoint CScript}
  {nHashType nIn : Nat} {tx mergedTx : CTransaction} {txVariants : List CTransaction}
  {txin : CTxIn} {prevPubKey scriptSig : CScript}

theorem setScriptSig_setScriptSig (tx : CTransaction) (nIn : Nat) (scriptSig scriptSig' : CScript) :
    (tx.setScriptSig nIn scriptSig).setScriptSig nIn scriptSig' = tx.setScriptSig nIn scriptSig' := by
  have hvin : (tx.vin.modify nIn fun txin => { txin with scriptSig := scriptSig }).modify nIn
      (fun txin => { txin with scriptSig := scriptSig' }) =
      tx.vin.modify nIn fun txin => { txin with scriptSig := scriptSig' } := by
    refine List.ext_getElem? fun j => ?_
    rw [List.getElem?_modify, List.getElem?_modify, List.getElem?_modify]
    cases tx.vin[j]? with
    | none => split <;> rfl
    | some txin => split <;> rfl
  unfold CTransaction.setScriptSig
  dsimp only
  rw [hvin]

/-- What an input is verified in depends on the transaction but for its scripts. -/
theorem inputEnv_unsigned (h : tx.unsigned = mergedTx.unsigned) (nIn : Nat) :
    inputEnv base senv.toSigEnv tx nIn = inputEnv base senv.toSigEnv mergedTx nIn := by
  unfold inputEnv
  simp only [checkSig_unsigned h]

/-- The script that `SignSignature` leaves in an input. -/
def signedScript (base : EvalEnv) (senv : SignEnv Key)
    (keystore : CKeyStore Key (base.hash .hash160) senv.pubKey) (nHashType : Nat)
    (prevPubKey : CScript) (tx : CTransaction) (nIn : Nat) : CScript :=
  if !hashSingle nHashType || decide (nIn < tx.vout.length) then
    let hash := signatureHash senv.toSigEnv prevPubKey tx nIn nHashType
    let solved := solverSign base senv keystore prevPubKey hash nHashType
    if !solved.1 then solved.2.2
    else if solved.2.1 = .scripthash then
      let subscript := solved.2.2
      let hash2 := signatureHash senv.toSigEnv subscript tx nIn nHashType
      (solverSign base senv keystore subscript hash2 nHashType).2.2 ++ pushOf subscript
    else solved.2.2
  else []

theorem signatureHash_unsigned (h : tx.unsigned = mergedTx.unsigned) (scriptCode : CScript)
    (nIn : Nat) (nHashType : Int) : signatureHash senv.toSigEnv scriptCode tx nIn nHashType =
      signatureHash senv.toSigEnv scriptCode mergedTx nIn nHashType := by
  unfold signatureHash
  rw [← signatureTx_unsigned, h, signatureTx_unsigned]

/-- Signing changes the script of the input only. -/
theorem signSignature_snd (prevPubKey : CScript) (tx : CTransaction) (nIn nHashType : Nat) :
    (if !hashSingle nHashType || decide (nIn < tx.vout.length) then
        (signSignature base senv keystore prevPubKey tx nIn nHashType).2
      else tx.setScriptSig nIn []) =
      tx.setScriptSig nIn (signedScript base senv keystore nHashType prevPubKey tx nIn) := by
  unfold signedScript
  split
  · have hhash (scriptSig : CScript) : (tx.setScriptSig nIn scriptSig).unsigned = tx.unsigned :=
      CTransaction.unsigned_setScriptSig
    unfold signSignature
    dsimp only
    split
    · rfl
    · split
      · rw [signatureHash_unsigned (hhash _)]
        split
        · rw [setScriptSig_setScriptSig]
        · rw [setScriptSig_setScriptSig]
      · rfl
  · rfl

theorem signedScript_unsigned (h : tx.unsigned = mergedTx.unsigned) (prevPubKey : CScript)
    (nIn : Nat) : signedScript base senv keystore nHashType prevPubKey tx nIn =
      signedScript base senv keystore nHashType prevPubKey mergedTx nIn := by
  have hvout : tx.vout = mergedTx.vout := congrArg (·.vout) h
  unfold signedScript
  simp only [signatureHash_unsigned h, hvout]

/-- The script of an input. -/
def scriptAt (tx : CTransaction) (nIn : Nat) : CScript :=
  ((tx.vin[nIn]?).map (·.scriptSig)).getD []

/-- The script that an input gets: what is signed, merged with the scripts of the variants. -/
def mergedScript (base : EvalEnv) (senv : SignEnv Key)
    (keystore : CKeyStore Key (base.hash .hash160) senv.pubKey) (nHashType : Nat)
    (txVariants : List CTransaction) (prevPubKey : CScript) (tx : CTransaction) (nIn : Nat) :
    CScript :=
  (txVariants.map (scriptAt · nIn)).foldl (combineSignatures (emptyEnv base senv)
    (inputEnv base senv.toSigEnv tx nIn) prevPubKey)
    (signedScript base senv keystore nHashType prevPubKey tx nIn)

theorem mergedScript_unsigned (h : tx.unsigned = mergedTx.unsigned) (prevPubKey : CScript)
    (nIn : Nat) :
    mergedScript base senv keystore nHashType txVariants prevPubKey tx nIn =
      mergedScript base senv keystore nHashType txVariants prevPubKey mergedTx nIn := by
  unfold mergedScript
  rw [inputEnv_unsigned h, signedScript_unsigned h]

theorem foldlM_mergeVariant (hin : nIn < tx.vin.length)
    (hvariants : ∀ txv ∈ txVariants, nIn < txv.vin.length) (prevPubKey scriptSig : CScript) :
    txVariants.foldlM (mergeVariant base senv prevPubKey nIn) (tx.setScriptSig nIn scriptSig) =
      .ok (tx.setScriptSig nIn ((txVariants.map (scriptAt · nIn)).foldl
        (combineSignatures (emptyEnv base senv) (inputEnv base senv.toSigEnv tx nIn) prevPubKey)
        scriptSig)) := by
  induction txVariants generalizing scriptSig with
  | nil => rfl
  | cons txv txVariants ih =>
    obtain ⟨hfirst, hrest⟩ := List.forall_mem_cons.mp hvariants
    have hget : (tx.setScriptSig nIn scriptSig).vin[nIn]? =
        some { tx.vin[nIn] with scriptSig := scriptSig } :=
      CTransaction.getElem?_setScriptSig (List.getElem?_eq_getElem hin)
    have hstep : mergeVariant base senv prevPubKey nIn (tx.setScriptSig nIn scriptSig) txv =
        .ok (tx.setScriptSig nIn (combineSignatures (emptyEnv base senv)
          (inputEnv base senv.toSigEnv tx nIn) prevPubKey scriptSig (scriptAt txv nIn))) := by
      unfold mergeVariant scriptAt
      rw [hget, List.getElem?_eq_getElem hfirst]
      dsimp only
      rw [setScriptSig_setScriptSig, inputEnv_unsigned CTransaction.unsigned_setScriptSig]
      rfl
    rw [List.foldlM_cons, hstep]
    exact ih hrest _

/-- An input whose previous output is known gets the merged script, and nothing else changes. -/
theorem signInput_eq (hget : mergedTx.vin[nIn]? = some txin)
    (hprev : mapPrevOut[txin.prevout]? = some prevPubKey)
    (hvariants : ∀ txv ∈ txVariants, nIn < txv.vin.length) (fComplete : Bool) :
    signInput base senv keystore mapPrevOut nHashType txVariants (mergedTx, fComplete) nIn =
      .ok (mergedTx.setScriptSig nIn
          (mergedScript base senv keystore nHashType txVariants prevPubKey mergedTx nIn),
        fComplete && scriptVerifier base senv.toSigEnv
          (mergedScript base senv keystore nHashType txVariants prevPubKey mergedTx nIn) prevPubKey
          mergedTx nIn) := by
  have hin : nIn < mergedTx.vin.length := (List.getElem?_eq_some_iff.mp hget).1
  have hsame : (mergedTx.setScriptSig nIn []).unsigned = mergedTx.unsigned :=
    CTransaction.unsigned_setScriptSig
  have hsigned := @signSignature_snd Key base senv keystore prevPubKey
    (mergedTx.setScriptSig nIn []) nIn nHashType
  rw [setScriptSig_setScriptSig, setScriptSig_setScriptSig, signedScript_unsigned hsame] at hsigned
  unfold signInput
  dsimp only
  rw [hget]
  dsimp only
  rw [hprev]
  dsimp only
  rw [hsigned, foldlM_mergeVariant hin hvariants]
  show (match (mergedTx.setScriptSig nIn _).vin[nIn]? with
    | none => Except.error Failure.outOfRange
    | some txin => Except.ok (mergedTx.setScriptSig nIn _, fComplete &&
        scriptVerifier base senv.toSigEnv txin.scriptSig prevPubKey _ nIn)) = _
  rw [CTransaction.getElem?_setScriptSig hget]
  dsimp only
  rw [scriptVerifier_unsigned CTransaction.unsigned_setScriptSig]
  rfl

end input

/-! ## All inputs -/

section inputs

variable {Key : Type} {base : EvalEnv} {senv : SignEnv Key}
  {keystore : CKeyStore Key (base.hash .hash160) senv.pubKey} {mapPrevOut : Map COutPoint CScript}
  {nHashType k : Nat} {tx : CTransaction} {txVariants : List CTransaction}
  {s : CTransaction × Bool}

/-- The script for an input of the first variant. -/
def inputScript (base : EvalEnv) (senv : SignEnv Key)
    (keystore : CKeyStore Key (base.hash .hash160) senv.pubKey) (mapPrevOut : Map COutPoint CScript)
    (nHashType : Nat) (txVariants : List CTransaction) (tx : CTransaction) (nIn : Nat)
    (txin : CTxIn) : CScript :=
  match mapPrevOut[txin.prevout]? with
  | some prevPubKey =>
    mergedScript base senv keystore nHashType txVariants prevPubKey tx nIn
  | none => txin.scriptSig

/-- The previous output of an input is known, and the script is accepted. -/
def Accepted (base : EvalEnv) (senv : SignEnv Key) (mapPrevOut : Map COutPoint CScript)
    (tx : CTransaction) (nIn : Nat) (prevout : COutPoint) (scriptSig : CScript) : Prop :=
  ∃ prevPubKey, mapPrevOut[prevout]? = some prevPubKey ∧
    scriptVerifier base senv.toSigEnv scriptSig prevPubKey tx nIn = true

/-- After the inputs before `k`. -/
structure Signed (base : EvalEnv) (senv : SignEnv Key)
    (keystore : CKeyStore Key (base.hash .hash160) senv.pubKey) (mapPrevOut : Map COutPoint CScript)
    (nHashType : Nat) (txVariants : List CTransaction) (tx : CTransaction) (k : Nat)
    (s : CTransaction × Bool) : Prop where
  unsigned : s.1.unsigned = tx.unsigned
  later : ∀ j, k ≤ j → s.1.vin[j]? = tx.vin[j]?
  scripts : ∀ j < k, ∀ txin, tx.vin[j]? = some txin → s.1.vin[j]? = some { txin with
    scriptSig := inputScript base senv keystore mapPrevOut nHashType txVariants tx j txin }
  complete : s.2 = true ↔ ∀ j < k, ∀ txin, tx.vin[j]? = some txin →
    Accepted base senv mapPrevOut tx j txin.prevout
      (inputScript base senv keystore mapPrevOut nHashType txVariants tx j txin)

/-- Every variant has the inputs of the first whose previous outputs are known. -/
def HasInputs (mapPrevOut : Map COutPoint CScript) (txVariants : List CTransaction)
    (tx : CTransaction) : Prop :=
  ∀ (nIn : Nat) (txin : CTxIn), tx.vin[nIn]? = some txin →
    mapPrevOut.contains txin.prevout = true → ∀ txv ∈ txVariants, nIn < txv.vin.length

theorem Signed.step (h : Signed base senv keystore mapPrevOut nHashType txVariants tx k s)
    (hinputs : HasInputs mapPrevOut txVariants tx) (hk : k < tx.vin.length) :
    ∃ s', signInput base senv keystore mapPrevOut nHashType txVariants s k = .ok s' ∧
      Signed base senv keystore mapPrevOut nHashType txVariants tx (k + 1) s' := by
  obtain ⟨mergedTx, fComplete⟩ := s
  have hget : tx.vin[k]? = some tx.vin[k] := List.getElem?_eq_getElem hk
  generalize tx.vin[k] = txin at hget
  have hmerged : mergedTx.vin[k]? = some txin := (h.later k le_rfl).trans hget
  cases hprev : mapPrevOut[txin.prevout]? with
  | none =>
    refine ⟨(mergedTx, false), ?_, h.unsigned, fun j hj => h.later j (by omega),
      fun j hj txin' htxin => ?_, ?_⟩
    · unfold signInput
      dsimp only
      rw [hmerged]
      dsimp only
      rw [hprev]
    · rcases Nat.lt_succ_iff_lt_or_eq.mp hj with hlt | rfl
      · exact h.scripts j hlt txin' htxin
      · obtain rfl := Option.some.inj (hget.symm.trans htxin)
        unfold inputScript
        rw [hprev]
        exact hmerged
    · refine iff_of_false Bool.false_ne_true fun hall => ?_
      obtain ⟨prevPubKey, hknown, -⟩ := hall k (Nat.lt_succ_self k) txin hget
      rw [hprev] at hknown
      cases hknown
  | some prevPubKey =>
    have hvariants := hinputs k txin hget ((Map.contains_iff _ _).mpr ⟨_, hprev⟩)
    have hstep : signInput base senv keystore mapPrevOut nHashType txVariants (mergedTx, fComplete)
        k = .ok _ := signInput_eq hmerged hprev hvariants fComplete
    have hscript : mergedScript base senv keystore nHashType txVariants prevPubKey mergedTx k =
        inputScript base senv keystore mapPrevOut nHashType txVariants tx k txin := by
      unfold inputScript
      rw [hprev]
      exact mergedScript_unsigned h.unsigned prevPubKey k
    rw [hscript, scriptVerifier_unsigned h.unsigned] at hstep
    refine ⟨_, hstep, ?_, fun j hj => ?_, fun j hj txin' htxin => ?_, ?_⟩
    · exact CTransaction.unsigned_setScriptSig.trans h.unsigned
    · rw [CTransaction.getElem?_setScriptSig_ne (by omega)]
      exact h.later j (by omega)
    · rcases Nat.lt_succ_iff_lt_or_eq.mp hj with hlt | rfl
      · rw [CTransaction.getElem?_setScriptSig_ne (by omega)]
        exact h.scripts j hlt txin' htxin
      · obtain rfl := Option.some.inj (hget.symm.trans htxin)
        exact CTransaction.getElem?_setScriptSig hmerged
    · dsimp only
      rw [Bool.and_eq_true, h.complete]
      constructor
      · rintro ⟨hall, hverified⟩ j hj txin' htxin
        rcases Nat.lt_succ_iff_lt_or_eq.mp hj with hlt | rfl
        · exact hall j hlt txin' htxin
        · obtain rfl := Option.some.inj (hget.symm.trans htxin)
          exact ⟨prevPubKey, hprev, hverified⟩
      · intro hall
        refine ⟨fun j hj => hall j (by omega), ?_⟩
        obtain ⟨prevPubKey', hprev', hverified⟩ := hall k (Nat.lt_succ_self k) txin hget
        obtain rfl := Option.some.inj (hprev.symm.trans hprev')
        exact hverified

theorem Signed.run (hinputs : HasInputs mapPrevOut txVariants tx) (hk : k ≤ tx.vin.length) :
    ∃ s, (List.range k).foldlM (signInput base senv keystore mapPrevOut nHashType txVariants)
        (tx, true) = .ok s ∧
      Signed base senv keystore mapPrevOut nHashType txVariants tx k s := by
  induction k with
  | zero =>
    refine ⟨(tx, true), rfl, rfl, fun _ _ => rfl, fun j hj => absurd hj (Nat.not_lt_zero j),
      iff_of_true rfl fun j hj => absurd hj (Nat.not_lt_zero j)⟩
  | succ k ih =>
    obtain ⟨s, hrun, hsigned⟩ := ih (Nat.le_of_succ_le hk)
    obtain ⟨s', hstep, hsigned'⟩ := hsigned.step hinputs hk
    refine ⟨s', ?_, hsigned'⟩
    rw [List.range_succ, List.foldlM_append, hrun]
    show [k].foldlM (signInput base senv keystore mapPrevOut nHashType txVariants) s = _
    rw [List.foldlM_cons, hstep]
    rfl

end inputs

end NoLimitCoin.RawTransaction
