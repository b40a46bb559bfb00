import NoLimitCoin.SignatureHash

/-!
# A signature authorises what its hash type says

Two transactions have the same `SignatureHash` exactly when they agree on the parts that the
hash type commits to.  The bytes determine the masked transaction, and the input index shows as
the place of the only script that is not blank, or as the number of outputs that are left.

Results:

1. `agree_of_signatureTx_eq` and `signatureTx_eq_of_agree`: the masked transactions are equal
   exactly for agreeing transactions.
2. `SigEnv.checkSig_verdict`: the cache never changes a verdict.
3. `signature_authorises`: what a signature passes for, with a collision-free hash.
-/

namespace NoLimitCoin

open Interpreter

/-! ## What a hash type commits to -/

/-- An index is out of range, and `SignatureHash` returns 1. -/
def OutOfRange (txTo : CTransaction) (nIn : Nat) (nHashType : Int) : Prop :=
  txTo.vin.length ≤ nIn ∨ (hashBase nHashType = sighashSingle ∧ txTo.vout.length ≤ nIn)

/-- The other inputs' sequences are left open. -/
def opensSequences (nHashType : Int) : Bool :=
  hashBase nHashType = sighashNone || hashBase nHashType = sighashSingle

/-- The script code without code separators. -/
def signedScript (scriptCode : CScript) : CScript := findAndDelete scriptCode [opCodeSeparator]

/-- The inputs of the masked transaction. -/
def signedInputs (scriptCode : CScript) (nIn : Nat) (nHashType : Int) (vin : List CTxIn) :
    List CTxIn :=
  let vin := blankSignatures (signedScript scriptCode) nIn vin
  let vin := if opensSequences nHashType then openSequences nIn vin else vin
  if anyoneCanPay nHashType then onlyInput nIn vin else vin

/-- The outputs of the masked transaction. -/
def signedOutputs (nIn : Nat) (nHashType : Int) (vout : List CTxOut) : List CTxOut :=
  if hashBase nHashType = sighashNone then []
  else if hashBase nHashType = sighashSingle then onlyOutput nIn vout
  else vout

theorem signatureTx_eq_none {scriptCode : CScript} {txTo : CTransaction} {nIn : Nat}
    {nHashType : Int} (h : OutOfRange txTo nIn nHashType) :
    signatureTx scriptCode txTo nIn nHashType = none := by
  unfold signatureTx
  split
  · rfl
  · next hin =>
    obtain ⟨hsingle, hout⟩ := h.resolve_left hin
    have hnone : hashBase nHashType ≠ sighashNone := by rw [hsingle]; decide
    simp only [if_neg hnone, if_pos hsingle, if_pos hout, Option.map_none]

theorem signatureTx_eq_some {scriptCode : CScript} {txTo : CTransaction} {nIn : Nat}
    {nHashType : Int} (h : ¬ OutOfRange txTo nIn nHashType) :
    signatureTx scriptCode txTo nIn nHashType =
      some { txTo with
        vin := signedInputs scriptCode nIn nHashType txTo.vin,
        vout := signedOutputs nIn nHashType txTo.vout } := by
  obtain ⟨hin, hout⟩ := not_or.mp h
  unfold signatureTx signedInputs signedOutputs opensSequences signedScript
  rw [if_neg hin]
  by_cases hnone : hashBase nHashType = sighashNone
  · simp only [hnone, Option.map_some, decide_true, Bool.true_or, if_true]
    split <;> rfl
  by_cases hsingle : hashBase nHashType = sighashSingle
  · have hlen : ¬ txTo.vout.length ≤ nIn := fun hle => hout ⟨hsingle, hle⟩
    have hne : sighashSingle ≠ sighashNone := by decide
    simp only [hsingle, hne, hlen, Option.map_some, decide_true, Bool.or_true, if_true, if_false]
    split <;> rfl
  · simp only [Option.map_some, hnone, hsingle, decide_false, Bool.or_false, Bool.false_eq_true,
      if_false]
    split <;> rfl

/-! ## The masked inputs and outputs, place by place -/

theorem getElem?_blankSignatures (code : CScript) (nIn : Nat) (vin : List CTxIn) (j : Nat) :
    (blankSignatures code nIn vin)[j]? =
      (vin[j]?).map fun txin => { txin with scriptSig := if j = nIn then code else [] } := by
  rw [blankSignatures, List.getElem?_modify, List.getElem?_map]
  cases vin[j]? with
  | none => split <;> rfl
  | some txin =>
    rcases eq_or_ne j nIn with rfl | hne
    · simp
    · simp [hne, hne.symm]

theorem getElem?_masked (code : CScript) (nIn : Nat) (nHashType : Int) (vin : List CTxIn)
    (j : Nat) :
    (if opensSequences nHashType then openSequences nIn (blankSignatures code nIn vin)
      else blankSignatures code nIn vin)[j]? =
      (vin[j]?).map fun txin =>
        ⟨txin.prevout, if j = nIn then code else [],
          if opensSequences nHashType ∧ j ≠ nIn then 0 else txin.nSequence⟩ := by
  split
  · next hopens =>
    rw [openSequences, List.getElem?_mapIdx, getElem?_blankSignatures, Option.map_map]
    congr 1
    funext txin
    rcases eq_or_ne j nIn with rfl | hne
    · simp
    · simp [hne, hopens]
  · next hopens =>
    rw [getElem?_blankSignatures]
    congr 1
    funext txin
    simp [hopens]

theorem signedInputs_anyone {scriptCode : CScript} {nIn : Nat} {nHashType : Int}
    {vin : List CTxIn} {txin : CTxIn} (hin : vin[nIn]? = some txin)
    (h : anyoneCanPay nHashType = true) :
    signedInputs scriptCode nIn nHashType vin =
      [⟨txin.prevout, signedScript scriptCode, txin.nSequence⟩] := by
  have hmasked := getElem?_masked (signedScript scriptCode) nIn nHashType vin nIn
  rw [hin, Option.map_some, if_pos rfl, if_neg (fun hand => hand.2 rfl :
    ¬ (opensSequences nHashType = true ∧ nIn ≠ nIn))] at hmasked
  simp only [signedInputs, if_pos h, onlyInput, hmasked]
  generalize (if opensSequences nHashType = true then _ else _ : List CTxIn) = masked at *
  cases masked with
  | nil => exact absurd hmasked (by simp)
  | cons x xs => rfl

theorem getElem?_signedInputs {scriptCode : CScript} {nIn : Nat} {nHashType : Int}
    (vin : List CTxIn) (h : anyoneCanPay nHashType = false) (j : Nat) :
    (signedInputs scriptCode nIn nHashType vin)[j]? =
      (vin[j]?).map fun txin =>
        ⟨txin.prevout, if j = nIn then signedScript scriptCode else [],
          if opensSequences nHashType ∧ j ≠ nIn then 0 else txin.nSequence⟩ := by
  rw [← getElem?_masked]
  simp only [signedInputs, h, Bool.false_eq_true, if_false]

theorem getElem?_onlyOutput (nOut : Nat) (vout : List CTxOut) (j : Nat) :
    (onlyOutput nOut vout)[j]? =
      if nOut < j then none
      else (vout[j]?).map fun txout => if j < nOut then .null else txout := by
  rw [onlyOutput, List.getElem?_mapIdx, List.getElem?_take]
  rcases Nat.lt_or_ge nOut j with hlt | hle
  · rw [if_neg (by omega), if_pos hlt]
    rfl
  · rw [if_pos (by omega), if_neg (by omega)]

theorem length_onlyOutput {nOut : Nat} {vout : List CTxOut} (h : nOut < vout.length) :
    (onlyOutput nOut vout).length = nOut + 1 := by
  rw [onlyOutput, List.length_mapIdx, List.length_take]
  omega

/-! ## Agreement -/

/-- What an input spends, and its sequence. -/
def CTxIn.spends (txin : CTxIn) : COutPoint × Nat := (txin.prevout, txin.nSequence)

/-- The two transactions agree on what the hash type commits to. -/
structure Agree (nHashType : Int) (scriptCode₁ : CScript) (t₁ : CTransaction) (i₁ : Nat)
    (scriptCode₂ : CScript) (t₂ : CTransaction) (i₂ : Nat) : Prop where
  nVersion : t₁.nVersion = t₂.nVersion
  nTime : t₁.nTime = t₂.nTime
  nLockTime : t₁.nLockTime = t₂.nLockTime
  scriptCode : signedScript scriptCode₁ = signedScript scriptCode₂
  signedInput : (t₁.vin[i₁]?).map CTxIn.spends = (t₂.vin[i₂]?).map CTxIn.spends
  inputs : anyoneCanPay nHashType = false →
    i₁ = i₂ ∧ t₁.vin.map CTxIn.prevout = t₂.vin.map CTxIn.prevout
  sequences : anyoneCanPay nHashType = false → opensSequences nHashType = false →
    t₁.vin.map CTxIn.nSequence = t₂.vin.map CTxIn.nSequence
  outputs : hashBase nHashType ≠ sighashNone → hashBase nHashType ≠ sighashSingle →
    t₁.vout = t₂.vout
  output : hashBase nHashType = sighashSingle → i₁ = i₂ ∧ t₁.vout[i₁]? = t₂.vout[i₂]?

section agree

variable {nHashType : Int} {scriptCode₁ scriptCode₂ : CScript} {t₁ t₂ : CTransaction} {i₁ i₂ : Nat}

/-- The input index shows as the place of the only script that is not blank. -/
theorem inputs_of_signedInputs_eq (hany : anyoneCanPay nHashType = false)
    (hcode : signedScript scriptCode₁ ≠ []) (hin : i₁ < t₁.vin.length)
    (h : signedInputs scriptCode₁ i₁ nHashType t₁.vin =
      signedInputs scriptCode₂ i₂ nHashType t₂.vin) :
    i₁ = i₂ ∧ signedScript scriptCode₁ = signedScript scriptCode₂ ∧
      (t₁.vin[i₁]?).map CTxIn.spends = (t₂.vin[i₂]?).map CTxIn.spends ∧
      t₁.vin.map CTxIn.prevout = t₂.vin.map CTxIn.prevout ∧
      (opensSequences nHashType = false →
        t₁.vin.map CTxIn.nSequence = t₂.vin.map CTxIn.nSequence) := by
  have hplace : ∀ j : Nat, (signedInputs scriptCode₁ i₁ nHashType t₁.vin)[j]? =
      (signedInputs scriptCode₂ i₂ nHashType t₂.vin)[j]? := fun j => by rw [h]
  simp only [getElem?_signedInputs _ hany] at hplace
  have hsigned := hplace i₁
  rw [List.getElem?_eq_getElem hin, Option.map_some, eq_comm, Option.map_eq_some_iff] at hsigned
  obtain ⟨txin, htxin, heq⟩ := hsigned
  simp only [CTxIn.mk.injEq, if_true, ne_eq, not_true_eq_false, and_false, if_false] at heq
  obtain ⟨hprevout, hscript, hseq⟩ := heq
  have hindex : i₁ = i₂ := by
    by_contra hne
    rw [if_neg hne] at hscript
    exact hcode hscript.symm
  subst hindex
  simp only [if_true, not_true_eq_false, and_false, if_false] at hscript hseq
  refine ⟨rfl, hscript.symm, ?_, List.ext_getElem? fun j => ?_, fun hopens =>
    List.ext_getElem? fun j => ?_⟩
  · rw [htxin, List.getElem?_eq_getElem hin, Option.map_some, Option.map_some, CTxIn.spends,
      CTxIn.spends, hprevout, hseq]
  · have hmap := congrArg (Option.map CTxIn.prevout) (hplace j)
    rw [Option.map_map, Option.map_map] at hmap
    rw [List.getElem?_map, List.getElem?_map]
    exact hmap
  · have hmap := congrArg (Option.map CTxIn.nSequence) (hplace j)
    simp only [hopens, Bool.false_eq_true, false_and, if_false] at hmap
    rw [Option.map_map, Option.map_map] at hmap
    rw [List.getElem?_map, List.getElem?_map]
    exact hmap

theorem inputs_of_signedInputs_eq_anyone (hany : anyoneCanPay nHashType = true)
    (hin₁ : i₁ < t₁.vin.length) (hin₂ : i₂ < t₂.vin.length)
    (h : signedInputs scriptCode₁ i₁ nHashType t₁.vin =
      signedInputs scriptCode₂ i₂ nHashType t₂.vin) :
    signedScript scriptCode₁ = signedScript scriptCode₂ ∧
      (t₁.vin[i₁]?).map CTxIn.spends = (t₂.vin[i₂]?).map CTxIn.spends := by
  have h₁ := List.getElem?_eq_getElem hin₁
  have h₂ := List.getElem?_eq_getElem hin₂
  rw [signedInputs_anyone h₁ hany, signedInputs_anyone h₂ hany, List.cons.injEq,
    CTxIn.mk.injEq] at h
  obtain ⟨⟨hprevout, hscript, hseq⟩, -⟩ := h
  refine ⟨hscript, ?_⟩
  rw [h₁, h₂, Option.map_some, Option.map_some, CTxIn.spends, CTxIn.spends, hprevout, hseq]

/-- The input index shows as the number of outputs that are left. -/
theorem output_of_signedOutputs_eq (hsingle : hashBase nHashType = sighashSingle)
    (hout₁ : i₁ < t₁.vout.length) (hout₂ : i₂ < t₂.vout.length)
    (h : signedOutputs i₁ nHashType t₁.vout = signedOutputs i₂ nHashType t₂.vout) :
    i₁ = i₂ ∧ t₁.vout[i₁]? = t₂.vout[i₂]? := by
  have hnone : hashBase nHashType ≠ sighashNone := by rw [hsingle]; decide
  simp only [signedOutputs, if_neg hnone, if_pos hsingle] at h
  have hlen := congrArg List.length h
  rw [length_onlyOutput hout₁, length_onlyOutput hout₂] at hlen
  obtain rfl : i₁ = i₂ := Nat.succ.inj hlen
  refine ⟨rfl, ?_⟩
  have hlast : (onlyOutput i₁ t₁.vout)[i₁]? = (onlyOutput i₁ t₂.vout)[i₁]? := by rw [h]
  simp only [getElem?_onlyOutput, Nat.lt_irrefl, if_false, Option.map_id'] at hlast
  exact hlast

theorem agree_of_signatureTx_eq (h₁ : ¬ OutOfRange t₁ i₁ nHashType)
    (h₂ : ¬ OutOfRange t₂ i₂ nHashType) (hcode : signedScript scriptCode₁ ≠ [])
    (h : signatureTx scriptCode₁ t₁ i₁ nHashType = signatureTx scriptCode₂ t₂ i₂ nHashType) :
    Agree nHashType scriptCode₁ t₁ i₁ scriptCode₂ t₂ i₂ := by
  rw [signatureTx_eq_some h₁, signatureTx_eq_some h₂, Option.some.injEq,
    CTransaction.mk.injEq] at h
  obtain ⟨hversion, htime, hvin, hvout, hlock⟩ := h
  obtain ⟨hin₁, hout₁⟩ := not_or.mp h₁
  obtain ⟨hin₂, hout₂⟩ := not_or.mp h₂
  have houtputs : hashBase nHashType ≠ sighashNone → hashBase nHashType ≠ sighashSingle →
      t₁.vout = t₂.vout := by
    intro hnone hsingle
    simpa only [signedOutputs, if_neg hnone, if_neg hsingle] using hvout
  have houtput : hashBase nHashType = sighashSingle → i₁ = i₂ ∧ t₁.vout[i₁]? = t₂.vout[i₂]? :=
    fun hsingle => output_of_signedOutputs_eq hsingle (not_le.mp fun hle => hout₁ ⟨hsingle, hle⟩)
      (not_le.mp fun hle => hout₂ ⟨hsingle, hle⟩) hvout
  cases hany : anyoneCanPay nHashType with
  | false =>
    obtain ⟨hindex, hscript, hsigned, hprevouts, hseqs⟩ :=
      inputs_of_signedInputs_eq hany hcode (not_le.mp hin₁) hvin
    exact ⟨hversion, htime, hlock, hscript, hsigned, fun _ => ⟨hindex, hprevouts⟩,
      fun _ => hseqs, houtputs, houtput⟩
  | true =>
    obtain ⟨hscript, hsigned⟩ :=
      inputs_of_signedInputs_eq_anyone hany (not_le.mp hin₁) (not_le.mp hin₂) hvin
    have hno : anyoneCanPay nHashType ≠ false := by rw [hany]; decide
    exact ⟨hversion, htime, hlock, hscript, hsigned, fun h => absurd h hno,
      fun h => absurd h hno, houtputs, houtput⟩

theorem outOfRange_of_agree (h : Agree nHashType scriptCode₁ t₁ i₁ scriptCode₂ t₂ i₂)
    (hrange : OutOfRange t₁ i₁ nHashType) : OutOfRange t₂ i₂ nHashType := by
  rcases hrange with hin | ⟨hsingle, hout⟩
  · have hsigned := h.signedInput
    rw [List.getElem?_eq_none hin, Option.map_none, eq_comm, Option.map_eq_none_iff] at hsigned
    exact .inl (List.getElem?_eq_none_iff.mp hsigned)
  · have houtput := (h.output hsingle).2
    rw [List.getElem?_eq_none hout, eq_comm] at houtput
    exact .inr ⟨hsingle, List.getElem?_eq_none_iff.mp houtput⟩

theorem signedOutputs_eq_of_agree (h : Agree nHashType scriptCode₁ t₁ i₁ scriptCode₂ t₂ i₂)
    (h₁ : ¬ OutOfRange t₁ i₁ nHashType) (h₂ : ¬ OutOfRange t₂ i₂ nHashType) :
    signedOutputs i₁ nHashType t₁.vout = signedOutputs i₂ nHashType t₂.vout := by
  unfold signedOutputs
  split
  · rfl
  · next hnone =>
    split
    · next hsingle =>
      obtain ⟨rfl, hout⟩ := h.output hsingle
      have hlen₁ : i₁ < t₁.vout.length := not_le.mp fun hle => h₁ (.inr ⟨hsingle, hle⟩)
      have hlen₂ : i₁ < t₂.vout.length := not_le.mp fun hle => h₂ (.inr ⟨hsingle, hle⟩)
      refine List.ext_getElem? fun j => ?_
      rw [getElem?_onlyOutput, getElem?_onlyOutput]
      rcases Nat.lt_trichotomy j i₁ with hlt | rfl | hgt
      · -- both outputs before the index are null
        rw [List.getElem?_eq_getElem (hlt.trans hlen₁), List.getElem?_eq_getElem (hlt.trans hlen₂)]
        simp only [hlt, if_true, Option.map_some]
      · rw [hout]
      · rw [if_pos hgt, if_pos hgt]
    · next hsingle => exact h.outputs hnone hsingle

theorem signedInputs_eq_of_agree (h : Agree nHashType scriptCode₁ t₁ i₁ scriptCode₂ t₂ i₂)
    (h₁ : ¬ OutOfRange t₁ i₁ nHashType) (h₂ : ¬ OutOfRange t₂ i₂ nHashType) :
    signedInputs scriptCode₁ i₁ nHashType t₁.vin = signedInputs scriptCode₂ i₂ nHashType t₂.vin := by
  have hin₁ := List.getElem?_eq_getElem (not_le.mp (not_or.mp h₁).1)
  have hin₂ := List.getElem?_eq_getElem (not_le.mp (not_or.mp h₂).1)
  have hsigned := h.signedInput
  rw [hin₁, hin₂, Option.map_some, Option.map_some, Option.some.injEq, CTxIn.spends, CTxIn.spends,
    Prod.mk.injEq] at hsigned
  cases hany : anyoneCanPay nHashType with
  | true =>
    rw [signedInputs_anyone hin₁ hany, signedInputs_anyone hin₂ hany, hsigned.1, hsigned.2,
      h.scriptCode]
  | false =>
    obtain ⟨rfl, hprevouts⟩ := h.inputs hany
    refine List.ext_getElem? fun j => ?_
    rw [getElem?_signedInputs _ hany, getElem?_signedInputs _ hany, h.scriptCode]
    have hprevout : ((t₁.vin.map CTxIn.prevout)[j]?) = (t₂.vin.map CTxIn.prevout)[j]? := by
      rw [hprevouts]
    rw [List.getElem?_map, List.getElem?_map] at hprevout
    cases hx : t₁.vin[j]? with
    | none =>
      rw [hx, Option.map_none, eq_comm, Option.map_eq_none_iff] at hprevout
      rw [hprevout, Option.map_none]
    | some x =>
      rw [hx, Option.map_some, eq_comm, Option.map_eq_some_iff] at hprevout
      obtain ⟨y, hy, hxy⟩ := hprevout
      rw [hy, Option.map_some, Option.map_some, hxy]
      -- the sequence is zero, or that of the signed input, or committed to as a whole
      have hseq : (if opensSequences nHashType = true ∧ j ≠ i₁ then 0 else x.nSequence) =
          if opensSequences nHashType = true ∧ j ≠ i₁ then 0 else y.nSequence := by
        rcases eq_or_ne j i₁ with rfl | hne
        · rw [hin₁, Option.some.injEq] at hx
          rw [hin₂, Option.some.injEq] at hy
          rw [← hx, ← hy, hsigned.2]
        · cases hopens : opensSequences nHashType with
          | true => rw [if_pos ⟨rfl, hne⟩, if_pos ⟨rfl, hne⟩]
          | false =>
            have hseqs : ((t₁.vin.map CTxIn.nSequence)[j]?) =
                (t₂.vin.map CTxIn.nSequence)[j]? := by rw [h.sequences hany hopens]
            rw [List.getElem?_map, List.getElem?_map, hx, hy, Option.map_some, Option.map_some,
              Option.some.injEq] at hseqs
            rw [hseqs]
      rw [hseq]

theorem Agree.symm (h : Agree nHashType scriptCode₁ t₁ i₁ scriptCode₂ t₂ i₂) :
    Agree nHashType scriptCode₂ t₂ i₂ scriptCode₁ t₁ i₁ :=
  ⟨h.nVersion.symm, h.nTime.symm, h.nLockTime.symm, h.scriptCode.symm, h.signedInput.symm,
    fun hany => ⟨(h.inputs hany).1.symm, (h.inputs hany).2.symm⟩,
    fun hany hopens => (h.sequences hany hopens).symm,
    fun hnone hsingle => (h.outputs hnone hsingle).symm,
    fun hsingle => ⟨(h.output hsingle).1.symm, (h.output hsingle).2.symm⟩⟩

/-- What the hash type leaves open does not show, also out of range. -/
theorem signatureTx_eq_of_agree (h : Agree nHashType scriptCode₁ t₁ i₁ scriptCode₂ t₂ i₂) :
    signatureTx scriptCode₁ t₁ i₁ nHashType = signatureTx scriptCode₂ t₂ i₂ nHashType := by
  by_cases h₁ : OutOfRange t₁ i₁ nHashType
  · rw [signatureTx_eq_none h₁, signatureTx_eq_none (outOfRange_of_agree h h₁)]
  · have h₂ : ¬ OutOfRange t₂ i₂ nHashType := fun h₂ => h₁ (outOfRange_of_agree h.symm h₂)
    rw [signatureTx_eq_some h₁, signatureTx_eq_some h₂, h.nVersion, h.nTime, h.nLockTime,
      signedInputs_eq_of_agree h h₁ h₂, signedOutputs_eq_of_agree h h₁ h₂]

end agree

/-! ## The bytes that are hashed -/

section bytes

variable {nHashType : Int} {scriptCode : CScript} {txTo : CTransaction} {nIn : Nat}

theorem signedScript_length (h : scriptCode.length < 256 ^ 8) :
    (signedScript scriptCode).length < 256 ^ 8 :=
  (length_findAndDelete_le scriptCode _).trans_lt h

theorem signedInputs_fit (hscript : scriptCode.length < 256 ^ 8)
    (hvin : txTo.vin.length < 256 ^ 8 ∧ ∀ txin ∈ txTo.vin, txin.Fits)
    (hin : nIn < txTo.vin.length) :
    (signedInputs scriptCode nIn nHashType txTo.vin).length < 256 ^ 8 ∧
      ∀ txin ∈ signedInputs scriptCode nIn nHashType txTo.vin, txin.Fits := by
  have hlen := signedScript_length hscript
  cases hany : anyoneCanPay nHashType with
  | true =>
    rw [signedInputs_anyone (List.getElem?_eq_getElem hin) hany]
    refine ⟨Nat.one_lt_pow (by decide) (by decide), fun txin htxin => ?_⟩
    have hfits := hvin.2 _ (List.getElem_mem hin)
    rw [List.mem_singleton.mp htxin]
    exact ⟨hfits.prevout, hlen, hfits.nSequence⟩
  | false =>
    have hplace := @getElem?_signedInputs scriptCode nIn nHashType txTo.vin hany
    constructor
    · have hend := hplace txTo.vin.length
      rw [List.getElem?_eq_none (le_refl _), Option.map_none, List.getElem?_eq_none_iff] at hend
      exact hend.trans_lt hvin.1
    · intro txin htxin
      obtain ⟨j, hj⟩ := List.mem_iff_getElem?.mp htxin
      rw [hplace, Option.map_eq_some_iff] at hj
      obtain ⟨txin', hmem, rfl⟩ := hj
      have hfits := hvin.2 txin' (List.mem_of_getElem? hmem)
      refine ⟨hfits.prevout, ?_, ?_⟩
      · show (if j = nIn then signedScript scriptCode else []).length < 256 ^ 8
        split
        · exact hlen
        · exact Nat.pow_pos (by decide)
      · show (if opensSequences nHashType ∧ j ≠ nIn then 0 else txin'.nSequence) < 256 ^ 4
        split
        · exact Nat.pow_pos (by decide)
        · exact hfits.nSequence

theorem CTxOut.fits_null : CTxOut.null.Fits := ⟨by decide, by decide⟩

theorem signedOutputs_fit (hvout : txTo.vout.length < 256 ^ 8 ∧ ∀ txout ∈ txTo.vout, txout.Fits) :
    (signedOutputs nIn nHashType txTo.vout).length < 256 ^ 8 ∧
      ∀ txout ∈ signedOutputs nIn nHashType txTo.vout, txout.Fits := by
  unfold signedOutputs
  split
  · exact ⟨by decide, fun _ h => absurd h List.not_mem_nil⟩
  split
  · constructor
    · rw [onlyOutput, List.length_mapIdx, List.length_take]
      exact (min_le_right _ _).trans_lt hvout.1
    · intro txout htxout
      obtain ⟨j, hj⟩ := List.mem_iff_getElem?.mp htxout
      rw [getElem?_onlyOutput] at hj
      split at hj
      · exact absurd hj (by simp)
      · obtain ⟨txout', hmem, rfl⟩ := Option.map_eq_some_iff.mp hj
        show CTxOut.Fits (if j < nIn then CTxOut.null else txout')
        split
        · exact CTxOut.fits_null
        · exact hvout.2 txout' (List.mem_of_getElem? hmem)
  · exact hvout

theorem signatureTx_fits (hscript : scriptCode.length < 256 ^ 8) (hfits : txTo.Fits)
    {txTmp : CTransaction} (h : signatureTx scriptCode txTo nIn nHashType = some txTmp) :
    txTmp.Fits := by
  by_cases hrange : OutOfRange txTo nIn nHashType
  · rw [signatureTx_eq_none hrange] at h
    exact absurd h (by simp)
  · rw [signatureTx_eq_some hrange, Option.some.injEq] at h
    subst h
    exact ⟨hfits.nVersion, hfits.nTime,
      signedInputs_fit hscript hfits.vin (not_le.mp (not_or.mp hrange).1),
      signedOutputs_fit hfits.vout, hfits.nLockTime⟩

end bytes

/-- A collision-free hash keeps masked transactions apart. -/
theorem signatureTx_eq_of_signatureHash_eq {Key : Type} {env : SigEnv Key}
    (hash_injective : Function.Injective env.hash) {nHashType : Int}
    {scriptCode₁ scriptCode₂ : CScript} {t₁ t₂ : CTransaction} {i₁ i₂ : Nat}
    (hscript₁ : scriptCode₁.length < 256 ^ 8) (hscript₂ : scriptCode₂.length < 256 ^ 8)
    (hfits₁ : t₁.Fits) (hfits₂ : t₂.Fits) (h₁ : ¬ OutOfRange t₁ i₁ nHashType)
    (h₂ : ¬ OutOfRange t₂ i₂ nHashType)
    (h : signatureHash env scriptCode₁ t₁ i₁ nHashType =
      signatureHash env scriptCode₂ t₂ i₂ nHashType) :
    signatureTx scriptCode₁ t₁ i₁ nHashType = signatureTx scriptCode₂ t₂ i₂ nHashType := by
  have hsome₁ := @signatureTx_eq_some scriptCode₁ t₁ i₁ nHashType h₁
  have hsome₂ := @signatureTx_eq_some scriptCode₂ t₂ i₂ nHashType h₂
  have hfit₁ := signatureTx_fits hscript₁ hfits₁ hsome₁
  have hfit₂ := signatureTx_fits hscript₂ hfits₂ hsome₂
  rw [signatureHash, signatureHash, hsome₁, hsome₂] at h
  obtain ⟨htx, -⟩ := CTransaction.prefixFree_serialize _ _ hfit₁ hfit₂ _ _ (hash_injective h)
  rw [hsome₁, hsome₂, htx]

/-! ## The cache -/

namespace SigEnv

variable {Key : Type} (env : SigEnv Key)

/-- The elliptic curve accepts the signature. -/
def accepts (k : Sigdata) : Bool :=
  match env.setPubKey k.pubKey with
  | none => false
  | some key => env.verify key k.hash k.vchSig

/-- Every entry was a successful check. -/
def SoundCache (setValid : CSignatureCache) : Prop :=
  ∀ k, setValid.get k = true → env.accepts k = true

/-- The hash type byte of the signature, where the argument allows it. -/
def hashTypeOf (vchSig : Valtype) (nHashType : Int) : Option Int :=
  match vchSig.getLast? with
  | none => none
  | some back => if nHashType = 0 ∨ nHashType = back.toNat then some back.toNat else none

/-- The verdict of `CheckSig` without a cache. -/
def verdict (call : SigCall) : Bool :=
  match hashTypeOf call.vchSig call.nHashType with
  | none => false
  | some nHashType =>
    env.accepts ⟨signatureHash env call.scriptCode call.txTo call.nIn nHashType,
      call.vchSig.dropLast, call.vchPubKey⟩

/-- A check with a sound cache gives the verdict without one, and keeps the cache sound. -/
theorem checkSig_verdict {signatureCache : CSignatureCache} (h : env.SoundCache signatureCache)
    (call : SigCall) :
    (env.checkSig signatureCache call).2 = env.verdict call ∧
      env.SoundCache (env.checkSig signatureCache call).1 := by
  unfold checkSig verdict hashTypeOf
  cases call.vchSig.getLast? with
  | none => exact ⟨rfl, h⟩
  | some back =>
    dsimp only
    by_cases htype : call.nHashType = 0 ∨ call.nHashType = back.toNat
    · have hback : (if call.nHashType = 0 then (back.toNat : Int) else call.nHashType) =
          back.toNat := by
        split
        · rfl
        · next hzero => exact htype.resolve_left hzero
      rw [hback, if_neg (not_not.mpr rfl), if_pos htype]
      dsimp only
      generalize signatureHash env call.scriptCode call.txTo call.nIn back.toNat = sighash
      split
      · -- the entry is in the cache before the public key is parsed
        next hget => exact ⟨(h _ hget).symm, h⟩
      · cases hkey : env.setPubKey call.vchPubKey with
        | none => exact ⟨by rw [accepts, hkey], h⟩
        | some key =>
          dsimp only
          have haccepts : env.accepts ⟨sighash, call.vchSig.dropLast, call.vchPubKey⟩ =
              env.verify key sighash call.vchSig.dropLast := by rw [accepts, hkey]
          cases hverify : env.verify key sighash call.vchSig.dropLast with
          | false => exact ⟨by rw [haccepts, hverify, if_neg (by decide)], h⟩
          | true =>
            rw [if_pos rfl]
            refine ⟨by rw [haccepts, hverify], fun k hk => ?_⟩
            rcases CSignatureCache.mem_set hk with hold | rfl
            · exact h k hold
            · exact haccepts.trans hverify
    · have hne : (if call.nHashType = 0 then (back.toNat : Int) else call.nHashType) ≠
          back.toNat := by
        rw [if_neg (not_or.mp htype).1]
        exact (not_or.mp htype).2
      rw [if_pos hne, if_neg htype]
      exact ⟨rfl, h⟩

theorem soundCache_history (calls : List SigCall) : env.SoundCache (env.history calls) := by
  have hrun : ∀ cache, env.SoundCache cache →
      env.SoundCache (calls.foldl (fun cache call => (env.checkSig cache call).1) cache) := by
    induction calls with
    | nil => exact fun cache h => h
    | cons call calls ih => exact fun cache h => ih _ (env.checkSig_verdict h call).2
  refine hrun ∅ fun k hk => ?_
  rw [CSignatureCache.get, Map.contains_iff] at hk
  obtain ⟨v, hv⟩ := hk
  rw [Map.getElem?_empty] at hv
  exact absurd hv (by simp)

theorem checkSig_history (calls : List SigCall) (call : SigCall) :
    (env.checkSig (env.history calls) call).2 = env.verdict call :=
  (env.checkSig_verdict (env.soundCache_history calls) call).1

/-- The check that a verdict of true comes from. -/
theorem accepts_of_verdict {call : SigCall} (h : env.verdict call = true) {back : UInt8}
    (hback : call.vchSig.getLast? = some back) :
    env.accepts ⟨signatureHash env call.scriptCode call.txTo call.nIn back.toNat,
      call.vchSig.dropLast, call.vchPubKey⟩ = true := by
  unfold verdict hashTypeOf at h
  rw [hback] at h
  dsimp only at h
  split at h
  · exact absurd h (by decide)
  · next nHashType htype =>
    split at htype
    · rw [← Option.some.inj htype] at h
      exact h
    · exact absurd htype (by simp)

/-- A signature verifies for one hash and one key only. -/
def MadeForOne : Prop :=
  ∀ key₁ key₂ hash₁ hash₂ vchSig, env.verify key₁ hash₁ vchSig = true →
    env.verify key₂ hash₂ vchSig = true → hash₁ = hash₂ ∧ key₁ = key₂

variable {env} in
theorem MadeForOne.hash_eq (h : env.MadeForOne) {hash₁ hash₂ : Uint256}
    {vchSig vchPubKey₁ vchPubKey₂ : Valtype}
    (h₁ : env.accepts ⟨hash₁, vchSig, vchPubKey₁⟩ = true)
    (h₂ : env.accepts ⟨hash₂, vchSig, vchPubKey₂⟩ = true) : hash₁ = hash₂ := by
  unfold accepts at h₁ h₂
  split at h₁
  · exact absurd h₁ (by decide)
  split at h₂
  · exact absurd h₂ (by decide)
  · exact (h _ _ _ _ _ h₁ h₂).1

end SigEnv

/-! ## Script codes -/

/-- An instruction of the script checks a signature. -/
inductive ChecksSignature : CScript → Prop where
  | here {pc vch rest : CScript} {opcode : Nat} (hop : CScript.getOp pc = some (opcode, vch, rest))
      (h : opcode ∈ [opCheckSig, opCheckSigVerify, opCheckMultiSig, opCheckMultiSigVerify]) : ChecksSignature pc
  | later {pc vch rest : CScript} {opcode : Nat}
      (hop : CScript.getOp pc = some (opcode, vch, rest)) (h : ChecksSignature rest) :
      ChecksSignature pc

theorem getOp_codeSeparator (pc : CScript) :
    CScript.getOp (opCodeSeparator :: pc) = some (0xab, [], pc) := rfl

theorem ChecksSignature.exists_ne {script : CScript} (h : ChecksSignature script) :
    ∃ x ∈ script, x ≠ opCodeSeparator := by
  induction h with
  | @here pc vch rest opcode hop h =>
    cases pc with
    | nil => exact absurd hop (by simp [CScript.getOp])
    | cons b pc =>
      refine ⟨b, List.mem_cons_self, ?_⟩
      rintro rfl
      rw [getOp_codeSeparator, Option.some.injEq, Prod.mk.injEq] at hop
      rw [← hop.1] at h
      exact absurd h (by decide)
  | @later pc vch rest opcode hop h ih =>
    cases pc with
    | nil => exact absurd hop (by simp [CScript.getOp])
    | cons b pc =>
      rcases eq_or_ne b opCodeSeparator with rfl | hne
      · rw [getOp_codeSeparator, Option.some.injEq, Prod.mk.injEq, Prod.mk.injEq] at hop
        obtain ⟨x, hx, hxne⟩ := ih
        rw [← hop.2.2] at hx
        exact ⟨x, List.mem_cons_of_mem _ hx, hxne⟩
      · exact ⟨b, List.mem_cons_self, hne⟩

theorem ChecksSignature.signedScript_ne_nil {script : CScript} (h : ChecksSignature script) :
    signedScript script ≠ [] := by
  obtain ⟨x, hx, hne⟩ := h.exists_ne
  exact findAndDelete_ne_nil hne hx

/-! ## The theorem -/

/-- The arguments fit the types of the source. -/
structure SigCall.Fits (call : SigCall) : Prop where
  scriptCode : call.scriptCode.length < 256 ^ 8
  txTo : call.txTo.Fits

/-- With a collision-free hash and signatures that verify for one hash and key only: a signature
that passes for two inputs was made for transactions that agree on what its hash type commits
to; a transaction that agrees gets the same verdict; and no history of the cache changes a
verdict. -/
theorem signature_authorises {Key : Type} (env : SigEnv Key)
    (hash_injective : Function.Injective env.hash) (made : env.MadeForOne) :
    (∀ (history₁ history₂ : List SigCall) (call₁ call₂ : SigCall) (back : UInt8),
      call₁.vchSig = call₂.vchSig → call₁.vchSig.getLast? = some back →
      call₁.Fits → call₂.Fits →
      ChecksSignature call₁.scriptCode → ChecksSignature call₂.scriptCode →
      ¬ OutOfRange call₁.txTo call₁.nIn back.toNat →
      ¬ OutOfRange call₂.txTo call₂.nIn back.toNat →
      (env.checkSig (env.history history₁) call₁).2 = true →
      (env.checkSig (env.history history₂) call₂).2 = true →
      Agree back.toNat call₁.scriptCode call₁.txTo call₁.nIn call₂.scriptCode call₂.txTo
        call₂.nIn) ∧
    (∀ (history₁ history₂ : List SigCall) (call₁ call₂ : SigCall),
      call₁.vchSig = call₂.vchSig → call₁.vchPubKey = call₂.vchPubKey →
      call₁.nHashType = call₂.nHashType →
      (∀ back : UInt8, call₁.vchSig.getLast? = some back →
        Agree back.toNat call₁.scriptCode call₁.txTo call₁.nIn call₂.scriptCode call₂.txTo
          call₂.nIn) →
      (env.checkSig (env.history history₁) call₁).2 =
        (env.checkSig (env.history history₂) call₂).2) ∧
    ∀ (history₁ history₂ : List SigCall) (call : SigCall),
      (env.checkSig (env.history history₁) call).2 =
        (env.checkSig (env.history history₂) call).2 := by
  refine ⟨?_, ?_, ?_⟩
  · intro history₁ history₂ call₁ call₂ back hsig hback hfits₁ hfits₂ hscript₁ _ hrange₁ hrange₂
      hpass₁ hpass₂
    rw [env.checkSig_history] at hpass₁ hpass₂
    have haccepts₁ := env.accepts_of_verdict hpass₁ hback
    have haccepts₂ := env.accepts_of_verdict hpass₂ (hsig ▸ hback)
    rw [← hsig] at haccepts₂
    have hhash := made.hash_eq haccepts₁ haccepts₂
    have htx := signatureTx_eq_of_signatureHash_eq hash_injective hfits₁.scriptCode
      hfits₂.scriptCode hfits₁.txTo hfits₂.txTo hrange₁ hrange₂ hhash
    exact agree_of_signatureTx_eq hrange₁ hrange₂ hscript₁.signedScript_ne_nil htx
  · intro history₁ history₂ call₁ call₂ hsig hkey htype hagree
    rw [env.checkSig_history, env.checkSig_history]
    unfold SigEnv.verdict SigEnv.hashTypeOf
    rw [← hsig, ← hkey, ← htype]
    cases hback : call₁.vchSig.getLast? with
    | none => rfl
    | some back =>
      have hhash : signatureHash env call₁.scriptCode call₁.txTo call₁.nIn back.toNat =
          signatureHash env call₂.scriptCode call₂.txTo call₂.nIn back.toNat := by
        rw [signatureHash, signatureHash, signatureTx_eq_of_agree (hagree back hback)]
      dsimp only
      split
      · rfl
      · next nHashType hsome =>
        split at hsome
        · rw [← Option.some.inj hsome, hhash]
        · exact absurd hsome (by simp)
  · intro history₁ history₂ call
    rw [env.checkSig_history, env.checkSig_history]

/-! ## A sample -/

/-- Bytes as digits from 1 to 256. -/
def sampleHash : List UInt8 → Uint256
  | [] => 0
  | b :: bs => b.toNat + 1 + 256 * sampleHash bs

theorem sampleHash_injective : Function.Injective sampleHash := by
  intro a
  induction a with
  | nil =>
    intro b h
    cases b with
    | nil => rfl
    | cons y ys =>
      rw [sampleHash, sampleHash] at h
      exact absurd h.symm (by unfold Uint256 at *; omega)
  | cons x xs ih =>
    intro b h
    cases b with
    | nil =>
      rw [sampleHash, sampleHash] at h
      exact absurd h (by unfold Uint256 at *; omega)
    | cons y ys =>
      rw [sampleHash, sampleHash] at h
      have hx := x.toNat_lt
      have hy := y.toNat_lt
      have hbyte : x = y := UInt8.toNat_inj.mp (by unfold Uint256 at *; omega)
      have hrest : sampleHash xs = sampleHash ys := by unfold Uint256 at *; omega
      rw [hbyte, ih hrest]

/-- A payment of one input to one output, with any `scriptSig`. -/
def sampleTx (scriptSig : CScript) : CTransaction :=
  ⟨1, 0, [⟨⟨5, 0⟩, scriptSig, uint32Max⟩], [⟨7, [0x51]⟩], 0⟩

/-- One key signed one transaction. -/
def sampleSigEnv : SigEnv Valtype where
  hash := sampleHash
  setPubKey vchPubKey := some vchPubKey
  verify key hash vchSig := key = [2] ∧ vchSig = [9] ∧
    hash = sampleHash ((sampleTx [0xac]).serialize ++ leBytesInt 4 sighashAll)

theorem sampleSigEnv_made : sampleSigEnv.MadeForOne := by
  intro key₁ key₂ hash₁ hash₂ vchSig h₁ h₂
  obtain ⟨hkey₁, -, hhash₁⟩ := of_decide_eq_true h₁
  obtain ⟨hkey₂, -, hhash₂⟩ := of_decide_eq_true h₂
  exact ⟨hhash₁.trans hhash₂.symm, hkey₁.trans hkey₂.symm⟩

def sampleCall (scriptSig : CScript) : SigCall :=
  ⟨[9, 1], [2], [0xac], sampleTx scriptSig, 0, 0, 50000, fun _ => 0⟩

theorem sampleTx_fits {scriptSig : CScript} (h : scriptSig.length < 256 ^ 8) :
    (sampleTx scriptSig).Fits := by
  have hversion : -2 ^ (8 * 4 - 1) ≤ (1 : Int) ∧ (1 : Int) < 2 ^ (8 * 4 - 1) := by decide
  have hzero : 0 < 256 ^ 4 := by decide
  have hone : 1 < 256 ^ 8 := by decide
  have hprevout : COutPoint.Encodable ⟨5, 0⟩ := ⟨by decide, by decide⟩
  have hsequence : uint32Max < 256 ^ 4 := by decide
  have hout : CTxOut.Fits ⟨7, [0x51]⟩ := ⟨by decide, by decide⟩
  refine ⟨hversion, hzero, ⟨hone, fun txin htxin => ?_⟩, ⟨hone, fun txout htxout => ?_⟩, hzero⟩
  · rw [List.mem_singleton.mp htxin]
    exact ⟨hprevout, h, hsequence⟩
  · rw [List.mem_singleton.mp htxout]
    exact hout

theorem sampleCall_fits {scriptSig : CScript} (h : scriptSig.length < 256 ^ 8) :
    (sampleCall scriptSig).Fits :=
  ⟨Nat.one_lt_pow (by decide) (by decide), sampleTx_fits h⟩

/-- The signature passes for two transactions that differ in a `scriptSig`. -/
theorem signature_authorises_sample :
    Agree 1 [0xac] (sampleTx []) 0 [0xac] (sampleTx [1, 7]) 0 :=
  (signature_authorises sampleSigEnv sampleHash_injective sampleSigEnv_made).1 []
    [sampleCall []] (sampleCall []) (sampleCall [1, 7]) 1 rfl rfl (sampleCall_fits (by decide))
    (sampleCall_fits (by decide)) (.here rfl (by decide)) (.here rfl (by decide))
    (by unfold OutOfRange; decide) (by unfold OutOfRange; decide)
    (by rw [SigEnv.checkSig_history]; decide +kernel)
    (by rw [SigEnv.checkSig_history]; decide +kernel)

end NoLimitCoin
