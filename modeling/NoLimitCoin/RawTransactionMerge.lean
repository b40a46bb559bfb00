import NoLimitCoin.RawTransaction

/-!
# Merging the scripts of variants

What `CombineSignatures` makes of the scripts that `signrawtransaction` has for an input: what is
signed with the keys at hand, and what each variant holds.

Results:
1. `PushScript.verify_pushAll`: scripts that push the same are accepted alike.
2. `combine_step`: merging two scripts that hold signatures or placeholders keeps what is accepted.
3. `signedScript_holds`: what is signed holds signatures or placeholders.
4. `signrawtransaction_sound`: what is returned for all inputs.
-/

namespace NoLimitCoin.RawTransaction

open Interpreter

/-! ## Scripts of pushes -/

/-- A script for an input that pushes values, and that `EvalScript` does not refuse. -/
structure PushScript (scriptSig : CScript) (values : List Valtype) : Prop where
  pushes : Pushes scriptSig values []
  size : scriptSig.length ≤ maxScriptSize
  element : ∀ vch ∈ values, vch.length ≤ maxScriptElementSize
  count : values.length ≤ maxStackSize

/-- Scripts that leave the same stack are accepted alike. -/
theorem verifyScript_congr {env : EvalEnv} {s₁ s₂ : CScript}
    (h : (evalScript env [] s₁).2 = (evalScript env [] s₂).2)
    (hpush : isPushOnly s₁ = isPushOnly s₂) (scriptPubKey : CScript) :
    (verifyScript env s₁ scriptPubKey).2 = (verifyScript env s₂ scriptPubKey).2 := by
  unfold verifyScript
  rw [hpush]
  generalize evalScript env [] s₁ = first at h
  generalize evalScript env [] s₂ = second at h
  obtain ⟨n₁, first⟩ := first
  obtain ⟨n₂, second⟩ := second
  obtain rfl : first = second := h
  cases first with
  | error e => rfl
  | ok stack =>
    dsimp only
    split
    · rfl
    · split
      · rfl
      · split
        · split
          · split <;> rfl
          · rfl
        · rfl

theorem length_pushAll_pushes {pc pc' : CScript} {values : List Valtype}
    (h : Pushes pc values pc') : (pushAll values).length + pc'.length ≤ pc.length := by
  induction h with
  | nil => rw [pushAll, List.flatMap_nil, List.length_nil, Nat.zero_add]
  | @cons pc rest pc' opcode vch values hop hcode _ ih =>
    have hlength := CScript.push_length_getOp hop hcode
    have hpush : (pushOf vch).length = (if vch.length < opPushdata1 then 1
        else if vch.length ≤ 0xff then 2 else if vch.length ≤ 0xffff then 3 else 5) +
          vch.length := by
      unfold pushOf
      split
      · rw [List.length_cons, Nat.add_comm]
      · split
        · simp only [List.length_cons]
          omega
        · split
          · simp only [List.length_cons]
            omega
          · simp only [List.length_cons]
            omega
    show (pushOf vch ++ pushAll values).length + _ ≤ _
    rw [List.length_append, hpush]
    omega

namespace PushScript

variable {scriptSig : CScript} {values : List Valtype}

theorem evalScript (h : PushScript scriptSig values) (env : EvalEnv) :
    (Interpreter.evalScript env [] scriptSig).2 = .ok values.reverse :=
  h.pushes.evalScript h.size h.element h.count

/-- The stack that is merged. -/
theorem stack (h : PushScript scriptSig values) (env : EvalEnv) :
    (leftStack env scriptSig).reverse = values := by
  rw [leftStack_of_evalScript (h.evalScript env), List.reverse_reverse]

theorem unique {values' : List Valtype} (h : PushScript scriptSig values)
    (h' : PushScript scriptSig values') (env : EvalEnv) : values = values' :=
  (h.stack env).symm.trans (h'.stack env)

/-- The values pushed again. -/
theorem pushAll (h : PushScript scriptSig values) : PushScript (pushAll values) values := by
  have hlength := length_pushAll_pushes h.pushes
  have hpushes := pushes_pushAll (fun vch hmem => (h.element vch hmem).trans (by decide)) []
  rw [List.append_nil] at hpushes
  exact ⟨hpushes, ((Nat.le_add_right _ _).trans hlength).trans h.size, h.element, h.count⟩

theorem verify_pushAll (h : PushScript scriptSig values) (env : EvalEnv) (scriptPubKey : CScript) :
    (verifyScript env (Interpreter.pushAll values) scriptPubKey).2 =
      (verifyScript env scriptSig scriptPubKey).2 := by
  refine verifyScript_congr ?_ ?_ scriptPubKey
  · rw [h.pushAll.evalScript, h.evalScript]
  · rw [h.pushAll.pushes.isPushOnly, h.pushes.isPushOnly]

theorem of_partialScript {env : EvalEnv} {script scriptPubKey : CScript}
    {more sigs : List Valtype} (hpays : PaysTo env script scriptPubKey more)
    (h : PartialScript env more scriptSig sigs) : PushScript scriptSig (sigs ++ more) where
  pushes := h.pushes
  size := h.size
  count := h.count
  element := fun vch hmem => by
    rcases List.mem_append.mp hmem with hmem | hmem
    · exact (length_of_isSigOrEmpty (h.sigs vch hmem)).trans (by decide)
    · exact hpays.size_more vch hmem

end PushScript

/-! ## What a script for an input holds -/

/-- An output that pays, directly or through its hash, to a script with a key, the hash of a key or
several keys; keys are canonical, and no signature verifies for two of them. -/
structure StandardOutput (env : EvalEnv) (script scriptPubKey : CScript) (type : TxnOutType)
    (vSolutions more : List Valtype) : Prop where
  pays : PaysTo env script scriptPubKey more
  solver : solver script = (true, type, vSolutions)
  standard : type = .pubkey ∨ type = .pubkeyhash ∨ type = .multisig
  keys : type = .multisig → ∀ key ∈ pubKeysOf vSolutions, isCanonicalPubKey key = true
  ideal : type = .multisig → ∀ sigs, Ideal env script (pubKeysOf vSolutions) sigs

/-- Signatures and placeholders: for several keys in any number and order; for one key what is
accepted, or an empty value in front. -/
def Mergeable (env : EvalEnv) (scriptPubKey : CScript) (type : TxnOutType)
    (more values : List Valtype) : Prop :=
  if type = .multisig then ∀ sig ∈ values, IsSigOrEmpty env sig
  else values.headD [] = [] ∨
    (verifyScript env (pushAll (values ++ more)) scriptPubKey).2 = .ok ()

/-- A script for an input that holds signatures or placeholders, or nothing where the script behind
a hash should stand. -/
inductive HoldsSigs (env : EvalEnv) (scriptPubKey : CScript) (type : TxnOutType)
    (more : List Valtype) (scriptSig : CScript) : Prop where
  | nothing (values : List Valtype) (h : PushScript scriptSig values) (hmore : more ≠ [])
      (hlast : values.getLast?.getD [] = [])
  | sigs (values : List Valtype) (h : PushScript scriptSig (values ++ more))
      (hvalues : Mergeable env scriptPubKey type more values)

/-- A script for an input that is accepted, and has no placeholder for a single key. -/
structure HoldsValid (env : EvalEnv) (scriptPubKey : CScript) (type : TxnOutType)
    (more : List Valtype) (scriptSig : CScript) : Prop where
  sigs : ∃ values, PushScript scriptSig (values ++ more) ∧
    (type ≠ .multisig → values.headD [] ≠ [])
  accepted : (verifyScript env scriptSig scriptPubKey).2 = .ok ()

section merge

variable {env emptyEnv : EvalEnv} {script scriptPubKey a b : CScript} {type : TxnOutType}
  {vSolutions more values values₁ values₂ : List Valtype}

theorem StandardOutput.ne_nil (h : StandardOutput env script scriptPubKey type vSolutions more) :
    script ≠ [] := by
  rintro rfl
  have hsolver := h.solver
  cases hsolver

/-- The script behind a hash is the last value. -/
theorem StandardOutput.getLast? (h : StandardOutput env script scriptPubKey type vSolutions more)
    (hmore : more ≠ []) (values : List Valtype) : (values ++ more).getLast? = some script := by
  cases h.pays with
  | bare => exact absurd rfl hmore
  | scriptHash => exact List.getLast?_concat

theorem HoldsSigs.pushAll (h : HoldsSigs env scriptPubKey type more b)
    (hpush : PushScript b values) : HoldsSigs env scriptPubKey type more (pushAll values) := by
  cases h with
  | nothing values' h hmore hlast =>
    obtain rfl := h.unique hpush env
    exact .nothing values' h.pushAll hmore hlast
  | sigs values' h hvalues =>
    obtain rfl := h.unique hpush env
    exact .sigs values' h.pushAll hvalues

theorem HoldsValid.pushAll (h : HoldsValid env scriptPubKey type more b)
    (hpush : PushScript b values) : HoldsValid env scriptPubKey type more (pushAll values) := by
  obtain ⟨values', h', hhead⟩ := h.sigs
  obtain rfl := h'.unique hpush env
  exact ⟨⟨values', h'.pushAll, hhead⟩, (h'.verify_pushAll env scriptPubKey).trans h.accepted⟩

/-- Nothing is not accepted. -/
theorem HoldsValid.not_nothing (hout : StandardOutput env script scriptPubKey type vSolutions more)
    (h : HoldsValid env scriptPubKey type more b) (hmore : more ≠ []) (hpush : PushScript b values)
    (hlast : values.getLast?.getD [] = []) : False := by
  obtain ⟨values', h', -⟩ := h.sigs
  obtain rfl := h'.unique hpush env
  rw [hout.getLast? hmore] at hlast
  exact hout.ne_nil hlast

/-! ## Merging -/

theorem combineTyped_scripthash (fuel : Nat) (values₁ values₂ : List Valtype) :
    combineTyped env (fuel + 1) scriptPubKey .scripthash vSolutions values₁ values₂ =
      if values₁.getLast?.getD [] = [] then pushAll values₂
      else if values₂.getLast?.getD [] = [] then pushAll values₁
      else
        let spk := values₁.getLast?.getD []
        combineTyped env fuel spk (solver spk).2.1 (solver spk).2.2 values₁.dropLast
          values₂.dropLast ++ pushOf spk := by
  rw [combineTyped]
  cases values₁.getLast? with
  | none => rfl
  | some last₁ =>
    cases last₁ with
    | nil => rfl
    | cons c last₁ =>
      cases values₂.getLast? with
      | none => rfl
      | some last₂ =>
        cases last₂ with
        | nil => rfl
        | cons d last₂ => rfl

/-- `CombineSignatures` for an output behind a hash. -/
theorem combineSignatures_scripthash (ha : PushScript a values₁) (hb : PushScript b values₂)
    (hmore : more ≠ []) (hpays : PaysTo env script scriptPubKey more) :
    combineSignatures emptyEnv env scriptPubKey a b =
      combineTyped env (values₁.length + 1) scriptPubKey .scripthash
        [env.hash .hash160 script] values₁ values₂ := by
  unfold combineSignatures
  rw [ha.stack, hb.stack]
  cases hpays with
  | bare => exact absurd rfl hmore
  | scriptHash => rw [solver_scriptID (length_hash160 script)]

/-- Where one script has nothing, the other one is taken. -/
theorem combine_nothing (hpays : PaysTo env script scriptPubKey more) (hmore : more ≠ [])
    (ha : PushScript a values₁) (hb : PushScript b values₂) :
    (values₁.getLast?.getD [] = [] →
      combineSignatures emptyEnv env scriptPubKey a b = pushAll values₂) ∧
    (values₁.getLast?.getD [] ≠ [] → values₂.getLast?.getD [] = [] →
      combineSignatures emptyEnv env scriptPubKey a b = pushAll values₁) := by
  rw [combineSignatures_scripthash ha hb hmore hpays, combineTyped_scripthash]
  refine ⟨fun hlast => if_pos hlast, fun hlast₁ hlast₂ => ?_⟩
  rw [if_neg hlast₁, if_pos hlast₂]

/-- Two scripts that hold signatures: these are merged for the script with the keys. -/
theorem combine_sigs (hout : StandardOutput env script scriptPubKey type vSolutions more)
    (ha : PushScript a (values₁ ++ more)) (hb : PushScript b (values₂ ++ more)) :
    ∃ fuel, combineSignatures emptyEnv env scriptPubKey a b =
      combineTyped env fuel script type vSolutions values₁ values₂ ++ pushAll more := by
  by_cases hmore : more = []
  · subst hmore
    unfold combineSignatures
    rw [ha.stack, hb.stack]
    cases hout.pays
    rw [hout.solver, List.append_nil, List.append_nil]
    exact ⟨_, (List.append_nil _).symm⟩
  · rw [combineSignatures_scripthash ha hb hmore hout.pays, combineTyped_scripthash,
      hout.getLast? hmore, hout.getLast? hmore, Option.getD_some, if_neg hout.ne_nil,
      if_neg hout.ne_nil]
    dsimp only
    rw [hout.solver]
    have hmore' : more = [script] := by
      cases hout.pays with
      | bare => exact absurd rfl hmore
      | scriptHash => rfl
    rw [hmore', List.dropLast_concat, List.dropLast_concat]
    refine ⟨_, congrArg _ ?_⟩
    rw [pushAll, List.flatMap_singleton]

/-- For a single key the first script stays, unless it has a placeholder. -/
theorem combineTyped_keyed (htype : type = .pubkey ∨ type = .pubkeyhash) (fuel : Nat)
    (values₁ values₂ : List Valtype) :
    combineTyped env fuel script type vSolutions values₁ values₂ =
      if values₁.headD [] = [] then pushAll values₂ else pushAll values₁ := by
  rcases htype with rfl | rfl
  all_goals
    rw [combineTyped.eq_def]
    cases values₁ with
    | nil => rfl
    | cons first values₁ =>
      cases first with
      | nil => rfl
      | cons c first => rfl

theorem pushAll_append (values more : List Valtype) :
    pushAll (values ++ more) = pushAll values ++ pushAll more :=
  List.flatMap_append

theorem combine_keyed (hout : StandardOutput env script scriptPubKey type vSolutions more)
    (htype : type = .pubkey ∨ type = .pubkeyhash) (ha : PushScript a (values₁ ++ more))
    (hb : PushScript b (values₂ ++ more)) :
    combineSignatures emptyEnv env scriptPubKey a b =
      if values₁.headD [] = [] then pushAll (values₂ ++ more) else pushAll (values₁ ++ more) := by
  obtain ⟨fuel, hcombine⟩ := @combine_sigs _ emptyEnv _ _ _ _ _ _ _ _ _ hout ha hb
  rw [hcombine, combineTyped_keyed htype]
  split
  · rw [pushAll_append]
  · rw [pushAll_append]

/-- One key: what is accepted is kept. -/
theorem combine_step_keyed (hout : StandardOutput env script scriptPubKey type vSolutions more)
    (htype : type = .pubkey ∨ type = .pubkeyhash) (ha : PushScript a (values₁ ++ more))
    (hvalues : Mergeable env scriptPubKey type more values₁)
    (hb : PushScript b (values₂ ++ more)) (hholds : HoldsSigs env scriptPubKey type more b) :
    HoldsSigs env scriptPubKey type more (combineSignatures emptyEnv env scriptPubKey a b) ∧
      (HoldsValid env scriptPubKey type more a ∨ HoldsValid env scriptPubKey type more b →
        HoldsValid env scriptPubKey type more
          (combineSignatures emptyEnv env scriptPubKey a b)) := by
  have hnot : type ≠ .multisig := by
    rintro rfl
    rcases htype with h | h <;> cases h
  rw [combine_keyed hout htype ha hb]
  split
  · next hhead =>
    refine ⟨hholds.pushAll hb, fun hvalid => ?_⟩
    rcases hvalid with hvalid | hvalid
    · obtain ⟨values, hpush, hne⟩ := hvalid.sigs
      obtain rfl := List.append_cancel_right (hpush.unique ha env)
      exact absurd hhead (hne hnot)
    · exact hvalid.pushAll hb
  · next hhead =>
    refine ⟨.sigs values₁ ha.pushAll hvalues, fun _ => ⟨⟨values₁, ha.pushAll, fun _ => hhead⟩, ?_⟩⟩
    rw [Mergeable, if_neg hnot] at hvalues
    exact hvalues.resolve_left hhead

theorem PushScript.partialScript (h : PushScript a (values ++ more))
    (hvalues : ∀ sig ∈ values, IsSigOrEmpty env sig) : PartialScript env more a values :=
  ⟨h.pushes, h.size, h.count, hvalues⟩

/-- Several keys: what is accepted stays accepted when signatures are added. -/
theorem combine_step_multisig
    (hout : StandardOutput env script scriptPubKey .multisig vSolutions more)
    (ha : PartialScript env more a values₁) (hb : PartialScript env more b values₂) :
    HoldsSigs env scriptPubKey .multisig more (combineSignatures emptyEnv env scriptPubKey a b) ∧
      (HoldsValid env scriptPubKey .multisig more a ∨ HoldsValid env scriptPubKey .multisig more b →
        HoldsValid env scriptPubKey .multisig more
          (combineSignatures emptyEnv env scriptPubKey a b)) := by
  have hkeys := hout.keys rfl
  obtain ⟨⟨sigs, hsigs⟩, -, hcomm, hleft⟩ := @combineSignatures_spec emptyEnv _ _ _ _ _ _ _ _ _
    hout.solver hout.pays hkeys ha hb (hout.ideal rfl _)
  obtain ⟨-, -, -, hright⟩ := @combineSignatures_spec emptyEnv _ _ _ _ _ _ _ _ _
    hout.solver hout.pays hkeys hb ha (hout.ideal rfl _)
  have hpush := PushScript.of_partialScript hout.pays hsigs
  refine ⟨.sigs sigs hpush hsigs.sigs, fun hvalid => ⟨⟨sigs, hpush, fun hne => absurd rfl hne⟩, ?_⟩⟩
  rcases hvalid with hvalid | hvalid
  · exact hleft hvalid.accepted
  · rw [hcomm]
    exact hright hvalid.accepted

/-- Merging two scripts that hold signatures or placeholders keeps what is accepted. -/
theorem combine_step (hout : StandardOutput env script scriptPubKey type vSolutions more)
    (ha : HoldsSigs env scriptPubKey type more a) (hb : HoldsSigs env scriptPubKey type more b) :
    HoldsSigs env scriptPubKey type more (combineSignatures emptyEnv env scriptPubKey a b) ∧
      (HoldsValid env scriptPubKey type more a ∨ HoldsValid env scriptPubKey type more b →
        HoldsValid env scriptPubKey type more
          (combineSignatures emptyEnv env scriptPubKey a b)) := by
  cases ha with
  | nothing values₁ ha hmore hlast₁ =>
    obtain ⟨values₂, hpush⟩ : ∃ values₂, PushScript b values₂ := by
      cases hb with
      | nothing values₂ hb _ _ => exact ⟨_, hb⟩
      | sigs values₂ hb _ => exact ⟨_, hb⟩
    rw [(combine_nothing hout.pays hmore ha hpush).1 hlast₁]
    refine ⟨hb.pushAll hpush, fun hvalid => ?_⟩
    rcases hvalid with hvalid | hvalid
    · exact (hvalid.not_nothing hout hmore ha hlast₁).elim
    · exact hvalid.pushAll hpush
  | sigs values₁ ha hvalues₁ =>
    cases hb with
    | nothing values₂ hb hmore hlast₂ =>
      have hlast₁ : (values₁ ++ more).getLast?.getD [] ≠ [] := by
        rw [hout.getLast? hmore]
        exact hout.ne_nil
      rw [(combine_nothing hout.pays hmore ha hb).2 hlast₁ hlast₂]
      refine ⟨.sigs values₁ ha.pushAll hvalues₁, fun hvalid => ?_⟩
      rcases hvalid with hvalid | hvalid
      · exact hvalid.pushAll ha
      · exact (hvalid.not_nothing hout hmore hb hlast₂).elim
    | sigs values₂ hb hvalues₂ =>
      rcases hout.standard with htype | htype | htype
      · exact combine_step_keyed hout (.inl htype) ha hvalues₁ hb (.sigs values₂ hb hvalues₂)
      · exact combine_step_keyed hout (.inr htype) ha hvalues₁ hb (.sigs values₂ hb hvalues₂)
      · subst htype
        rw [Mergeable, if_pos rfl] at hvalues₁ hvalues₂
        exact combine_step_multisig hout (ha.partialScript hvalues₁) (hb.partialScript hvalues₂)

/-- The scripts of all variants. -/
theorem combine_all (hout : StandardOutput env script scriptPubKey type vSolutions more)
    {scripts : List CScript} (hscripts : ∀ b ∈ scripts, HoldsSigs env scriptPubKey type more b)
    (ha : HoldsSigs env scriptPubKey type more a)
    (hvalid : HoldsValid env scriptPubKey type more a ∨
      ∃ b ∈ scripts, HoldsValid env scriptPubKey type more b) :
    HoldsValid env scriptPubKey type more
      (scripts.foldl (combineSignatures emptyEnv env scriptPubKey) a) := by
  induction scripts generalizing a with
  | nil =>
    rcases hvalid with hvalid | ⟨b, hb, -⟩
    · exact hvalid
    · exact absurd hb List.not_mem_nil
  | cons b scripts ih =>
    obtain ⟨hb, hrest⟩ := List.forall_mem_cons.mp hscripts
    obtain ⟨hholds, hkept⟩ := @combine_step _ emptyEnv _ _ _ _ _ _ _ hout ha hb
    refine ih hrest hholds ?_
    rcases hvalid with hvalid | ⟨c, hc, hvalid⟩
    · exact .inl (hkept (.inl hvalid))
    · rcases List.mem_cons.mp hc with rfl | hc
      · exact .inl (hkept (.inr hvalid))
      · exact .inr ⟨c, hc, hvalid⟩

end merge

/-! ## What is signed -/

/-- What a key signs is a canonical signature that its public key, which is canonical too,
verifies.  No signature is the hash of a key. -/
structure IdealSigner {Key : Type} (base : EvalEnv) (senv : SignEnv Key) (nHashType : Nat) :
    Prop where
  signs : ∀ key hash vchSig, senv.sign key hash = some vchSig → ∃ verifier,
    isCanonicalSignature base (vchSig ++ [UInt8.ofNat nHashType]) = true ∧
    senv.setPubKey (senv.pubKey key) = some verifier ∧
    senv.verify verifier hash vchSig = true ∧
    vchSig ++ [UInt8.ofNat nHashType] ≠ base.hash .hash160 (senv.pubKey key)
  canonical : ∀ key, isCanonicalPubKey (senv.pubKey key) = true

section signed

variable {Key : Type} {base : EvalEnv} {senv : SignEnv Key}
  {keystore : CKeyStore Key (base.hash .hash160) senv.pubKey} {nHashType nIn : Nat}
  {tx : CTransaction} {script scriptPubKey prevPubKey : CScript} {type : TxnOutType}
  {vSolutions more : List Valtype}

/-- What `Sign1` appends, if anything. -/
theorem sign1_cases (hsigner : IdealSigner base senv nHashType) (hbyte : nHashType < 256)
    (address : Valtype) (script : CScript) (tx : CTransaction) (nIn : Nat)
    (scriptSigRet : CScript) :
    sign1 base senv keystore address (signatureHash senv.toSigEnv script tx nIn nHashType) nHashType
        scriptSigRet = (false, scriptSigRet) ∨
      ∃ key sig, keystore.getKey address = some key ∧
        sign1 base senv keystore address (signatureHash senv.toSigEnv script tx nIn nHashType)
          nHashType scriptSigRet = (true, scriptSigRet ++ pushOf sig) ∧
        isCanonicalSignature base sig = true ∧ sig ≠ address ∧
        (checkOne (inputEnv base senv.toSigEnv tx nIn) sig (senv.pubKey key) script).2 = true := by
  unfold sign1
  cases hkey : keystore.getKey address with
  | none => exact .inl rfl
  | some key =>
    dsimp only
    cases hsign : senv.sign key (signatureHash senv.toSigEnv script tx nIn nHashType) with
    | none => exact .inl rfl
    | some vchSig =>
      obtain ⟨verifier, hcanonical, hset, hverify, hne⟩ := hsigner.signs _ _ _ hsign
      rw [keystore.keyed _ _ hkey] at hne
      exact .inr ⟨key, _, rfl, rfl, hcanonical, hne,
        checkOne_signed hbyte hcanonical (hsigner.canonical key) hset hverify⟩

/-- What the loop of `SignN` appends. -/
theorem signNLoop_cases (hsigner : IdealSigner base senv nHashType) (hbyte : nHashType < 256)
    (script : CScript) (tx : CTransaction) (nIn nRequired : Nat) (pubkeys : List Valtype)
    (nSigned : Nat) (scriptSigRet : CScript) :
    ∃ sigs, (signNLoop base senv keystore (signatureHash senv.toSigEnv script tx nIn nHashType)
        nHashType nRequired pubkeys nSigned scriptSigRet).2 = scriptSigRet ++ pushAll sigs ∧
      sigs.length ≤ pubkeys.length ∧ ∀ sig ∈ sigs, isCanonicalSignature base sig = true := by
  induction pubkeys generalizing nSigned scriptSigRet with
  | nil => exact ⟨[], (List.append_nil _).symm, le_rfl, nofun⟩
  | cons pubkey pubkeys ih =>
    rw [signNLoop]
    split
    · rcases @sign1_cases _ _ _ keystore _ hsigner hbyte (base.hash .hash160 pubkey) script tx nIn
        scriptSigRet with hsign | ⟨key, sig, -, hsign, hcanonical, -, -⟩
      · obtain ⟨sigs, hloop, hlength, hsigs⟩ := ih nSigned scriptSigRet
        rw [hsign]
        exact ⟨sigs, hloop, hlength.trans (Nat.le_succ _), hsigs⟩
      · obtain ⟨sigs, hloop, hlength, hsigs⟩ := ih (nSigned + 1) (scriptSigRet ++ pushOf sig)
        rw [hsign]
        refine ⟨sig :: sigs, hloop.trans ?_, Nat.succ_le_succ hlength,
          List.forall_mem_cons.mpr ⟨hcanonical, hsigs⟩⟩
        rw [pushAll, pushAll, List.flatMap_cons, List.append_assoc]
    · exact ⟨[], (List.append_nil _).symm, Nat.zero_le _, nofun⟩

/-- What `Solver` signs for the script with the keys. -/
theorem solverSign_holds (hsigner : IdealSigner base senv nHashType) (hbyte : nHashType < 256)
    (hcollision : NoCollision base senv keystore script)
    (hout : StandardOutput (inputEnv base senv.toSigEnv tx nIn) script scriptPubKey type vSolutions
      more) :
    ∃ values, (solverSign base senv keystore script
        (signatureHash senv.toSigEnv script tx nIn nHashType) nHashType).2 =
          (type, pushAll values) ∧
      values.length ≤ 17 ∧ (∀ vch ∈ values, vch.length ≤ maxScriptElementSize) ∧
      Mergeable (inputEnv base senv.toSigEnv tx nIn) scriptPubKey type more values := by
  have hsolver := hout.solver
  have hkeySize : ∀ key, (senv.pubKey key).length ≤ maxScriptElementSize := fun key =>
    (length_of_isCanonicalPubKey (hsigner.canonical key)).trans (by decide)
  have hsigSize : ∀ {sig : Valtype}, isCanonicalSignature base sig = true →
      sig.length ≤ maxScriptElementSize := fun h =>
    (length_of_isSigOrEmpty (.inr h)).trans (by decide)
  have hnone : type ≠ .multisig → Mergeable (inputEnv base senv.toSigEnv tx nIn) scriptPubKey type
      more [] := fun hne => by
    rw [Mergeable, if_neg hne]
    exact .inl rfl
  rw [NoCollision, hsolver] at hcollision
  unfold solverSign
  rw [hsolver]
  rcases hout.standard with rfl | rfl | rfl
  · obtain ⟨hhash, -⟩ := template_of_solver hsolver TxnOutType.noConfusion
    obtain ⟨opcode, pubkey, rest, rfl, -, -, -, -⟩ := pubkey_of_solver hsolver
    dsimp only [List.headD_cons]
    rcases @sign1_cases _ _ _ keystore _ hsigner hbyte (base.hash .hash160 pubkey) script tx nIn []
      with hsign | ⟨key, sig, hkey, hsign, hsig, -, hcheck⟩
    · rw [hsign]
      exact ⟨[], rfl, Nat.zero_le _, List.forall_mem_nil _, hnone TxnOutType.noConfusion⟩
    · obtain rfl := hcollision pubkey List.mem_cons_self key hkey
      rw [hsign]
      refine ⟨[sig], ?_, show 1 ≤ 17 by decide, List.forall_mem_singleton.mpr (hsigSize hsig),
        .inr ?_⟩
      · rw [pushAll, List.flatMap_singleton, List.nil_append]
      · exact verifyScript_of_satisfies (satisfies_pubkey hsolver hsig (hsigner.canonical key)
          hcheck) hout.pays hhash
  · obtain ⟨hhash, -⟩ := template_of_solver hsolver TxnOutType.noConfusion
    obtain ⟨opcode, id, rest₁, rest₂, rest₃, rest₄, rfl, -, -, -, -, -, -, -⟩ :=
      pubkeyhash_of_solver hsolver
    rcases @sign1_cases _ _ _ keystore _ hsigner hbyte id script tx nIn []
      with hsign | ⟨key, sig, hkey, hsign, hsig, hne, hcheck⟩
    · simp only [List.headD_cons, hsign, Bool.false_eq_true, if_false]
      exact ⟨[], rfl, Nat.zero_le _, List.forall_mem_nil _, hnone TxnOutType.noConfusion⟩
    · have hid := keystore.keyed _ _ hkey
      subst hid
      simp only [List.headD_cons, hsign, hkey, if_true, List.nil_append, Option.map_some,
        Option.getD_some]
      refine ⟨[sig, senv.pubKey key], ?_, show 2 ≤ 17 by decide, List.forall_mem_cons.mpr
        ⟨hsigSize hsig, List.forall_mem_singleton.mpr (hkeySize key)⟩, .inr ?_⟩
      · rw [pushAll, List.flatMap_cons, List.flatMap_singleton]
      · exact verifyScript_of_satisfies (satisfies_pubkeyhash hsolver hsig
          (hsigner.canonical key) hne hcheck) hout.pays hhash
  · obtain ⟨-, m, keys, hsolutions, hscript, -⟩ := multiSigScript_of_solver hsolver
    have hpubKeys : pubKeysOf vSolutions = keys := pubKeysOf_of_multisig hsolutions
    obtain ⟨sigs, hloop, hlength, hsigs⟩ := @signNLoop_cases _ _ _ keystore _ hsigner hbyte script
      tx nIn (firstByte vSolutions.head?) keys 0 (pushOf [])
    have hvalues : ∀ vch ∈ [] :: sigs, IsSigOrEmpty (inputEnv base senv.toSigEnv tx nIn) vch :=
      List.forall_mem_cons.mpr ⟨.inl rfl, fun sig hmem => .inr (hsigs sig hmem)⟩
    have hkeys16 := hscript.le16
    refine ⟨[] :: sigs, ?_, by rw [List.length_cons]; omega, fun vch hmem =>
      (length_of_isSigOrEmpty (hvalues vch hmem)).trans (by decide), hvalues⟩
    dsimp only
    unfold signN
    rw [hpubKeys]
    dsimp only
    rw [hloop, pushAll, pushAll, List.flatMap_cons]

theorem holdsSigs_nil {env : EvalEnv} (hpays : PaysTo env script scriptPubKey more) :
    HoldsSigs env scriptPubKey type more [] := by
  have hpush : PushScript [] [] := ⟨.nil [], Nat.zero_le _, nofun, Nat.zero_le _⟩
  cases hpays with
  | bare =>
    refine .sigs [] hpush ?_
    unfold Mergeable
    split
    · exact nofun
    · exact .inl rfl
  | scriptHash => exact .nothing [] hpush (List.cons_ne_nil _ _) rfl

theorem holdsSigs_pushAll {env : EvalEnv} (hpays : PaysTo env script scriptPubKey more)
    {values : List Valtype} (hcount : values.length ≤ 17)
    (helement : ∀ vch ∈ values, vch.length ≤ maxScriptElementSize)
    (hvalues : Mergeable env scriptPubKey type more values) :
    HoldsSigs env scriptPubKey type more (pushAll (values ++ more)) := by
  have hmore := hpays.length_more
  have hlength : (values ++ more).length ≤ 18 := by
    rw [List.length_append]
    omega
  have hsmall : ∀ vch ∈ values ++ more, vch.length ≤ maxScriptElementSize := fun vch hmem =>
    (List.mem_append.mp hmem).elim (helement vch) (hpays.size_more vch)
  obtain ⟨hpushes, hsize⟩ := pushes_pushAll_small hsmall hlength
  exact .sigs values ⟨hpushes, hsize, hsmall, hlength.trans (by decide)⟩ hvalues

/-- What is signed for an output holds signatures or placeholders. -/
theorem signedScript_holds (hsigner : IdealSigner base senv nHashType) (hbyte : nHashType < 256)
    (hcollision : NoCollision base senv keystore script)
    (hredeem : ∀ subscript, keystore.getCScript (base.hash .hash160 script) = some subscript →
      subscript = script)
    (hout : StandardOutput (inputEnv base senv.toSigEnv tx nIn) script prevPubKey type vSolutions
      more) :
    HoldsSigs (inputEnv base senv.toSigEnv tx nIn) prevPubKey type more
      (signedScript base senv keystore nHashType prevPubKey tx nIn) := by
  obtain ⟨values, hsolved, hcount, helement, hvalues⟩ :=
    @solverSign_holds _ _ _ keystore _ _ _ _ _ _ _ _ hsigner hbyte hcollision hout
  have hholds := holdsSigs_pushAll hout.pays hcount helement hvalues
  have hnot : type ≠ .scripthash := by
    rintro rfl
    rcases hout.standard with h | h | h <;> cases h
  have hnil : HoldsSigs (inputEnv base senv.toSigEnv tx nIn) prevPubKey type more [] :=
    holdsSigs_nil hout.pays
  unfold signedScript
  split
  · dsimp only
    cases hout.pays with
    | bare =>
      have htype : (solverSign base senv keystore script
          (signatureHash senv.toSigEnv script tx nIn nHashType) nHashType).2.1 ≠ .scripthash := by
        rw [hsolved]
        exact hnot
      rw [if_neg htype, ite_self, hsolved]
      rw [List.append_nil] at hholds
      exact hholds
    | scriptHash hsize =>
      cases hget : keystore.getCScript ((inputEnv base senv.toSigEnv tx nIn).hash .hash160
          script) with
      | none =>
        have hfind : ∀ hash, solverSign base senv keystore (CTxDestination.scriptID
            ((inputEnv base senv.toSigEnv tx nIn).hash .hash160 script)).script hash nHashType =
              (false, .scripthash, []) := fun hash => by
          unfold solverSign
          rw [solver_scriptID (length_hash160 script)]
          dsimp only [List.headD_cons]
          rw [hget]
        rw [hfind]
        exact hnil
      | some subscript =>
        obtain rfl := hredeem subscript hget
        have hfind : ∀ hash, solverSign base senv keystore (CTxDestination.scriptID
            ((inputEnv base senv.toSigEnv tx nIn).hash .hash160 subscript)).script hash nHashType =
              (true, .scripthash, subscript) := fun hash => by
          unfold solverSign
          rw [solver_scriptID (length_hash160 subscript)]
          dsimp only [List.headD_cons]
          rw [hget]
        have hall : pushAll values ++ pushOf subscript = pushAll (values ++ [subscript]) := by
          rw [pushAll_append, pushAll, pushAll, List.flatMap_singleton]
        rw [← hall] at hholds
        rw [hfind]
        dsimp only
        rw [if_neg (by decide), if_pos rfl, hsolved]
        exact hholds
  · exact hnil

end signed

/-! ## The result -/

theorem hashType_lt {strHashType : Option String} {nHashType : Nat}
    (h : hashType strHashType = .ok nHashType) : nHashType < 256 := by
  cases strHashType with
  | none =>
    obtain rfl := Except.ok.inj h
    decide
  | some strHashType =>
    unfold hashType at h
    dsimp only at h
    split at h
    · next found hfound =>
      obtain rfl := Except.ok.inj h
      obtain ⟨before, after, hsplit, -⟩ := List.lookup_eq_some_iff.mp hfound
      have hall : ∀ entry ∈ mapSigHashValues, entry.2 < 256 := by decide
      exact hall _ (hsplit ▸ List.mem_append_right _ List.mem_cons_self)
    · cases h

/-- For a standard output, one script is accepted and the others hold signatures and placeholders;
nothing in the key store has the hash of something else. -/
def HoldsAccepted {Key : Type} (base : EvalEnv) (senv : SignEnv Key)
    (keystore : CKeyStore Key (base.hash .hash160) senv.pubKey) (env : EvalEnv)
    (prevPubKey : CScript) (scripts : List CScript) : Prop :=
  ∃ script type vSolutions more, StandardOutput env script prevPubKey type vSolutions more ∧
    NoCollision base senv keystore script ∧
    (∀ subscript, keystore.getCScript (base.hash .hash160 script) = some subscript →
      subscript = script) ∧
    (∀ scriptSig ∈ scripts, HoldsSigs env prevPubKey type more scriptSig) ∧
    ∃ scriptSig ∈ scripts, HoldsValid env prevPubKey type more scriptSig

/-- When the variants have the inputs, the result is the first variant but for the scripts;
`complete` says that every input is accepted; and an input is, if a variant has what is accepted
and the others have signatures and placeholders. -/
theorem signrawtransaction_sound {Key : Type} (base : EvalEnv) (senv : SignEnv Key)
    (keystore : CKeyStore Key (base.hash .hash160) senv.pubKey)
    (fetch : COutPoint → Option CScript) (tx : CTransaction) (txs : List CTransaction)
    (prevTxs : List (COutPoint × CScript)) (strHashType : Option String)
    {mapPrevOut : Map COutPoint CScript} {nHashType : Nat}
    (hprev : prevTxs.foldlM addPrevOut (fetchPrevOuts fetch tx.vin) = .ok mapPrevOut)
    (hhash : hashType strHashType = .ok nHashType) (hinputs : HasInputs mapPrevOut (tx :: txs) tx) :
    ∃ mergedTx fComplete, signrawtransaction base senv keystore fetch (tx :: txs) prevTxs
        strHashType = .ok (mergedTx, fComplete) ∧
      mergedTx.unsigned = tx.unsigned ∧
      (fComplete = true ↔ ∀ (nIn : Nat) (txin : CTxIn), mergedTx.vin[nIn]? = some txin →
        Accepted base senv mapPrevOut mergedTx nIn txin.prevout txin.scriptSig) ∧
      (IdealSigner base senv nHashType → ∀ (nIn : Nat) (txin : CTxIn) (prevPubKey : CScript),
        mergedTx.vin[nIn]? = some txin → mapPrevOut[txin.prevout]? = some prevPubKey →
        HoldsAccepted base senv keystore (inputEnv base senv.toSigEnv tx nIn) prevPubKey
          ((tx :: txs).map (scriptAt · nIn)) →
        scriptVerifier base senv.toSigEnv txin.scriptSig prevPubKey mergedTx nIn = true) := by
  obtain ⟨⟨mergedTx, fComplete⟩, hrun, hsigned⟩ := @Signed.run Key base senv keystore mapPrevOut
    nHashType tx.vin.length tx (tx :: txs) hinputs le_rfl
  have hunsigned : mergedTx.unsigned = tx.unsigned := hsigned.unsigned
  have hscript : ∀ (nIn : Nat) (txin : CTxIn), mergedTx.vin[nIn]? = some txin →
      ∃ txin', tx.vin[nIn]? = some txin' ∧ txin'.prevout = txin.prevout ∧ txin.scriptSig =
        inputScript base senv keystore mapPrevOut nHashType (tx :: txs) tx nIn txin' := by
    intro nIn txin htxin
    by_cases hin : nIn < tx.vin.length
    · have hget := hsigned.scripts nIn hin _ (List.getElem?_eq_getElem hin)
      obtain rfl := Option.some.inj (htxin.symm.trans hget)
      exact ⟨_, List.getElem?_eq_getElem hin, rfl, rfl⟩
    · rw [hsigned.later nIn (Nat.le_of_not_lt hin),
        List.getElem?_eq_none (Nat.le_of_not_lt hin)] at htxin
      cases htxin
  refine ⟨mergedTx, fComplete, ?_, hunsigned, ?_, ?_⟩
  · unfold signrawtransaction
    dsimp only
    rw [hprev, hhash]
    exact hrun
  · rw [show fComplete = true ↔ _ from hsigned.complete]
    constructor
    · intro hall nIn txin htxin
      obtain ⟨txin', hget, hprevout, hsame⟩ := hscript nIn txin htxin
      obtain ⟨prevPubKey, hknown, hverified⟩ :=
        hall nIn (List.getElem?_eq_some_iff.mp hget).1 txin' hget
      rw [hprevout] at hknown
      rw [← hsame, ← scriptVerifier_unsigned hunsigned] at hverified
      exact ⟨prevPubKey, hknown, hverified⟩
    · intro hall nIn hin txin hget
      obtain ⟨prevPubKey, hknown, hverified⟩ := hall nIn _ (hsigned.scripts nIn hin txin hget)
      rw [scriptVerifier_unsigned hunsigned] at hverified
      exact ⟨prevPubKey, hknown, hverified⟩
  · intro hsigner nIn txin prevPubKey htxin hknown hmerge
    obtain ⟨script, type, vSolutions, more, hout, hcollision, hredeem, hholds, hvalid⟩ := hmerge
    obtain ⟨txin', hget, hprevout, hsame⟩ := hscript nIn txin htxin
    have hmerged := @combine_all _ (emptyEnv base senv) _ _ _ _ _ _ hout _ hholds
      (signedScript_holds hsigner (hashType_lt hhash) hcollision hredeem hout) (.inr hvalid)
    rw [scriptVerifier_unsigned hunsigned, hsame, inputScript, hprevout, hknown]
    unfold scriptVerifier mergedScript
    dsimp only
    rw [hmerged.accepted]
    rfl

section samples

/-- No keys at hand. -/
def noKeys : CKeyStore Unit (headEnv.hash .hash160) oneKey.pubKey where
  getKey _ := none
  getCScript _ := none
  keyed _ _ h := by cases h
  hashed _ _ h := by cases h
  size _ _ h := by cases h

/-- A variant with a script for the only input. -/
def variantTx (values : List Valtype) : CTransaction := oneInputTx.setScriptSig 0 (pushAll values)

theorem idealSigner_oneKey : IdealSigner headEnv oneKey 1 where
  signs key hash vchSig h := by
    obtain ⟨vchSig', verifier, hsign, hrest⟩ := idealKeys_oneKey.signs key hash
    obtain rfl := Option.some.inj (h.symm.trans hsign)
    exact ⟨verifier, hrest⟩
  canonical := idealKeys_oneKey.canonical

theorem holdsAccepted_sample : HoldsAccepted headEnv oneKey noKeys
    (inputEnv headEnv oneKey.toSigEnv (variantTx []) 0) innerScript
      [pushAll [], pushAll [sampleSig]] := by
  have hout : StandardOutput (inputEnv headEnv oneKey.toSigEnv (variantTx []) 0) innerScript
      innerScript .pubkey [compressedKey 0] [] :=
    ⟨.bare, by decide +kernel, .inl rfl, nofun, nofun⟩
  have hverified : (verifyScript (inputEnv headEnv oneKey.toSigEnv (variantTx []) 0)
      (pushAll [sampleSig]) innerScript).2 = .ok () := by
    decide +kernel
  have hholds : ∀ values : List Valtype, values = [] ∨ values = [sampleSig] →
      HoldsSigs (inputEnv headEnv oneKey.toSigEnv (variantTx []) 0) innerScript .pubkey []
        (pushAll values) := by
    rintro values (rfl | rfl)
    · exact holdsSigs_nil hout.pays
    · exact holdsSigs_pushAll hout.pays (show [sampleSig].length ≤ 17 by decide)
        (List.forall_mem_singleton.mpr (by decide +kernel)) (.inr hverified)
  have hpush : PushScript (pushAll [sampleSig]) ([sampleSig] ++ []) := by
    have hpushes := @pushes_pushAll_small [sampleSig] (by decide +kernel) (by decide)
    exact ⟨hpushes.1, hpushes.2, by decide +kernel, by decide⟩
  refine ⟨innerScript, .pubkey, _, [], hout, fun _ _ _ h => (by cases h), fun _ h => (by cases h),
    List.forall_mem_cons.mpr ⟨hholds _ (.inl rfl),
      List.forall_mem_singleton.mpr (hholds _ (.inr rfl))⟩, _,
    List.mem_cons_of_mem _ List.mem_cons_self, ⟨[sampleSig], hpush, fun _ => ?_⟩, hverified⟩
  decide +kernel

theorem signrawtransaction_sound_merged : ∃ mergedTx, signrawtransaction headEnv oneKey noKeys
    (fun _ => some innerScript) [variantTx [], variantTx [sampleSig]] [] none =
      .ok (mergedTx, true) ∧ mergedTx.unsigned = oneInputTx.unsigned := by
  have honly : ∀ (tx : CTransaction), tx.unsigned = (variantTx []).unsigned →
      ∀ (nIn : Nat) (txin : CTxIn), tx.vin[nIn]? = some txin → nIn = 0 ∧ txin.prevout = ⟨5, 0⟩ := by
    intro tx htx nIn txin htxin
    have hget := congrArg (fun tx : CTransaction => tx.vin[nIn]?.map CTxIn.prevout) htx
    unfold CTransaction.unsigned at hget
    dsimp only at hget
    rw [List.getElem?_map, htxin] at hget
    match nIn with
    | 0 => exact ⟨rfl, Option.some.inj hget⟩
    | nIn + 1 => cases hget
  have hinputs : HasInputs (fetchPrevOuts (fun _ => some innerScript) (variantTx []).vin)
      [variantTx [], variantTx [sampleSig]] (variantTx []) := by
    intro nIn txin htxin _
    obtain ⟨rfl, -⟩ := honly _ rfl nIn txin htxin
    exact List.forall_mem_cons.mpr ⟨by decide, List.forall_mem_singleton.mpr (by decide)⟩
  obtain ⟨mergedTx, fComplete, hrun, hunsigned, hcomplete, hmerged⟩ :=
    signrawtransaction_sound headEnv oneKey noKeys (fun _ => some innerScript) (variantTx [])
      [variantTx [sampleSig]] [] none rfl rfl hinputs
  have htrue : fComplete = true := hcomplete.mpr fun nIn txin htxin => by
    obtain ⟨rfl, hprevout⟩ := honly _ hunsigned nIn txin htxin
    have hknown : (fetchPrevOuts (fun _ => some innerScript) (variantTx []).vin)[txin.prevout]? =
        some innerScript := by
      rw [hprevout]
      decide +kernel
    exact ⟨innerScript, hknown, hmerged idealSigner_oneKey 0 txin innerScript htxin hknown
      holdsAccepted_sample⟩
  exact ⟨mergedTx, htrue ▸ hrun, hunsigned⟩

/-- A script that is not standard. -/
def oddScript : CScript := 0x61 :: innerScript

def oddPubKey : CScript := (CTxDestination.scriptID (hashOf oddScript)).script

/-- An input of a variant that has none is read; and of two scripts for the hash of a script that
is not standard the one with more values is taken, although only the other one is accepted. -/
theorem not_signrawtransaction_sound :
    signrawtransaction headEnv oneKey noKeys (fun _ => some innerScript)
      [variantTx [sampleSig], { oneInputTx with vin := [] }] [] none = .error .outOfRange ∧
    (solver oddPubKey).1 = true ∧
    scriptVerifier headEnv oneKey.toSigEnv (pushAll [sampleSig, oddScript]) oddPubKey oneInputTx 0 =
      true ∧
    (signrawtransaction headEnv oneKey noKeys (fun _ => some oddPubKey)
      [variantTx [sampleSig, oddScript], variantTx [[], [], oddScript]] [] none).toOption.map (·.2) =
        some false := by
  refine ⟨?_, ?_, ?_, ?_⟩
  · decide +kernel
  · decide +kernel
  · decide +kernel
  · decide +kernel

end samples

end NoLimitCoin.RawTransaction
