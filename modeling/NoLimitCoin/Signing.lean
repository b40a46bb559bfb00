import NoLimitCoin.CombineSignatures

/-!
# What the wallet can sign

`IsMine` and `SignSignature` of `script.cpp`.  `IsMine` goes from the hash of a redeem script to
the script, again and again; `SignSignature` does so once, and refuses a redeem script that is
itself for the hash of a script.

Results:
1. `evalScript_pubkey`, `evalScript_pubkeyhash`: what the standard scripts accept.
2. `solverSign_satisfies`: what `Solver` signs for a script of the wallet satisfies the script.
3. `signSignature_iff`: which scripts of the wallet can be spent.
-/

namespace NoLimitCoin

open Interpreter

/-! ## The key store -/

/-- What signing takes from elsewhere besides the checks: `GetPubKey` and `Sign` of a `CKey`. -/
structure SignEnv (Key : Type) extends SigEnv Key where
  pubKey : Key → Valtype
  sign : Key → (hash : Uint256) → Option (List UInt8)

/-- A key store that is not locked.  The keys are under the hashes of their public keys and the
redeem scripts under theirs; `AddCScript` takes none that is too long for an element. -/
structure CKeyStore (Key : Type) (hash160 : Valtype → Valtype) (pubKey : Key → Valtype) where
  getKey : (keyID : Valtype) → Option Key
  getCScript : (scriptID : Valtype) → Option CScript
  keyed : ∀ keyID key, getKey keyID = some key → hash160 (pubKey key) = keyID
  hashed : ∀ scriptID script, getCScript scriptID = some script → hash160 script = scriptID
  size : ∀ scriptID script, getCScript scriptID = some script →
    script.length ≤ maxScriptElementSize

section signing

variable {Key : Type} (base : EvalEnv) (senv : SignEnv Key)
  (keystore : CKeyStore Key (base.hash .hash160) senv.pubKey)

def haveKey (keyID : Valtype) : Bool := (keystore.getKey keyID).isSome

/-- `HaveKeys`. -/
def haveKeys (pubkeys : List Valtype) : Nat :=
  pubkeys.countP fun pubkey => haveKey base senv keystore (base.hash .hash160 pubkey)

/-- `IsMine`, with a round for each redeem script. -/
def isMine : (fuel : Nat) → (scriptPubKey : CScript) → Option Bool
  | 0, _ => none
  | fuel + 1, scriptPubKey =>
    match solver scriptPubKey with
    | (true, .pubkey, vSolutions) =>
      some (haveKey base senv keystore (base.hash .hash160 (vSolutions.headD [])))
    | (true, .pubkeyhash, vSolutions) => some (haveKey base senv keystore (vSolutions.headD []))
    | (true, .scripthash, vSolutions) =>
      match keystore.getCScript (vSolutions.headD []) with
      | none => some false
      | some subscript => isMine fuel subscript
    | (true, .multisig, vSolutions) =>
      some (haveKeys base senv keystore (pubKeysOf vSolutions) == (pubKeysOf vSolutions).length)
    | _ => some false

/-! ## Signing -/

/-- `Sign1`: whether it has signed, and `scriptSigRet`. -/
def sign1 (address : Valtype) (hash : Uint256) (nHashType : Nat) (scriptSigRet : CScript) :
    Bool × CScript :=
  match keystore.getKey address with
  | none => (false, scriptSigRet)
  | some key =>
    match senv.sign key hash with
    | none => (false, scriptSigRet)
    | some vchSig => (true, scriptSigRet ++ pushOf (vchSig ++ [UInt8.ofNat nHashType]))

/-- The loop of `SignN`: `nSigned` and `scriptSigRet`. -/
def signNLoop (hash : Uint256) (nHashType nRequired : Nat) :
    (pubkeys : List Valtype) → (nSigned : Nat) → (scriptSigRet : CScript) → Nat × CScript
  | [], nSigned, scriptSigRet => (nSigned, scriptSigRet)
  | pubkey :: pubkeys, nSigned, scriptSigRet =>
    if nSigned < nRequired then
      let signed := sign1 base senv keystore (base.hash .hash160 pubkey) hash nHashType scriptSigRet
      signNLoop hash nHashType nRequired pubkeys (if signed.1 then nSigned + 1 else nSigned)
        signed.2
    else (nSigned, scriptSigRet)

/-- `SignN`. -/
def signN (multisigdata : List Valtype) (hash : Uint256) (nHashType : Nat)
    (scriptSigRet : CScript) : Bool × CScript :=
  let nRequired := firstByte multisigdata.head?
  let signed := signNLoop base senv keystore hash nHashType nRequired (pubKeysOf multisigdata) 0
    scriptSigRet
  (signed.1 == nRequired, signed.2)

/-- The `Solver` that signs: whether it has signed, `whichTypeRet` and `scriptSigRet`. -/
def solverSign (scriptPubKey : CScript) (hash : Uint256) (nHashType : Nat) :
    Bool × TxnOutType × CScript :=
  match solver scriptPubKey with
  | (true, .pubkey, vSolutions) =>
    let signed := sign1 base senv keystore (base.hash .hash160 (vSolutions.headD [])) hash
      nHashType []
    (signed.1, .pubkey, signed.2)
  | (true, .pubkeyhash, vSolutions) =>
    let signed := sign1 base senv keystore (vSolutions.headD []) hash nHashType []
    let vch := ((keystore.getKey (vSolutions.headD [])).map senv.pubKey).getD []
    (signed.1, .pubkeyhash, if signed.1 then signed.2 ++ pushOf vch else signed.2)
  | (true, .scripthash, vSolutions) =>
    match keystore.getCScript (vSolutions.headD []) with
    | none => (false, .scripthash, [])
    | some subscript => (true, .scripthash, subscript)
  | (true, .multisig, vSolutions) =>
    let signed := signN base senv keystore vSolutions hash nHashType (pushOf [])
    (signed.1, .multisig, signed.2)
  | (_, type, _) => (false, type, [])

/-- `SignSignature`: what it returns, and the transaction with the script it has made. -/
def signSignature (fromPubKey : CScript) (txTo : CTransaction) (nIn nHashType : Nat) :
    Bool × CTransaction :=
  let hash := signatureHash senv.toSigEnv fromPubKey txTo nIn nHashType
  let solved := solverSign base senv keystore fromPubKey hash nHashType
  let txTo := txTo.setScriptSig nIn solved.2.2
  if !solved.1 then (false, txTo)
  else if solved.2.1 = .scripthash then
    let subscript := solved.2.2
    let hash2 := signatureHash senv.toSigEnv subscript txTo nIn nHashType
    let fSolved := solverSign base senv keystore subscript hash2 nHashType
    let scriptSig := fSolved.2.2 ++ pushOf subscript
    let txTo := txTo.setScriptSig nIn scriptSig
    if !fSolved.1 || fSolved.2.1 = .scripthash then (false, txTo)
    else (scriptVerifier base senv.toSigEnv scriptSig fromPubKey txTo nIn, txTo)
  else (scriptVerifier base senv.toSigEnv solved.2.2 fromPubKey txTo nIn, txTo)

end signing

/-! ## What the standard scripts accept -/

section standard

variable {env : EvalEnv} {script rest scriptSig scriptPubKey : CScript} {opcode : Nat}
  {sig key id : Valtype} {s : EvalState} {stack : Stack}

/-- `OP_CHECKSIG` with a signature that the script does not contain. -/
theorem execCheckSig_eq (hstack : s.stack = key :: sig :: stack)
    (hcode : findAndDelete s.codehash (pushOf sig) = s.codehash) :
    (execCheckSig env false s).2 =
      .ok { s with stack := ofBool (checkOne env sig key s.codehash).2 :: stack } := by
  have hneeds : needs s.stack 2 = .ok () := by
    unfold needs
    rw [hstack, if_neg (by rw [List.length_cons, List.length_cons]; omega)]
  have htop₁ : stacktop s.stack 1 = .ok key := by
    rw [hstack]
    rfl
  have htop₂ : stacktop s.stack 2 = .ok sig := by
    rw [hstack]
    rfl
  unfold execCheckSig
  simp only [hneeds, htop₁, htop₂, bind, Except.bind, pure, Except.pure, hcode]
  rw [hstack]
  rfl

/-- The script of a public key checks a signature. -/
theorem evalScript_pubkey (hop₁ : CScript.getOp script = some (opcode, key, rest))
    (hcode : opcode ≤ opPushdata4) (hop₂ : CScript.getOp rest = some (opCheckSig, [], []))
    (hkey : key.length ≤ maxScriptElementSize) (hsize : script.length ≤ maxScriptSize)
    (hlen : sig.length < opPushdata1) (hne : sig ≠ []) (hsig : sig ≠ key) :
    (evalScript env [sig] script).2 = .ok [ofBool (checkOne env sig key script).2] := by
  have hkept : findAndDelete script (pushOf sig) = script := by
    refine Interpreter.findAndDelete_eq_self (.cons hop₁ (.cons hop₂ .nil)) hlen fun hmem => ?_
    rcases List.mem_cons.mp hmem with heq | hmem
    · exact hsig (Prod.mk.inj heq).2
    · exact hne (Prod.mk.inj (List.mem_singleton.mp hmem)).2
  let pushed : EvalState := ⟨[key, sig], [], [], 0, rest, script⟩
  let checked : EvalState := ⟨[ofBool (checkOne env sig key script).2], [], [], 1, [], script⟩
  have hrun₁ : (step env (start [sig] script)).2 = .ok pushed :=
    step_pushValue hop₁ hcode hkey rfl (show 1 + 0 < maxStackSize by decide)
  have hrun₂ : (step env pushed).2 = .ok checked := by
    have hstep := @step_op env pushed _ _ (.checkSig false) hop₂ (by decide)
      (show 1 ≤ maxOpCount by decide) rfl rfl rfl
    have hexec : (exec env { pushed with pc := [], nOpCount := pushed.nOpCount + 1 }
        (.checkSig false)).2 = .ok checked := execCheckSig_eq rfl hkept
    rw [hexec] at hstep
    exact hstep.trans (sizeLimit_of_le (show 1 + 0 ≤ maxStackSize by decide))
  have hruns : Interpreter.Runs env (start [sig] script) (.ok checked) := by
    refine .step ?_ hrun₁ (.step ?_ hrun₂ (.done rfl))
    · exact CScript.length_getOp hop₁
    · exact CScript.length_getOp hop₂
  rw [evalScript_of_runs hsize hruns]
  rfl

/-- The script of the hash of a public key compares the key with it and checks a signature. -/
theorem evalScript_pubkeyhash {rest₁ rest₂ rest₃ rest₄ : CScript}
    (hop₁ : CScript.getOp script = some (0x76, [], rest₁))
    (hop₂ : CScript.getOp rest₁ = some (0xa9, [], rest₂))
    (hop₃ : CScript.getOp rest₂ = some (opcode, env.hash .hash160 key, rest₃))
    (hcode : opcode ≤ opPushdata4) (hop₄ : CScript.getOp rest₃ = some (0x88, [], rest₄))
    (hop₅ : CScript.getOp rest₄ = some (opCheckSig, [], []))
    (hsize : script.length ≤ maxScriptSize) (hlen : sig.length < opPushdata1) (hne : sig ≠ [])
    (hsig : sig ≠ env.hash .hash160 key) :
    (evalScript env [key, sig] script).2 = .ok [ofBool (checkOne env sig key script).2] := by
  have hkept : findAndDelete script (pushOf sig) = script := by
    refine Interpreter.findAndDelete_eq_self (.cons hop₁ (.cons hop₂ (.cons hop₃ (.cons hop₄
      (.cons hop₅ .nil))))) hlen fun hmem => ?_
    simp only [List.mem_cons, Prod.mk.injEq, List.not_mem_nil, or_false] at hmem
    rcases hmem with h | h | h | h | h
    · exact hne h.2
    · exact hne h.2
    · exact hsig h.2
    · exact hne h.2
    · exact hne h.2
  let doubled : EvalState := ⟨[key, key, sig], [], [], 1, rest₁, script⟩
  let hashed : EvalState := ⟨[env.hash .hash160 key, key, sig], [], [], 2, rest₂, script⟩
  let pushed : EvalState :=
    ⟨[env.hash .hash160 key, env.hash .hash160 key, key, sig], [], [], 2, rest₃, script⟩
  let compared : EvalState := ⟨[key, sig], [], [], 3, rest₄, script⟩
  let checked : EvalState := ⟨[ofBool (checkOne env sig key script).2], [], [], 4, [], script⟩
  have hrun₁ : (step env (start [key, sig] script)).2 = .ok doubled :=
    (@step_op env (start [key, sig] script) _ _ (.onStack .dup) hop₁ (by decide)
      (show 1 ≤ maxOpCount by decide) rfl rfl rfl).trans
        (@sizeLimit_of_le doubled (show 3 + 0 ≤ maxStackSize by decide))
  have hrun₂ : (step env doubled).2 = .ok hashed :=
    (@step_op env doubled _ _ (.onStack (.hash .hash160)) hop₂ (by decide)
      (show 2 ≤ maxOpCount by decide) rfl rfl rfl).trans
        (@sizeLimit_of_le hashed (show 3 + 0 ≤ maxStackSize by decide))
  have hrun₃ : (step env hashed).2 = .ok pushed := by
    refine step_pushValue hop₃ hcode ?_ rfl (show 3 + 0 < maxStackSize by decide)
    rw [length_hash160]
    decide
  have hrun₄ : (step env pushed).2 = .ok compared := by
    have hstep := @step_op env pushed _ _ (.onStack (.equal true)) hop₄ (by decide)
      (show 3 ≤ maxOpCount by decide) rfl rfl rfl
    have hequal : StackOp.exec env [env.hash .hash160 key, env.hash .hash160 key, key, sig]
        (.equal true) = .ok [key, sig] := by
      have hsame : (env.hash .hash160 key == env.hash .hash160 key) = true := beq_self_eq_true _
      show (if (env.hash .hash160 key == env.hash .hash160 key) = true then _ else _) = _
      rw [if_pos hsame]
      rfl
    have hexec : (exec env { pushed with pc := rest₄, nOpCount := pushed.nOpCount + 1 }
        (.onStack (.equal true))).2 = .ok compared := by
      simp only [exec, pushed, hequal, bind, Except.bind, pure, Except.pure, compared]
    rw [hexec] at hstep
    exact hstep.trans (sizeLimit_of_le (show 2 + 0 ≤ maxStackSize by decide))
  have hrun₅ : (step env compared).2 = .ok checked := by
    have hstep := @step_op env compared _ _ (.checkSig false) hop₅ (by decide)
      (show 4 ≤ maxOpCount by decide) rfl rfl rfl
    have hexec : (exec env { compared with pc := [], nOpCount := compared.nOpCount + 1 }
        (.checkSig false)).2 = .ok checked := execCheckSig_eq rfl hkept
    rw [hexec] at hstep
    exact hstep.trans (sizeLimit_of_le (show 1 + 0 ≤ maxStackSize by decide))
  have hruns : Interpreter.Runs env (start [key, sig] script) (.ok checked) := by
    refine .step ?_ hrun₁ (.step ?_ hrun₂ (.step ?_ hrun₃ (.step ?_ hrun₄ (.step ?_ hrun₅
      (.done rfl)))))
    · exact CScript.length_getOp hop₁
    · exact CScript.length_getOp hop₂
    · exact CScript.length_getOp hop₃
    · exact CScript.length_getOp hop₄
    · exact CScript.length_getOp hop₅
  rw [evalScript_of_runs hsize hruns]
  rfl

end standard

/-! ## The templates of the scripts -/

section templates

variable {script rest pc : CScript} {template : List TemplateOp} {opcode₂ : TemplateOp}
  {type : TxnOutType} {vSolutions solutions : List Valtype} {opcode n : Nat} {vch : Valtype}

theorem matchTemplate_cons_eq_some (hne : opcode₂ ≠ .pubkeys)
    (h : matchTemplate (opcode₂ :: template) pc = some vSolutions) :
    ∃ opcode vch rest solutions more, CScript.getOp pc = some (opcode, vch, rest) ∧
      matchOp opcode vch opcode₂ = some solutions ∧ matchTemplate template rest = some more ∧
      vSolutions = solutions ++ more := by
  rw [matchTemplate] at h
  · split at h
    · cases h
    next opcode vch rest hop =>
    split at h
    · cases h
    next solutions hmatch =>
    obtain ⟨more, hmore, rfl⟩ := Option.map_eq_some_iff.mp h
    exact ⟨opcode, vch, rest, solutions, more, hop, hmatch, hmore, rfl⟩
  · exact hne

theorem matchTemplate_nil_eq_some (h : matchTemplate [] pc = some vSolutions) :
    pc = [] ∧ vSolutions = [] := by
  cases pc with
  | nil => exact ⟨rfl, (Option.some.inj h).symm⟩
  | cons b pc => cases h

/-- An instruction of a template that is not for data. -/
theorem matchTemplate_op_eq_some (h : matchTemplate (.op n :: template) pc = some vSolutions) :
    ∃ rest, CScript.getOp pc = some (n, [], rest) ∧
      matchTemplate template rest = some vSolutions := by
  obtain ⟨opcode, vch, rest, solutions, more, hop, hmatch, hmore, rfl⟩ :=
    matchTemplate_cons_eq_some TemplateOp.noConfusion h
  rw [matchOp] at hmatch
  split at hmatch
  · next heq =>
    obtain ⟨rfl, rfl⟩ := heq
    obtain rfl := Option.some.inj hmatch
    exact ⟨rest, hop, hmore⟩
  · cases hmatch

theorem opcode_le_of_data (hop : CScript.getOp pc = some (opcode, vch, rest)) (hne : vch ≠ []) :
    opcode ≤ opPushdata4 :=
  Nat.not_lt.mp fun hlt => hne (CScript.getOp_data_nil hop hlt)

/-- What `Solver` says of a script that is not for a hash of a script. -/
theorem template_of_solver (h : solver script = (true, type, vSolutions))
    (hne : type ≠ .scripthash) : script.isPayToScriptHash = false ∧ ∃ template,
      (type, template) ∈ templates ∧ matchTemplate template script = some vSolutions := by
  unfold solver at h
  split at h
  · exact absurd (Prod.mk.inj (Prod.mk.inj h).2).1.symm hne
  · next hhash =>
    refine ⟨Bool.eq_false_iff.mpr hhash, ?_⟩
    split at h
    · cases h
    · next found hscan =>
      obtain ⟨rfl, rfl⟩ := Prod.mk.inj (Prod.mk.inj h).2
      exact scanTemplates_mem hscan
    · next type' found hnot hscan =>
      obtain ⟨rfl, rfl⟩ := Prod.mk.inj (Prod.mk.inj h).2
      exact scanTemplates_mem hscan

theorem pubkey_of_solver (h : solver script = (true, .pubkey, vSolutions)) :
    ∃ opcode key rest, vSolutions = [key] ∧ isPubKeySize key = true ∧ opcode ≤ opPushdata4 ∧
      CScript.getOp script = some (opcode, key, rest) ∧
      CScript.getOp rest = some (opCheckSig, [], []) := by
  obtain ⟨-, template, hmem, hmatch⟩ := template_of_solver h TxnOutType.noConfusion
  obtain rfl : template = [.pubkey, .op opCheckSig] := by simpa [templates] using hmem
  obtain ⟨opcode, key, rest, solutions, more, hop, hkey, hmore, rfl⟩ :=
    matchTemplate_cons_eq_some TemplateOp.noConfusion hmatch
  obtain ⟨rest', hop', hend⟩ := matchTemplate_op_eq_some hmore
  obtain ⟨rfl, rfl⟩ := matchTemplate_nil_eq_some hend
  rw [matchOp] at hkey
  split at hkey
  · next hsize =>
    obtain rfl := Option.some.inj hkey
    have hlength := (length_of_isPubKeySize hsize).1
    have hne : key ≠ [] := by
      rintro rfl
      exact absurd hlength (by decide)
    exact ⟨opcode, key, rest, rfl, hsize, opcode_le_of_data hop hne, hop, hop'⟩
  · cases hkey

theorem pubkeyhash_of_solver (h : solver script = (true, .pubkeyhash, vSolutions)) :
    ∃ opcode id rest₁ rest₂ rest₃ rest₄, vSolutions = [id] ∧ id.length = 20 ∧
      opcode ≤ opPushdata4 ∧ CScript.getOp script = some (0x76, [], rest₁) ∧
      CScript.getOp rest₁ = some (0xa9, [], rest₂) ∧
      CScript.getOp rest₂ = some (opcode, id, rest₃) ∧
      CScript.getOp rest₃ = some (0x88, [], rest₄) ∧
      CScript.getOp rest₄ = some (opCheckSig, [], []) := by
  obtain ⟨-, template, hmem, hmatch⟩ := template_of_solver h TxnOutType.noConfusion
  obtain rfl : template = [.op 0x76, .op 0xa9, .pubkeyhash, .op 0x88, .op opCheckSig] := by
    simpa [templates] using hmem
  obtain ⟨rest₁, hop₁, hmatch₁⟩ := matchTemplate_op_eq_some hmatch
  obtain ⟨rest₂, hop₂, hmatch₂⟩ := matchTemplate_op_eq_some hmatch₁
  obtain ⟨opcode, id, rest₃, solutions, more, hop₃, hid, hmatch₃, rfl⟩ :=
    matchTemplate_cons_eq_some TemplateOp.noConfusion hmatch₂
  obtain ⟨rest₄, hop₄, hmatch₄⟩ := matchTemplate_op_eq_some hmatch₃
  obtain ⟨rest₅, hop₅, hmatch₅⟩ := matchTemplate_op_eq_some hmatch₄
  obtain ⟨rfl, rfl⟩ := matchTemplate_nil_eq_some hmatch₅
  rw [matchOp] at hid
  split at hid
  · next hlength =>
    obtain rfl := Option.some.inj hid
    have hne : id ≠ [] := by
      rintro rfl
      cases hlength
    exact ⟨opcode, id, rest₁, rest₂, rest₃, rest₄, rfl, hlength, opcode_le_of_data hop₃ hne, hop₁,
      hop₂, hop₃, hop₄, hop₅⟩
  · cases hid

theorem scripthash_of_solver (h : solver script = (true, .scripthash, vSolutions)) :
    ∃ id : Valtype, id.length = 20 ∧ script = (CTxDestination.scriptID id).script ∧
      vSolutions = [id] := by
  by_cases hhash : script.isPayToScriptHash = true
  · obtain ⟨id, hid, rfl⟩ := isPayToScriptHash_iff.mp hhash
    rw [solver_scriptID hid] at h
    exact ⟨id, hid, rfl, (Prod.mk.inj (Prod.mk.inj h).2).2.symm⟩
  · unfold solver at h
    rw [if_neg hhash] at h
    split at h
    · cases h
    · cases (Prod.mk.inj (Prod.mk.inj h).2).1
    · next type found hnot hscan =>
      obtain ⟨rfl, rfl⟩ := Prod.mk.inj (Prod.mk.inj h).2
      obtain ⟨template, hmem, -⟩ := scanTemplates_mem hscan
      exact absurd hmem (by simp [templates])

end templates

/-! ## What is signed satisfies the script -/

/-- Values that a script accepts. -/
structure Satisfies (env : EvalEnv) (script : CScript) (values : List Valtype) : Prop where
  count : values.length ≤ 17
  size : ∀ vch ∈ values, vch.length ≤ maxScriptElementSize
  accepted : ∃ result, (evalScript env values.reverse script).2 = .ok result ∧
    isTrueOnTop result = .ok ()

section satisfies

variable {Key : Type} {base : EvalEnv} {senv : SignEnv Key}
  {keystore : CKeyStore Key (base.hash .hash160) senv.pubKey} {script scriptPubKey : CScript}
  {tx t₁ t₂ : CTransaction} {nIn fuel : Nat} {values more vSolutions : List Valtype}
  {type : TxnOutType}

/-- Signatures are ideal: a key signs, canonically, and its public key, which is canonical too,
verifies what it has signed.  No signature is the hash of a key. -/
structure IdealKeys (base : EvalEnv) (senv : SignEnv Key) : Prop where
  signs : ∀ key hash, ∃ vchSig verifier, senv.sign key hash = some vchSig ∧
    isCanonicalSignature base (vchSig ++ [1]) = true ∧
    senv.setPubKey (senv.pubKey key) = some verifier ∧
    senv.verify verifier hash vchSig = true ∧
    vchSig ++ [1] ≠ base.hash .hash160 (senv.pubKey key)
  canonical : ∀ key, isCanonicalPubKey (senv.pubKey key) = true

/-- What a script names with the hash of a key of the store is the public key. -/
def NoCollision (base : EvalEnv) (senv : SignEnv Key)
    (keystore : CKeyStore Key (base.hash .hash160) senv.pubKey) (script : CScript) : Prop :=
  ∀ vch ∈ (solver script).2.2, ∀ key,
    keystore.getKey (base.hash .hash160 vch) = some key → vch = senv.pubKey key

theorem length_of_isCanonicalSignature {env : EvalEnv} {sig : Valtype}
    (h : isCanonicalSignature env sig = true) : sig.length < opPushdata1 :=
  (length_of_isSigOrEmpty (.inr h)).trans_lt (by decide)

theorem ne_nil_of_isCanonicalSignature {env : EvalEnv} {sig : Valtype}
    (h : isCanonicalSignature env sig = true) : sig ≠ [] := by
  rintro rfl
  cases h

/-- A canonical signature is not a canonical key. -/
theorem ne_of_isCanonical {env : EvalEnv} {sig key : Valtype}
    (hsig : isCanonicalSignature env sig = true) (hkey : isCanonicalPubKey key = true) :
    sig ≠ key := by
  rintro rfl
  rw [isCanonicalPubKey_of_signature hsig] at hkey
  cases hkey

/-- What a key has signed is valid for its public key. -/
theorem checkOne_signed {key : Key} {verifier : Key} {vchSig : List UInt8} {nHashType : Nat}
    (hbyte : nHashType < 256)
    (hcanonical : isCanonicalSignature base (vchSig ++ [UInt8.ofNat nHashType]) = true)
    (hkey : isCanonicalPubKey (senv.pubKey key) = true)
    (hset : senv.setPubKey (senv.pubKey key) = some verifier)
    (hverify : senv.verify verifier (signatureHash senv.toSigEnv script tx nIn nHashType) vchSig =
      true) :
    (checkOne (inputEnv base senv.toSigEnv tx nIn) (vchSig ++ [UInt8.ofNat nHashType])
      (senv.pubKey key) script).2 = true := by
  have hcanonical' : isCanonicalSignature (inputEnv base senv.toSigEnv tx nIn)
      (vchSig ++ [UInt8.ofNat nHashType]) = true := hcanonical
  have hback : (UInt8.ofNat nHashType).toNat = nHashType := by
    rw [UInt8.toNat_ofNat', Nat.mod_eq_of_lt hbyte]
  have hcheck : (senv.toSigEnv.checkSig ∅ ⟨vchSig ++ [UInt8.ofNat nHashType], senv.pubKey key,
      script, tx, nIn, 0, 0, fun _ => 0⟩).2 = true := by
    have hget : ∀ k : Sigdata, CSignatureCache.get ∅ k = false := fun k =>
      Std.ExtTreeMap.contains_empty
    unfold SigEnv.checkSig
    rw [List.getLast?_concat]
    dsimp only
    rw [if_pos rfl, if_neg (not_not.mpr rfl), List.dropLast_concat, hget,
      if_neg Bool.false_ne_true, hset, hback]
    dsimp only
    rw [hverify, if_pos rfl]
  unfold checkOne
  rw [hcanonical', hkey]
  exact hcheck

/-- What `Sign1` appends for a key of the store. -/
theorem sign1_eq (hideal : IdealKeys base senv) {address : Valtype} {key : Key}
    (hkey : keystore.getKey address = some key) (script : CScript) (tx : CTransaction) (nIn : Nat)
    (scriptSigRet : CScript) :
    ∃ sig, sign1 base senv keystore address (signatureHash senv.toSigEnv script tx nIn (1 : Nat)) 1
        scriptSigRet = (true, scriptSigRet ++ pushOf sig) ∧
      isCanonicalSignature base sig = true ∧ sig ≠ address ∧
      (checkOne (inputEnv base senv.toSigEnv tx nIn) sig (senv.pubKey key) script).2 = true := by
  obtain ⟨vchSig, verifier, hsign, hcanonical, hset, hverify, hne⟩ :=
    hideal.signs key (signatureHash senv.toSigEnv script tx nIn (1 : Nat))
  rw [keystore.keyed _ _ hkey] at hne
  refine ⟨vchSig ++ [1], ?_, hcanonical, hne, ?_⟩
  · unfold sign1
    rw [hkey]
    dsimp only
    rw [hsign]
    rfl
  · exact checkOne_signed (show 1 < 256 by decide) hcanonical (hideal.canonical key) hset hverify

/-- A valid signature satisfies the script of a public key. -/
theorem satisfies_pubkey {env : EvalEnv} {sig pubkey : Valtype}
    (hsolver : solver script = (true, .pubkey, [pubkey]))
    (hsig : isCanonicalSignature env sig = true) (hkey : isCanonicalPubKey pubkey = true)
    (hcheck : (checkOne env sig pubkey script).2 = true) : Satisfies env script [sig] := by
  obtain ⟨opcode, pubkey', rest, hsolutions, hpubkey, hcode, hop₁, hop₂⟩ :=
    pubkey_of_solver hsolver
  obtain rfl := List.singleton_inj.mp hsolutions
  have hlength₁ := CScript.le_length_getOp hop₁
  have hlength₂ := CScript.le_length_getOp hop₂
  have hkeyLength := (length_of_isPubKeySize hpubkey).2
  have hsize : script.length ≤ maxScriptSize := by
    rw [List.length_nil] at hlength₂
    unfold maxScriptSize
    omega
  refine ⟨Nat.le_add_left _ _, List.forall_mem_singleton.mpr
    ((length_of_isSigOrEmpty (.inr hsig)).trans (by decide)), _, evalScript_pubkey hop₁ hcode hop₂
      ((length_of_isCanonicalPubKey hkey).trans (by decide)) hsize
      (length_of_isCanonicalSignature hsig) (ne_nil_of_isCanonicalSignature hsig)
      (ne_of_isCanonical hsig hkey), isTrueOnTop_ofBool.mpr hcheck⟩

/-- A valid signature and the public key satisfy the script of the hash of the key. -/
theorem satisfies_pubkeyhash {env : EvalEnv} {sig pubkey : Valtype}
    (hsolver : solver script = (true, .pubkeyhash, [env.hash .hash160 pubkey]))
    (hsig : isCanonicalSignature env sig = true) (hkey : isCanonicalPubKey pubkey = true)
    (hne : sig ≠ env.hash .hash160 pubkey) (hcheck : (checkOne env sig pubkey script).2 = true) :
    Satisfies env script [sig, pubkey] := by
  obtain ⟨opcode, id, rest₁, rest₂, rest₃, rest₄, hsolutions, hid, hcode, hop₁, hop₂, hop₃, hop₄,
    hop₅⟩ := pubkeyhash_of_solver hsolver
  obtain rfl := List.singleton_inj.mp hsolutions
  have hlength₁ := CScript.le_length_getOp hop₁
  have hlength₂ := CScript.le_length_getOp hop₂
  have hlength₃ := CScript.le_length_getOp hop₃
  have hlength₄ := CScript.le_length_getOp hop₄
  have hlength₅ := CScript.le_length_getOp hop₅
  have hsize : script.length ≤ maxScriptSize := by
    simp only [List.length_nil] at hlength₁ hlength₂ hlength₄ hlength₅
    unfold maxScriptSize
    omega
  refine ⟨show 2 ≤ 17 by decide, List.forall_mem_cons.mpr
    ⟨(length_of_isSigOrEmpty (.inr hsig)).trans (by decide), List.forall_mem_singleton.mpr
      ((length_of_isCanonicalPubKey hkey).trans (by decide))⟩, _, evalScript_pubkeyhash hop₁ hop₂
      hop₃ hcode hop₄ hop₅ hsize (length_of_isCanonicalSignature hsig)
      (ne_nil_of_isCanonicalSignature hsig) hne, isTrueOnTop_ofBool.mpr hcheck⟩

/-- The loop of `SignN` when every key is in the store. -/
theorem signNLoop_spec (hideal : IdealKeys base senv) (script : CScript) (tx : CTransaction)
    (nIn nRequired : Nat) {pubkeys : List Valtype}
    (hall : ∀ pubkey ∈ pubkeys, ∃ key,
      keystore.getKey (base.hash .hash160 pubkey) = some key ∧ pubkey = senv.pubKey key)
    (nSigned : Nat) (hle : nSigned ≤ nRequired) (henough : nRequired ≤ nSigned + pubkeys.length)
    (scriptSigRet : CScript) :
    ∃ sigs, signNLoop base senv keystore (signatureHash senv.toSigEnv script tx nIn (1 : Nat)) 1
        nRequired pubkeys nSigned scriptSigRet = (nRequired, scriptSigRet ++ pushAll sigs) ∧
      List.Forall₂ (fun sig pubkey =>
        (checkOne (inputEnv base senv.toSigEnv tx nIn) sig pubkey script).2 = true) sigs
        (pubkeys.take (nRequired - nSigned)) ∧
      ∀ sig ∈ sigs, isCanonicalSignature base sig = true := by
  induction pubkeys generalizing nSigned scriptSigRet with
  | nil =>
    obtain rfl : nSigned = nRequired := Nat.le_antisymm hle henough
    exact ⟨[], by rw [signNLoop, pushAll, List.flatMap_nil, List.append_nil], by simp,
      fun sig hmem => absurd hmem List.not_mem_nil⟩
  | cons pubkey pubkeys ih =>
    rw [signNLoop]
    split
    · next hless =>
      obtain ⟨hfirst, hrest⟩ := List.forall_mem_cons.mp hall
      obtain ⟨key, hkey, rfl⟩ := hfirst
      obtain ⟨sig, hsign, hcanonical, -, hcheck⟩ :=
        sign1_eq hideal hkey script tx nIn scriptSigRet
      rw [List.length_cons] at henough
      obtain ⟨sigs, hloop, hvalid, hsigs⟩ := ih hrest (nSigned + 1) hless (by omega)
        (scriptSigRet ++ pushOf sig)
      refine ⟨sig :: sigs, ?_, ?_, List.forall_mem_cons.mpr ⟨hcanonical, hsigs⟩⟩
      · rw [hsign]
        dsimp only
        rw [if_pos rfl, hloop, pushAll, pushAll, List.flatMap_cons, List.append_assoc]
      · have htake : nRequired - nSigned = nRequired - (nSigned + 1) + 1 := by omega
        rw [htake, List.take_succ_cons]
        exact .cons hcheck hvalid
    · next hnot =>
      obtain rfl : nSigned = nRequired := Nat.le_antisymm hle (Nat.not_lt.mp hnot)
      exact ⟨[], by rw [pushAll, List.flatMap_nil, List.append_nil], by simp,
        fun sig hmem => absurd hmem List.not_mem_nil⟩

/-- What `Solver` signs for a script of the wallet satisfies the script. -/
theorem solverSign_satisfies (hideal : IdealKeys base senv)
    (hcollision : NoCollision base senv keystore script)
    (hsolver : solver script = (true, type, vSolutions)) (htype : type ≠ .scripthash)
    (hmine : isMine base senv keystore (fuel + 1) script = some true) (tx : CTransaction)
    (nIn : Nat) :
    ∃ values, solverSign base senv keystore script
        (signatureHash senv.toSigEnv script tx nIn (1 : Nat)) 1 = (true, type, pushAll values) ∧
      Satisfies (inputEnv base senv.toSigEnv tx nIn) script values := by
  have hcanonical : ∀ {sig : Valtype}, isCanonicalSignature base sig = true →
      isCanonicalSignature (inputEnv base senv.toSigEnv tx nIn) sig = true := fun h => h
  rw [NoCollision, hsolver] at hcollision
  rw [isMine, hsolver] at hmine
  unfold solverSign
  rw [hsolver]
  cases type with
  | nonstandard => cases Option.some.inj hmine
  | nullData => cases Option.some.inj hmine
  | scripthash => exact absurd rfl htype
  | pubkey =>
    obtain ⟨opcode, pubkey, rest, rfl, -, -, -, -⟩ := pubkey_of_solver hsolver
    obtain ⟨key, hkey⟩ := Option.isSome_iff_exists.mp (Option.some.inj hmine)
    dsimp only [List.headD_cons] at hkey
    obtain rfl := hcollision pubkey List.mem_cons_self key hkey
    obtain ⟨sig, hsign, hsig, -, hcheck⟩ := sign1_eq hideal hkey script tx nIn []
    refine ⟨[sig], ?_, satisfies_pubkey hsolver hsig (hideal.canonical key) hcheck⟩
    dsimp only [List.headD_cons]
    rw [hsign, pushAll, List.flatMap_singleton, List.nil_append]
  | pubkeyhash =>
    obtain ⟨opcode, id, rest₁, rest₂, rest₃, rest₄, rfl, -, -, -, -, -, -, -⟩ :=
      pubkeyhash_of_solver hsolver
    obtain ⟨key, hkey⟩ := Option.isSome_iff_exists.mp (Option.some.inj hmine)
    dsimp only [List.headD_cons] at hkey
    obtain ⟨sig, hsign, hsig, hne, hcheck⟩ := sign1_eq hideal hkey script tx nIn []
    have hhash := keystore.keyed _ _ hkey
    subst hhash
    refine ⟨[sig, senv.pubKey key], ?_, satisfies_pubkeyhash hsolver hsig (hideal.canonical key)
      hne hcheck⟩
    simp only [List.headD_cons, hsign, hkey, if_true, List.nil_append, Option.map_some,
      Option.getD_some]
    rw [pushAll, List.flatMap_cons, List.flatMap_singleton]
  | multisig =>
    obtain ⟨-, m, keys, hsolutions, hscript, hkeys⟩ := multiSigScript_of_solver hsolver
    have hm : m ≤ 16 := hscript.le.trans hscript.le16
    have hfirst : firstByte vSolutions.head? = m := firstByte_of_multisig hsolutions hm
    have hpubKeys : pubKeysOf vSolutions = keys := pubKeysOf_of_multisig hsolutions
    have hall : ∀ pubkey ∈ keys, ∃ key,
        keystore.getKey (base.hash .hash160 pubkey) = some key ∧ pubkey = senv.pubKey key := by
      intro pubkey hmem
      have hcount : haveKeys base senv keystore keys = keys.length := by
        rw [← hpubKeys]
        exact eq_of_beq (Option.some.inj hmine)
      obtain ⟨key, hkey⟩ := Option.isSome_iff_exists.mp
        (List.countP_eq_length.mp hcount pubkey hmem)
      refine ⟨key, hkey, hcollision pubkey ?_ key hkey⟩
      rw [hsolutions]
      exact List.mem_append_left _ (List.mem_cons_of_mem _ hmem)
    have hcanonicalKeys : ∀ pubkey ∈ keys, isCanonicalPubKey pubkey = true := by
      intro pubkey hmem
      obtain ⟨key, -, rfl⟩ := hall pubkey hmem
      exact hideal.canonical key
    obtain ⟨sigs, hloop, hvalid, hsigs⟩ := signNLoop_spec hideal script tx nIn m hall 0
      (Nat.zero_le m) (by rw [Nat.zero_add]; exact hscript.le) (pushOf [])
    rw [Nat.sub_zero] at hvalid
    have hcount : sigs.length = m := by
      rw [hvalid.length_eq, List.length_take, Nat.min_eq_left hscript.le]
    have hvalues : ∀ vch ∈ [] :: sigs, IsSigOrEmpty (inputEnv base senv.toSigEnv tx nIn) vch :=
      List.forall_mem_cons.mpr ⟨.inl rfl, fun sig hmem => .inr (hcanonical (hsigs sig hmem))⟩
    have hlength : ([] :: sigs).length = m + 1 := by rw [List.length_cons, hcount]
    have hkeys16 := hscript.le16
    refine ⟨[] :: sigs, ?_, ⟨by rw [hlength]; omega, fun vch hmem =>
      (length_of_isSigOrEmpty (hvalues vch hmem)).trans (by decide), ?_⟩⟩
    · dsimp only
      unfold signN
      rw [hfirst, hpubKeys]
      dsimp only
      rw [hloop, beq_self_eq_true]
      rfl
    · refine (evalScript_values hscript hcanonicalKeys hvalues
        (by rw [hlength]; unfold maxStackSize; omega)).mpr
        ⟨by rw [hlength]; unfold maxStackSize; omega, hlength.ge, ?_⟩
      have htop : ([] :: sigs).reverse.take m = sigs.reverse := by
        rw [List.reverse_cons]
        exact List.take_left' (by rw [List.length_reverse, hcount])
      rw [htop]
      exact matchSigs_iff.mpr ⟨(keys.take m).reverse, (List.take_sublist m keys).reverse,
        List.forall₂_reverse_iff.mpr hvalid⟩

/-- What satisfies a script is accepted for an output that pays to it. -/
theorem verifyScript_of_satisfies {env : EvalEnv} (h : Satisfies env script values)
    (hpays : PaysTo env script scriptPubKey more) (hhash : script.isPayToScriptHash = false) :
    (verifyScript env (pushAll (values ++ more)) scriptPubKey).2 = .ok () := by
  have hsmall : ∀ vch ∈ values ++ more, vch.length ≤ maxScriptElementSize := by
    intro vch hmem
    rcases List.mem_append.mp hmem with hmem | hmem
    · exact h.size vch hmem
    · exact hpays.size_more vch hmem
  have hcount : (values ++ more).length ≤ 18 := by
    have hvalues := h.count
    have hmore := hpays.length_more
    rw [List.length_append]
    omega
  obtain ⟨hpushes, hsize⟩ := pushes_pushAll_small hsmall hcount
  obtain ⟨result, hrun, htop⟩ := h.accepted
  exact hpays.accepts hhash (hpushes.evalScript hsize hsmall (hcount.trans (by decide)))
    hpushes.isPushOnly (by have hvalues := h.count; unfold maxStackSize; omega) hrun htop

theorem scriptVerifier_of_satisfies
    (h : Satisfies (inputEnv base senv.toSigEnv t₁ nIn) script values)
    (hpays : PaysTo (inputEnv base senv.toSigEnv t₁ nIn) script scriptPubKey more)
    (hhash : script.isPayToScriptHash = false) (hunsigned : t₂.unsigned = t₁.unsigned) :
    scriptVerifier base senv.toSigEnv (pushAll (values ++ more)) scriptPubKey t₂ nIn = true := by
  rw [scriptVerifier_unsigned hunsigned, scriptVerifier, verifyScript_of_satisfies h hpays hhash]
  rfl

end satisfies

/-! ## The scripts of the wallet -/

/-- The hash of a redeem script that is itself for the hash of a script. -/
def Nested {Key : Type} (base : EvalEnv) (senv : SignEnv Key)
    (keystore : CKeyStore Key (base.hash .hash160) senv.pubKey) (scriptPubKey : CScript) : Prop :=
  scriptPubKey.isPayToScriptHash = true ∧ ∃ subscript,
    keystore.getCScript ((scriptPubKey.drop 2).take 20) = some subscript ∧
      subscript.isPayToScriptHash = true

section spend

variable {Key : Type} {base : EvalEnv} {senv : SignEnv Key}
  {keystore : CKeyStore Key (base.hash .hash160) senv.pubKey} {fromPubKey scriptSig : CScript}
  {txTo : CTransaction} {nIn : Nat} {type : TxnOutType}

theorem signSignature_direct (h : solverSign base senv keystore fromPubKey
      (signatureHash senv.toSigEnv fromPubKey txTo nIn (1 : Nat)) 1 = (true, type, scriptSig))
    (hne : type ≠ .scripthash) : signSignature base senv keystore fromPubKey txTo nIn 1 =
      (scriptVerifier base senv.toSigEnv scriptSig fromPubKey (txTo.setScriptSig nIn scriptSig) nIn,
        txTo.setScriptSig nIn scriptSig) := by
  unfold signSignature
  dsimp only
  rw [h]
  dsimp only
  rw [if_neg (by decide), if_neg hne]

theorem signSignature_redeem {subscript : CScript} (h : solverSign base senv keystore fromPubKey
      (signatureHash senv.toSigEnv fromPubKey txTo nIn (1 : Nat)) 1 =
        (true, .scripthash, subscript))
    {fSolved : Bool}
    (hsub : solverSign base senv keystore subscript (signatureHash senv.toSigEnv subscript
      (txTo.setScriptSig nIn subscript) nIn (1 : Nat)) 1 = (fSolved, type, scriptSig)) :
    signSignature base senv keystore fromPubKey txTo nIn 1 =
      if !fSolved || type = .scripthash then
        (false, (txTo.setScriptSig nIn subscript).setScriptSig nIn (scriptSig ++ pushOf subscript))
      else
        (scriptVerifier base senv.toSigEnv (scriptSig ++ pushOf subscript) fromPubKey
          ((txTo.setScriptSig nIn subscript).setScriptSig nIn (scriptSig ++ pushOf subscript)) nIn,
          (txTo.setScriptSig nIn subscript).setScriptSig nIn (scriptSig ++ pushOf subscript)) := by
  unfold signSignature
  dsimp only
  rw [h]
  dsimp only
  rw [if_neg (by decide), if_pos rfl, hsub]

/-- A script that is in the wallet has a type, and a round of `IsMine` was left for it. -/
theorem solver_of_isMine {fuel : Nat} (h : isMine base senv keystore fuel fromPubKey = some true) :
    ∃ n type vSolutions, fuel = n + 1 ∧ solver fromPubKey = (true, type, vSolutions) := by
  cases fuel with
  | zero => cases h
  | succ n =>
    cases hsolver : solver fromPubKey with
    | mk fSolved found =>
      obtain ⟨type, vSolutions⟩ := found
      cases fSolved with
      | true => exact ⟨n, type, vSolutions, rfl, rfl⟩
      | false =>
        rw [isMine, hsolver] at h
        cases Option.some.inj h

end spend

/-- A script of the wallet is signed and the input verified, unless it is for the hash of a redeem
script that is for a hash again. -/
theorem signSignature_iff {Key : Type} (base : EvalEnv) (senv : SignEnv Key)
    (keystore : CKeyStore Key (base.hash .hash160) senv.pubKey) (fromPubKey : CScript)
    (txTo : CTransaction) (nIn fuel : Nat) (hin : nIn < txTo.vin.length)
    (hideal : IdealKeys base senv)
    (hcollision : ∀ script, (script = fromPubKey ∨ ∃ scriptID,
      keystore.getCScript scriptID = some script) → NoCollision base senv keystore script)
    (hmine : isMine base senv keystore fuel fromPubKey = some true) :
    ((signSignature base senv keystore fromPubKey txTo nIn 1).1 = true ∧ ∃ txin,
      (signSignature base senv keystore fromPubKey txTo nIn 1).2.vin[nIn]? = some txin ∧
      scriptVerifier base senv.toSigEnv txin.scriptSig fromPubKey
        (signSignature base senv keystore fromPubKey txTo nIn 1).2 nIn = true) ↔
    ¬ Nested base senv keystore fromPubKey := by
  have hget := List.getElem?_eq_getElem hin
  obtain ⟨n, type, vSolutions, rfl, hsolver⟩ := solver_of_isMine hmine
  by_cases htype : type = .scripthash
  · subst htype
    obtain ⟨id, hid, hfrom, rfl⟩ := scripthash_of_solver hsolver
    have hhash : fromPubKey.isPayToScriptHash = true := isPayToScriptHash_iff.mpr ⟨id, hid, hfrom⟩
    have hdrop : (fromPubKey.drop 2).take 20 = id := by
      rw [hfrom, script_scriptID hid]
      exact List.take_left' hid
    rw [isMine, hsolver] at hmine
    dsimp only [List.headD_cons] at hmine
    cases hsub : keystore.getCScript id with
    | none =>
      rw [hsub] at hmine
      cases Option.some.inj hmine
    | some subscript =>
    rw [hsub] at hmine
    dsimp only at hmine
    have hsolved : ∀ hash nHashType, solverSign base senv keystore fromPubKey hash nHashType =
        (true, .scripthash, subscript) := by
      intro hash nHashType
      unfold solverSign
      rw [hsolver]
      dsimp only [List.headD_cons]
      rw [hsub]
    by_cases hnested : subscript.isPayToScriptHash = true
    · -- the inner script has the type that `SignSignature` refuses
      refine iff_of_false (fun h => ?_) fun h =>
        h ⟨hhash, subscript, by rw [hdrop, hsub], hnested⟩
      obtain ⟨hsigned, -⟩ := h
      obtain ⟨id', hid', hinner⟩ := isPayToScriptHash_iff.mp hnested
      cases hsolved' : solverSign base senv keystore subscript (signatureHash senv.toSigEnv
          subscript (txTo.setScriptSig nIn subscript) nIn (1 : Nat)) 1 with
      | mk fSolved found =>
        obtain ⟨type', scriptSig⟩ := found
        have htype' : type' = .scripthash := by
          unfold solverSign at hsolved'
          rw [hinner, solver_scriptID hid'] at hsolved'
          dsimp only at hsolved'
          split at hsolved'
          · exact (Prod.mk.inj (Prod.mk.inj hsolved').2).1.symm
          · exact (Prod.mk.inj (Prod.mk.inj hsolved').2).1.symm
        rw [signSignature_redeem (hsolved _ _) hsolved', htype', if_pos (by simp)] at hsigned
        cases hsigned
    · have hhash' := Bool.eq_false_iff.mpr hnested
      obtain ⟨n', type', vSolutions', rfl, hsolver'⟩ := solver_of_isMine hmine
      have htype' : type' ≠ .scripthash := by
        rintro rfl
        obtain ⟨id', hid', hinner, -⟩ := scripthash_of_solver hsolver'
        exact hnested (isPayToScriptHash_iff.mpr ⟨id', hid', hinner⟩)
      obtain ⟨values, hsign, hsatisfies⟩ := solverSign_satisfies hideal
        (hcollision subscript (.inr ⟨id, hsub⟩)) hsolver' htype' hmine
        (txTo.setScriptSig nIn subscript) nIn
      have hall : pushAll values ++ pushOf subscript = pushAll (values ++ [subscript]) := by
        rw [pushAll, pushAll, List.flatMap_append, List.flatMap_singleton]
      have hpays : PaysTo (inputEnv base senv.toSigEnv (txTo.setScriptSig nIn subscript) nIn)
          subscript fromPubKey [subscript] := by
        rw [hfrom, ← keystore.hashed _ _ hsub]
        exact .scriptHash (keystore.size _ _ hsub)
      have hverified := scriptVerifier_of_satisfies hsatisfies hpays hhash'
        (@CTransaction.unsigned_setScriptSig (txTo.setScriptSig nIn subscript) nIn
          (pushAll (values ++ [subscript])))
      rw [signSignature_redeem (hsolved _ _) hsign, if_neg (by simp [htype']), hall]
      refine iff_of_true ⟨hverified, _, CTransaction.getElem?_setScriptSig
        (CTransaction.getElem?_setScriptSig hget), hverified⟩ fun h => ?_
      obtain ⟨-, subscript', hsub', hinner⟩ := h
      rw [hdrop, hsub] at hsub'
      obtain rfl := Option.some.inj hsub'
      exact hnested hinner
  · obtain ⟨hhash, -⟩ := template_of_solver hsolver htype
    obtain ⟨values, hsign, hsatisfies⟩ := solverSign_satisfies hideal
      (hcollision fromPubKey (.inl rfl)) hsolver htype hmine txTo nIn
    have hverified := scriptVerifier_of_satisfies hsatisfies .bare hhash
      (@CTransaction.unsigned_setScriptSig txTo nIn (pushAll values))
    rw [List.append_nil] at hverified
    rw [signSignature_direct hsign htype]
    refine iff_of_true ⟨hverified, _, CTransaction.getElem?_setScriptSig hget, hverified⟩
      fun h => ?_
    rw [Nested, hhash] at h
    exact Bool.false_ne_true h.1

section samples

/-- Hashes that are the first bytes, and signatures that are checked by `SigEnv`. -/
def headEnv : EvalEnv where
  hash op vch := (vch ++ List.replicate op.size 0).take op.size
  hash_length op vch := by
    rw [List.length_take, List.length_append, List.length_replicate]
    exact Nat.min_eq_left (Nat.le_add_left _ _)
  checkSignatureElement _ := true
  checkSig _ _ _ := false

/-- One key, which signs everything with the same signature. -/
def oneKey : SignEnv Unit where
  hash _ := 0
  setPubKey _ := some ()
  verify _ _ vchSig := vchSig == sampleSig.dropLast
  pubKey _ := compressedKey 0
  sign _ _ := some sampleSig.dropLast

def hashOf (vch : Valtype) : Valtype := headEnv.hash .hash160 vch

/-- The script of the key, for its hash, and for the hash of that. -/
def innerScript : CScript := pushOf (compressedKey 0) ++ [UInt8.ofNat opCheckSig]

def middleScript : CScript := (CTxDestination.scriptID (hashOf innerScript)).script

def outerScript : CScript := (CTxDestination.scriptID (hashOf middleScript)).script

/-- A store with the key and both redeem scripts. -/
def nestedStore : CKeyStore Unit (headEnv.hash .hash160) oneKey.pubKey where
  getKey keyID := if keyID = hashOf (compressedKey 0) then some () else none
  getCScript scriptID :=
    if scriptID = hashOf innerScript then some innerScript
    else if scriptID = hashOf middleScript then some middleScript
    else none
  keyed keyID key h := by
    split at h
    · next heq => exact heq.symm
    · cases h
  hashed scriptID script h := by
    split at h
    · next heq =>
      obtain rfl := Option.some.inj h
      exact heq.symm
    · split at h
      · next heq =>
        obtain rfl := Option.some.inj h
        exact heq.symm
      · cases h
  size scriptID script h := by
    split at h
    · obtain rfl := Option.some.inj h
      decide +kernel
    · split at h
      · obtain rfl := Option.some.inj h
        decide +kernel
      · cases h

/-- A transaction with one input. -/
def oneInputTx : CTransaction := ⟨1, 0, [⟨⟨5, 0⟩, [], uint32Max⟩], [], 0⟩

theorem idealKeys_oneKey : IdealKeys headEnv oneKey where
  signs _ _ := ⟨sampleSig.dropLast, (), rfl, by decide +kernel, rfl,
    show (sampleSig.dropLast == sampleSig.dropLast) = true by decide +kernel,
    show sampleSig.dropLast ++ [1] ≠ hashOf (compressedKey 0) by decide +kernel⟩
  canonical _ := show isCanonicalPubKey (compressedKey 0) = true by decide +kernel

theorem noCollision_nestedStore {script : CScript} (h : script = middleScript ∨
    ∃ scriptID, nestedStore.getCScript scriptID = some script) :
    NoCollision headEnv oneKey nestedStore script := by
  have hscripts : script = innerScript ∨ script = middleScript := by
    rcases h with rfl | ⟨scriptID, hscript⟩
    · exact .inr rfl
    · unfold nestedStore at hscript
      dsimp only at hscript
      split at hscript
      · exact .inl (Option.some.inj hscript).symm
      · split at hscript
        · exact .inr (Option.some.inj hscript).symm
        · cases hscript
  have hinner : ∀ vch ∈ (solver innerScript).2.2,
      nestedStore.getKey (hashOf vch) = none ∨ vch = compressedKey 0 := by decide +kernel
  have hmiddle : ∀ vch ∈ (solver middleScript).2.2,
      nestedStore.getKey (hashOf vch) = none ∨ vch = compressedKey 0 := by decide +kernel
  intro vch hmem key hkey
  have hnone : nestedStore.getKey (hashOf vch) = none ∨ vch = compressedKey 0 := by
    rcases hscripts with rfl | rfl
    · exact hinner vch hmem
    · exact hmiddle vch hmem
  exact hnone.resolve_left fun h => by cases h.symm.trans hkey

theorem signSignature_iff_sample :
    (signSignature headEnv oneKey nestedStore middleScript oneInputTx 0 1).1 = true := by
  refine ((signSignature_iff headEnv oneKey nestedStore middleScript oneInputTx 0 2 (by decide)
    idealKeys_oneKey (fun script h => noCollision_nestedStore h) (by decide +kernel)).mpr ?_).1
  rintro ⟨-, subscript, hsub, hhash⟩
  have hinner : nestedStore.getCScript ((middleScript.drop 2).take 20) = some innerScript := by
    decide +kernel
  have hnot : innerScript.isPayToScriptHash = false := by decide +kernel
  obtain rfl := Option.some.inj (hinner.symm.trans hsub)
  rw [hnot] at hhash
  cases hhash

/-- A script of the wallet that is not signed. -/
theorem signSignature_nested :
    isMine headEnv oneKey nestedStore 3 outerScript = some true ∧
      (signSignature headEnv oneKey nestedStore outerScript oneInputTx 0 1).1 = false := by
  exact ⟨by decide +kernel, by decide +kernel⟩

end samples

end NoLimitCoin
