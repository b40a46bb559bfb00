import NoLimitCoin.CreateTransaction
import NoLimitCoin.ScriptBuilder

/-!
# Destinations and standard scripts

`SetDestination`, `SetMultisig` and `ExtractDestinations` of `script.cpp`, and what `Solver` makes
of the scripts they build.  `Solver` leaves a type and solutions behind when it refuses the numbers
of a script of public keys.

Results:
1. `solver_keys`: a small number, public keys, a small number and `OP_CHECKMULTISIG`.
2. `solver_setMultisig`, `extractDestinations_setMultisig`: the script of `SetMultisig`.
3. `solver_failed_iff`: when `Solver` fails without a trace.
4. `destinations_roundTrip`: destinations and scripts.
-/

namespace NoLimitCoin

open Interpreter

/-- `EncodeOP_N`. -/
def encodeOpN (n : Nat) : Nat := if n = 0 then 0 else op1 + n - 1

/-- `SetMultisig`. -/
def setMultisig (nRequired : Nat) (pubKeys : List Valtype) : CScript :=
  UInt8.ofNat (encodeOpN nRequired) :: (pushAll pubKeys ++
    [UInt8.ofNat (encodeOpN pubKeys.length), UInt8.ofNat opCheckMultiSig])

/-- `ExtractDestinations`: `typeRet`, `addressRet` and `nRequiredRet`. -/
def extractDestinations (hash160 : Valtype → Valtype) (scriptPubKey : CScript) :
    Option (TxnOutType × List CTxDestination × Nat) :=
  match solver scriptPubKey with
  | (false, _, _) | (true, .nullData, _) => none
  | (true, .multisig, vSolutions) =>
    some (.multisig, ((vSolutions.drop 1).take (vSolutions.length - 2)).map
      (fun vchPubKey => .keyID (hash160 vchPubKey)), firstByte vSolutions.head?)
  | (true, type, _) =>
    (extractDestination hash160 scriptPubKey).map fun address => (type, [address], 1)

/-! ## Scripts of public keys -/

/-- The instructions that push a small number. -/
def IsSmallInteger (opcode : Nat) : Prop := opcode = 0 ∨ op1 ≤ opcode ∧ opcode ≤ op16

/-- A small number, public keys, a small number and `OP_CHECKMULTISIG`. -/
structure KeysScript (script : CScript) (opcode₁ : Nat) (keys : List Valtype) (opcode₂ : Nat) :
    Prop where
  small₁ : IsSmallInteger opcode₁
  small₂ : IsSmallInteger opcode₂
  keySize : ∀ key ∈ keys, isPubKeySize key = true
  instructions : ∃ pc₁ pc₂ pc₃, CScript.getOp script = some (opcode₁, [], pc₁) ∧
    Pushes pc₁ keys pc₂ ∧ CScript.getOp pc₂ = some (opcode₂, [], pc₃) ∧
    CScript.getOp pc₃ = some (opCheckMultiSig, [], [])

/-- The solutions of such a script. -/
def keysSolutions (opcode₁ : Nat) (keys : List Valtype) (opcode₂ : Nat) : List Valtype :=
  [UInt8.ofNat (decodeOpN opcode₁)] :: keys ++ [[UInt8.ofNat (decodeOpN opcode₂)]]

/-- The instruction is the first byte. -/
theorem head_of_getOp {pc rest : CScript} {opcode : Nat} {vch : Valtype}
    (h : CScript.getOp pc = some (opcode, vch, rest)) :
    ∃ b tail, pc = b :: tail ∧ b.toNat = opcode := by
  have hmap : ∀ {o : Option (Valtype × CScript)} {n : Nat}, (o.map fun (vch, rest) =>
      (n, vch, rest)) = some (opcode, vch, rest) → n = opcode := by
    intro o n h
    obtain ⟨⟨vch', rest'⟩, -, heq⟩ := Option.map_eq_some_iff.mp h
    exact congrArg Prod.fst heq
  cases pc with
  | nil => exact absurd h (by simp [CScript.getOp])
  | cons b pc =>
    refine ⟨b, pc, rfl, ?_⟩
    rw [CScript.getOp] at h
    dsimp only at h
    split at h
    · split at h
      · cases h
      · cases h
        rfl
    · split at h
      · exact hmap h
      · split at h
        · exact hmap h
        · split at h
          · exact hmap h
          · cases h
            rfl

/-- A small number has no data. -/
theorem data_of_smallInteger {pc rest : CScript} {opcode : Nat} {vch : Valtype}
    (h : CScript.getOp pc = some (opcode, vch, rest)) (hsmall : IsSmallInteger opcode) :
    vch = [] := by
  rcases hsmall with rfl | ⟨hlow, -⟩
  · obtain ⟨b, tail, rfl, hb⟩ := head_of_getOp h
    rw [CScript.getOp] at h
    dsimp only at h
    rw [hb, if_pos (by decide), if_neg (Nat.not_lt_zero _), Option.some.injEq] at h
    exact (congrArg (fun found => found.2.1) h).symm
  · exact CScript.getOp_data_nil h (by unfold opPushdata4; unfold op1 at hlow; omega)

/-- The loop of `OP_PUBKEYS` takes all the keys. -/
theorem pubKeysLoop_eq {pc pc₂ rest : CScript} {keys : List Valtype} {code : Nat}
    (hpushes : Pushes pc keys pc₂) (hkeys : ∀ key ∈ keys, isPubKeySize key = true)
    (hend : CScript.getOp pc₂ = some (code, [], rest)) {opcode : Nat} {vch : Valtype}
    {pc₁ : CScript} (hop : CScript.getOp pc = some (opcode, vch, pc₁)) {fuel : Nat}
    (hfuel : keys.length < fuel) :
    pubKeysLoop fuel opcode vch pc₁ = (keys, code, [], rest) := by
  induction hpushes generalizing opcode vch pc₁ fuel with
  | nil pc =>
    obtain ⟨rfl, rfl, rfl⟩ : opcode = code ∧ vch = [] ∧ pc₁ = rest := by
      simpa [Prod.mk.injEq] using hop.symm.trans hend
    cases fuel with
    | zero => exact absurd hfuel (Nat.not_lt_zero _)
    | succ fuel => rfl
  | @cons pc next pc₂ opcode' key keys hop' _ hrest ih =>
    obtain ⟨hkey, hkeys'⟩ := List.forall_mem_cons.mp hkeys
    obtain ⟨rfl, rfl, rfl⟩ : opcode = opcode' ∧ vch = key ∧ pc₁ = next := by
      simpa [Prod.mk.injEq] using hop.symm.trans hop'
    cases fuel with
    | zero => exact absurd hfuel (Nat.not_lt_zero _)
    | succ fuel =>
      obtain ⟨opcode₂, vch₂, pc₃, hnext⟩ : ∃ opcode₂ vch₂ pc₃,
          CScript.getOp pc₁ = some (opcode₂, vch₂, pc₃) := by
        cases hrest with
        | nil => exact ⟨_, _, _, hend⟩
        | cons hop₂ _ _ => exact ⟨_, _, _, hop₂⟩
      rw [pubKeysLoop, if_pos hkey, hnext]
      dsimp only
      rw [ih hkeys' hend hnext (Nat.lt_of_succ_lt_succ hfuel)]

theorem length_le_pushes {pc pc' : CScript} {values : List Valtype} (h : Pushes pc values pc') :
    pc'.length + values.length ≤ pc.length := by
  induction h with
  | nil => exact le_refl _
  | cons hop _ _ ih =>
    have hlt := CScript.length_getOp hop
    rw [List.length_cons]
    omega

theorem matchOp_small {opcode : Nat} (h : IsSmallInteger opcode) :
    matchOp opcode [] .smallinteger = some [[UInt8.ofNat (decodeOpN opcode)]] := if_pos h

namespace KeysScript

variable {script : CScript} {opcode₁ opcode₂ : Nat} {keys : List Valtype}

theorem match_eq (h : KeysScript script opcode₁ keys opcode₂) :
    matchTemplate [.smallinteger, .pubkeys, .smallinteger, .op opCheckMultiSig] script =
      some (keysSolutions opcode₁ keys opcode₂) := by
  obtain ⟨pc₁, pc₂, pc₃, hop₁, hpushes, hop₂, hop₃⟩ := h.instructions
  obtain ⟨opcode, vch, pc, hop⟩ : ∃ opcode vch pc, CScript.getOp pc₁ = some (opcode, vch, pc) := by
    cases hpushes with
    | nil => exact ⟨_, _, _, hop₂⟩
    | cons hop _ _ => exact ⟨_, _, _, hop⟩
  have hlength := length_le_pushes hpushes
  have hloop := @pubKeysLoop_eq _ _ _ _ _ hpushes h.keySize hop₂ _ _ _ hop (pc.length + 1) (by
    have hpc₂ := CScript.length_getOp hop₂
    cases hpushes with
    | nil => exact Nat.succ_pos _
    | cons hop' _ hrest =>
      obtain ⟨-, hrest'⟩ := Prod.mk.inj (Option.some.inj (hop.symm.trans hop'))
      obtain ⟨-, rfl⟩ := Prod.mk.inj hrest'
      have hle := length_le_pushes hrest
      rw [List.length_cons]
      omega)
  have hcheck : matchOp opCheckMultiSig [] (.op opCheckMultiSig) = some [] := rfl
  have hend : matchTemplate [.op opCheckMultiSig] pc₃ = some [] := by
    rw [matchTemplate, hop₃]
    · dsimp only
      rw [hcheck]
      rfl
    · intro heq
      exact TemplateOp.noConfusion heq
  rw [matchTemplate, hop₁]
  · dsimp only
    rw [matchOp_small h.small₁]
    dsimp only
    rw [matchTemplate, hop]
    dsimp only
    rw [hloop]
    dsimp only
    rw [matchOp_small h.small₂]
    dsimp only
    rw [hend]
    unfold keysSolutions
    show some (_ ++ (keys ++ _ ++ [])) = _
    rw [List.append_nil]
    rfl
  · intro heq
    exact TemplateOp.noConfusion heq

/-- What `Solver` makes of the script. -/
theorem solver_eq (h : KeysScript script opcode₁ keys opcode₂) :
    solver script = (multiSigChecks (keysSolutions opcode₁ keys opcode₂), .multisig,
      keysSolutions opcode₁ keys opcode₂) := by
  obtain ⟨pc₁, -, -, hop₁, -⟩ := h.instructions
  obtain ⟨b, tail, htail, hb⟩ := head_of_getOp hop₁
  have hsmall := h.small₁
  have hhash : script.isPayToScriptHash = false := by
    have hne : b ≠ opHash160 := by
      rintro rfl
      rw [← hb] at hsmall
      exact absurd hsmall (by unfold IsSmallInteger; decide)
    unfold CScript.isPayToScriptHash
    rw [htail, List.getElem?_cons_zero]
    simp [hne]
  have hkey : matchTemplate [.pubkey, .op opCheckSig] script = none := by
    rw [matchTemplate, hop₁]
    · rfl
    · intro heq
      exact TemplateOp.noConfusion heq
  have hdup : matchOp opcode₁ [] (.op 0x76) = none := by
    refine if_neg fun heq => ?_
    rw [heq.1] at hsmall
    exact absurd hsmall (by unfold IsSmallInteger; decide)
  have hkeyHash : matchTemplate [.op 0x76, .op 0xa9, .pubkeyhash, .op 0x88, .op opCheckSig]
      script = none := by
    rw [matchTemplate, hop₁]
    · dsimp only
      rw [hdup]
    · intro heq
      exact TemplateOp.noConfusion heq
  unfold solver
  rw [if_neg (by rw [hhash]; decide), templates, scanTemplates, hkey]
  dsimp only
  rw [scanTemplates, hkeyHash]
  dsimp only
  rw [scanTemplates, h.match_eq]

end KeysScript

/-! ## The script of `SetMultisig` -/

theorem toNat_encodeOpN {n : Nat} (hpos : 1 ≤ n) (hle : n ≤ 16) :
    (UInt8.ofNat (encodeOpN n)).toNat = op1 - 1 + n ∧ encodeOpN n = op1 - 1 + n := by
  have hcode : encodeOpN n = op1 - 1 + n := by
    unfold encodeOpN op1
    rw [if_neg (by omega)]
    omega
  refine ⟨?_, hcode⟩
  rw [UInt8.toNat_ofNat', hcode]
  exact Nat.mod_eq_of_lt (by unfold op1; omega)

theorem decodeOpN_eq {n : Nat} (hpos : 1 ≤ n) : decodeOpN (op1 - 1 + n) = n := by
  unfold decodeOpN op1
  rw [if_neg (by omega)]
  omega

theorem isSmallInteger_of_le {n : Nat} (hpos : 1 ≤ n) (hle : n ≤ 16) :
    IsSmallInteger (op1 - 1 + n) := by
  unfold IsSmallInteger op1 op16
  omega

theorem decodeOpN_le {opcode : Nat} (h : IsSmallInteger opcode) : decodeOpN opcode ≤ 16 := by
  unfold IsSmallInteger op1 op16 at h
  unfold decodeOpN op1
  split
  · omega
  · omega

theorem toNat_decodeOpN {opcode : Nat} (h : IsSmallInteger opcode) :
    (UInt8.ofNat (decodeOpN opcode)).toNat = decodeOpN opcode := by
  have hle := decodeOpN_le h
  rw [UInt8.toNat_ofNat']
  exact Nat.mod_eq_of_lt (by omega)

section multisig

variable {nRequired : Nat} {keys : List Valtype}

/-- A public key as `CKey` writes it, with one coordinate or with both. -/
def IsRawPubKey (vchPubKey : Valtype) : Prop := vchPubKey.length = 33 ∨ vchPubKey.length = 65

theorem IsRawPubKey.size {key : Valtype} (h : IsRawPubKey key) : isPubKeySize key = true := by
  unfold IsRawPubKey at h
  unfold isPubKeySize
  rw [Bool.and_eq_true, decide_eq_true_eq, decide_eq_true_eq]
  omega

theorem keysScript_setMultisig (hpos : 1 ≤ nRequired) (hle : nRequired ≤ keys.length)
    (hle16 : keys.length ≤ 16) (hkeys : ∀ key ∈ keys, IsRawPubKey key) :
    KeysScript (setMultisig nRequired keys) (op1 - 1 + nRequired) keys
      (op1 - 1 + keys.length) := by
  obtain ⟨hbyte₁, -⟩ := toNat_encodeOpN hpos (hle.trans hle16)
  obtain ⟨hbyte₂, -⟩ := toNat_encodeOpN (hpos.trans hle) hle16
  have hcode : ∀ n, 1 ≤ n → opPushdata4 < op1 - 1 + n := by
    intro n hn
    unfold opPushdata4 op1
    omega
  have hop₁ := @getOp_single (UInt8.ofNat (encodeOpN nRequired)) (pushAll keys ++
    [UInt8.ofNat (encodeOpN keys.length), UInt8.ofNat opCheckMultiSig])
    (hbyte₁ ▸ hcode nRequired hpos)
  have hop₂ := @getOp_single (UInt8.ofNat (encodeOpN keys.length)) [UInt8.ofNat opCheckMultiSig]
    (hbyte₂ ▸ hcode keys.length (hpos.trans hle))
  rw [hbyte₁] at hop₁
  rw [hbyte₂] at hop₂
  refine ⟨isSmallInteger_of_le hpos (hle.trans hle16),
    isSmallInteger_of_le (hpos.trans hle) hle16, fun key hmem => (hkeys key hmem).size,
    _, _, _, hop₁, pushes_pushAll (fun key hmem => ?_) _, hop₂, rfl⟩
  have hsize := hkeys key hmem
  unfold IsRawPubKey at hsize
  omega

/-- The numbers, and the keys in their order. -/
theorem solver_setMultisig (hpos : 1 ≤ nRequired) (hle : nRequired ≤ keys.length)
    (hle16 : keys.length ≤ 16) (hkeys : ∀ key ∈ keys, IsRawPubKey key) :
    solver (setMultisig nRequired keys) =
      (true, .multisig, [UInt8.ofNat nRequired] :: keys ++ [[UInt8.ofNat keys.length]]) := by
  have hchecks : multiSigChecks ([UInt8.ofNat nRequired] :: keys ++
      [[UInt8.ofNat keys.length]]) = true := by
    have hbyte : ∀ n, n ≤ 16 → (UInt8.ofNat n).toNat = n := by
      intro n hn
      rw [UInt8.toNat_ofNat']
      exact Nat.mod_eq_of_lt (by omega)
    rw [multiSigChecks_iff, hbyte _ (hle.trans hle16), hbyte _ hle16]
    exact ⟨hpos, hpos.trans hle, hle, rfl⟩
  rw [(keysScript_setMultisig hpos hle hle16 hkeys).solver_eq, keysSolutions, decodeOpN_eq hpos,
    decodeOpN_eq (hpos.trans hle), hchecks]

theorem extractDestinations_setMultisig (hash160 : Valtype → Valtype) (hpos : 1 ≤ nRequired)
    (hle : nRequired ≤ keys.length) (hle16 : keys.length ≤ 16)
    (hkeys : ∀ key ∈ keys, IsRawPubKey key) :
    extractDestinations hash160 (setMultisig nRequired keys) =
      some (.multisig, keys.map (fun vchPubKey => .keyID (hash160 vchPubKey)), nRequired) := by
  have hfirst : firstByte (some [UInt8.ofNat nRequired]) = nRequired := by
    show (UInt8.ofNat nRequired).toNat = nRequired
    rw [UInt8.toNat_ofNat']
    exact Nat.mod_eq_of_lt (by omega)
  have hmiddle : (([UInt8.ofNat nRequired] :: keys ++ [[UInt8.ofNat keys.length]]).drop 1).take
      (([UInt8.ofNat nRequired] :: keys ++ [[UInt8.ofNat keys.length]]).length - 2) = keys := by
    show (keys ++ [[UInt8.ofNat keys.length]]).take _ = keys
    refine List.take_left' ?_
    rw [List.length_append, List.length_cons, List.length_singleton]
    omega
  unfold extractDestinations
  rw [solver_setMultisig hpos hle hle16 hkeys]
  dsimp only
  rw [hmiddle]
  show some (TxnOutType.multisig, _, firstByte (some [UInt8.ofNat nRequired])) = _
  rw [hfirst]

end multisig

/-! ## Scripts of hashes -/

theorem pushOf_hash {id : Valtype} (h : id.length = 20) : pushOf id = 0x14 :: id := by
  unfold pushOf
  rw [h]
  rfl

theorem script_scriptID {id : Valtype} (h : id.length = 20) :
    (CTxDestination.scriptID id).script = opHash160 :: 0x14 :: (id ++ [opEqual]) := by
  show [opHash160] ++ pushOf id ++ [opEqual] = _
  rw [pushOf_hash h]
  rfl

theorem matchOp_hash {opcode : Nat} {vch : Valtype} (h : vch.length = 20) :
    matchOp opcode vch .pubkeyhash = some [vch] := if_pos h

theorem matchTemplate_cons {opcode₂ : TemplateOp} {template : List TemplateOp}
    {pc rest : CScript} {opcode₁ : Nat} {vch₁ : Valtype} {solutions : List Valtype}
    (hne : opcode₂ ≠ .pubkeys) (hop : CScript.getOp pc = some (opcode₁, vch₁, rest))
    (hmatch : matchOp opcode₁ vch₁ opcode₂ = some solutions) :
    matchTemplate (opcode₂ :: template) pc =
      (matchTemplate template rest).map (solutions ++ ·) := by
  rw [matchTemplate, hop]
  · dsimp only
    rw [hmatch]
  · exact hne

/-- The script for the hash of a key. -/
theorem solver_keyID {id : Valtype} (h : id.length = 20) :
    solver (CTxDestination.keyID id).script = (true, .pubkeyhash, [id]) := by
  have hscript : (CTxDestination.keyID id).script =
      0x76 :: opHash160 :: (pushOf id ++ [0x88, UInt8.ofNat opCheckSig]) := rfl
  rw [hscript]
  have hop₁ := @getOp_single 0x76 (opHash160 :: (pushOf id ++ [0x88, UInt8.ofNat opCheckSig]))
    (by decide)
  have hop₂ := @getOp_single opHash160 (pushOf id ++ [0x88, UInt8.ofNat opCheckSig]) (by decide)
  have hop₃ := @getOp_pushOf_append id (by omega) [0x88, UInt8.ofNat opCheckSig]
  have hop₄ := @getOp_single 0x88 [UInt8.ofNat opCheckSig] (by decide)
  have hop₅ := @getOp_single (UInt8.ofNat opCheckSig) [] (by decide)
  have hhash : CScript.isPayToScriptHash
      (0x76 :: opHash160 :: (pushOf id ++ [0x88, UInt8.ofNat opCheckSig])) = false := by
    unfold CScript.isPayToScriptHash
    rw [List.getElem?_cons_zero, show (some (0x76 : UInt8) == some opHash160) = false from rfl,
      Bool.and_false, Bool.false_and, Bool.false_and]
  have hkey : matchTemplate [.pubkey, .op opCheckSig]
      (0x76 :: opHash160 :: (pushOf id ++ [0x88, UInt8.ofNat opCheckSig])) = none := by
    rw [matchTemplate, hop₁]
    · rfl
    · intro heq
      exact TemplateOp.noConfusion heq
  have hkeyHash : matchTemplate [.op 0x76, .op 0xa9, .pubkeyhash, .op 0x88, .op opCheckSig]
      (0x76 :: opHash160 :: (pushOf id ++ [0x88, UInt8.ofNat opCheckSig])) = some [id] := by
    rw [matchTemplate_cons TemplateOp.noConfusion hop₁ rfl,
      matchTemplate_cons TemplateOp.noConfusion hop₂ rfl,
      matchTemplate_cons TemplateOp.noConfusion hop₃ (matchOp_hash h),
      matchTemplate_cons TemplateOp.noConfusion hop₄ rfl,
      matchTemplate_cons TemplateOp.noConfusion hop₅ rfl]
    rfl
  unfold solver
  rw [if_neg (by rw [hhash]; decide), templates, scanTemplates, hkey]
  dsimp only
  rw [scanTemplates, hkeyHash]

/-- A script for the hash of a script is made of that hash. -/
theorem isPayToScriptHash_iff {script : CScript} : script.isPayToScriptHash = true ↔
    ∃ id : Valtype, id.length = 20 ∧ script = (CTxDestination.scriptID id).script := by
  constructor
  · intro h
    unfold CScript.isPayToScriptHash at h
    simp only [Bool.and_eq_true, beq_iff_eq, and_assoc] at h
    obtain ⟨hlength, hfirst, hsecond, hlast⟩ := h
    obtain ⟨a, b, tail, rfl⟩ : ∃ a b tail, script = a :: b :: tail := by
      cases script with
      | nil => cases hlength
      | cons a script =>
        cases script with
        | nil => cases hlength
        | cons b tail => exact ⟨a, b, tail, rfl⟩
    obtain rfl : a = opHash160 := Option.some.inj hfirst
    obtain rfl : b = 0x14 := Option.some.inj hsecond
    have htail : tail.length = 21 := Nat.succ.inj (Nat.succ.inj hlength)
    have hne : tail ≠ [] := by
      rintro rfl
      cases htail
    have hend : tail.getLast? = some opEqual := by
      rw [List.getLast?_eq_getElem?, htail]
      exact hlast
    rw [List.getLast?_eq_some_getLast hne, Option.some.injEq] at hend
    have hid : tail.dropLast.length = 20 := by
      rw [List.length_dropLast, htail]
    refine ⟨tail.dropLast, hid, ?_⟩
    rw [script_scriptID hid, ← hend, List.dropLast_concat_getLast]
  · rintro ⟨id, hid, rfl⟩
    rw [script_scriptID hid]
    have hlast : (opHash160 :: 0x14 :: (id ++ [opEqual]))[22]? = some opEqual := by
      show (id ++ [opEqual])[20]? = some opEqual
      rw [← hid]
      exact List.getElem?_concat_length
    unfold CScript.isPayToScriptHash
    rw [hlast]
    simp [hid]

theorem solver_scriptID {id : Valtype} (h : id.length = 20) :
    solver (CTxDestination.scriptID id).script = (true, .scripthash, [id]) := by
  have hsolution : (((CTxDestination.scriptID id).script).drop 2).take 20 = id := by
    rw [script_scriptID h]
    exact List.take_left' h
  unfold solver
  rw [if_pos (isPayToScriptHash_iff.mpr ⟨id, h, rfl⟩), hsolution]

/-- What is taken for the hash of a script. -/
theorem script_of_extractDestination {hash160 : Valtype → Valtype} {script : CScript}
    {id : Valtype} (h : extractDestination hash160 script = some (.scriptID id)) :
    id.length = 20 ∧ script = (CTxDestination.scriptID id).script := by
  by_cases hhash : script.isPayToScriptHash = true
  · obtain ⟨id', hid, rfl⟩ := isPayToScriptHash_iff.mp hhash
    unfold extractDestination at h
    rw [solver_scriptID hid] at h
    obtain rfl : id' = id := CTxDestination.scriptID.inj (Option.some.inj h)
    exact ⟨hid, rfl⟩
  · unfold extractDestination at h
    split at h
    · cases h
    · cases h
    · next vSolution more hsolver =>
      -- no template is of this type
      unfold solver at hsolver
      rw [if_neg hhash] at hsolver
      split at hsolver
      · cases hsolver
      · obtain ⟨-, hfound⟩ := Prod.mk.inj hsolver
        cases (Prod.mk.inj hfound).1
      · next type vSolutions _ hscan =>
        obtain ⟨-, hfound⟩ := Prod.mk.inj hsolver
        obtain ⟨rfl, -⟩ := Prod.mk.inj hfound
        obtain ⟨template, hmem, -⟩ := scanTemplates_mem hscan
        simp [templates] at hmem
    · cases h

/-! ## When `Solver` fails -/

/-- A script of public keys whose numbers do not fit. -/
def Miscounted (script : CScript) : Prop :=
  ∃ opcode₁ keys opcode₂, KeysScript script opcode₁ keys opcode₂ ∧
    ¬ (1 ≤ decodeOpN opcode₁ ∧ decodeOpN opcode₁ ≤ decodeOpN opcode₂ ∧
      keys.length = decodeOpN opcode₂)

theorem multiSigChecks_keysSolutions {opcode₁ opcode₂ : Nat} {keys : List Valtype}
    (h₁ : IsSmallInteger opcode₁) (h₂ : IsSmallInteger opcode₂) :
    multiSigChecks (keysSolutions opcode₁ keys opcode₂) = true ↔
      1 ≤ decodeOpN opcode₁ ∧ decodeOpN opcode₁ ≤ decodeOpN opcode₂ ∧
        keys.length = decodeOpN opcode₂ := by
  unfold keysSolutions
  rw [multiSigChecks_iff, toNat_decodeOpN h₁, toNat_decodeOpN h₂]
  exact ⟨fun h => ⟨h.1, h.2.2.1, h.2.2.2⟩, fun h => ⟨h.1, h.1.trans h.2.1, h.2.1, h.2.2⟩⟩

/-- `Solver` leaves the type and the solutions of a script of public keys whose numbers do not
fit, and nothing when it fails for any other reason. -/
theorem solver_failed_iff (script : CScript) :
    ((solver script).1 = false →
      (solver script).2.1 = .nonstandard ∧ (solver script).2.2 = []) ↔ ¬ Miscounted script := by
  constructor
  · rintro hclean ⟨opcode₁, keys, opcode₂, hkeys, hcounts⟩
    have hchecks : multiSigChecks (keysSolutions opcode₁ keys opcode₂) = false := by
      rw [← Bool.not_eq_true, multiSigChecks_keysSolutions hkeys.small₁ hkeys.small₂]
      exact hcounts
    rw [hkeys.solver_eq, hchecks] at hclean
    cases (hclean rfl).1
  · intro hcounted hfailed
    unfold solver at hfailed ⊢
    split at hfailed
    · cases hfailed
    next hhash =>
    rw [if_neg hhash]
    split at hfailed
    · exact ⟨rfl, rfl⟩
    · next vSolutions hscan =>
      obtain ⟨template, hmem, hmatch⟩ := scanTemplates_mem hscan
      have htemplate : template =
          [.smallinteger, .pubkeys, .smallinteger, .op opCheckMultiSig] := by
        simpa [templates] using hmem
      subst htemplate
      obtain ⟨opcode₁, opcode₂, keys, pc₁, pc₂, pc₃, vch₁, vch₂, rfl, hcode₁, hcode₂, hkeys,
        hop₁, hpushes, hop₂, hop₃⟩ := matchTemplate_multiSig hmatch
      obtain rfl := data_of_smallInteger hop₁ hcode₁
      obtain rfl := data_of_smallInteger hop₂ hcode₂
      refine (hcounted ⟨opcode₁, keys, opcode₂, ⟨hcode₁, hcode₂, hkeys, pc₁, pc₂, pc₃, hop₁,
        hpushes, hop₂, hop₃⟩, fun hcounts => ?_⟩).elim
      have hchecks := (@multiSigChecks_keysSolutions _ _ keys hcode₁ hcode₂).mpr hcounts
      unfold keysSolutions at hchecks
      rw [hchecks] at hfailed
      cases hfailed
    · cases hfailed

/-! ## Round trips -/

/-- Destinations and scripts of public keys are read back from their scripts, the type of a script
of public keys is right when `Solver` accepts it, and `Solver` fails without a trace unless the
numbers of such a script do not fit. -/
theorem destinations_roundTrip (hash160 : Valtype → Valtype) :
    (∀ id : Valtype, id.length = 20 →
      extractDestination hash160 (CTxDestination.keyID id).script = some (.keyID id) ∧
      extractDestination hash160 (CTxDestination.scriptID id).script = some (.scriptID id)) ∧
    (∀ script id, extractDestination hash160 script = some (.scriptID id) →
      script = (CTxDestination.scriptID id).script) ∧
    (∀ m keys, 1 ≤ m → m ≤ keys.length → keys.length ≤ 16 → (∀ key ∈ keys, IsRawPubKey key) →
      solver (setMultisig m keys) =
        (true, .multisig, [UInt8.ofNat m] :: keys ++ [[UInt8.ofNat keys.length]]) ∧
      extractDestinations hash160 (setMultisig m keys) =
        some (.multisig, keys.map (fun vchPubKey => .keyID (hash160 vchPubKey)), m)) ∧
    (∀ script vSolutions, solver script = (true, .multisig, vSolutions) → ∃ m keys,
      vSolutions = [UInt8.ofNat m] :: keys ++ [[UInt8.ofNat keys.length]] ∧
      MultiSigScript script m keys) ∧
    ∀ script, ((solver script).1 = false →
      (solver script).2.1 = .nonstandard ∧ (solver script).2.2 = []) ↔ ¬ Miscounted script := by
  refine ⟨fun id hid => ⟨?_, ?_⟩, fun script id h => (script_of_extractDestination h).2, ?_, ?_,
    solver_failed_iff⟩
  · unfold extractDestination
    rw [solver_keyID hid]
  · unfold extractDestination
    rw [solver_scriptID hid]
  · intro m keys hpos hle hle16 hkeys
    exact ⟨solver_setMultisig hpos hle hle16 hkeys,
      extractDestinations_setMultisig hash160 hpos hle hle16 hkeys⟩
  · intro script vSolutions h
    obtain ⟨-, m, keys, hsolutions, hscript, -⟩ := multiSigScript_of_solver h
    exact ⟨m, keys, hsolutions, hscript⟩

/-- Two signatures of one key are asked for: `Solver` fails and leaves the type and the solutions. -/
theorem solver_two_of_one :
    solver (0x52 :: 33 :: List.replicate 33 2 ++ [0x51, 0xae]) =
      (false, .multisig, [[2], List.replicate 33 2, [1]]) := by
  decide +kernel

end NoLimitCoin
