import NoLimitCoin.MultiSig

/-!
# Standard scripts

`Solver` of `script.cpp`, which compares a script with the templates of the standard
transaction types, and `CombineSignatures`, which puts the signatures of two scripts for one
input together.  `CombineSignatures` evaluates both scripts and goes on with the stack that is
left, also when the evaluation failed.

Results:

1. `multiSigScript_of_solver`: a script of type `TX_MULTISIG` is an m-of-n script of its
   solutions.
2. `leftStack_of_evalScript`: the stack that is left by an evaluation that succeeds.
-/

namespace NoLimitCoin

open Interpreter

/-- `txnouttype`. -/
inductive TxnOutType where
  | nonstandard
  | pubkey
  | pubkeyhash
  | scripthash
  | multisig
  | nullData
deriving Repr, DecidableEq

/-! ## Templates -/

/-- The instructions of a template. -/
inductive TemplateOp where
  | op (opcode : Nat)
  | pubkey
  | pubkeyhash
  | pubkeys
  | smallinteger
deriving Repr, DecidableEq

/-- `mTemplates`, in the order of its keys. -/
def templates : List (TxnOutType × List TemplateOp) :=
  [(.pubkey, [.pubkey, .op opCheckSig]),
    (.pubkeyhash, [.op 0x76, .op 0xa9, .pubkeyhash, .op 0x88, .op opCheckSig]),
    (.multisig, [.smallinteger, .pubkeys, .smallinteger, .op opCheckMultiSig]),
    (.nullData, [.op 0x6a])]

/-- `DecodeOP_N`. -/
def decodeOpN (opcode : Nat) : Nat := if opcode = 0 then 0 else opcode - (op1 - 1)

def isPubKeySize (vch : Valtype) : Bool := 33 ≤ vch.length && vch.length ≤ 120

/-- What an instruction adds to the solutions, unless it does not fit the template. -/
def matchOp (opcode1 : Nat) (vch1 : Valtype) : TemplateOp → Option (List Valtype)
  | .pubkey => if isPubKeySize vch1 then some [vch1] else none
  | .pubkeyhash => if vch1.length = 20 then some [vch1] else none
  | .smallinteger =>
    if opcode1 = 0 ∨ (op1 ≤ opcode1 ∧ opcode1 ≤ op16) then
      some [[UInt8.ofNat (decodeOpN opcode1)]]
    else none
  | .op opcode2 => if opcode1 = opcode2 ∧ vch1 = [] then some [] else none
  | .pubkeys => none

/-- The loop of `OP_PUBKEYS` from an instruction on: the keys, and the instruction after them.
When there is none, `GetOp` leaves `OP_INVALIDOPCODE`, which fits nothing. -/
def pubKeysLoop : (fuel : Nat) → (opcode1 : Nat) → (vch1 : Valtype) → (pc1 : CScript) →
    List Valtype × Nat × Valtype × CScript
  | 0, opcode1, vch1, pc1 => ([], opcode1, vch1, pc1)
  | fuel + 1, opcode1, vch1, pc1 =>
    if isPubKeySize vch1 then
      match CScript.getOp pc1 with
      | none => ([vch1], opInvalidOpcode, [], [])
      | some (opcode1, vch, rest) =>
        let (keys, last) := pubKeysLoop fuel opcode1 vch rest
        (vch1 :: keys, last)
    else ([], opcode1, vch1, pc1)

/-- The loop that compares a script with a template. -/
def matchTemplate : List TemplateOp → CScript → Option (List Valtype)
  | [], [] => some []
  | [], _ :: _ => none
  | .pubkeys :: template, pc1 =>
    match CScript.getOp pc1 with
    | none => none
    | some (opcode1, vch1, rest) =>
      let (keys, opcode1, vch1, rest) := pubKeysLoop (rest.length + 1) opcode1 vch1 rest
      match template with
      | [] => none
      | opcode2 :: template =>
        match matchOp opcode1 vch1 opcode2 with
        | none => none
        | some solutions => (matchTemplate template rest).map (keys ++ solutions ++ ·)
  | opcode2 :: template, pc1 =>
    match CScript.getOp pc1 with
    | none => none
    | some (opcode1, vch1, rest) =>
      match matchOp opcode1 vch1 opcode2 with
      | none => none
      | some solutions => (matchTemplate template rest).map (solutions ++ ·)

/-- The first byte of a solution. -/
def firstByte (solution : Option Valtype) : Nat := ((solution.bind List.head?).getD 0).toNat

/-- The additional checks for `TX_MULTISIG`. -/
def multiSigChecks (vSolutions : List Valtype) : Bool :=
  let m := firstByte vSolutions.head?
  let n := firstByte vSolutions.getLast?
  !(m < 1 || n < 1 || m > n || vSolutions.length - 2 ≠ n)

/-- The first template that matches. -/
def scanTemplates (script : CScript) :
    List (TxnOutType × List TemplateOp) → Option (TxnOutType × List Valtype)
  | [] => none
  | (type, template) :: templates =>
    match matchTemplate template script with
    | some vSolutions => some (type, vSolutions)
    | none => scanTemplates script templates

/-- `Solver`: whether it succeeded, `typeRet` and `vSolutionsRet`. -/
def solver (scriptPubKey : CScript) : Bool × TxnOutType × List Valtype :=
  if scriptPubKey.isPayToScriptHash then (true, .scripthash, [(scriptPubKey.drop 2).take 20])
  else
    match scanTemplates scriptPubKey templates with
    | none => (false, .nonstandard, [])
    | some (.multisig, vSolutions) => (multiSigChecks vSolutions, .multisig, vSolutions)
    | some (type, vSolutions) => (true, type, vSolutions)

/-! ## The stack that an evaluation leaves -/

/-- The stack when an instruction fails: what was taken off before the failure is gone, and an
instruction that verifies leaves the value it refused. -/
def stackAtFault (opcode : Nat) (s : EvalState) : Stack :=
  match Op.ofCode opcode with
  | some (.onStack (.equal true)) | some (.checkSig true) =>
    if s.stack.length < 2 then s.stack else vchFalse :: s.stack.drop 2
  | some (.onStack (.binary .numEqualVerify)) =>
    match s.stack with
    | vch2 :: vch1 :: stack =>
      match castToBigNum vch1, castToBigNum vch2 with
      | .ok _, .ok _ => vchFalse :: stack
      | _, _ => s.stack
    | _ => s.stack
  | some (.onStack (.pick _)) =>
    match s.stack with
    | vch :: vch' :: stack =>
      match castToBigNum vch with
      | .ok _ => vch' :: stack
      | .error _ => s.stack
    | _ => s.stack
  | some (.checkMultiSig true) =>
    match multiSigCounts s with
    | .ok (nKeys, nSigs, _) => vchFalse :: s.stack.drop (3 + nKeys + nSigs)
    | .error _ => s.stack
  | _ => s.stack

/-- The stack after a round of the loop that ends it. -/
def stackAtEnd (env : EvalEnv) (s : EvalState) : Stack :=
  match CScript.getOp s.pc with
  | none => s.stack
  | some (opcode, vchPushValue, rest) =>
    let nOpCount := if op16 < opcode then s.nOpCount + 1 else s.nOpCount
    if maxScriptElementSize < vchPushValue.length then s.stack
    else if op16 < opcode ∧ maxOpCount < nOpCount then s.stack
    else if isDisabled opcode then s.stack
    else
      let s' := { s with pc := rest, nOpCount := nOpCount }
      match (execOpcode env opcode vchPushValue s').2 with
      | .ok s => s.stack
      | .error _ => if s.fExec then stackAtFault opcode s' else s.stack

def leftStackLoop (env : EvalEnv) : (fuel : Nat) → EvalState → Stack
  | 0, s => s.stack
  | fuel + 1, s =>
    if s.pc = [] then s.stack
    else
      match (step env s).2 with
      | .error _ => stackAtEnd env s
      | .ok s => leftStackLoop env fuel s

/-- The stack that `EvalScript` leaves, whatever it returns. -/
def leftStack (env : EvalEnv) (script : CScript) : Stack :=
  if maxScriptSize < script.length then []
  else leftStackLoop env script.length (start [] script)

/-! ## Combining signatures -/

/-- The first public key without a signature that the signature verifies for. -/
def placeSig (env : EvalEnv) (scriptPubKey : CScript) (sig : Valtype) :
    List Valtype → Map Valtype Valtype → Map Valtype Valtype
  | [], sigs => sigs
  | pubkey :: pubkeys, sigs =>
    if sigs.contains pubkey then placeSig env scriptPubKey sig pubkeys sigs
    else if env.checkSig sig pubkey scriptPubKey then sigs.insert pubkey sig
    else placeSig env scriptPubKey sig pubkeys sigs

/-- `allsigs`. -/
def allSigs (sigs1 sigs2 : List Valtype) : Map Valtype Unit :=
  (sigs1 ++ sigs2).foldl (fun allsigs v => if v ≠ [] then allsigs.insert v () else allsigs) ∅

/-- The merged signatures: those that were placed, in the order of the keys and no more than are
required. -/
def mergedSigs (env : EvalEnv) (scriptPubKey : CScript) (nSigsRequired : Nat)
    (pubkeys sigs1 sigs2 : List Valtype) : List Valtype :=
  let sigs := (allSigs sigs1 sigs2).keys.foldl
    (fun sigs sig => placeSig env scriptPubKey sig pubkeys sigs) ∅
  (pubkeys.filterMap (sigs[·]?)).take nSigsRequired

/-- `CombineMultisig`; `OP_0` is the push of nothing. -/
def combineMultisig (env : EvalEnv) (scriptPubKey : CScript)
    (vSolutions sigs1 sigs2 : List Valtype) : CScript :=
  let nSigsRequired := firstByte vSolutions.head?
  let pubkeys := (vSolutions.drop 1).take (vSolutions.length - 2)
  let merged := mergedSigs env scriptPubKey nSigsRequired pubkeys sigs1 sigs2
  pushAll ([] :: merged ++ List.replicate (nSigsRequired - merged.length) [])

/-- `CombineSignatures` of two stacks, whose tops are the last elements. -/
def combineTyped (env : EvalEnv) : (fuel : Nat) → (scriptPubKey : CScript) → TxnOutType →
    (vSolutions sigs1 sigs2 : List Valtype) → CScript
  | _, _, .nonstandard, _, sigs1, sigs2 | _, _, .nullData, _, sigs1, sigs2 =>
    if sigs1.length ≥ sigs2.length then pushAll sigs1 else pushAll sigs2
  | _, _, .pubkey, _, sigs1, sigs2 | _, _, .pubkeyhash, _, sigs1, sigs2 =>
    match sigs1 with
    | [] | [] :: _ => pushAll sigs2
    | _ => pushAll sigs1
  | _, scriptPubKey, .multisig, vSolutions, sigs1, sigs2 =>
    combineMultisig env scriptPubKey vSolutions sigs1 sigs2
  | 0, _, .scripthash, _, _, _ => []
  | fuel + 1, _, .scripthash, _, sigs1, sigs2 =>
    match sigs1.getLast?, sigs2.getLast? with
    | none, _ | some [], _ => pushAll sigs2
    | _, none | _, some [] => pushAll sigs1
    | some spk, some _ =>
      let (_, type, vSolutions) := solver spk
      combineTyped env fuel spk type vSolutions sigs1.dropLast sigs2.dropLast ++ pushOf spk

/-- `CombineSignatures`.  The scripts are evaluated for an empty transaction (`emptyEnv`). -/
def combineSignatures (emptyEnv env : EvalEnv) (scriptPubKey scriptSig1 scriptSig2 : CScript) :
    CScript :=
  let (_, type, vSolutions) := solver scriptPubKey
  let stack1 := (leftStack emptyEnv scriptSig1).reverse
  let stack2 := (leftStack emptyEnv scriptSig2).reverse
  combineTyped env (stack1.length + 1) scriptPubKey type vSolutions stack1 stack2

/-! ## What the templates match -/

theorem length_of_isPubKeySize {vch : Valtype} (h : isPubKeySize vch = true) :
    33 ≤ vch.length ∧ vch.length ≤ 120 := by
  rw [isPubKeySize, Bool.and_eq_true, decide_eq_true_eq, decide_eq_true_eq] at h
  exact h

/-- The loop of `OP_PUBKEYS` collects pushes, and stops at an instruction or at the end. -/
theorem pubKeysLoop_pushes {fuel opcode opcode' : Nat} {vch vch' : Valtype}
    {pc rest rest' : CScript} {keys : List Valtype}
    (hop : CScript.getOp pc = some (opcode, vch, rest))
    (h : pubKeysLoop fuel opcode vch rest = (keys, opcode', vch', rest')) :
    (∀ key ∈ keys, isPubKeySize key = true) ∧
      ∃ pc', Pushes pc keys pc' ∧
        (CScript.getOp pc' = some (opcode', vch', rest') ∨ opcode' = opInvalidOpcode) := by
  induction fuel generalizing opcode vch pc rest keys with
  | zero =>
    rw [pubKeysLoop, Prod.mk.injEq, Prod.mk.injEq, Prod.mk.injEq] at h
    obtain ⟨rfl, rfl, rfl, rfl⟩ := h
    exact ⟨fun _ hmem => absurd hmem List.not_mem_nil, pc, .nil pc, .inl hop⟩
  | succ fuel ih =>
    rw [pubKeysLoop] at h
    split at h
    · next hsize =>
      have hcode : opcode ≤ opPushdata4 := by
        by_contra hlt
        have hnil := CScript.getOp_data_nil hop (not_le.mp hlt)
        rw [hnil] at hsize
        exact absurd hsize (by decide)
      split at h
      · rw [Prod.mk.injEq, Prod.mk.injEq] at h
        obtain ⟨rfl, rfl, -⟩ := h
        exact ⟨fun key hmem => List.mem_singleton.mp hmem ▸ hsize, rest,
          .cons hop hcode (.nil rest), .inr rfl⟩
      · next opcode₁ vch₁ rest₁ hop₁ =>
        generalize hloop : pubKeysLoop fuel opcode₁ vch₁ rest₁ = found at h
        obtain ⟨keys₁, last⟩ := found
        rw [Prod.mk.injEq] at h
        obtain ⟨rfl, rfl⟩ := h
        obtain ⟨hkeys, pc', hpushes, hend⟩ := ih hop₁ hloop
        refine ⟨fun key hmem => ?_, pc', .cons hop hcode hpushes, hend⟩
        rcases List.mem_cons.mp hmem with rfl | hmem
        · exact hsize
        · exact hkeys key hmem
    · rw [Prod.mk.injEq, Prod.mk.injEq, Prod.mk.injEq] at h
      obtain ⟨rfl, rfl, rfl, rfl⟩ := h
      exact ⟨fun _ hmem => absurd hmem List.not_mem_nil, pc, .nil pc, .inl hop⟩

theorem matchOp_smallinteger {opcode : Nat} {vch : Valtype} {solutions : List Valtype}
    (h : matchOp opcode vch .smallinteger = some solutions) :
    (opcode = 0 ∨ op1 ≤ opcode ∧ opcode ≤ op16) ∧
      solutions = [[UInt8.ofNat (decodeOpN opcode)]] := by
  rw [matchOp] at h
  split at h
  · next hcode => exact ⟨hcode, (Option.some.inj h).symm⟩
  · exact absurd h (by simp)

/-- The instruction of a small number that is not zero. -/
theorem smallinteger_eq {opcode : Nat} (h : opcode = 0 ∨ op1 ≤ opcode ∧ opcode ≤ op16)
    (hpos : 1 ≤ (UInt8.ofNat (decodeOpN opcode)).toNat) :
    opcode = op1 - 1 + (UInt8.ofNat (decodeOpN opcode)).toNat ∧
      (UInt8.ofNat (decodeOpN opcode)).toNat ≤ 16 := by
  rcases h with rfl | ⟨hlow, hhigh⟩
  · exact absurd hpos (by decide)
  · have hdecode : decodeOpN opcode = opcode - (op1 - 1) :=
      if_neg (by unfold op1 at hlow; omega)
    have hbyte : (UInt8.ofNat (decodeOpN opcode)).toNat = opcode - (op1 - 1) := by
      rw [UInt8.toNat_ofNat', hdecode]
      exact Nat.mod_eq_of_lt (by unfold op1 op16 at *; omega)
    rw [hbyte]
    unfold op1 op16 at *
    omega

/-- A match of the template of `TX_MULTISIG`. -/
theorem matchTemplate_multiSig {script : CScript} {vSolutions : List Valtype}
    (h : matchTemplate [.smallinteger, .pubkeys, .smallinteger, .op opCheckMultiSig] script =
      some vSolutions) :
    ∃ opcode₁ opcode₂ keys pc₁ pc₂ pc₃, ∃ vch₁ vch₂ : Valtype,
      vSolutions = [UInt8.ofNat (decodeOpN opcode₁)] :: keys ++ [[UInt8.ofNat (decodeOpN opcode₂)]] ∧
      (opcode₁ = 0 ∨ op1 ≤ opcode₁ ∧ opcode₁ ≤ op16) ∧
      (opcode₂ = 0 ∨ op1 ≤ opcode₂ ∧ opcode₂ ≤ op16) ∧
      (∀ key ∈ keys, isPubKeySize key = true) ∧
      CScript.getOp script = some (opcode₁, vch₁, pc₁) ∧ Pushes pc₁ keys pc₂ ∧
      CScript.getOp pc₂ = some (opcode₂, vch₂, pc₃) ∧
      CScript.getOp pc₃ = some (opCheckMultiSig, [], []) := by
  rw [matchTemplate] at h
  · split at h
    · exact absurd h (by simp)
    next opcode₁ vch₁ pc₁ hop₁ =>
    split at h
    · exact absurd h (by simp)
    next solutions₁ hmatch₁ =>
    obtain ⟨hcode₁, rfl⟩ := matchOp_smallinteger hmatch₁
    obtain ⟨rest₁, hrest₁, rfl⟩ := Option.map_eq_some_iff.mp h
    rw [matchTemplate] at hrest₁
    split at hrest₁
    · exact absurd hrest₁ (by simp)
    next opcode vch rest hop =>
    generalize hloop : pubKeysLoop (rest.length + 1) opcode vch rest = found at hrest₁
    obtain ⟨keys, opcode₂, vch₂, pc₃⟩ := found
    dsimp only at hrest₁
    split at hrest₁
    · exact absurd hrest₁ (by simp)
    next solutions₂ hmatch₂ =>
    obtain ⟨hcode₂, rfl⟩ := matchOp_smallinteger hmatch₂
    obtain ⟨rest₂, hrest₂, rfl⟩ := Option.map_eq_some_iff.mp hrest₁
    obtain ⟨hkeys, pc₂, hpushes, hend⟩ := pubKeysLoop_pushes hop hloop
    have hop₂ : CScript.getOp pc₂ = some (opcode₂, vch₂, pc₃) := by
      refine hend.resolve_right fun hinvalid => ?_
      unfold opInvalidOpcode op16 at *
      omega
    rw [matchTemplate] at hrest₂
    · split at hrest₂
      · exact absurd hrest₂ (by simp)
      next opcode₃ vch₃ pc₄ hop₃ =>
      split at hrest₂
      · exact absurd hrest₂ (by simp)
      next solutions₃ hmatch₃ =>
      obtain ⟨rest₃, hrest₃, rfl⟩ := Option.map_eq_some_iff.mp hrest₂
      rw [matchOp] at hmatch₃
      split at hmatch₃
      · next hcheck =>
        obtain ⟨rfl, rfl⟩ := hcheck
        cases pc₄ with
        | nil =>
          rw [matchTemplate, Option.some.injEq] at hrest₃
          refine ⟨opcode₁, opcode₂, keys, pc₁, pc₂, pc₃, vch₁, vch₂, ?_, hcode₁, hcode₂, hkeys,
            hop₁, hpushes, hop₂, hop₃⟩
          rw [← Option.some.inj hmatch₃, ← hrest₃]
          show _ ++ (keys ++ _ ++ []) = _
          rw [List.append_nil]
          rfl
        | cons b pc₄ => exact absurd hrest₃ (by simp [matchTemplate])
      · exact absurd hmatch₃ (by simp)
    · intro heq
      exact TemplateOp.noConfusion heq
  · intro heq
    exact TemplateOp.noConfusion heq

theorem multiSigChecks_iff {m n : UInt8} {keys : List Valtype} :
    multiSigChecks ([m] :: keys ++ [[n]]) = true ↔
      1 ≤ m.toNat ∧ 1 ≤ n.toNat ∧ m.toNat ≤ n.toNat ∧ keys.length = n.toNat := by
  have hlast : ([m] :: keys ++ [[n]]).getLast? = some [n] := List.getLast?_concat
  have hlength : ([m] :: keys ++ [[n]]).length - 2 = keys.length := by
    rw [List.length_append, List.length_cons, List.length_singleton]
    omega
  unfold multiSigChecks
  rw [hlast, hlength]
  show (!(_ || _ || _ || _)) = true ↔ _
  simp only [Bool.not_eq_true', Bool.or_eq_false_iff, decide_eq_false_iff_not, not_lt,
    not_not, and_assoc]
  rfl

theorem scanTemplates_mem {script : CScript} {ts : List (TxnOutType × List TemplateOp)}
    {type : TxnOutType} {vSolutions : List Valtype}
    (h : scanTemplates script ts = some (type, vSolutions)) :
    ∃ template, (type, template) ∈ ts ∧ matchTemplate template script = some vSolutions := by
  induction ts with
  | nil => cases h
  | cons first ts ih =>
    obtain ⟨type', template⟩ := first
    rw [scanTemplates] at h
    split at h
    · next found hmatch =>
      obtain ⟨rfl, rfl⟩ := Prod.mk.inj (Option.some.inj h)
      exact ⟨template, List.mem_cons_self, hmatch⟩
    · obtain ⟨template', hmem, hmatch⟩ := ih h
      exact ⟨template', List.mem_cons_of_mem _ hmem, hmatch⟩

/-- A script that `Solver` takes for a multi-signature script is one, and the solutions are its
numbers and keys. -/
theorem multiSigScript_of_solver {script : CScript} {vSolutions : List Valtype}
    (h : solver script = (true, .multisig, vSolutions)) :
    script.isPayToScriptHash = false ∧ ∃ m keys,
      vSolutions = [UInt8.ofNat m] :: keys ++ [[UInt8.ofNat keys.length]] ∧
      MultiSigScript script m keys ∧ ∀ key ∈ keys, isPubKeySize key = true := by
  unfold solver at h
  split at h
  · cases h
  · next hhash =>
    refine ⟨Bool.eq_false_iff.mpr hhash, ?_⟩
    split at h
    · cases h
    · next found hscan =>
      obtain ⟨hchecks, hfound⟩ := Prod.mk.inj h
      obtain ⟨-, rfl⟩ := Prod.mk.inj hfound
      obtain ⟨template, hmem, hmatch⟩ := scanTemplates_mem hscan
      have htemplate : template =
          [.smallinteger, .pubkeys, .smallinteger, .op opCheckMultiSig] := by
        simpa [templates] using hmem
      subst htemplate
      obtain ⟨opcode₁, opcode₂, keys, pc₁, pc₂, pc₃, vch₁, vch₂, rfl, hcode₁, hcode₂, hkeys,
        hop₁, hpushes, hop₂, hop₃⟩ := matchTemplate_multiSig hmatch
      obtain ⟨hm, hn, hle, hlength⟩ := multiSigChecks_iff.mp hchecks
      obtain ⟨hopcode₁, -⟩ := smallinteger_eq hcode₁ hm
      obtain ⟨hopcode₂, hn16⟩ := smallinteger_eq hcode₂ hn
      generalize UInt8.ofNat (decodeOpN opcode₁) = m at *
      generalize UInt8.ofNat (decodeOpN opcode₂) = n at *
      rw [← hlength] at hopcode₂ hn16 hle
      subst hopcode₁ hopcode₂
      refine ⟨m.toNat, keys, ?_, ⟨hm, hle, hn16, pc₁, pc₂, pc₃, ?_, hpushes, ?_, hop₃⟩, hkeys⟩
      · rw [hlength, UInt8.ofNat_toNat, UInt8.ofNat_toNat]
      · have hcode : opPushdata4 < op1 - 1 + m.toNat := by
          unfold opPushdata4 op1
          omega
        rw [hop₁, CScript.getOp_data_nil hop₁ hcode]
      · have hcode : opPushdata4 < op1 - 1 + keys.length := by
          unfold opPushdata4 op1
          omega
        rw [hop₂, CScript.getOp_data_nil hop₂ hcode]
    · next type vSolutions' hnot hscan =>
      obtain ⟨-, hfound⟩ := Prod.mk.inj h
      obtain ⟨rfl, -⟩ := Prod.mk.inj hfound
      exact (hnot rfl).elim

/-! ## What is left of an evaluation that succeeds -/

theorem leftStackLoop_of_ok {env : EvalEnv} {fuel : Nat} {s s' : EvalState}
    (h : (evalLoop env fuel s).2 = .ok s') : leftStackLoop env fuel s = s'.stack := by
  induction fuel generalizing s with
  | zero =>
    rw [evalLoop] at h
    split at h
    · obtain rfl := Except.ok.inj h
      rfl
    · cases h
  | succ fuel ih =>
    rw [evalLoop] at h
    rw [leftStackLoop]
    split at h
    · next hpc =>
      obtain rfl := Except.ok.inj h
      exact if_pos hpc
    · next hpc =>
      rw [if_neg hpc]
      cases hstep : step env s with
      | mk nChecks result =>
        rw [hstep] at h
        cases result with
        | error e => cases h
        | ok s₁ => exact ih h

theorem leftStack_of_evalScript {env : EvalEnv} {script : CScript} {stack : Stack}
    (h : (evalScript env [] script).2 = .ok stack) : leftStack env script = stack := by
  unfold evalScript at h
  unfold leftStack
  split at h
  · cases h
  · next hsize =>
    rw [if_neg hsize]
    dsimp only at h
    cases hloop : evalLoop env script.length (start [] script) with
    | mk nChecks result =>
      rw [hloop] at h
      cases result with
      | error e => cases h
      | ok s =>
        rw [leftStackLoop_of_ok (congrArg Prod.snd hloop)]
        dsimp only [bind, Except.bind] at h
        split at h
        · cases h
        · exact Except.ok.inj h

end NoLimitCoin
