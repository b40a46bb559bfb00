import NoLimitCoin.Script

/-!
# The script interpreter

`EvalScript` and `VerifyScript` of `script.cpp`.  A stack is a list with its top first, so
`stacktop(-i)` is the item at position `i` from the top.  The instructions the interpreter refuses
before it looks at them (`OP_CAT` to `OP_RSHIFT`) have no branch here.

A fault tells `return false` from the exceptions that `catch (...)` turns into it.  Next to its
result every evaluation gives the number of `CheckSig` calls it made.
-/

namespace NoLimitCoin

namespace Interpreter

abbrev Valtype := List UInt8
abbrev Stack := List Valtype

def maxScriptElementSize : Nat := 520
def maxScriptSize : Nat := 10000
def maxOpCount : Nat := 201
def maxStackSize : Nat := 1000
def maxPubKeysPerMultiSig : Nat := 20
def nMaxNumSize : Nat := 4

inductive Fault
  | returnFalse
  /-- `stack.at` out of range, `popstack` or `back` of an empty stack. -/
  | outOfRange
  /-- `CastToBigNum` of a value that is too long. -/
  | overflow
  | outOfFuel
deriving Repr, DecidableEq

/-! ## Numbers -/

/-- The sign bit in the last byte. -/
def setSign (vch : Valtype) : Valtype :=
  match vch.getLast? with
  | none => []
  | some last => vch.dropLast ++ [last ||| 0x80]

/-- `CBigNum::getvch`. -/
def getvch (bn : Int) : Valtype :=
  let vch := CScript.numberBytes (Nat.log2 bn.natAbs / 8 + 1) bn.natAbs
  if bn < 0 then setSign vch else vch

/-- `CBigNum::setvch`: the last byte has the sign. -/
def setvch (vch : Valtype) : Int :=
  let sign := 2 ^ (8 * vch.length - 1)
  if vch ≠ [] ∧ sign ≤ ofLeBytes vch then -((ofLeBytes vch - sign : Nat) : Int)
  else (ofLeBytes vch : Int)

/-- `CBigNum::getint`. -/
def getint (bn : Int) : Int := max (-2 ^ 31) (min bn (2 ^ 31 - 1))

def castToBigNum (vch : Valtype) : Except Fault Int :=
  if nMaxNumSize < vch.length then .error .overflow else .ok (setvch vch)

/-- `CastToBool`: false for zero, and for zero with a sign. -/
def castToBool (vch : Valtype) : Bool :=
  vch.dropLast.any (· ≠ 0) || vch.getLast?.any fun last => last ≠ 0 && last ≠ 0x80

def vchFalse : Valtype := []
def vchTrue : Valtype := [1]
def ofBool (fValue : Bool) : Valtype := if fValue then vchTrue else vchFalse

/-! ## Instructions -/

inductive UnaryOp
  | oneAdd | oneSub | negate | abs | not | zeroNotEqual
deriving Repr, DecidableEq

inductive BinaryOp
  | add | sub | boolAnd | boolOr | numEqual | numEqualVerify | numNotEqual | lessThan | greaterThan
  | lessThanOrEqual | greaterThanOrEqual | min | max
deriving Repr, DecidableEq

inductive HashOp
  | ripemd160 | sha1 | sha256 | hash160 | hash256
deriving Repr, DecidableEq

/-- The instructions that only work on the stack. -/
inductive StackOp
  | verify | drop2 | dup2 | dup3 | over2 | rot2 | swap2 | ifDup | depth | drop | dup | nip | opOver
  | pick (fRoll : Bool) | rot | swap | tuck | size | equal (fVerify : Bool)
  | unary (op : UnaryOp) | binary (op : BinaryOp) | within | hash (op : HashOp)
deriving Repr, DecidableEq

inductive Op
  | pushNumber (n : Int)
  | nop
  | opIf (fNot : Bool)
  | opElse
  | endif
  | opReturn
  | toAltStack
  | fromAltStack
  | onStack (op : StackOp)
  | codeSeparator
  | checkSig (fVerify : Bool)
  | checkMultiSig (fVerify : Bool)
deriving Repr, DecidableEq

/-- The cases of the switch; `none` for `default`. -/
def Op.ofCode (opcode : Nat) : Option Op :=
  match opcode with
  | 0x61 => some .nop
  | 0x63 => some (.opIf false)
  | 0x64 => some (.opIf true)
  | 0x67 => some .opElse
  | 0x68 => some .endif
  | 0x69 => some (.onStack .verify)
  | 0x6a => some .opReturn
  | 0x6b => some .toAltStack
  | 0x6c => some .fromAltStack
  | 0x6d => some (.onStack .drop2)
  | 0x6e => some (.onStack .dup2)
  | 0x6f => some (.onStack .dup3)
  | 0x70 => some (.onStack .over2)
  | 0x71 => some (.onStack .rot2)
  | 0x72 => some (.onStack .swap2)
  | 0x73 => some (.onStack .ifDup)
  | 0x74 => some (.onStack .depth)
  | 0x75 => some (.onStack .drop)
  | 0x76 => some (.onStack .dup)
  | 0x77 => some (.onStack .nip)
  | 0x78 => some (.onStack .opOver)
  | 0x79 => some (.onStack (.pick false))
  | 0x7a => some (.onStack (.pick true))
  | 0x7b => some (.onStack .rot)
  | 0x7c => some (.onStack .swap)
  | 0x7d => some (.onStack .tuck)
  | 0x82 => some (.onStack .size)
  | 0x87 => some (.onStack (.equal false))
  | 0x88 => some (.onStack (.equal true))
  | 0x8b => some (.onStack (.unary .oneAdd))
  | 0x8c => some (.onStack (.unary .oneSub))
  | 0x8f => some (.onStack (.unary .negate))
  | 0x90 => some (.onStack (.unary .abs))
  | 0x91 => some (.onStack (.unary .not))
  | 0x92 => some (.onStack (.unary .zeroNotEqual))
  | 0x93 => some (.onStack (.binary .add))
  | 0x94 => some (.onStack (.binary .sub))
  | 0x9a => some (.onStack (.binary .boolAnd))
  | 0x9b => some (.onStack (.binary .boolOr))
  | 0x9c => some (.onStack (.binary .numEqual))
  | 0x9d => some (.onStack (.binary .numEqualVerify))
  | 0x9e => some (.onStack (.binary .numNotEqual))
  | 0x9f => some (.onStack (.binary .lessThan))
  | 0xa0 => some (.onStack (.binary .greaterThan))
  | 0xa1 => some (.onStack (.binary .lessThanOrEqual))
  | 0xa2 => some (.onStack (.binary .greaterThanOrEqual))
  | 0xa3 => some (.onStack (.binary .min))
  | 0xa4 => some (.onStack (.binary .max))
  | 0xa5 => some (.onStack .within)
  | 0xa6 => some (.onStack (.hash .ripemd160))
  | 0xa7 => some (.onStack (.hash .sha1))
  | 0xa8 => some (.onStack (.hash .sha256))
  | 0xa9 => some (.onStack (.hash .hash160))
  | 0xaa => some (.onStack (.hash .hash256))
  | 0xab => some .codeSeparator
  | 0xac => some (.checkSig false)
  | 0xad => some (.checkSig true)
  | 0xae => some (.checkMultiSig false)
  | 0xaf => some (.checkMultiSig true)
  | _ =>
    -- OP_1NEGATE, OP_1 to OP_16, and OP_NOP1 to OP_NOP10
    if opcode = 0x4f ∨ op1 ≤ opcode ∧ opcode ≤ op16 then some (.pushNumber (opcode - (op1 - 1)))
    else if 0xb0 ≤ opcode ∧ opcode ≤ 0xb9 then some .nop
    else none

def opIf : Nat := 0x63
def opEndif : Nat := 0x68

/-- The instructions that are refused wherever they stand, executed or not. -/
def isDisabled (opcode : Nat) : Bool :=
  opcode ∈ [0x7e, 0x7f, 0x80, 0x81, 0x83, 0x84, 0x85, 0x86, 0x8d, 0x8e, 0x95, 0x96, 0x97, 0x98, 0x99]

def HashOp.size : HashOp → Nat
  | .ripemd160 | .sha1 | .hash160 => 20
  | .sha256 | .hash256 => 32

/-- What the interpreter takes from elsewhere: the hashes, the check of a signature's `S`
(`key.cpp`), and `CheckSig` for the input that is verified. -/
structure EvalEnv where
  hash : HashOp → Valtype → Valtype
  hash_length : ∀ op vch, (hash op vch).length = op.size
  checkSignatureElement : Valtype → Bool
  checkSig : (vchSig vchPubKey : Valtype) → (scriptCode : CScript) → Bool

/-! ## Stack instructions -/

def stacktop (stack : Stack) (i : Nat) : Except Fault Valtype :=
  match stack[i - 1]? with
  | none => .error .outOfRange
  | some vch => if i = 0 then .error .outOfRange else .ok vch

def popstack : Stack → Except Fault Stack
  | [] => .error .outOfRange
  | _ :: stack => .ok stack

/-- `if (stack.size() < n) return false`. -/
def needs (stack : Stack) (n : Nat) : Except Fault Unit :=
  if stack.length < n then .error .returnFalse else .ok ()

/-- `swap(stacktop(-i), stacktop(-j))`. -/
def swaptop (stack : Stack) (i j : Nat) : Except Fault Stack := do
  let vch1 ← stacktop stack i
  let vch2 ← stacktop stack j
  return (stack.set (i - 1) vch2).set (j - 1) vch1

def UnaryOp.eval (bn : Int) : UnaryOp → Int
  | .oneAdd => bn + 1
  | .oneSub => bn - 1
  | .negate => -bn
  | .abs => if bn < 0 then -bn else bn
  | .not => if bn = 0 then 1 else 0
  | .zeroNotEqual => if bn ≠ 0 then 1 else 0

def BinaryOp.eval (bn1 bn2 : Int) : BinaryOp → Int
  | .add => bn1 + bn2
  | .sub => bn1 - bn2
  | .boolAnd => if bn1 ≠ 0 ∧ bn2 ≠ 0 then 1 else 0
  | .boolOr => if bn1 ≠ 0 ∨ bn2 ≠ 0 then 1 else 0
  | .numEqual | .numEqualVerify => if bn1 = bn2 then 1 else 0
  | .numNotEqual => if bn1 ≠ bn2 then 1 else 0
  | .lessThan => if bn1 < bn2 then 1 else 0
  | .greaterThan => if bn1 > bn2 then 1 else 0
  | .lessThanOrEqual => if bn1 ≤ bn2 then 1 else 0
  | .greaterThanOrEqual => if bn1 ≥ bn2 then 1 else 0
  | .min => if bn1 < bn2 then bn1 else bn2
  | .max => if bn1 > bn2 then bn1 else bn2

def StackOp.exec (env : EvalEnv) (stack : Stack) : StackOp → Except Fault Stack
  | .verify => do
    needs stack 1
    let fValue := castToBool (← stacktop stack 1)
    if fValue then popstack stack else .error .returnFalse
  | .drop2 => do
    needs stack 2
    popstack (← popstack stack)
  | .dup2 => do
    needs stack 2
    let vch1 ← stacktop stack 2
    let vch2 ← stacktop stack 1
    return vch2 :: vch1 :: stack
  | .dup3 => do
    needs stack 3
    let vch1 ← stacktop stack 3
    let vch2 ← stacktop stack 2
    let vch3 ← stacktop stack 1
    return vch3 :: vch2 :: vch1 :: stack
  | .over2 => do
    needs stack 4
    let vch1 ← stacktop stack 4
    let vch2 ← stacktop stack 3
    return vch2 :: vch1 :: stack
  | .rot2 => do
    needs stack 6
    let vch1 ← stacktop stack 6
    let vch2 ← stacktop stack 5
    return vch2 :: vch1 :: (stack.eraseIdx 5).eraseIdx 4
  | .swap2 => do
    needs stack 4
    swaptop (← swaptop stack 4 2) 3 1
  | .ifDup => do
    needs stack 1
    let vch ← stacktop stack 1
    return if castToBool vch then vch :: stack else stack
  | .depth => return getvch stack.length :: stack
  | .drop => do
    needs stack 1
    popstack stack
  | .dup => do
    needs stack 1
    return (← stacktop stack 1) :: stack
  | .nip => do
    needs stack 2
    return stack.eraseIdx 1
  | .opOver => do
    needs stack 2
    return (← stacktop stack 2) :: stack
  | .pick fRoll => do
    needs stack 2
    let n := getint (← castToBigNum (← stacktop stack 1))
    let stack ← popstack stack
    if n < 0 ∨ n ≥ stack.length then .error .returnFalse
    else
      let vch ← stacktop stack (n.toNat + 1)
      return vch :: if fRoll then stack.eraseIdx n.toNat else stack
  | .rot => do
    needs stack 3
    swaptop (← swaptop stack 3 2) 2 1
  | .swap => do
    needs stack 2
    swaptop stack 2 1
  | .tuck => do
    needs stack 2
    return stack.insertIdx 2 (← stacktop stack 1)
  | .size => do
    needs stack 1
    return getvch (← stacktop stack 1).length :: stack
  | .equal fVerify => do
    needs stack 2
    let fEqual := (← stacktop stack 2) == (← stacktop stack 1)
    let stack ← popstack (← popstack stack)
    if fVerify then if fEqual then popstack (ofBool fEqual :: stack) else .error .returnFalse
    else return ofBool fEqual :: stack
  | .unary op => do
    needs stack 1
    let bn ← castToBigNum (← stacktop stack 1)
    return getvch (op.eval bn) :: (← popstack stack)
  | .binary op => do
    needs stack 2
    let bn1 ← castToBigNum (← stacktop stack 2)
    let bn2 ← castToBigNum (← stacktop stack 1)
    let stack ← popstack (← popstack stack)
    let stack := getvch (op.eval bn1 bn2) :: stack
    if op = .numEqualVerify then
      if castToBool (← stacktop stack 1) then popstack stack else .error .returnFalse
    else return stack
  | .within => do
    needs stack 3
    let bn1 ← castToBigNum (← stacktop stack 3)
    let bn2 ← castToBigNum (← stacktop stack 2)
    let bn3 ← castToBigNum (← stacktop stack 1)
    let stack ← popstack (← popstack (← popstack stack))
    return ofBool (decide (bn2 ≤ bn1) && decide (bn1 < bn3)) :: stack
  | .hash op => do
    needs stack 1
    let vch ← stacktop stack 1
    return env.hash op vch :: (← popstack stack)

/-! ## Signatures -/

def isCanonicalPubKey (vchPubKey : Valtype) : Bool :=
  if vchPubKey.length < 33 then false
  else if vchPubKey[0]? = some 0x04 then vchPubKey.length = 65
  else if vchPubKey[0]? = some 0x02 ∨ vchPubKey[0]? = some 0x03 then vchPubKey.length = 33
  else false

/-- The checks that `R` and `S` share, of a number of `nLen` bytes at `pos`. -/
def isCanonicalNumber (vchSig : Valtype) (pos nLen : Nat) : Bool :=
  vchSig.getD (pos - 2) 0 = 0x02 && nLen ≠ 0 && vchSig.getD pos 0 < 0x80 &&
    !(1 < nLen && vchSig.getD pos 0 = 0 && vchSig.getD (pos + 1) 0 < 0x80)

def isCanonicalSignature (env : EvalEnv) (vchSig : Valtype) : Bool :=
  if vchSig.length < 9 || 73 < vchSig.length then false
  else
    let nHashType := vchSig.getD (vchSig.length - 1) 0 &&& 0x7f
    let nLenR := (vchSig.getD 3 0).toNat
    let nLenS := (vchSig.getD (5 + nLenR) 0).toNat
    if nHashType < 1 || 3 < nHashType then false
    else if vchSig.getD 0 0 ≠ 0x30 then false
    else if (vchSig.getD 1 0).toNat ≠ vchSig.length - 3 then false
    else if 5 + nLenR ≥ vchSig.length then false
    else if nLenR + nLenS + 7 ≠ vchSig.length then false
    else isCanonicalNumber vchSig 4 nLenR && isCanonicalNumber vchSig (6 + nLenR) nLenS &&
      env.checkSignatureElement ((vchSig.drop (6 + nLenR)).take nLenS)

/-- `CScript(vch)`: the push of a value. -/
def pushOf (vch : Valtype) : CScript :=
  if vch.length < opPushdata1 then UInt8.ofNat vch.length :: vch
  else if vch.length ≤ 0xff then UInt8.ofNat opPushdata1 :: UInt8.ofNat vch.length :: vch
  else if vch.length ≤ 0xffff then
    UInt8.ofNat opPushdata2 :: UInt8.ofNat vch.length :: UInt8.ofNat (vch.length / 256) :: vch
  else UInt8.ofNat opPushdata4 :: UInt8.ofNat vch.length :: UInt8.ofNat (vch.length / 256) ::
    UInt8.ofNat (vch.length / 256 ^ 2) :: UInt8.ofNat (vch.length / 256 ^ 3) :: vch

/-- The inner loop of `FindAndDelete`: the copies at `pc`. -/
def eraseCopies (b : CScript) : (fuel : Nat) → CScript → CScript
  | 0, pc => pc
  | fuel + 1, pc => if b.isPrefixOf pc then eraseCopies b fuel (pc.drop b.length) else pc

/-- The outer loop of `FindAndDelete`, from instruction to instruction. -/
def findAndDeleteLoop (b : CScript) : (fuel : Nat) → CScript → CScript
  | 0, pc => pc
  | fuel + 1, pc =>
    let pc := eraseCopies b pc.length pc
    match CScript.getOp pc with
    | none => pc
    | some (_, _, rest) => pc.take (pc.length - rest.length) ++ findAndDeleteLoop b fuel rest

def findAndDelete (script b : CScript) : CScript :=
  if b = [] then script else findAndDeleteLoop b (script.length + 1) script

/-- The check of one signature by one key, and how many times `CheckSig` was called for it. -/
def checkOne (env : EvalEnv) (vchSig vchPubKey : Valtype) (scriptCode : CScript) : Nat × Bool :=
  if isCanonicalSignature env vchSig && isCanonicalPubKey vchPubKey then
    (1, env.checkSig vchSig vchPubKey scriptCode)
  else (0, false)

/-- The loop of `OP_CHECKMULTISIG`: `nSigs` signatures from position `isig` on, `nKeys` keys from
`ikey` on.  The signatures left never outnumber the keys left. -/
def checkMultiSigLoop (env : EvalEnv) (stack : Stack) (scriptCode : CScript) :
    (nKeys nSigs isig ikey : Nat) → Nat × Except Fault Bool
  | _, 0, _, _ => (0, .ok true)
  | 0, _ + 1, _, _ => (0, .ok false)
  | nKeys + 1, nSigs + 1, isig, ikey =>
    match stacktop stack isig, stacktop stack ikey with
    | .ok vchSig, .ok vchPubKey =>
      let (nChecks, fOk) := checkOne env vchSig vchPubKey scriptCode
      let nSigs' := if fOk then nSigs else nSigs + 1
      if nKeys < nSigs' then (nChecks, .ok false)
      else
        let (nMore, result) :=
          checkMultiSigLoop env stack scriptCode nKeys nSigs' (if fOk then isig + 1 else isig)
            (ikey + 1)
        (nChecks + nMore, result)
    | _, _ => (0, .error .outOfRange)

/-! ## The loop -/

structure EvalState where
  stack : Stack
  altstack : Stack
  /-- The innermost condition first. -/
  vfExec : List Bool
  nOpCount : Nat
  pc : CScript
  /-- The script from `pbegincodehash` on. -/
  codehash : CScript
deriving Repr, DecidableEq

def EvalState.fExec (s : EvalState) : Bool := s.vfExec.all id

/-- The result of a signature check is pushed, or verified. -/
def pushResult (fVerify fSuccess : Bool) (stack : Stack) : Except Fault Stack :=
  if fVerify then if fSuccess then popstack (ofBool fSuccess :: stack) else .error .returnFalse
  else .ok (ofBool fSuccess :: stack)

def popMany : (n : Nat) → Stack → Except Fault Stack
  | 0, stack => .ok stack
  | n + 1, stack => do popMany n (← popstack stack)

/-- `OP_CHECKSIG` and `OP_CHECKSIGVERIFY`. -/
def execCheckSig (env : EvalEnv) (fVerify : Bool) (s : EvalState) :
    Nat × Except Fault EvalState :=
  let operands : Except Fault (Valtype × Valtype) := do
    needs s.stack 2
    return (← stacktop s.stack 2, ← stacktop s.stack 1)
  match operands with
  | .error e => (0, .error e)
  | .ok (vchSig, vchPubKey) =>
    let scriptCode := findAndDelete s.codehash (pushOf vchSig)
    let (nChecks, fSuccess) := checkOne env vchSig vchPubKey scriptCode
    (nChecks, do
      let stack ← pushResult fVerify fSuccess (← popMany 2 s.stack)
      return { s with stack := stack })

/-- The operands of `OP_CHECKMULTISIG`: the numbers of keys and of signatures, and the new
`nOpCount`. -/
def multiSigCounts (s : EvalState) : Except Fault (Nat × Nat × Nat) := do
  needs s.stack 1
  let nKeysCount := getint (← castToBigNum (← stacktop s.stack 1))
  if nKeysCount < 0 ∨ nKeysCount > maxPubKeysPerMultiSig then .error .returnFalse
  else
    let nKeys := nKeysCount.toNat
    let nOpCount := s.nOpCount + nKeys
    if nOpCount > maxOpCount then .error .returnFalse
    else
      needs s.stack (2 + nKeys)
      let nSigsCount := getint (← castToBigNum (← stacktop s.stack (2 + nKeys)))
      if nSigsCount < 0 ∨ nSigsCount > nKeysCount then .error .returnFalse
      else
        needs s.stack (3 + nKeys + nSigsCount.toNat)
        return (nKeys, nSigsCount.toNat, nOpCount)

/-- The script code without the signatures. -/
def dropSignatures (stack : Stack) (isig : Nat) : (nSigs : Nat) → (k : Nat) → CScript →
    Except Fault CScript
  | 0, _, scriptCode => .ok scriptCode
  | nSigs + 1, k, scriptCode => do
    let vchSig ← stacktop stack (isig + k)
    dropSignatures stack isig nSigs (k + 1) (findAndDelete scriptCode (pushOf vchSig))

/-- `OP_CHECKMULTISIG` and `OP_CHECKMULTISIGVERIFY`. -/
def execCheckMultiSig (env : EvalEnv) (fVerify : Bool) (s : EvalState) :
    Nat × Except Fault EvalState :=
  match multiSigCounts s with
  | .error e => (0, .error e)
  | .ok (nKeys, nSigs, nOpCount) =>
    let isig := 3 + nKeys
    match dropSignatures s.stack isig nSigs 0 s.codehash with
    | .error e => (0, .error e)
    | .ok scriptCode =>
      let (nChecks, result) := checkMultiSigLoop env s.stack scriptCode nKeys nSigs isig 2
      (nChecks, do
        let fSuccess ← result
        let stack ← pushResult fVerify fSuccess (← popMany (3 + nKeys + nSigs) s.stack)
        return { s with stack := stack, nOpCount := nOpCount })

/-- The switch. -/
def exec (env : EvalEnv) (s : EvalState) : Op → Nat × Except Fault EvalState
  | .pushNumber n => (0, .ok { s with stack := getvch n :: s.stack })
  | .nop => (0, .ok s)
  | .opIf fNot => (0, do
    if s.fExec then
      needs s.stack 1
      let fValue := castToBool (← stacktop s.stack 1)
      let stack ← popstack s.stack
      return { s with stack := stack, vfExec := (if fNot then !fValue else fValue) :: s.vfExec }
    else return { s with vfExec := false :: s.vfExec })
  | .opElse => (0,
    match s.vfExec with
    | [] => .error .returnFalse
    | fValue :: vfExec => .ok { s with vfExec := (!fValue) :: vfExec })
  | .endif => (0,
    match s.vfExec with
    | [] => .error .returnFalse
    | _ :: vfExec => .ok { s with vfExec := vfExec })
  | .opReturn => (0, .error .returnFalse)
  | .toAltStack => (0, do
    needs s.stack 1
    let vch ← stacktop s.stack 1
    return { s with stack := ← popstack s.stack, altstack := vch :: s.altstack })
  | .fromAltStack => (0, do
    needs s.altstack 1
    let vch ← stacktop s.altstack 1
    return { s with stack := vch :: s.stack, altstack := ← popstack s.altstack })
  | .onStack op => (0, do return { s with stack := ← op.exec env s.stack })
  | .codeSeparator => (0, .ok { s with codehash := s.pc })
  | .checkSig fVerify => execCheckSig env fVerify s
  | .checkMultiSig fVerify => execCheckMultiSig env fVerify s

/-- The instruction that was read, with `pc` after it. -/
def execOpcode (env : EvalEnv) (opcode : Nat) (vchPushValue : Valtype) (s : EvalState) :
    Nat × Except Fault EvalState :=
  if s.fExec && opcode ≤ opPushdata4 then (0, .ok { s with stack := vchPushValue :: s.stack })
  else if s.fExec || (opIf ≤ opcode && opcode ≤ opEndif) then
    match Op.ofCode opcode with
    | none => (0, .error .returnFalse)
    | some op => exec env s op
  else (0, .ok s)

def sizeLimit (s : EvalState) : Except Fault EvalState :=
  if s.stack.length + s.altstack.length > maxStackSize then .error .returnFalse else .ok s

/-- One round of the loop of `EvalScript`. -/
def step (env : EvalEnv) (s : EvalState) : Nat × Except Fault EvalState :=
  match CScript.getOp s.pc with
  | none => (0, .error .returnFalse)
  | some (opcode, vchPushValue, rest) =>
    let nOpCount := if op16 < opcode then s.nOpCount + 1 else s.nOpCount
    if maxScriptElementSize < vchPushValue.length then (0, .error .returnFalse)
    else if op16 < opcode ∧ maxOpCount < nOpCount then (0, .error .returnFalse)
    else if isDisabled opcode then (0, .error .returnFalse)
    else
      let (nChecks, result) :=
        execOpcode env opcode vchPushValue { s with pc := rest, nOpCount := nOpCount }
      (nChecks, result.bind sizeLimit)

/-- The loop: every instruction takes a byte, so the length of the script is enough fuel. -/
def evalLoop (env : EvalEnv) : (fuel : Nat) → EvalState → Nat × Except Fault EvalState
  | fuel, s =>
    if s.pc = [] then (0, .ok s)
    else
      match fuel with
      | 0 => (0, .error .outOfFuel)
      | fuel + 1 =>
        match step env s with
        | (nChecks, .error e) => (nChecks, .error e)
        | (nChecks, .ok s) =>
          let (nMore, result) := evalLoop env fuel s
          (nChecks + nMore, result)

def start (stack : Stack) (script : CScript) : EvalState := ⟨stack, [], [], 0, script, script⟩

/-- `EvalScript`: the stack it leaves. -/
def evalScript (env : EvalEnv) (stack : Stack) (script : CScript) : Nat × Except Fault Stack :=
  if maxScriptSize < script.length then (0, .error .returnFalse)
  else
    let (nChecks, result) := evalLoop env script.length (start stack script)
    (nChecks, do
      let s ← result
      if s.vfExec ≠ [] then .error .returnFalse else return s.stack)

/-! ## Verification -/

def isPushOnlyLoop : (fuel : Nat) → CScript → Bool
  | _, [] => true
  | 0, _ => false
  | fuel + 1, pc =>
    match CScript.getOp pc with
    | none => false
    | some (opcode, _, rest) => if op16 < opcode then false else isPushOnlyLoop fuel rest

/-- `IsPushOnly`. -/
def isPushOnly (script : CScript) : Bool := isPushOnlyLoop script.length script

/-- `if (stack.empty()) return false`, and the value on top. -/
def isTrueOnTop : Stack → Except Fault Unit
  | [] => .error .returnFalse
  | vch :: _ => if castToBool vch then .ok () else .error .returnFalse

/-- `VerifyScript`: each script it evaluated with the number of `CheckSig` calls, and how it
ended. -/
def verifyScript (env : EvalEnv) (scriptSig scriptPubKey : CScript) :
    List (CScript × Nat) × Except Fault Unit :=
  match evalScript env [] scriptSig with
  | (n₁, .error e) => ([(scriptSig, n₁)], .error e)
  | (n₁, .ok stack) =>
    match evalScript env stack scriptPubKey with
    | (n₂, .error e) => ([(scriptSig, n₁), (scriptPubKey, n₂)], .error e)
    | (n₂, .ok stack₂) =>
      match isTrueOnTop stack₂ with
      | .error e => ([(scriptSig, n₁), (scriptPubKey, n₂)], .error e)
      | .ok () =>
        if scriptPubKey.isPayToScriptHash then
          if isPushOnly scriptSig then
            match stack with
            | [] => ([(scriptSig, n₁), (scriptPubKey, n₂)], .error .outOfRange)
            | pubKey2 :: stackCopy =>
              let (n₃, result) := evalScript env stackCopy pubKey2
              ([(scriptSig, n₁), (scriptPubKey, n₂), (pubKey2, n₃)], result.bind isTrueOnTop)
          else ([(scriptSig, n₁), (scriptPubKey, n₂)], .error .returnFalse)
        else ([(scriptSig, n₁), (scriptPubKey, n₂)], .ok ())

end Interpreter

end NoLimitCoin
