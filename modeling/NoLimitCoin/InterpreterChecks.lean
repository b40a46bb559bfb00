import NoLimitCoin.InterpreterLimits

/-!
# The signature operations bound the signature checks

`GetSigOpCount` reads a script without running it.  What it knows of `OP_CHECKMULTISIG` is the
instruction before it, so the loop of the interpreter is followed with the last instruction it read:
where that pushed a small number, the number is on top of the stack.

Results:

1. `step_checks`, `evalScript_checks_le`: the checks of a script are at most its operations.
2. `verifyScript_redeem`: which script is counted for a script hash.
-/

namespace NoLimitCoin

namespace Interpreter

/-! ## The checks of an instruction -/

theorem checkOne_le (env : EvalEnv) (vchSig vchPubKey : Valtype) (scriptCode : CScript) :
    (checkOne env vchSig vchPubKey scriptCode).1 ≤ 1 := by
  unfold checkOne
  split
  · exact Nat.le_refl 1
  · exact Nat.zero_le 1

/-- Every round of the loop takes a key. -/
theorem checkMultiSigLoop_le (env : EvalEnv) (stack : Stack) (scriptCode : CScript)
    (nKeys nSigs isig ikey : Nat) :
    (checkMultiSigLoop env stack scriptCode nKeys nSigs isig ikey).1 ≤ nKeys := by
  induction nKeys generalizing nSigs isig ikey with
  | zero =>
    cases nSigs with
    | zero => exact Nat.le_refl 0
    | succ nSigs => exact Nat.le_refl 0
  | succ nKeys ih =>
    cases nSigs with
    | zero => exact Nat.zero_le _
    | succ nSigs =>
      unfold checkMultiSigLoop
      split
      · next vchSig vchPubKey _ _ =>
        have hone := checkOne_le env vchSig vchPubKey scriptCode
        dsimp only
        generalize (if (checkOne env vchSig vchPubKey scriptCode).2 then nSigs
          else nSigs + 1) = nSigs'
        generalize (if (checkOne env vchSig vchPubKey scriptCode).2 then isig + 1
          else isig) = isig'
        split
        · exact hone.trans (Nat.succ_le_succ (Nat.zero_le _))
        · have hrest := ih nSigs' isig' (ikey + 1)
          show _ + _ ≤ _
          omega
      · exact Nat.zero_le _

theorem execCheckSig_le (env : EvalEnv) (fVerify : Bool) (s : EvalState) :
    (execCheckSig env fVerify s).1 ≤ 1 := by
  unfold execCheckSig
  dsimp only
  split
  · exact Nat.zero_le 1
  · exact checkOne_le env _ _ _

/-- What holds of the result, if there is one. -/
def Gives {α : Type} (P : α → Prop) (r : Except Fault α) : Prop := ∀ a, r = .ok a → P a

namespace Gives

variable {α β : Type} {P : β → Prop} {r : Except Fault α} {f : α → Except Fault β}

theorem bind (h : ∀ a, r = .ok a → Gives P (f a)) : Gives P (r >>= f) := by
  intro b hb
  cases r with
  | ok a => exact h a rfl b hb
  | error e => cases hb

theorem pure {b : β} (h : P b) : Gives P (.ok b) := by
  intro b' hb
  cases hb
  exact h

theorem error {e : Fault} : Gives P (.error e) := by
  intro b hb
  cases hb

end Gives

/-- The number of keys is the number on top. -/
theorem multiSigCounts_keys (s : EvalState) :
    Gives (fun counts => counts.1 ≤ maxPubKeysPerMultiSig ∧ ∃ vch bn, stacktop s.stack 1 = .ok vch ∧
      castToBigNum vch = .ok bn ∧ counts.1 = (getint bn).toNat) (multiSigCounts s) := by
  unfold multiSigCounts
  refine .bind fun _ _ => .bind fun vch hvch => .bind fun bn hbn => ?_
  dsimp only
  split
  · exact .error
  · next hkeys =>
    split
    · exact .error
    · refine .bind fun _ _ => .bind fun vch₂ _ => .bind fun bn₂ _ => ?_
      split
      · exact .error
      · refine .bind fun _ _ => .pure ⟨?_, vch, bn, hvch, hbn, rfl⟩
        show (getint bn).toNat ≤ maxPubKeysPerMultiSig
        omega

theorem execCheckMultiSig_le (env : EvalEnv) (fVerify : Bool) (s : EvalState) :
    (execCheckMultiSig env fVerify s).1 ≤ maxPubKeysPerMultiSig ∧
      ∀ vch stack bn, s.stack = vch :: stack → castToBigNum vch = .ok bn →
        (execCheckMultiSig env fVerify s).1 ≤ (getint bn).toNat := by
  have hcounts := multiSigCounts_keys s
  unfold execCheckMultiSig
  split
  · exact ⟨Nat.zero_le _, fun _ _ _ _ _ => Nat.zero_le _⟩
  · next nKeys nSigs nOpCount hok =>
    obtain ⟨hle, vch, bn, hvch, hbn, hkeys⟩ := hcounts _ hok
    dsimp only at hle hkeys ⊢
    split
    · exact ⟨Nat.zero_le _, fun _ _ _ _ _ => Nat.zero_le _⟩
    · next scriptCode _ =>
      have hloop := checkMultiSigLoop_le env s.stack scriptCode nKeys nSigs (3 + nKeys) 2
      refine ⟨hloop.trans hle, fun vch' stack bn' hstack hbn' => ?_⟩
      rw [hstack] at hvch
      cases hvch
      rw [hbn] at hbn'
      cases hbn'
      exact hloop.trans (Nat.le_of_eq hkeys)

/-! ## The checks of a script -/

/-- After an instruction that pushes a small number, and if it was executed, the number is on
top. -/
def PushedNumber (lastOpcode : Nat) (s : EvalState) : Prop :=
  op1 ≤ lastOpcode → lastOpcode ≤ op16 → s.fExec = true →
    ∃ stack, s.stack = getvch (lastOpcode - (op1 - 1) : Nat) :: stack

theorem castToBigNum_pushed {lastOpcode : Nat} (h1 : op1 ≤ lastOpcode) (h16 : lastOpcode ≤ op16) :
    ∃ bn, castToBigNum (getvch (lastOpcode - (op1 - 1) : Nat)) = .ok bn ∧
      (getint bn).toNat = lastOpcode - (op1 - 1) := by
  have hall : ∀ n < 17, castToBigNum (getvch (n : Nat)) = .ok (n : Int) ∧
      (getint (n : Int)).toNat = n := by
    decide +kernel
  change 81 ≤ lastOpcode at h1
  change lastOpcode ≤ 96 at h16
  obtain ⟨hcast, hint⟩ := hall (lastOpcode - (op1 - 1)) (by show lastOpcode - (81 - 1) < 17; omega)
  exact ⟨_, hcast, hint⟩

theorem ofCode_number {opcode : Nat} (h1 : op1 ≤ opcode) (h16 : opcode ≤ op16) :
    Op.ofCode opcode = some (.pushNumber (opcode - (op1 - 1) : Nat)) := by
  have hall : ∀ n < 97, 81 ≤ n → Op.ofCode n = some (.pushNumber (n - (op1 - 1) : Nat)) := by
    decide +kernel
  exact hall opcode (Nat.lt_succ_of_le h16) h1

theorem ofCode_checkSig {opcode : Nat} {fVerify : Bool}
    (h : Op.ofCode opcode = some (.checkSig fVerify)) :
    opcode = opCheckSig ∨ opcode = opCheckSigVerify := by
  unfold Op.ofCode at h
  split at h
  all_goals try cases h
  · exact .inl rfl
  · exact .inr rfl
  · split at h
    · cases h
    · split at h
      · cases h
      · cases h

theorem ofCode_checkMultiSig {opcode : Nat} {fVerify : Bool}
    (h : Op.ofCode opcode = some (.checkMultiSig fVerify)) :
    opcode = opCheckMultiSig ∨ opcode = opCheckMultiSigVerify := by
  unfold Op.ofCode at h
  split at h
  all_goals try cases h
  · exact .inl rfl
  · exact .inr rfl
  · split at h
    · cases h
    · split at h
      · cases h
      · cases h

/-- The checks of one instruction are the operations it counts for. -/
theorem execOpcode_le (env : EvalEnv) {lastOpcode opcode : Nat} (vch : Valtype) {s : EvalState}
    (h : PushedNumber lastOpcode s) :
    (execOpcode env opcode vch s).1 ≤ CScript.sigOps true lastOpcode opcode := by
  unfold execOpcode
  split
  · exact Nat.zero_le _
  · split
    · next hexec =>
      split
      · exact Nat.zero_le _
      · next op hop =>
        cases op with
        | checkSig fVerify =>
          unfold CScript.sigOps
          rw [if_pos (ofCode_checkSig hop)]
          exact execCheckSig_le env fVerify s
        | checkMultiSig fVerify =>
          have hcode := ofCode_checkMultiSig hop
          obtain ⟨hle, htop⟩ := execCheckMultiSig_le env fVerify s
          unfold CScript.sigOps
          have hnot : ¬ (opcode = opCheckSig ∨ opcode = opCheckSigVerify) := by
            rcases hcode with rfl | rfl
            · decide
            · decide
          rw [if_neg hnot, if_pos hcode]
          split
          · next hlast =>
            have hfExec : s.fExec = true := by
              rcases Bool.or_eq_true_iff.mp hexec with hfExec | hrange
              · exact hfExec
              · rcases hcode with rfl | rfl
                · exact absurd hrange (by decide)
                · exact absurd hrange (by decide)
            obtain ⟨stack, hstack⟩ := h hlast.2.1 hlast.2.2 hfExec
            obtain ⟨bn, hcast, hint⟩ := castToBigNum_pushed hlast.2.1 hlast.2.2
            rw [← hint]
            exact htop _ stack bn hstack hcast
          · exact hle
        | pushNumber | nop | opIf | opElse | endif | opReturn | toAltStack | fromAltStack
          | onStack | codeSeparator => exact Nat.zero_le _
    · exact Nat.zero_le _

/-- A small number that was executed is on top. -/
theorem execOpcode_pushed (env : EvalEnv) {opcode : Nat} (vch : Valtype) {s s' : EvalState}
    (h : (execOpcode env opcode vch s).2 = .ok s') : PushedNumber opcode s' := by
  intro h1 h16 hfExec
  change 81 ≤ opcode at h1
  change opcode ≤ 96 at h16
  unfold execOpcode at h
  have hpush : ¬ opcode ≤ opPushdata4 := by
    show ¬ opcode ≤ 0x4e
    omega
  have hrange : ¬ (opIf ≤ opcode ∧ opcode ≤ opEndif) := by
    show ¬ (0x63 ≤ opcode ∧ _)
    omega
  rw [if_neg (by rw [Bool.and_eq_true, decide_eq_true_eq]; exact fun hand => hpush hand.2)] at h
  split at h
  · next hexec =>
    rw [ofCode_number h1 h16] at h
    cases h
    exact ⟨s.stack, rfl⟩
  · next hexec =>
    cases h
    exact absurd (Bool.or_eq_true_iff.mpr (.inl hfExec)) hexec

/-- No instruction moves `pc`. -/
theorem exec_pc {env : EvalEnv} {op : Op} {s s' : EvalState} (h : (exec env s op).2 = .ok s') :
    s'.pc = s.pc := by
  have hgives : Gives (fun s' => s'.pc = s.pc) (exec env s op).2 := by
    cases op with
    | pushNumber n => exact .pure rfl
    | nop => exact .pure rfl
    | opIf fNot =>
      unfold exec
      dsimp only
      split
      · exact .bind fun _ _ => .bind fun _ _ => .bind fun _ _ => .pure rfl
      · exact .pure rfl
    | opElse =>
      unfold exec
      dsimp only
      split
      · exact .error
      · exact .pure rfl
    | endif =>
      unfold exec
      dsimp only
      split
      · exact .error
      · exact .pure rfl
    | opReturn => exact .error
    | toAltStack => exact .bind fun _ _ => .bind fun _ _ => .bind fun _ _ => .pure rfl
    | fromAltStack => exact .bind fun _ _ => .bind fun _ _ => .bind fun _ _ => .pure rfl
    | onStack op => exact .bind fun _ _ => .pure rfl
    | codeSeparator => exact .pure rfl
    | checkSig fVerify =>
      show Gives _ (execCheckSig env fVerify s).2
      unfold execCheckSig
      dsimp only
      split
      · exact .error
      · exact .bind fun _ _ => .bind fun _ _ => .pure rfl
    | checkMultiSig fVerify =>
      show Gives _ (execCheckMultiSig env fVerify s).2
      unfold execCheckMultiSig
      split
      · exact .error
      · dsimp only
        split
        · exact .error
        · exact .bind fun _ _ => .bind fun _ _ => .bind fun _ _ => .pure rfl
  exact hgives s' h

theorem execOpcode_pc {env : EvalEnv} {opcode : Nat} {vch : Valtype} {s s' : EvalState}
    (h : (execOpcode env opcode vch s).2 = .ok s') : s'.pc = s.pc := by
  unfold execOpcode at h
  split at h
  · cases h
    rfl
  · split at h
    · split at h
      · cases h
      · exact exec_pc h
    · cases h
      rfl

theorem step_checks (env : EvalEnv) {lastOpcode opcode : Nat} {vch : Valtype} {rest : CScript}
    {s : EvalState} (hlimits : Limits s) (h : PushedNumber lastOpcode s)
    (hop : CScript.getOp s.pc = some (opcode, vch, rest)) :
    (step env s).1 ≤ CScript.sigOps true lastOpcode opcode ∧
      ∀ s', (step env s).2 = .ok s' → PushedNumber opcode s' ∧ s'.pc = rest ∧ Limits s' := by
  have hsafe := step_safe env hlimits
  unfold step at hsafe ⊢
  rw [hop] at hsafe ⊢
  dsimp only at hsafe ⊢
  generalize (if op16 < opcode then s.nOpCount + 1 else s.nOpCount) = nOpCount at hsafe ⊢
  split
  · exact ⟨Nat.zero_le _, fun s' hs' => (by cases hs')⟩
  · next hvch =>
    rw [if_neg hvch] at hsafe
    split
    · exact ⟨Nat.zero_le _, fun s' hs' => (by cases hs')⟩
    · next hcount =>
      rw [if_neg hcount] at hsafe
      split
      · exact ⟨Nat.zero_le _, fun s' hs' => (by cases hs')⟩
      · next hdisabled =>
        rw [if_neg hdisabled] at hsafe
        refine ⟨execOpcode_le env vch h, fun s' hs' => ?_⟩
        have hlimits' := (hsafe.of_ok hs').1
        cases hexec : (execOpcode env opcode vch { s with pc := rest, nOpCount := nOpCount }).2 with
        | error e =>
          rw [hexec] at hs'
          cases hs'
        | ok s₁ =>
          rw [hexec] at hs'
          have hsame : s₁ = s' := by
            change sizeLimit s₁ = .ok s' at hs'
            unfold sizeLimit at hs'
            split at hs'
            · cases hs'
            · cases hs'
              rfl
          subst hsame
          exact ⟨execOpcode_pushed env vch hexec, execOpcode_pc hexec, hlimits'⟩

/-- The loop of the interpreter beside the loop of `GetSigOpCount`. -/
theorem evalLoop_checks (env : EvalEnv) (fuel : Nat) {lastOpcode : Nat} {s : EvalState}
    (hlimits : Limits s) (h : PushedNumber lastOpcode s) :
    (evalLoop env fuel s).1 ≤ CScript.sigOpLoop true fuel lastOpcode s.pc := by
  induction fuel generalizing lastOpcode s with
  | zero =>
    unfold evalLoop
    split
    · exact Nat.le_refl 0
    · exact Nat.le_refl 0
  | succ fuel ih =>
    unfold evalLoop
    split
    · exact Nat.zero_le _
    · unfold CScript.sigOpLoop
      cases hop : CScript.getOp s.pc with
      | none =>
        have hstep : step env s = (0, .error .returnFalse) := by
          unfold step
          rw [hop]
        rw [hstep]
      | some item =>
        obtain ⟨opcode, vch, rest⟩ := item
        obtain ⟨hle, hnext⟩ := step_checks env hlimits h hop
        dsimp only
        cases hstep : step env s with
        | mk nChecks result =>
          rw [hstep] at hle hnext
          cases result with
          | error e => exact hle.trans (Nat.le_add_right _ _)
          | ok s' =>
            obtain ⟨hpushed, hpc, hlimits'⟩ := hnext s' rfl
            have hrest := ih hlimits' hpushed
            rw [hpc] at hrest
            exact Nat.add_le_add hle hrest

theorem evalScript_checks_le (env : EvalEnv) {stack : Stack} (h : Small stack) (script : CScript) :
    (evalScript env stack script).1 ≤ script.getSigOpCount true := by
  unfold evalScript
  split
  · exact Nat.zero_le _
  · have hlimits : Limits (start stack script) :=
      ⟨h, fun _ hmem => (by cases hmem), Nat.zero_le _⟩
    have hpushed : PushedNumber opInvalidOpcode (start stack script) :=
      fun _ h16 => absurd h16 (by decide)
    exact evalLoop_checks env script.length hlimits hpushed

/-- The accurate count is at most the other. -/
theorem getSigOpCount_le (script : CScript) :
    script.getSigOpCount true ≤ script.getSigOpCount false := by
  have hops : ∀ lastOpcode opcode,
      CScript.sigOps true lastOpcode opcode ≤ CScript.sigOps false lastOpcode opcode := by
    intro lastOpcode opcode
    unfold CScript.sigOps
    split
    · exact Nat.le_refl 1
    · split
      · rw [if_neg (show ¬ (false = true ∧ op1 ≤ lastOpcode ∧ lastOpcode ≤ op16) from
          fun h => Bool.false_ne_true h.1)]
        split
        · next hlast =>
          have h16 : lastOpcode ≤ 96 := hlast.2.2
          show lastOpcode - (81 - 1) ≤ 20
          omega
        · exact Nat.le_refl 20
      · exact Nat.le_refl 0
  have hloop : ∀ fuel lastOpcode pc,
      CScript.sigOpLoop true fuel lastOpcode pc ≤ CScript.sigOpLoop false fuel lastOpcode pc := by
    intro fuel
    induction fuel with
    | zero => exact fun _ _ => Nat.le_refl 0
    | succ fuel ih =>
      intro lastOpcode pc
      unfold CScript.sigOpLoop
      split
      · exact Nat.le_refl 0
      · exact Nat.add_le_add (hops _ _) (ih _ _)
  exact hloop _ _ _

/-! ## Scripts of pushes -/

/-- The numbers that have an instruction of their own. -/
def SmallNumber (n : Int) : Prop := n = -1 ∨ 1 ≤ n ∧ n ≤ 16

/-- What the scan for the last push finds, against the top of the stack: an instruction for a small
number pushes the number, and the scan takes it for nothing. -/
def Matches (data : Valtype) (stack : Stack) : Prop :=
  (∃ rest, stack = data :: rest) ∨
    data = [] ∧ (stack = [] ∨ ∃ n rest, SmallNumber n ∧ stack = getvch n :: rest)

/-- One push, executed. -/
theorem step_push (env : EvalEnv) {opcode : Nat} {vch : Valtype} {rest : CScript} {s s' : EvalState}
    (hexec : s.vfExec = []) (hop : CScript.getOp s.pc = some (opcode, vch, rest))
    (hpush : opcode ≤ op16) (h : (step env s).2 = .ok s') :
    s'.vfExec = [] ∧ s'.pc = rest ∧ Matches vch s'.stack := by
  have hfExec : ∀ s₁ : EvalState, s₁.vfExec = s.vfExec → s₁.fExec = true := by
    intro s₁ hsame
    unfold EvalState.fExec
    rw [hsame, hexec]
    rfl
  unfold step at h
  rw [hop] at h
  dsimp only at h
  generalize (if op16 < opcode then s.nOpCount + 1 else s.nOpCount) = nOpCount at h
  split at h
  · cases h
  · split at h
    · cases h
    · split at h
      · cases h
      · cases hresult : (execOpcode env opcode vch { s with pc := rest, nOpCount := nOpCount }).2 with
        | error e =>
          rw [hresult] at h
          cases h
        | ok s₁ =>
          rw [hresult] at h
          change sizeLimit s₁ = .ok s' at h
          have hsame : s₁ = s' := by
            unfold sizeLimit at h
            split at h
            · cases h
            · cases h
              rfl
          subst hsame
          unfold execOpcode at hresult
          rw [hfExec { s with pc := rest, nOpCount := nOpCount } rfl, Bool.true_and,
            Bool.true_or] at hresult
          split at hresult
          · cases hresult
            exact ⟨hexec, rfl, .inl ⟨s.stack, rfl⟩⟩
          · next hdata =>
            have hlt : opPushdata4 < opcode := by
              rw [decide_eq_true_eq] at hdata
              exact Nat.lt_of_not_le hdata
            rw [if_pos rfl] at hresult
            have hnumber : opcode = 0x50 ∨ ∃ n, SmallNumber n ∧
                Op.ofCode opcode = some (.pushNumber n) := by
              have hall : ∀ n < 97, 78 < n → n = 0x50 ∨ Op.ofCode n =
                  some (.pushNumber ((n : Int) - 80)) := by
                decide +kernel
              change opcode ≤ 96 at hpush
              change 78 < opcode at hlt
              rcases hall opcode (Nat.lt_succ_of_le hpush) hlt with heq | hcode
              · exact .inl heq
              · by_cases h80 : opcode = 80
                · exact .inl h80
                · refine .inr ⟨_, ?_, hcode⟩
                  unfold SmallNumber
                  omega
            rcases hnumber with rfl | ⟨n, hn, hcode⟩
            · cases hresult
            · rw [hcode] at hresult
              cases hresult
              exact ⟨hexec, rfl, .inr ⟨CScript.getOp_data_nil hop hlt, .inr ⟨n, s.stack, hn, rfl⟩⟩⟩

/-- One round of the scans. -/
theorem isPushOnlyLoop_succ (fuel : Nat) {pc : CScript} (hpc : pc ≠ []) :
    isPushOnlyLoop (fuel + 1) pc =
      match CScript.getOp pc with
      | none => false
      | some (opcode, _, rest) => if op16 < opcode then false else isPushOnlyLoop fuel rest := by
  cases pc with
  | nil => exact absurd rfl hpc
  | cons b pc => rfl

theorem lastPush_succ (fuel : Nat) (data : Valtype) {pc : CScript} (hpc : pc ≠ []) :
    CScript.lastPush (fuel + 1) data pc =
      match CScript.getOp pc with
      | none => none
      | some (opcode, vch, rest) =>
        if op16 < opcode then none else CScript.lastPush fuel vch rest := by
  cases pc with
  | nil => exact absurd rfl hpc
  | cons b pc => rfl

/-- A script of pushes leaves on top what the scan finds in it. -/
theorem evalLoop_pushOnly (env : EvalEnv) (fuel : Nat) {data : Valtype} {s s' : EvalState}
    (hexec : s.vfExec = []) (hmatch : Matches data s.stack)
    (hpush : isPushOnlyLoop fuel s.pc = true) (h : (evalLoop env fuel s).2 = .ok s') :
    ∃ data', CScript.lastPush fuel data s.pc = some data' ∧ Matches data' s'.stack := by
  induction fuel generalizing data s with
  | zero =>
    unfold evalLoop at h
    split at h
    · cases h
      exact ⟨data, rfl, hmatch⟩
    · cases h
  | succ fuel ih =>
    unfold evalLoop at h
    split at h
    · next hpc =>
      cases h
      rw [hpc]
      exact ⟨data, rfl, hmatch⟩
    · next hpc =>
      dsimp only at h
      rw [isPushOnlyLoop_succ fuel hpc] at hpush
      rw [lastPush_succ fuel data hpc]
      cases hop : CScript.getOp s.pc with
      | none =>
        have hstep : step env s = (0, .error .returnFalse) := by
          unfold step
          rw [hop]
        rw [hstep] at h
        cases h
      | some item =>
        obtain ⟨opcode, vch, rest⟩ := item
        rw [hop] at hpush
        dsimp only at hpush ⊢
        split at hpush
        · cases hpush
        · next hle =>
          rw [if_neg hle]
          cases hstep : step env s with
          | mk nChecks result =>
            rw [hstep] at h
            cases result with
            | error e => cases h
            | ok s₁ =>
              obtain ⟨hexec₁, hpc₁, hmatch₁⟩ := step_push env hexec hop (Nat.le_of_not_lt hle)
                (show (step env s).2 = .ok s₁ by rw [hstep])
              rw [← hpc₁]
              rw [← hpc₁] at hpush
              exact ih hexec₁ hmatch₁ hpush h

theorem evalScript_pushOnly (env : EvalEnv) {scriptSig : CScript} {stack : Stack} {nChecks : Nat}
    (hpush : isPushOnly scriptSig = true) (h : evalScript env [] scriptSig = (nChecks, .ok stack)) :
    ∃ data, CScript.lastPush scriptSig.length [] scriptSig = some data ∧ Matches data stack := by
  have hresult : (evalScript env [] scriptSig).2 = .ok stack := by rw [h]
  unfold evalScript at hresult
  split at hresult
  · cases hresult
  · dsimp only at hresult
    cases hloop : (evalLoop env scriptSig.length (start [] scriptSig)).2 with
    | error e =>
      rw [hloop] at hresult
      cases hresult
    | ok s =>
      rw [hloop] at hresult
      have hstack : s.stack = stack := by
        dsimp only [bind, Except.bind] at hresult
        split at hresult
        · cases hresult
        · cases hresult
          rfl
      rw [← hstack]
      exact evalLoop_pushOnly env scriptSig.length (s := start [] scriptSig) rfl
        (.inr ⟨rfl, .inl rfl⟩) hpush hloop

/-- A small number is no script: it stands for a push of bytes that are missing, or for an
instruction that is refused. -/
theorem evalScript_smallNumber (env : EvalEnv) (stack : Stack) {n : Int} (h : SmallNumber n) :
    evalScript env stack (getvch n) = (0, .error .returnFalse) := by
  have hstep : ∃ b, getvch n = [b] ∧
      step env (start stack [b]) = (0, .error .returnFalse) := by
    rcases h with rfl | ⟨h1, h16⟩
    · refine ⟨0x81, by decide +kernel, rfl⟩
    · have hall : ∀ k < 17, 1 ≤ k → getvch (k : Nat) = [UInt8.ofNat k] ∧
          CScript.getOp [UInt8.ofNat k] = none := by
        decide +kernel
      obtain ⟨hbytes, hop⟩ := hall n.toNat (by omega) (by omega)
      refine ⟨UInt8.ofNat n.toNat, ?_, ?_⟩
      · rw [← hbytes, Int.toNat_of_nonneg (by omega)]
      · unfold step
        rw [show (start stack [UInt8.ofNat n.toNat]).pc = [UInt8.ofNat n.toNat] from rfl, hop]
  obtain ⟨b, hbytes, hb⟩ := hstep
  rw [hbytes]
  have hshort : ¬ maxScriptSize < [b].length := by
    show ¬ 10000 < 1
    decide
  unfold evalScript evalLoop
  rw [if_neg hshort, if_neg (show (start stack [b]).pc ≠ [] from List.cons_ne_nil _ _)]
  dsimp only [List.length_singleton]
  rw [hb]
  rfl

/-! ## The scripts of an input -/

/-- Every script `VerifyScript` evaluates makes no more checks than it counts operations. -/
theorem verifyScript_checks (env : EvalEnv) (scriptSig scriptPubKey : CScript) :
    ∀ item ∈ (verifyScript env scriptSig scriptPubKey).1, item.2 ≤ item.1.getSigOpCount true := by
  have hnil : Small [] := fun _ hmem => (by cases hmem)
  have h₁ := evalScript_checks_le env hnil scriptSig
  have hsafe₁ := evalScript_safe env hnil scriptSig
  unfold verifyScript
  split
  · next n₁ e he =>
    rw [he] at h₁
    exact List.forall_mem_cons.mpr ⟨h₁, fun _ hmem => (by cases hmem)⟩
  · next n₁ stack he =>
    rw [he] at h₁ hsafe₁
    have h₂ := evalScript_checks_le env hsafe₁ scriptPubKey
    have hboth : ∀ n₂, n₂ ≤ scriptPubKey.getSigOpCount true →
        ∀ item ∈ [(scriptSig, n₁), (scriptPubKey, n₂)], item.2 ≤ item.1.getSigOpCount true :=
      fun n₂ hn₂ => List.forall_mem_cons.mpr ⟨h₁, List.forall_mem_cons.mpr
        ⟨hn₂, fun _ hmem => (by cases hmem)⟩⟩
    split
    · next n₂ e he₂ =>
      rw [he₂] at h₂
      exact hboth n₂ h₂
    · next n₂ stack₂ he₂ =>
      rw [he₂] at h₂
      split
      · exact hboth n₂ h₂
      · split
        · split
          · cases stack with
            | nil => exact hboth n₂ h₂
            | cons pubKey2 stackCopy =>
              have h₃ := evalScript_checks_le env (List.forall_mem_cons.mp hsafe₁).2 pubKey2
              exact List.forall_mem_cons.mpr ⟨h₁, List.forall_mem_cons.mpr ⟨h₂,
                List.forall_mem_cons.mpr ⟨h₃, fun _ hmem => (by cases hmem)⟩⟩⟩
          · exact hboth n₂ h₂
        · exact hboth n₂ h₂

/-- The script that is counted for a script hash is the redeem script, but for a script that ends
with a small number: then nothing is counted, and the evaluation fails without a check. -/
theorem verifyScript_redeem (env : EvalEnv) {scriptSig scriptPubKey redeem : CScript} {n₃ : Nat}
    {first second : CScript × Nat}
    (h : (verifyScript env scriptSig scriptPubKey).1 = [first, second, (redeem, n₃)]) :
    scriptPubKey.isPayToScriptHash = true ∧ isPushOnly scriptSig = true ∧
      (CScript.lastPush scriptSig.length [] scriptSig = some redeem ∨
        CScript.lastPush scriptSig.length [] scriptSig = some [] ∧ n₃ = 0 ∧
          (verifyScript env scriptSig scriptPubKey).2 = .error .returnFalse) := by
  unfold verifyScript at h ⊢
  split at h
  · cases h
  · next n₁ stack he =>
    split at h
    · cases h
    · next n₂ stack₂ he₂ =>
      split at h
      · cases h
      · next htop =>
        split at h
        · next hhash =>
          split at h
          · next hpush =>
            rw [if_pos hhash, if_pos hpush]
            obtain ⟨data, hdata, hmatch⟩ := evalScript_pushOnly env hpush he
            cases stack with
            | nil => cases h
            | cons pubKey2 stackCopy =>
              obtain ⟨-, h⟩ := List.cons.inj h
              obtain ⟨-, h⟩ := List.cons.inj h
              obtain ⟨hitem, -⟩ := List.cons.inj h
              cases hitem
              refine ⟨hhash, hpush, ?_⟩
              rcases hmatch with ⟨rest, hstack⟩ | ⟨rfl, hnone | ⟨n, rest, hn, hstack⟩⟩
              · cases hstack
                exact .inl hdata
              · cases hnone
              · cases hstack
                refine .inr ⟨hdata, ?_, ?_⟩
                · rw [evalScript_smallNumber env stackCopy hn]
                · dsimp only
                  rw [evalScript_smallNumber env stackCopy hn]
                  rfl
          · cases h
        · cases h

end Interpreter

end NoLimitCoin
