import NoLimitCoin.Interpreter

/-!
# Running scripts instruction by instruction

Scripts without conditionals are run one instruction after another: `Runs` is the loop with
enough fuel, and there is one rule for a list of pushes and one for each instruction that the
standard scripts use.

Results:

1. `Pushes.evalScript`: a script of pushes leaves what it pushes.
2. `Pushes.overflows`: pushes that do not fit on the stack end the evaluation.
3. `findAndDelete_eq_self`: a script that is nowhere continued by the deleted one stays as it is.
-/

namespace NoLimitCoin

namespace Interpreter

variable {env : EvalEnv} {s s' : EvalState} {r : Except Fault EvalState} {opcode : Nat}
  {vch : Valtype} {rest : CScript}

/-! ## The loop with enough fuel -/

/-- The loop from `s` ends with `r`. -/
def Runs (env : EvalEnv) (s : EvalState) (r : Except Fault EvalState) : Prop :=
  ∀ fuel, s.pc.length ≤ fuel → (evalLoop env fuel s).2 = r

namespace Runs

theorem done (h : s.pc = []) : Runs env s (.ok s) := by
  intro fuel _
  unfold evalLoop
  rw [if_pos h]

theorem step (hlt : s'.pc.length < s.pc.length) (hstep : (step env s).2 = .ok s')
    (h : Runs env s' r) : Runs env s r := by
  intro fuel hfuel
  have hpc : s.pc ≠ [] := List.ne_nil_of_length_pos (Nat.zero_lt_of_lt hlt)
  cases fuel with
  | zero => exact absurd (hlt.trans_le hfuel) (Nat.not_lt_zero _)
  | succ fuel =>
    have hnext := h fuel (Nat.le_of_lt_succ (hlt.trans_le hfuel))
    rw [evalLoop, if_neg hpc]
    dsimp only
    generalize Interpreter.step env s = result at hstep
    obtain ⟨n, result⟩ := result
    dsimp only at hstep
    subst hstep
    exact hnext

theorem error {e : Fault} (hpc : s.pc ≠ []) (hstep : (Interpreter.step env s).2 = .error e) :
    Runs env s (.error e) := by
  intro fuel hfuel
  cases fuel with
  | zero => exact absurd (List.eq_nil_of_length_eq_zero (Nat.le_zero.mp hfuel)) hpc
  | succ fuel =>
    rw [evalLoop, if_neg hpc]
    dsimp only
    generalize Interpreter.step env s = result at hstep
    obtain ⟨n, result⟩ := result
    dsimp only at hstep
    subst hstep
    rfl

end Runs

theorem evalScript_of_runs {stack : Stack} {script : CScript}
    (hsize : script.length ≤ maxScriptSize) (h : Runs env (start stack script) r) :
    (evalScript env stack script).2 =
      r.bind fun s => if s.vfExec ≠ [] then .error .returnFalse else .ok s.stack := by
  rw [evalScript, if_neg (Nat.not_lt.mpr hsize)]
  have hloop := h script.length (le_refl _)
  show (Except.bind (evalLoop env script.length (start stack script)).2 _) = _
  rw [hloop]
  rfl

/-! ## Single instructions -/

theorem step_pushValue_eq (hop : CScript.getOp s.pc = some (opcode, vch, rest))
    (hcode : opcode ≤ opPushdata4) (hlen : vch.length ≤ maxScriptElementSize)
    (hexec : s.vfExec = []) :
    (step env s).2 = sizeLimit { s with stack := vch :: s.stack, pc := rest } := by
  have hle : ¬ op16 < opcode := by unfold op16 opPushdata4 at *; omega
  have hdisabled : isDisabled opcode = false := by
    unfold isDisabled
    rw [decide_eq_false_iff_not]
    intro hmem
    simp only [List.mem_cons, List.not_mem_nil, or_false] at hmem
    unfold opPushdata4 at hcode
    omega
  have hall : (EvalState.fExec { s with pc := rest }) = true := by
    rw [EvalState.fExec, hexec]
    rfl
  unfold Interpreter.step
  rw [hop]
  dsimp only
  rw [if_neg hle, if_neg (Nat.not_lt.mpr hlen), if_neg (fun hand => hle hand.1), hdisabled]
  rw [if_neg (by decide), execOpcode, if_pos (by rw [hall, decide_eq_true hcode]; rfl)]
  rfl

theorem step_pushValue (hop : CScript.getOp s.pc = some (opcode, vch, rest))
    (hcode : opcode ≤ opPushdata4) (hlen : vch.length ≤ maxScriptElementSize)
    (hexec : s.vfExec = []) (hstack : s.stack.length + s.altstack.length < maxStackSize) :
    (step env s).2 = .ok { s with stack := vch :: s.stack, pc := rest } := by
  have hfull : ¬ (vch :: s.stack).length + s.altstack.length > maxStackSize := by
    rw [List.length_cons]
    omega
  rw [step_pushValue_eq hop hcode hlen hexec, sizeLimit, if_neg hfull]

/-- The instructions after the pushes. -/
theorem step_op {op : Op} (hop : CScript.getOp s.pc = some (opcode, [], rest))
    (hcode : op16 < opcode) (hcount : s.nOpCount + 1 ≤ maxOpCount)
    (hdisabled : isDisabled opcode = false) (hof : Op.ofCode opcode = some op)
    (hexec : s.vfExec = []) :
    (step env s).2 =
      (exec env { s with pc := rest, nOpCount := s.nOpCount + 1 } op).2.bind sizeLimit := by
  have hall : (EvalState.fExec { s with pc := rest, nOpCount := s.nOpCount + 1 }) = true := by
    rw [EvalState.fExec, hexec]
    rfl
  have hpush : ¬ opcode ≤ opPushdata4 := by unfold op16 opPushdata4 at *; omega
  have hlen : ¬ maxScriptElementSize < ([] : Valtype).length := Nat.not_lt_zero _
  unfold Interpreter.step
  rw [hop]
  dsimp only
  rw [if_pos hcode, if_neg hlen, if_neg (fun hand => Nat.not_lt.mpr hcount hand.2),
    hdisabled, if_neg (by decide), execOpcode, hall, decide_eq_false hpush]
  rw [if_neg (by decide), if_pos (by rfl), hof]

/-- `OP_1` to `OP_16`. -/
theorem step_pushNumber_eq {n : Nat} (hop : CScript.getOp s.pc = some (op1 - 1 + n, [], rest))
    (hpos : 1 ≤ n) (hle : n ≤ 16) (hexec : s.vfExec = []) :
    (step env s).2 = sizeLimit { s with stack := getvch n :: s.stack, pc := rest } := by
  have hcode : ¬ op16 < op1 - 1 + n := by unfold op16 op1; omega
  have hpush : ¬ op1 - 1 + n ≤ opPushdata4 := by unfold op1 opPushdata4; omega
  have hdisabled : isDisabled (op1 - 1 + n) = false := by interval_cases n <;> rfl
  have hof : Op.ofCode (op1 - 1 + n) = some (.pushNumber n) := by interval_cases n <;> rfl
  have hall : (EvalState.fExec { s with pc := rest }) = true := by
    rw [EvalState.fExec, hexec]
    rfl
  have hlen : ¬ maxScriptElementSize < ([] : Valtype).length := Nat.not_lt_zero _
  unfold Interpreter.step
  rw [hop]
  dsimp only
  rw [if_neg hcode, if_neg hlen, if_neg (fun hand => hcode hand.1), hdisabled,
    if_neg (by decide), execOpcode, hall, decide_eq_false hpush]
  rw [if_neg (by decide), if_pos (by rfl), hof]
  rfl

theorem step_pushNumber {n : Nat} (hop : CScript.getOp s.pc = some (op1 - 1 + n, [], rest))
    (hpos : 1 ≤ n) (hle : n ≤ 16) (hexec : s.vfExec = [])
    (hstack : s.stack.length + s.altstack.length < maxStackSize) :
    (step env s).2 = .ok { s with stack := getvch n :: s.stack, pc := rest } := by
  have hfull : ¬ (getvch n :: s.stack).length + s.altstack.length > maxStackSize := by
    rw [List.length_cons]
    omega
  rw [step_pushNumber_eq hop hpos hle hexec, sizeLimit, if_neg hfull]

/-! ## Pushes -/

/-- From `pc` on the script pushes values, and `pc'` is left. -/
inductive Pushes : CScript → List Valtype → CScript → Prop where
  | nil (pc : CScript) : Pushes pc [] pc
  | cons {pc rest pc' : CScript} {opcode : Nat} {vch : Valtype} {values : List Valtype}
      (hop : CScript.getOp pc = some (opcode, vch, rest)) (hcode : opcode ≤ opPushdata4)
      (h : Pushes rest values pc') : Pushes pc (vch :: values) pc'

namespace Pushes

variable {pc pc' pc'' : CScript} {values values' : List Valtype}

theorem runs (h : Pushes pc values pc') (hlen : ∀ vch ∈ values, vch.length ≤ maxScriptElementSize)
    (hpc : s.pc = pc) (hexec : s.vfExec = [])
    (hstack : s.stack.length + s.altstack.length + values.length ≤ maxStackSize)
    (hrun : Runs env { s with stack := values.reverse ++ s.stack, pc := pc' } r) :
    Runs env s r := by
  induction h generalizing s with
  | nil pc =>
    subst hpc
    exact hrun
  | @cons pc rest pc' opcode vch values hop hcode _ ih =>
    subst hpc
    rw [List.length_cons] at hstack
    refine Runs.step (CScript.length_getOp hop)
      (step_pushValue hop hcode (hlen vch List.mem_cons_self) hexec (by omega)) ?_
    refine ih (fun v hv => hlen v (List.mem_cons_of_mem _ hv)) rfl hexec ?_ ?_
    · show (vch :: s.stack).length + s.altstack.length + values.length ≤ maxStackSize
      rw [List.length_cons]
      omega
    · rw [List.reverse_cons, List.append_assoc] at hrun
      exact hrun

/-- A push takes at most five bytes besides its data. -/
theorem le_length (h : Pushes pc values pc') {n : Nat} (hlen : ∀ vch ∈ values, vch.length ≤ n) :
    pc.length ≤ pc'.length + values.length * (n + 5) := by
  induction h with
  | nil => exact Nat.le_add_right _ _
  | @cons pc rest pc' opcode vch values hop hcode _ ih =>
    obtain ⟨hvch, hrest⟩ := List.forall_mem_cons.mp hlen
    have hle := CScript.le_length_getOp hop
    have hmore := ih hrest
    rw [List.length_cons, Nat.succ_mul]
    omega

/-- Pushes that do not fit on the stack. -/
theorem overflows (h : Pushes pc values pc')
    (hlen : ∀ vch ∈ values, vch.length ≤ maxScriptElementSize) (hpc : s.pc = pc)
    (hexec : s.vfExec = []) (hfits : s.stack.length + s.altstack.length ≤ maxStackSize)
    (hover : maxStackSize < s.stack.length + s.altstack.length + values.length) :
    Runs env s (.error .returnFalse) := by
  induction h generalizing s with
  | nil pc => exact absurd hover (Nat.not_lt.mpr hfits)
  | @cons pc rest pc' opcode vch values hop hcode _ ih =>
    subst hpc
    have hlt := CScript.length_getOp hop
    have hstep := @step_pushValue_eq env s opcode vch rest hop hcode (hlen vch List.mem_cons_self)
      hexec
    rw [List.length_cons] at hover
    by_cases hfull : (vch :: s.stack).length + s.altstack.length > maxStackSize
    · rw [sizeLimit, if_pos hfull] at hstep
      exact Runs.error (List.ne_nil_of_length_pos (Nat.zero_lt_of_lt hlt)) hstep
    · rw [sizeLimit, if_neg hfull] at hstep
      refine Runs.step hlt hstep (ih (fun v hv => hlen v (List.mem_cons_of_mem _ hv)) rfl hexec
        (Nat.not_lt.mp hfull) ?_)
      show maxStackSize < (vch :: s.stack).length + s.altstack.length + values.length
      rw [List.length_cons]
      omega

theorem isPushOnly (h : Pushes pc values []) : isPushOnly pc = true := by
  have hloop : ∀ fuel, pc.length ≤ fuel → isPushOnlyLoop fuel pc = true := by
    generalize hend : ([] : CScript) = pc' at h
    induction h with
    | nil =>
      subst hend
      intro fuel _
      cases fuel <;> rfl
    | @cons pc rest pc' opcode vch values hop hcode _ ih =>
      intro fuel hfuel
      have hlt := CScript.length_getOp hop
      cases pc with
      | nil => exact absurd hlt (Nat.not_lt_zero _)
      | cons b pc =>
        cases fuel with
        | zero => exact absurd hfuel (Nat.not_succ_le_zero _)
        | succ fuel =>
          rw [isPushOnlyLoop, hop]
          · dsimp only
            have hle : ¬ op16 < opcode := by unfold op16 opPushdata4 at *; omega
            rw [if_neg hle]
            exact ih hend fuel (Nat.le_of_lt_succ (hlt.trans_le hfuel))
          · exact List.cons_ne_nil b pc
  exact hloop _ (le_refl _)

/-- A script of pushes leaves what it pushes. -/
theorem evalScript (h : Pushes pc values []) (hsize : pc.length ≤ maxScriptSize)
    (hlen : ∀ vch ∈ values, vch.length ≤ maxScriptElementSize)
    (hcount : values.length ≤ maxStackSize) :
    (evalScript env [] pc).2 = .ok values.reverse := by
  have hruns : Runs env (start [] pc) (.ok { start [] pc with stack := values.reverse, pc := [] }) := by
    refine h.runs hlen rfl rfl (by simpa [start] using hcount) ?_
    simp only [start, List.append_nil]
    exact Runs.done rfl
  rw [evalScript_of_runs hsize hruns]
  rfl

end Pushes

/-- `PushAll`. -/
def pushAll (values : List Valtype) : CScript := values.flatMap pushOf

/-- The instruction that pushes a value. -/
def pushCode (vch : Valtype) : Nat :=
  if vch.length < opPushdata1 then vch.length
  else if vch.length ≤ 0xff then opPushdata1
  else if vch.length ≤ 0xffff then opPushdata2
  else opPushdata4

theorem getOp_pushdata4 {a b c d : UInt8} {vch : Valtype} (rest : CScript)
    (h : ofLeBytes [a, b, c, d] = vch.length) :
    CScript.getOp (0x4e :: a :: b :: c :: d :: (vch ++ rest)) = some (opPushdata4, vch, rest) := by
  have hdata : CScript.getOp (0x4e :: a :: b :: c :: d :: (vch ++ rest)) =
      (if (vch ++ rest).length < ofLeBytes [a, b, c, d] then none
        else some ((vch ++ rest).take (ofLeBytes [a, b, c, d]),
          (vch ++ rest).drop (ofLeBytes [a, b, c, d]))).map
        fun (vch, rest) => (opPushdata4, vch, rest) := rfl
  rw [hdata, h, if_neg (by rw [List.length_append]; omega), List.take_left' rfl,
    List.drop_left' rfl]
  rfl

theorem pushCode_le (vch : Valtype) : pushCode vch ≤ opPushdata4 := by
  unfold pushCode opPushdata1 opPushdata2 opPushdata4
  split
  · omega
  split
  · omega
  split
  · omega
  · omega

/-- A push is read back with its value. -/
theorem getOp_pushOf_append {vch : Valtype} (h : vch.length < 2 ^ 32) (rest : CScript) :
    CScript.getOp (pushOf vch ++ rest) = some (pushCode vch, vch, rest) := by
  unfold pushOf pushCode
  split
  · next hlt =>
    have hbyte : (UInt8.ofNat vch.length).toNat = vch.length := by
      rw [UInt8.toNat_ofNat']
      exact Nat.mod_eq_of_lt (by unfold opPushdata1 at hlt; omega)
    rw [List.cons_append, CScript.getOp]
    dsimp only
    rw [hbyte, if_pos hlt, if_neg (by rw [List.length_append]; omega), List.take_left' rfl,
      List.drop_left' rfl]
  split
  · next hle => exact CScript.getOp_pushdata1 rest hle
  split
  · next hle => exact CScript.getOp_pushdata2 rest hle
  · refine getOp_pushdata4 rest ?_
    simp only [ofLeBytes, UInt8.toNat_ofNat']
    omega

theorem getOp_pushOf {vch : Valtype} (h : vch.length ≤ 0xffff) (rest : CScript) :
    ∃ opcode, opcode ≤ opPushdata4 ∧
      CScript.getOp (pushOf vch ++ rest) = some (opcode, vch, rest) :=
  ⟨pushCode vch, pushCode_le vch, getOp_pushOf_append (h.trans_lt (by decide)) rest⟩

theorem pushes_pushAll {values : List Valtype} (h : ∀ vch ∈ values, vch.length ≤ 0xffff)
    (rest : CScript) : Pushes (pushAll values ++ rest) values rest := by
  induction values with
  | nil => exact .nil rest
  | cons vch values ih =>
    obtain ⟨opcode, hcode, hop⟩ :=
      getOp_pushOf (h vch List.mem_cons_self) (pushAll values ++ rest)
    rw [pushAll, List.flatMap_cons, List.append_assoc]
    exact .cons hop hcode (ih fun v hv => h v (List.mem_cons_of_mem _ hv))

/-! ## Scripts that lose nothing -/

/-- The instructions of a script, with the data they push. -/
inductive Parsed : CScript → List (Nat × Valtype) → Prop where
  | nil : Parsed [] []
  | cons {pc rest : CScript} {opcode : Nat} {vch : Valtype} {ops : List (Nat × Valtype)}
      (hop : CScript.getOp pc = some (opcode, vch, rest)) (h : Parsed rest ops) :
      Parsed pc ((opcode, vch) :: ops)

theorem Pushes.parsed {pc pc' : CScript} {values : List Valtype} {ops : List (Nat × Valtype)}
    (h : Pushes pc values pc') (hops : Parsed pc' ops) :
    ∃ pushes : List (Nat × Valtype), pushes.map Prod.snd = values ∧ Parsed pc (pushes ++ ops) := by
  induction h with
  | nil => exact ⟨[], rfl, hops⟩
  | @cons _ _ _ opcode vch values hop hcode _ ih =>
    obtain ⟨pushes, hmap, hparsed⟩ := ih hops
    exact ⟨(opcode, vch) :: pushes, by rw [List.map_cons, hmap], .cons hop hparsed⟩

theorem eraseCopies_eq_self {b : CScript} {pc : CScript} (h : ¬ b <+: pc) (fuel : Nat) :
    eraseCopies b fuel pc = pc := by
  cases fuel with
  | zero => rfl
  | succ fuel => rw [eraseCopies, if_neg (fun hprefix => h (List.isPrefixOf_iff_prefix.mp hprefix))]

/-- What stands at no instruction is not deleted. -/
theorem findAndDeleteLoop_eq_self {pc : CScript} {ops : List (Nat × Valtype)} {vch : Valtype}
    (hparsed : Parsed pc ops) (hlen : vch.length < opPushdata1) (h : (vch.length, vch) ∉ ops)
    (fuel : Nat) : findAndDeleteLoop (pushOf vch) fuel pc = pc := by
  have hhead : ∀ {pc : CScript} {ops : List (Nat × Valtype)}, Parsed pc ops →
      (vch.length, vch) ∉ ops → ¬ pushOf vch <+: pc := by
    rintro pc ops hparsed hnot ⟨rest', rfl⟩
    have hop : CScript.getOp (pushOf vch ++ rest') = some (vch.length, vch, rest') := by
      have hbyte : (UInt8.ofNat vch.length).toNat = vch.length := by
        rw [UInt8.toNat_ofNat']
        exact Nat.mod_eq_of_lt (by unfold opPushdata1 at hlen; omega)
      rw [pushOf, if_pos hlen, List.cons_append, CScript.getOp]
      dsimp only
      rw [hbyte, if_pos hlen, if_neg (by rw [List.length_append]; omega), List.take_left',
        List.drop_left'] <;> rfl
    generalize pushOf vch ++ rest' = pc at hop hparsed
    cases hparsed with
    | nil => exact absurd hop (by simp [CScript.getOp])
    | cons hop' _ =>
      rw [hop', Option.some.injEq, Prod.mk.injEq, Prod.mk.injEq] at hop
      obtain ⟨rfl, rfl, -⟩ := hop
      exact hnot List.mem_cons_self
  induction hparsed generalizing fuel with
  | nil =>
    cases fuel with
    | zero => rfl
    | succ fuel =>
      rw [findAndDeleteLoop, eraseCopies_eq_self (hhead .nil h)]
      rfl
  | @cons pc rest opcode vch' ops hop hrest ih =>
    cases fuel with
    | zero => rfl
    | succ fuel =>
      rw [findAndDeleteLoop, eraseCopies_eq_self (hhead (.cons hop hrest) h), hop]
      dsimp only
      rw [ih (fun hmem => h (List.mem_cons_of_mem _ hmem)) fuel]
      obtain ⟨front, rfl⟩ := CScript.getOp_suffix hop
      rw [List.length_append, Nat.add_sub_cancel, List.take_left']
      rfl

theorem findAndDelete_eq_self {script : CScript} {ops : List (Nat × Valtype)} {vch : Valtype}
    (hparsed : Parsed script ops) (hlen : vch.length < opPushdata1)
    (h : (vch.length, vch) ∉ ops) : findAndDelete script (pushOf vch) = script := by
  unfold findAndDelete
  split
  · rfl
  · exact findAndDeleteLoop_eq_self hparsed hlen h _

end Interpreter

end NoLimitCoin
