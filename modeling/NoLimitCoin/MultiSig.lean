import NoLimitCoin.ScriptRuns

/-!
# Evaluating m-of-n scripts

`OP_CHECKMULTISIG` walks through the signatures and the keys from the top of the stack and
never goes back.  That finds an assignment whenever there is one, and the script ends with the
verdict.

Results:

1. `matchSigs_iff`: walking forward succeeds exactly when the signatures verify for some of the
   keys, in their order.
2. `MultiSigScript.evalScript`: the script compares the topmost elements with its keys.
-/

namespace NoLimitCoin

namespace Interpreter

/-! ## Walking through signatures and keys -/

section walk

variable {ok : Valtype → Valtype → Bool}

/-- The signatures and the keys in the order in which they are tried. -/
def matchSigs (ok : Valtype → Valtype → Bool) : (keys sigs : List Valtype) → Bool
  | _, [] => true
  | [], _ :: _ => false
  | key :: keys, sig :: sigs =>
    if ok sig key then matchSigs ok keys sigs else matchSigs ok keys (sig :: sigs)

theorem matchSigs_of_length_lt {keys sigs : List Valtype} (h : keys.length < sigs.length) :
    matchSigs ok keys sigs = false := by
  induction keys generalizing sigs with
  | nil =>
    cases sigs with
    | nil => exact absurd h (Nat.lt_irrefl _)
    | cons sig sigs => rfl
  | cons key keys ih =>
    cases sigs with
    | nil => exact absurd h (Nat.not_lt_zero _)
    | cons sig sigs =>
      rw [matchSigs]
      split
      · exact ih (Nat.lt_of_succ_lt_succ h)
      · exact ih (Nat.lt_of_succ_lt h)

theorem matchSigs_iff {keys sigs : List Valtype} :
    matchSigs ok keys sigs = true ↔
      ∃ used, used.Sublist keys ∧ List.Forall₂ (fun sig key => ok sig key = true) sigs used := by
  constructor
  · intro h
    induction keys generalizing sigs with
    | nil =>
      cases sigs with
      | nil => exact ⟨[], .slnil, .nil⟩
      | cons sig sigs => exact absurd h (by rw [matchSigs]; decide)
    | cons key keys ih =>
      cases sigs with
      | nil => exact ⟨[], List.nil_sublist _, .nil⟩
      | cons sig sigs =>
        rw [matchSigs] at h
        split at h
        · next hok =>
          obtain ⟨used, hsub, hall⟩ := ih h
          exact ⟨key :: used, hsub.cons_cons key, .cons hok hall⟩
        · obtain ⟨used, hsub, hall⟩ := ih h
          exact ⟨used, hsub.cons key, hall⟩
  · rintro ⟨used, hsub, hall⟩
    induction keys generalizing sigs used with
    | nil =>
      rw [List.sublist_nil.mp hsub] at hall
      cases hall
      rfl
    | cons key keys ih =>
      cases hall with
      | nil => rfl
      | @cons sig key' sigs used hok hrest =>
        rw [matchSigs]
        split
        · -- the first key that fits is as good as the one that is used
          exact ih used hsub.tail hrest
        · next hno =>
          cases hsub with
          | cons _ hsub => exact ih (key' :: used) hsub (.cons hok hrest)
          | cons_cons _ hsub => exact absurd hok hno

end walk

/-! ## `OP_CHECKMULTISIG` -/

variable {env : EvalEnv} {s : EvalState}

theorem stacktop_of_prefix {stack : Stack} {i : Nat} {vch : Valtype} {values : List Valtype}
    (hpos : 1 ≤ i) (h : vch :: values <+: stack.drop (i - 1)) :
    stacktop stack i = .ok vch ∧ values <+: stack.drop (i + 1 - 1) := by
  obtain ⟨rest, hrest⟩ := h
  have hget : stack[i - 1]? = some vch := by
    have hzero := congrArg (·[0]?) hrest
    simpa using hzero.symm
  refine ⟨?_, rest, ?_⟩
  · rw [stacktop, hget]
    exact if_neg (by omega)
  · have htail := congrArg List.tail hrest
    rw [List.tail_drop] at htail
    rw [show i + 1 - 1 = i - 1 + 1 by omega, ← htail]
    rfl

/-- The loop sees the signatures and the keys as two lists. -/
theorem checkMultiSigLoop_eq {stack : Stack} {scriptCode : CScript} {keys sigs : List Valtype}
    {isig ikey : Nat} (hle : sigs.length ≤ keys.length) (hisig : 1 ≤ isig) (hikey : 1 ≤ ikey)
    (hsigs : sigs <+: stack.drop (isig - 1)) (hkeys : keys <+: stack.drop (ikey - 1)) :
    (checkMultiSigLoop env stack scriptCode keys.length sigs.length isig ikey).2 =
      .ok (matchSigs (fun sig key => (checkOne env sig key scriptCode).2) keys sigs) := by
  induction keys generalizing sigs isig ikey with
  | nil =>
    rw [List.eq_nil_of_length_eq_zero (Nat.le_zero.mp hle)]
    rfl
  | cons key keys ih =>
    cases sigs with
    | nil => rfl
    | cons sig sigs =>
      obtain ⟨hsig, hsigs'⟩ := stacktop_of_prefix hisig hsigs
      obtain ⟨hkey, hkeys'⟩ := stacktop_of_prefix hikey hkeys
      rw [List.length_cons, List.length_cons, checkMultiSigLoop, hsig, hkey, matchSigs]
      dsimp only
      rw [List.length_cons, List.length_cons] at hle
      cases hok : (checkOne env sig key scriptCode).2 with
      | true =>
        simp only [if_true]
        rw [if_neg (by omega)]
        exact ih (Nat.le_of_succ_le_succ hle) (by omega) (by omega) hsigs' hkeys'
      | false =>
        simp only [Bool.false_eq_true, if_false]
        split
        · next hlt => rw [matchSigs_of_length_lt (by rw [List.length_cons]; exact hlt)]
        · next hlt =>
          have hrest : (sig :: sigs).length ≤ keys.length := by
            rw [List.length_cons]
            omega
          exact ih hrest hisig (by omega) hsigs hkeys'

theorem castToBigNum_getvch {n : Nat} (h : n ≤ 16) : castToBigNum (getvch n) = .ok n := by
  interval_cases n <;> decide +kernel

theorem stacktop_append {front rest : Stack} {vch : Valtype} :
    stacktop (front ++ vch :: rest) (front.length + 1) = .ok vch := by
  rw [stacktop, Nat.add_sub_cancel, List.getElem?_append_right (le_refl _), Nat.sub_self]
  exact if_neg (Nat.succ_ne_zero _)

/-- The numbers on the stack are those of the script. -/
theorem multiSigCounts_eq {m : Nat} {keys : List Valtype} {stack : Stack}
    (hstack : s.stack = getvch keys.length :: keys.reverse ++ getvch m :: stack)
    (hle : m ≤ keys.length) (hle16 : keys.length ≤ 16)
    (hcount : s.nOpCount + keys.length ≤ maxOpCount) :
    multiSigCounts s =
      if stack.length < m + 1 then .error .returnFalse
      else .ok (keys.length, m, s.nOpCount + keys.length) := by
  have hlength : s.stack.length = keys.length + stack.length + 2 := by
    rw [hstack, List.length_append, List.length_cons, List.length_cons, List.length_reverse]
    omega
  have htop : stacktop s.stack 1 = .ok (getvch keys.length) := by
    rw [hstack]
    rfl
  have hm : stacktop s.stack (2 + keys.length) = .ok (getvch m) := by
    have happend := @stacktop_append (getvch keys.length :: keys.reverse) stack (getvch m)
    rw [List.length_cons, List.length_reverse, ← hstack] at happend
    rwa [show 2 + keys.length = keys.length + 1 + 1 by omega]
  have hgetint : ∀ n : Nat, n ≤ 16 → getint n = n := by
    intro n hn
    unfold getint
    omega
  have hneeds : ∀ n : Nat, needs s.stack n =
      if keys.length + stack.length + 2 < n then .error .returnFalse else .ok () := by
    intro n
    rw [needs, hlength]
  unfold multiSigCounts
  rw [hneeds, if_neg (by omega), htop]
  simp only [bind, Except.bind, castToBigNum_getvch hle16, hgetint _ hle16, Int.toNat_natCast]
  rw [if_neg (by unfold maxPubKeysPerMultiSig; omega), if_neg (by omega), hneeds,
    if_neg (by omega), hm]
  dsimp only
  rw [castToBigNum_getvch (hle.trans hle16)]
  dsimp only
  rw [hgetint _ (hle.trans hle16), if_neg (by omega), Int.toNat_natCast, hneeds]
  by_cases hshort : stack.length < m + 1
  · rw [if_pos hshort, if_pos (by omega)]
  · rw [if_neg hshort, if_neg (by omega)]
    rfl

theorem dropSignatures_eq_self {stack : Stack} {scriptCode : CScript} {sigs : List Valtype}
    {isig k : Nat} (hisig : 1 ≤ isig) (hsigs : sigs <+: stack.drop (isig + k - 1))
    (h : ∀ sig ∈ sigs, findAndDelete scriptCode (pushOf sig) = scriptCode) :
    dropSignatures stack isig sigs.length k scriptCode = .ok scriptCode := by
  induction sigs generalizing k with
  | nil => rfl
  | cons sig sigs ih =>
    obtain ⟨hsig, hsigs'⟩ := stacktop_of_prefix (by omega) hsigs
    rw [List.length_cons, dropSignatures, hsig]
    show dropSignatures stack isig sigs.length (k + 1) (findAndDelete scriptCode (pushOf sig)) = _
    rw [h sig List.mem_cons_self]
    exact ih hsigs' fun sig' hmem => h sig' (List.mem_cons_of_mem _ hmem)

theorem popMany_eq {n : Nat} {stack : Stack} (h : n ≤ stack.length) :
    popMany n stack = .ok (stack.drop n) := by
  induction n generalizing stack with
  | zero => rfl
  | succ n ih =>
    cases stack with
    | nil => exact absurd h (Nat.not_succ_le_zero _)
    | cons vch stack => exact ih (Nat.le_of_succ_le_succ h)

/-- `OP_CHECKMULTISIG` on the numbers, the keys and what was there before. -/
theorem execCheckMultiSig_eq {m : Nat} {keys : List Valtype} {stack : Stack}
    (hstack : s.stack = getvch keys.length :: keys.reverse ++ getvch m :: stack)
    (hle : m ≤ keys.length) (hle16 : keys.length ≤ 16)
    (hcount : s.nOpCount + keys.length ≤ maxOpCount)
    (hdelete : ∀ sig ∈ stack.take m, findAndDelete s.codehash (pushOf sig) = s.codehash) :
    (execCheckMultiSig env false s).2 =
      if stack.length < m + 1 then .error .returnFalse
      else .ok { s with
        stack := ofBool (matchSigs (fun sig key => (checkOne env sig key s.codehash).2)
          keys.reverse (stack.take m)) :: stack.drop (m + 1),
        nOpCount := s.nOpCount + keys.length } := by
  rw [execCheckMultiSig, multiSigCounts_eq hstack hle hle16 hcount]
  by_cases hshort : stack.length < m + 1
  · rw [if_pos hshort, if_pos hshort]
  · rw [if_neg hshort, if_neg hshort]
    have hm : (stack.take m).length = m := by
      rw [List.length_take]
      omega
    have hn : keys.reverse.length = keys.length := List.length_reverse
    have hdrop : ∀ k, s.stack.drop (keys.length + 2 + k) = stack.drop k := by
      intro k
      rw [hstack, show keys.length + 2 + k = (getvch keys.length :: keys.reverse).length + (1 + k) by
        rw [List.length_cons, hn]; omega, List.drop_append, Nat.add_comm 1 k]
      rw [List.drop_of_length_le (Nat.le_add_right _ _), List.nil_append, Nat.add_sub_cancel_left]
      rfl
    have hsigs : stack.take m <+: s.stack.drop (3 + keys.length + 0 - 1) := by
      have hbelow := hdrop 0
      rw [show 3 + keys.length + 0 - 1 = keys.length + 2 + 0 by omega, hbelow]
      exact List.take_prefix _ _
    have hkeys : keys.reverse <+: s.stack.drop (2 - 1) := by
      rw [hstack]
      exact ⟨getvch m :: stack, rfl⟩
    have hcode := dropSignatures_eq_self (by omega) hsigs hdelete
    rw [hm] at hcode
    have hloop := @checkMultiSigLoop_eq env s.stack s.codehash keys.reverse (stack.take m)
      (3 + keys.length) 2 (by rw [hm, hn]; exact hle) (by omega) (by omega) hsigs hkeys
    rw [hm, hn] at hloop
    have hlength : s.stack.length = keys.length + stack.length + 2 := by
      rw [hstack, List.length_append, List.length_cons, List.length_cons, hn]
      omega
    have hpop := @popMany_eq (3 + keys.length + m) s.stack (by omega)
    rw [show 3 + keys.length + m = keys.length + 2 + (m + 1) by omega, hdrop] at hpop
    dsimp only
    rw [hcode]
    dsimp only
    rw [hloop, show 3 + keys.length + m = keys.length + 2 + (m + 1) by omega]
    simp only [bind, Except.bind, hpop]
    rfl

/-- An m-of-n script, however its keys are pushed. -/
structure MultiSigScript (script : CScript) (m : Nat) (keys : List Valtype) : Prop where
  one_le : 1 ≤ m
  le : m ≤ keys.length
  le16 : keys.length ≤ 16
  instructions : ∃ pc₁ pc₂ pc₃, CScript.getOp script = some (op1 - 1 + m, [], pc₁) ∧
    Pushes pc₁ keys pc₂ ∧ CScript.getOp pc₂ = some (op1 - 1 + keys.length, [], pc₃) ∧
    CScript.getOp pc₃ = some (opCheckMultiSig, [], [])

namespace MultiSigScript

variable {script : CScript} {m : Nat} {keys : List Valtype}

theorem findAndDelete_eq_self (h : MultiSigScript script m keys) {sig : Valtype}
    (hlen : sig.length < opPushdata1) (hnot : sig ∉ keys) :
    findAndDelete script (pushOf sig) = script := by
  obtain ⟨pc₁, pc₂, pc₃, hop₁, hpushes, hop₂, hop₃⟩ := h.instructions
  obtain ⟨pushes, hmap, hparsed⟩ := hpushes.parsed (.cons hop₂ (.cons hop₃ .nil))
  refine Interpreter.findAndDelete_eq_self (.cons hop₁ hparsed) hlen fun hmem => ?_
  rw [List.mem_cons, List.mem_append, List.mem_cons, List.mem_singleton] at hmem
  have hnumber : ∀ opcode : Nat, 0 < opcode → (sig.length, sig) ≠ (opcode, []) := by
    rintro opcode hpos heq
    obtain ⟨hcode, rfl⟩ := Prod.mk.inj heq
    exact absurd hcode hpos.ne
  rcases hmem with hnum | hpush | hnum | hcheck
  · exact hnumber _ (by unfold op1; omega) hnum
  · exact hnot (hmap ▸ List.mem_map.mpr ⟨_, hpush, rfl⟩)
  · exact hnumber _ (by unfold op1; omega) hnum
  · exact hnumber _ (by decide) hcheck

/-- The script compares the topmost elements with its keys. -/
theorem evalScript (h : MultiSigScript script m keys) {stack : Stack}
    (hkeys : ∀ key ∈ keys, key.length ≤ maxScriptElementSize)
    (hsize : script.length ≤ maxScriptSize)
    (hstack : stack.length + keys.length + 2 ≤ maxStackSize)
    (hsigs : ∀ sig ∈ stack.take m, sig.length < opPushdata1 ∧ sig ∉ keys) :
    (evalScript env stack script).2 =
      if stack.length < m + 1 then .error .returnFalse
      else .ok (ofBool (matchSigs (fun sig key => (checkOne env sig key script).2) keys.reverse
        (stack.take m)) :: stack.drop (m + 1)) := by
  obtain ⟨pc₁, pc₂, pc₃, hop₁, hpushes, hop₂, hop₃⟩ := h.instructions
  have hle := h.le
  have hle16 := h.le16
  have hpc₁ := CScript.length_getOp hop₁
  have hpc₂ := CScript.length_getOp hop₂
  have hpc₃ := CScript.length_getOp hop₃
  let before : EvalState :=
    ⟨getvch keys.length :: (keys.reverse ++ getvch m :: stack), [], [], 0, pc₃, script⟩
  have hnumbers : ∀ {r}, Runs env before r → Runs env (start stack script) r := by
    intro r hrun
    refine Runs.step hpc₁ (step_pushNumber hop₁ h.one_le (hle.trans hle16) rfl
      (by simp only [start, List.length_nil]; omega)) ?_
    refine hpushes.runs hkeys rfl rfl
      (by simp only [start, List.length_cons, List.length_nil]; omega) ?_
    refine Runs.step hpc₂ (step_pushNumber hop₂ (h.one_le.trans hle) hle16 rfl
      (by simp only [start, List.length_append, List.length_reverse, List.length_cons,
        List.length_nil]; omega)) ?_
    exact hrun
  have hcheck := @execCheckMultiSig_eq env
    { before with pc := [], nOpCount := before.nOpCount + 1 } m keys stack rfl hle hle16
    (by simp only [before, maxOpCount]; omega)
    fun sig hmem => h.findAndDelete_eq_self (hsigs sig hmem).1 (hsigs sig hmem).2
  have hstep : (step env before).2 = _ :=
    @step_op env before _ _ (.checkMultiSig false) hop₃ (by decide)
      (by simp only [before, maxOpCount]; omega) rfl rfl rfl
  rw [exec, hcheck] at hstep
  by_cases hshort : stack.length < m + 1
  · rw [if_pos hshort] at hstep ⊢
    have hpc : before.pc ≠ [] := List.ne_nil_of_length_pos hpc₃
    rw [evalScript_of_runs hsize (hnumbers (Runs.error hpc hstep))]
    rfl
  · rw [if_neg hshort] at hstep ⊢
    have hfull : ¬ (stack.drop (m + 1)).length + 1 + 0 > maxStackSize := by
      rw [List.length_drop]
      omega
    have hlimit : (step env before).2 = .ok _ := hstep.trans (if_neg hfull)
    rw [evalScript_of_runs hsize (hnumbers (Runs.step hpc₃ hlimit (Runs.done rfl)))]
    rfl

/-- The script is not longer than a script may be. -/
theorem length_le (h : MultiSigScript script m keys) (hkeys : ∀ key ∈ keys, key.length ≤ 65) :
    script.length ≤ maxScriptSize := by
  obtain ⟨pc₁, pc₂, pc₃, hop₁, hpushes, hop₂, hop₃⟩ := h.instructions
  have hle₁ := CScript.le_length_getOp hop₁
  have hle₂ := CScript.le_length_getOp hop₂
  have hle₃ := CScript.le_length_getOp hop₃
  have hpc := hpushes.le_length hkeys
  have hmul : keys.length * 70 ≤ 16 * 70 := Nat.mul_le_mul_right 70 h.le16
  rw [List.length_nil] at hle₁ hle₂ hle₃
  unfold maxScriptSize
  omega

/-- The script leaves no more on the stack than there may be. -/
theorem evalScript_overflows (h : MultiSigScript script m keys) {stack : Stack}
    (hkeys : ∀ key ∈ keys, key.length ≤ maxScriptElementSize)
    (hsize : script.length ≤ maxScriptSize) (hfits : stack.length ≤ maxStackSize)
    (hover : maxStackSize < stack.length + keys.length + 2) :
    (Interpreter.evalScript env stack script).2 = .error .returnFalse := by
  obtain ⟨pc₁, pc₂, pc₃, hop₁, hpushes, hop₂, hop₃⟩ := h.instructions
  have hpc₁ := CScript.length_getOp hop₁
  have hpc₂ := CScript.length_getOp hop₂
  have hm16 := h.le.trans h.le16
  suffices hruns : Runs env (start stack script) (.error .returnFalse) by
    rw [evalScript_of_runs hsize hruns]
    rfl
  have hfirst := @step_pushNumber_eq env (start stack script) pc₁ m hop₁ h.one_le hm16 rfl
  by_cases hfull : (getvch m :: stack).length + 0 > maxStackSize
  · rw [sizeLimit] at hfirst
    exact Runs.error (List.ne_nil_of_length_pos (Nat.zero_lt_of_lt hpc₁))
      (hfirst.trans (if_pos hfull))
  rw [sizeLimit] at hfirst
  refine Runs.step hpc₁ (hfirst.trans (if_neg hfull)) ?_
  by_cases hover' : maxStackSize < (getvch m :: stack).length + 0 + keys.length
  · exact hpushes.overflows hkeys rfl rfl (Nat.not_lt.mp hfull) hover'
  refine hpushes.runs hkeys rfl rfl (Nat.not_lt.mp hover') ?_
  have hlast := @step_pushNumber_eq env
    ⟨keys.reverse ++ getvch m :: stack, [], [], 0, pc₂, script⟩ pc₃ keys.length hop₂
    (h.one_le.trans h.le) h.le16 rfl
  have hfull' : (getvch keys.length :: (keys.reverse ++ getvch m :: stack)).length + 0 >
      maxStackSize := by
    rw [List.length_cons, List.length_append, List.length_reverse, List.length_cons]
    omega
  rw [sizeLimit] at hlast
  exact Runs.error (List.ne_nil_of_length_pos (Nat.zero_lt_of_lt hpc₂))
    (hlast.trans (if_pos hfull'))

end MultiSigScript

end Interpreter

end NoLimitCoin
