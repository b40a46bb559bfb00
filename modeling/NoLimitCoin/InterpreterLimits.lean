import NoLimitCoin.Interpreter

/-!
# The interpreter stays inside its limits

Every primitive of the interpreter has one rule: what holds of its result when it does not fail,
and that it fails by `return false` or by a number that is too long, never by an index.

Results:

1. `StackOp.exec_safe`, `exec_safe`, `step_safe`: an instruction keeps the limits.
2. `evalLoop_safe`: the loop does, and ends.
3. `interpreter_within_limits`: so do `EvalScript` and `VerifyScript`.
-/

namespace NoLimitCoin

namespace Interpreter

/-! ## Safe results -/

/-- The computation gives a result with a property, or fails in a way the source provides for. -/
def Safe {α : Type} (P : α → Prop) : Except Fault α → Prop
  | .ok a => P a
  | .error e => e = .returnFalse ∨ e = .overflow

namespace Safe

variable {α β : Type} {P Q : α → Prop} {r : Except Fault α}

theorem bind {R : β → Prop} {f : α → Except Fault β} (h : Safe P r)
    (hf : ∀ a, P a → Safe R (f a)) : Safe R (r >>= f) := by
  cases r with
  | ok a => exact hf a h
  | error e => exact h

theorem imp (h : Safe P r) (himp : ∀ a, P a → Q a) : Safe Q r := by
  cases r with
  | ok a => exact himp a h
  | error e => exact h

theorem returnFalse : Safe P (.error .returnFalse) := .inl rfl

theorem ne_outOfRange (h : Safe P r) : r ≠ .error .outOfRange := by
  rintro rfl
  rcases h with h | h
  · cases h
  · cases h

theorem ne_outOfFuel (h : Safe P r) : r ≠ .error .outOfFuel := by
  rintro rfl
  rcases h with h | h
  · cases h
  · cases h

theorem of_ok {a : α} (h : Safe P r) (hr : r = .ok a) : P a := by
  rw [hr] at h
  exact h

end Safe

/-- No element is longer than an element may be. -/
def Small (stack : Stack) : Prop := ∀ vch ∈ stack, vch.length ≤ maxScriptElementSize

namespace Small

variable {stack : Stack} {vch : Valtype}

theorem cons (hvch : vch.length ≤ maxScriptElementSize) (h : Small stack) : Small (vch :: stack) :=
  List.forall_mem_cons.mpr ⟨hvch, h⟩

theorem eraseIdx (h : Small stack) (i : Nat) : Small (stack.eraseIdx i) :=
  fun vch hvch => h vch (List.mem_of_mem_eraseIdx hvch)

theorem set (hvch : vch.length ≤ maxScriptElementSize) (h : Small stack) (i : Nat) :
    Small (stack.set i vch) := by
  intro other hother
  rcases List.mem_or_eq_of_mem_set hother with hmem | rfl
  · exact h other hmem
  · exact hvch

theorem insertIdx (hvch : vch.length ≤ maxScriptElementSize) (h : Small stack) (i : Nat) :
    Small (stack.insertIdx i vch) := by
  intro other hother
  rcases List.eq_or_mem_of_mem_insertIdx hother with rfl | hmem
  · exact hvch
  · exact h other hmem

end Small

/-! ## Numbers -/

theorem length_numberBytes (fuel n : Nat) : (CScript.numberBytes fuel n).length ≤ fuel + 1 := by
  induction fuel generalizing n with
  | zero => exact Nat.zero_le _
  | succ fuel ih =>
    unfold CScript.numberBytes
    split
    · exact Nat.zero_le _
    · split
      · exact Nat.succ_le_succ (Nat.zero_le _)
      · rw [List.length_cons]
        split
        · exact Nat.succ_le_succ (Nat.succ_le_succ (Nat.zero_le _))
        · exact Nat.succ_le_succ (ih _)

theorem length_setSign_eq (vch : Valtype) : (setSign vch).length = vch.length := by
  unfold setSign
  split
  · next hnone =>
    rw [List.getLast?_eq_none_iff] at hnone
    rw [hnone]
  · next last hlast =>
    have hne : vch ≠ [] := by
      rintro rfl
      cases hlast
    rw [List.length_append, List.length_dropLast, List.length_singleton]
    exact Nat.sub_add_cancel (List.length_pos_iff.mpr hne)

/-- A number of a machine word is a short element. -/
theorem length_getvch {bn : Int} (h : bn.natAbs < 2 ^ 64) :
    (getvch bn).length ≤ maxScriptElementSize := by
  have hlog : Nat.log2 bn.natAbs < 64 ∨ bn.natAbs = 0 := by
    rcases Nat.eq_zero_or_pos bn.natAbs with hzero | hpos
    · exact .inr hzero
    · exact .inl ((Nat.log2_lt (Nat.ne_of_gt hpos)).mpr h)
  have hfuel : Nat.log2 bn.natAbs / 8 + 1 ≤ 9 := by
    rcases hlog with hlt | hzero
    · omega
    · rw [hzero]
      decide
  have hbytes := (length_numberBytes (Nat.log2 bn.natAbs / 8 + 1) bn.natAbs).trans
    (Nat.succ_le_succ hfuel)
  unfold getvch
  dsimp only
  split
  · exact ((length_setSign_eq _).le.trans hbytes).trans (by decide)
  · exact hbytes.trans (by decide)

theorem castToBigNum_safe (vch : Valtype) :
    Safe (fun bn => bn.natAbs < 2 ^ 32) (castToBigNum vch) := by
  unfold castToBigNum
  split
  · exact .inr rfl
  · next hle =>
    have hlt := ofLeBytes_lt vch
    have hpow : 256 ^ vch.length ≤ 256 ^ 4 := Nat.pow_le_pow_right (by decide) (Nat.le_of_not_lt hle)
    show (setvch vch).natAbs < 2 ^ 32
    unfold setvch
    dsimp only
    generalize 2 ^ (8 * vch.length - 1) = sign
    split
    · omega
    · omega

/-- The four bytes an operand may have. -/
theorem length_of_castToBigNum {vch : Valtype} {bn : Int} (h : castToBigNum vch = .ok bn) :
    vch.length ≤ nMaxNumSize := by
  unfold castToBigNum at h
  split at h
  · cases h
  · next hle => exact Nat.le_of_not_lt hle

theorem UnaryOp.natAbs_eval {bn : Int} (h : bn.natAbs < 2 ^ 32) (op : UnaryOp) :
    (op.eval bn).natAbs < 2 ^ 64 := by
  cases op <;> unfold UnaryOp.eval <;> (try split) <;> omega

theorem BinaryOp.natAbs_eval {bn1 bn2 : Int} (h1 : bn1.natAbs < 2 ^ 32) (h2 : bn2.natAbs < 2 ^ 32)
    (op : BinaryOp) : (op.eval bn1 bn2).natAbs < 2 ^ 64 := by
  cases op <;> unfold BinaryOp.eval <;> (try split) <;> omega

theorem length_ofBool (fValue : Bool) : (ofBool fValue).length ≤ maxScriptElementSize := by
  cases fValue <;> decide

/-! ## The primitives -/

section primitives

variable {stack : Stack}

theorem needs_safe (stack : Stack) (n : Nat) : Safe (fun _ => n ≤ stack.length) (needs stack n) := by
  unfold needs
  split
  · exact .returnFalse
  · next hle => exact Nat.le_of_not_lt hle

theorem stacktop_safe (h : Small stack) {i : Nat} (hi : 0 < i) (hle : i ≤ stack.length) :
    Safe (fun vch => vch.length ≤ maxScriptElementSize) (stacktop stack i) := by
  unfold stacktop
  have hlt : i - 1 < stack.length := by omega
  rw [List.getElem?_eq_getElem hlt]
  dsimp only
  rw [if_neg (Nat.ne_of_gt hi)]
  exact h _ (List.getElem_mem hlt)

theorem popstack_safe (h : Small stack) (hpos : 1 ≤ stack.length) :
    Safe (fun stack' => Small stack' ∧ stack'.length + 1 = stack.length) (popstack stack) := by
  cases stack with
  | nil => exact absurd hpos (by decide)
  | cons vch stack => exact ⟨(List.forall_mem_cons.mp h).2, rfl⟩

theorem popMany_safe (h : Small stack) {n : Nat} (hle : n ≤ stack.length) :
    Safe (fun stack' => Small stack' ∧ stack'.length + n = stack.length) (popMany n stack) := by
  induction n generalizing stack with
  | zero => exact ⟨h, rfl⟩
  | succ n ih =>
    unfold popMany
    refine (popstack_safe h (by omega)).bind fun stack' hstack' => ?_
    refine (ih hstack'.1 (by omega)).imp fun stack'' hstack'' => ⟨hstack''.1, ?_⟩
    omega

theorem swaptop_safe (h : Small stack) {i j : Nat} (hi : 0 < i) (hj : 0 < j)
    (hi' : i ≤ stack.length) (hj' : j ≤ stack.length) :
    Safe (fun stack' => Small stack' ∧ stack'.length = stack.length) (swaptop stack i j) := by
  unfold swaptop
  refine (stacktop_safe h hi hi').bind fun vch1 hvch1 => ?_
  refine (stacktop_safe h hj hj').bind fun vch2 hvch2 => ?_
  exact ⟨Small.set hvch1 (Small.set hvch2 h _) _, by rw [List.length_set, List.length_set]⟩

theorem pushResult_safe (h : Small stack) (fVerify fSuccess : Bool) :
    Safe Small (pushResult fVerify fSuccess stack) := by
  have hpush : Small (ofBool fSuccess :: stack) := .cons (length_ofBool fSuccess) h
  unfold pushResult
  split
  · split
    · exact (popstack_safe hpush (Nat.succ_le_succ (Nat.zero_le _))).imp fun _ h => h.1
    · exact .returnFalse
  · exact hpush

end primitives

/-- An instruction on the stack: no index is out of range, and elements stay short while the stack
is inside its limit. -/
theorem StackOp.exec_safe (env : EvalEnv) {stack : Stack} (h : Small stack) (op : StackOp) :
    Safe (fun stack' => stack'.length ≤ maxStackSize → Small stack') (op.exec env stack) := by
  cases op with
  | depth =>
    intro hle
    rw [List.length_cons] at hle
    have hsize : stack.length < 1000 := hle
    exact .cons (length_getvch (by omega)) h
  | verify =>
    refine (needs_safe stack 1).bind fun _ h1 => ?_
    refine (stacktop_safe h Nat.one_pos h1).bind fun vch _ => ?_
    dsimp only
    split
    · exact (popstack_safe h h1).imp fun _ h _ => h.1
    · exact .returnFalse
  | drop2 =>
    refine (needs_safe stack 2).bind fun _ h2 => ?_
    refine (popstack_safe h (by omega)).bind fun stack' h' => ?_
    exact (popstack_safe h'.1 (by omega)).imp fun _ h _ => h.1
  | dup2 =>
    refine (needs_safe stack 2).bind fun _ h2 => ?_
    refine (stacktop_safe h (by decide) h2).bind fun vch1 hvch1 => ?_
    refine (stacktop_safe h (by decide) (by omega)).bind fun vch2 hvch2 => ?_
    exact fun _ => .cons hvch2 (.cons hvch1 h)
  | dup3 =>
    refine (needs_safe stack 3).bind fun _ h3 => ?_
    refine (stacktop_safe h (by decide) h3).bind fun vch1 hvch1 => ?_
    refine (stacktop_safe h (by decide) (by omega)).bind fun vch2 hvch2 => ?_
    refine (stacktop_safe h (by decide) (by omega)).bind fun vch3 hvch3 => ?_
    exact fun _ => .cons hvch3 (.cons hvch2 (.cons hvch1 h))
  | over2 =>
    refine (needs_safe stack 4).bind fun _ h4 => ?_
    refine (stacktop_safe h (by decide) h4).bind fun vch1 hvch1 => ?_
    refine (stacktop_safe h (by decide) (by omega)).bind fun vch2 hvch2 => ?_
    exact fun _ => .cons hvch2 (.cons hvch1 h)
  | rot2 =>
    refine (needs_safe stack 6).bind fun _ h6 => ?_
    refine (stacktop_safe h (by decide) h6).bind fun vch1 hvch1 => ?_
    refine (stacktop_safe h (by decide) (by omega)).bind fun vch2 hvch2 => ?_
    exact fun _ => .cons hvch2 (.cons hvch1 ((h.eraseIdx 5).eraseIdx 4))
  | swap2 =>
    refine (needs_safe stack 4).bind fun _ h4 => ?_
    refine (swaptop_safe h (by decide) (by decide) h4 (by omega)).bind fun stack' h' => ?_
    exact (swaptop_safe h'.1 (by decide) (by decide) (by omega) (by omega)).imp fun _ h _ => h.1
  | ifDup =>
    refine (needs_safe stack 1).bind fun _ h1 => ?_
    refine (stacktop_safe h Nat.one_pos h1).bind fun vch hvch => fun _ => ?_
    split
    · exact .cons hvch h
    · exact h
  | drop =>
    refine (needs_safe stack 1).bind fun _ h1 => ?_
    exact (popstack_safe h h1).imp fun _ h _ => h.1
  | dup =>
    refine (needs_safe stack 1).bind fun _ h1 => ?_
    exact (stacktop_safe h Nat.one_pos h1).bind fun vch hvch => fun _ => .cons hvch h
  | nip =>
    refine (needs_safe stack 2).bind fun _ _ => ?_
    exact fun _ => h.eraseIdx 1
  | opOver =>
    refine (needs_safe stack 2).bind fun _ h2 => ?_
    exact (stacktop_safe h (by decide) h2).bind fun vch hvch => fun _ => .cons hvch h
  | pick fRoll =>
    refine (needs_safe stack 2).bind fun _ h2 => ?_
    refine (stacktop_safe h (by decide) (by omega)).bind fun vch _ => ?_
    refine (castToBigNum_safe vch).bind fun bn _ => ?_
    refine (popstack_safe h (by omega)).bind fun stack' h' => ?_
    generalize getint bn = n
    split
    · exact .returnFalse
    · next hn =>
      rw [not_or] at hn
      refine (stacktop_safe h'.1 (Nat.succ_pos _) (by omega)).bind fun vch' hvch' => fun _ => ?_
      refine .cons hvch' ?_
      split
      · exact h'.1.eraseIdx _
      · exact h'.1
  | rot =>
    refine (needs_safe stack 3).bind fun _ h3 => ?_
    refine (swaptop_safe h (by decide) (by decide) h3 (by omega)).bind fun stack' h' => ?_
    exact (swaptop_safe h'.1 (by decide) (by decide) (by omega) (by omega)).imp fun _ h _ => h.1
  | swap =>
    refine (needs_safe stack 2).bind fun _ h2 => ?_
    exact (swaptop_safe h (by decide) (by decide) h2 (by omega)).imp fun _ h _ => h.1
  | tuck =>
    refine (needs_safe stack 2).bind fun _ h2 => ?_
    refine (stacktop_safe h (by decide) (by omega)).bind fun vch hvch => fun _ => ?_
    exact Small.insertIdx hvch h 2
  | size =>
    refine (needs_safe stack 1).bind fun _ h1 => ?_
    refine (stacktop_safe h Nat.one_pos h1).bind fun vch hvch => fun _ => ?_
    have hshort : vch.length ≤ 520 := hvch
    exact .cons (length_getvch (by omega)) h
  | equal fVerify =>
    refine (needs_safe stack 2).bind fun _ h2 => ?_
    refine (stacktop_safe h (by decide) h2).bind fun vch1 _ => ?_
    refine (stacktop_safe h (by decide) (by omega)).bind fun vch2 _ => ?_
    refine (popstack_safe h (by omega)).bind fun stack' h' => ?_
    refine (popstack_safe h'.1 (by omega)).bind fun stack'' h'' => ?_
    exact (pushResult_safe h''.1 fVerify (vch1 == vch2)).imp fun _ h _ => h
  | unary op =>
    refine (needs_safe stack 1).bind fun _ h1 => ?_
    refine (stacktop_safe h Nat.one_pos h1).bind fun vch _ => ?_
    refine (castToBigNum_safe vch).bind fun bn hbn => ?_
    refine (popstack_safe h h1).bind fun stack' h' => fun _ => ?_
    exact .cons (length_getvch (op.natAbs_eval hbn)) h'.1
  | binary op =>
    refine (needs_safe stack 2).bind fun _ h2 => ?_
    refine (stacktop_safe h (by decide) h2).bind fun vch1 _ => ?_
    refine (castToBigNum_safe vch1).bind fun bn1 hbn1 => ?_
    refine (stacktop_safe h (by decide) (by omega)).bind fun vch2 _ => ?_
    refine (castToBigNum_safe vch2).bind fun bn2 hbn2 => ?_
    refine (popstack_safe h (by omega)).bind fun stack' h' => ?_
    refine (popstack_safe h'.1 (by omega)).bind fun stack'' h'' => ?_
    have hpush : Small (getvch (op.eval bn1 bn2) :: stack'') :=
      .cons (length_getvch (op.natAbs_eval hbn1 hbn2)) h''.1
    dsimp only
    split
    · refine (stacktop_safe hpush Nat.one_pos (Nat.succ_le_succ (Nat.zero_le _))).bind
        fun vch _ => ?_
      split
      · exact (popstack_safe hpush (Nat.succ_le_succ (Nat.zero_le _))).imp fun _ h _ => h.1
      · exact .returnFalse
    · exact fun _ => hpush
  | within =>
    refine (needs_safe stack 3).bind fun _ h3 => ?_
    refine (stacktop_safe h (by decide) h3).bind fun vch1 _ => ?_
    refine (castToBigNum_safe vch1).bind fun bn1 _ => ?_
    refine (stacktop_safe h (by decide) (by omega)).bind fun vch2 _ => ?_
    refine (castToBigNum_safe vch2).bind fun bn2 _ => ?_
    refine (stacktop_safe h (by decide) (by omega)).bind fun vch3 _ => ?_
    refine (castToBigNum_safe vch3).bind fun bn3 _ => ?_
    refine (popstack_safe h (by omega)).bind fun stack' h' => ?_
    refine (popstack_safe h'.1 (by omega)).bind fun stack'' h'' => ?_
    refine (popstack_safe h''.1 (by omega)).bind fun stack''' h''' => fun _ => ?_
    exact .cons (length_ofBool _) h'''.1
  | hash op =>
    refine (needs_safe stack 1).bind fun _ h1 => ?_
    refine (stacktop_safe h Nat.one_pos h1).bind fun vch _ => ?_
    refine (popstack_safe h h1).bind fun stack' h' => fun _ => ?_
    refine .cons ?_ h'.1
    rw [env.hash_length]
    cases op <;> decide

/-! ## The switch -/

/-- What holds before and after every instruction. -/
structure Limits (s : EvalState) : Prop where
  stack : Small s.stack
  altstack : Small s.altstack
  nOpCount : s.nOpCount ≤ maxOpCount

/-- What an instruction gives: the limits, if the size of the stacks is inside its own. -/
def After (s s' : EvalState) : Prop :=
  (s'.stack.length + s'.altstack.length ≤ maxStackSize → Limits s') ∧ s'.pc = s.pc

section switch

variable {s : EvalState}

theorem Limits.push (h : Limits s) {vch : Valtype} (hvch : vch.length ≤ maxScriptElementSize) :
    After s { s with stack := vch :: s.stack } :=
  ⟨fun _ => ⟨.cons hvch h.stack, h.altstack, h.nOpCount⟩, rfl⟩

theorem stacktop_ok (stack : Stack) {i : Nat} (hi : 0 < i) (hle : i ≤ stack.length) :
    ∃ vch, stacktop stack i = .ok vch := by
  have hlt : i - 1 < stack.length := by omega
  refine ⟨stack[i - 1], ?_⟩
  unfold stacktop
  rw [List.getElem?_eq_getElem hlt]
  exact if_neg (Nat.ne_of_gt hi)

theorem execCheckSig_safe (env : EvalEnv) (h : Limits s) (fVerify : Bool) :
    Safe (After s) (execCheckSig env fVerify s).2 := by
  have hoperands : Safe (fun _ => 2 ≤ s.stack.length) (do
      needs s.stack 2
      return (← stacktop s.stack 2, ← stacktop s.stack 1)) := by
    refine (needs_safe s.stack 2).bind fun _ h2 => ?_
    refine (stacktop_safe h.stack (by decide) h2).bind fun vch1 _ => ?_
    exact (stacktop_safe h.stack (by decide) (by omega)).bind fun vch2 _ => h2
  unfold execCheckSig
  dsimp only
  split
  · next e he =>
    rw [he] at hoperands
    exact hoperands
  · next vchSig vchPubKey hok =>
    have h2 := hoperands.of_ok hok
    refine (popMany_safe h.stack h2).bind fun stack hstack => ?_
    refine (pushResult_safe hstack.1 fVerify _).bind fun stack' hstack' => ?_
    exact ⟨fun _ => ⟨hstack', h.altstack, h.nOpCount⟩, rfl⟩

theorem multiSigCounts_safe (h : Limits s) :
    Safe (fun counts => 3 + counts.1 + counts.2.1 ≤ s.stack.length ∧ counts.2.1 ≤ counts.1 ∧
      counts.2.2 ≤ maxOpCount) (multiSigCounts s) := by
  unfold multiSigCounts
  refine (needs_safe s.stack 1).bind fun _ h1 => ?_
  refine (stacktop_safe h.stack Nat.one_pos h1).bind fun vch1 _ => ?_
  refine (castToBigNum_safe vch1).bind fun bn1 _ => ?_
  dsimp only
  generalize getint bn1 = nKeysCount
  split
  · exact .returnFalse
  · next hkeys =>
    split
    · exact .returnFalse
    · next hcount =>
      refine (needs_safe s.stack _).bind fun _ h2 => ?_
      refine (stacktop_safe h.stack (by omega) h2).bind fun vch2 _ => ?_
      refine (castToBigNum_safe vch2).bind fun bn2 _ => ?_
      generalize getint bn2 = nSigsCount
      split
      · exact .returnFalse
      · next hsigs =>
        refine (needs_safe s.stack _).bind fun _ h3 => ?_
        refine ⟨h3, ?_, Nat.le_of_not_lt hcount⟩
        show nSigsCount.toNat ≤ nKeysCount.toNat
        omega

theorem dropSignatures_safe {stack : Stack} (h : Small stack) (isig : Nat) (hisig : 0 < isig)
    (nSigs k : Nat) (scriptCode : CScript) (hle : isig + k + nSigs ≤ stack.length + 1) :
    Safe (fun _ => True) (dropSignatures stack isig nSigs k scriptCode) := by
  induction nSigs generalizing k scriptCode with
  | zero => exact trivial
  | succ nSigs ih =>
    unfold dropSignatures
    refine (stacktop_safe h (by omega) (by omega)).bind fun vchSig _ => ?_
    exact ih (k + 1) _ (by omega)

theorem checkMultiSigLoop_safe (env : EvalEnv) (stack : Stack) (scriptCode : CScript)
    (nKeys nSigs isig ikey : Nat) (hisig : 0 < isig) (hikey : 0 < ikey)
    (hsigs : isig + nSigs ≤ stack.length + 1) (hkeys : ikey + nKeys ≤ stack.length + 1) :
    Safe (fun _ => True) (checkMultiSigLoop env stack scriptCode nKeys nSigs isig ikey).2 := by
  induction nKeys generalizing nSigs isig ikey with
  | zero =>
    cases nSigs with
    | zero => exact trivial
    | succ nSigs => exact trivial
  | succ nKeys ih =>
    cases nSigs with
    | zero => exact trivial
    | succ nSigs =>
      obtain ⟨vchSig, hvchSig⟩ := stacktop_ok stack hisig (by omega)
      obtain ⟨vchPubKey, hvchPubKey⟩ := stacktop_ok stack hikey (by omega)
      unfold checkMultiSigLoop
      rw [hvchSig, hvchPubKey]
      dsimp only
      cases (checkOne env vchSig vchPubKey scriptCode).2 with
      | true =>
        simp only [if_true]
        split
        · exact trivial
        · exact ih nSigs (isig + 1) (ikey + 1) (by omega) (by omega) (by omega) (by omega)
      | false =>
        simp only [Bool.false_eq_true, if_false]
        split
        · exact trivial
        · exact ih (nSigs + 1) isig (ikey + 1) hisig (by omega) hsigs (by omega)

theorem execCheckMultiSig_safe (env : EvalEnv) (h : Limits s) (fVerify : Bool) :
    Safe (After s) (execCheckMultiSig env fVerify s).2 := by
  have hcounts := multiSigCounts_safe h
  unfold execCheckMultiSig
  split
  · next e he =>
    rw [he] at hcounts
    exact hcounts
  · next nKeys nSigs nOpCount hok =>
    obtain ⟨hlength, hle, hcount⟩ := hcounts.of_ok hok
    dsimp only at hlength hle hcount
    have hdrop := dropSignatures_safe h.stack (3 + nKeys) (by omega) nSigs 0 s.codehash
      (by omega)
    dsimp only
    split
    · next e he =>
      rw [he] at hdrop
      exact hdrop
    · next scriptCode _ =>
      refine (checkMultiSigLoop_safe env s.stack scriptCode nKeys nSigs (3 + nKeys) 2 (by omega)
        (by decide) (by omega) (by omega)).bind fun fSuccess _ => ?_
      refine (popMany_safe h.stack hlength).bind fun stack hstack => ?_
      refine (pushResult_safe hstack.1 fVerify _).bind fun stack' hstack' => ?_
      exact ⟨fun _ => ⟨hstack', h.altstack, hcount⟩, rfl⟩

theorem exec_safe (env : EvalEnv) (h : Limits s) {op : Op}
    (hop : ∀ n, op = .pushNumber n → n.natAbs < 2 ^ 64) : Safe (After s) (exec env s op).2 := by
  have hsame : After s s := ⟨fun _ => h, rfl⟩
  cases op with
  | pushNumber n => exact h.push (length_getvch (hop n rfl))
  | nop => exact hsame
  | opIf fNot =>
    unfold exec
    dsimp only
    split
    · refine (needs_safe s.stack 1).bind fun _ h1 => ?_
      refine (stacktop_safe h.stack Nat.one_pos h1).bind fun vch _ => ?_
      refine (popstack_safe h.stack h1).bind fun stack hstack => ?_
      exact ⟨fun _ => ⟨hstack.1, h.altstack, h.nOpCount⟩, rfl⟩
    · exact ⟨fun _ => ⟨h.stack, h.altstack, h.nOpCount⟩, rfl⟩
  | opElse =>
    unfold exec
    dsimp only
    split
    · exact .returnFalse
    · exact ⟨fun _ => ⟨h.stack, h.altstack, h.nOpCount⟩, rfl⟩
  | endif =>
    unfold exec
    dsimp only
    split
    · exact .returnFalse
    · exact ⟨fun _ => ⟨h.stack, h.altstack, h.nOpCount⟩, rfl⟩
  | opReturn => exact .returnFalse
  | toAltStack =>
    refine (needs_safe s.stack 1).bind fun _ h1 => ?_
    refine (stacktop_safe h.stack Nat.one_pos h1).bind fun vch hvch => ?_
    refine (popstack_safe h.stack h1).bind fun stack hstack => ?_
    exact ⟨fun _ => ⟨hstack.1, .cons hvch h.altstack, h.nOpCount⟩, rfl⟩
  | fromAltStack =>
    refine (needs_safe s.altstack 1).bind fun _ h1 => ?_
    refine (stacktop_safe h.altstack Nat.one_pos h1).bind fun vch hvch => ?_
    refine (popstack_safe h.altstack h1).bind fun altstack haltstack => ?_
    exact ⟨fun _ => ⟨.cons hvch h.stack, haltstack.1, h.nOpCount⟩, rfl⟩
  | onStack op =>
    refine (op.exec_safe env h.stack).bind fun stack hstack => ?_
    exact ⟨fun hsize => ⟨hstack ((Nat.le_add_right _ _).trans hsize), h.altstack, h.nOpCount⟩, rfl⟩
  | codeSeparator => exact ⟨fun _ => ⟨h.stack, h.altstack, h.nOpCount⟩, rfl⟩
  | checkSig fVerify => exact execCheckSig_safe env h fVerify
  | checkMultiSig fVerify => exact execCheckMultiSig_safe env h fVerify

end switch

/-! ## The loop -/

section loop

variable {s : EvalState}

/-- The numbers that are pushed are small. -/
theorem natAbs_of_ofCode {opcode : Nat} {n : Int} (h : Op.ofCode opcode = some (.pushNumber n)) :
    n.natAbs < 2 ^ 64 := by
  unfold Op.ofCode at h
  split at h
  all_goals try cases h
  split at h
  · next hcode =>
    cases h
    have hbound : opcode ≤ 96 := by
      rcases hcode with rfl | ⟨-, hle⟩
      · decide
      · exact hle
    show ((opcode : Int) - (81 - 1)).natAbs < 2 ^ 64
    omega
  · split at h
    · cases h
    · cases h

theorem execOpcode_safe (env : EvalEnv) (h : Limits s) (opcode : Nat) {vch : Valtype}
    (hvch : vch.length ≤ maxScriptElementSize) : Safe (After s) (execOpcode env opcode vch s).2 := by
  unfold execOpcode
  split
  · exact h.push hvch
  · split
    · split
      · exact .returnFalse
      · next op hop =>
        refine exec_safe env h fun n hn => ?_
        rw [hn] at hop
        exact natAbs_of_ofCode hop
    · exact ⟨fun _ => h, rfl⟩

/-- One round of the loop. -/
theorem step_safe (env : EvalEnv) (h : Limits s) :
    Safe (fun s' => Limits s' ∧ s'.stack.length + s'.altstack.length ≤ maxStackSize ∧
      s'.pc.length < s.pc.length) (step env s).2 := by
  unfold step
  split
  · exact .returnFalse
  · next opcode vchPushValue rest hop =>
    dsimp only
    generalize hnOpCount : (if op16 < opcode then s.nOpCount + 1 else s.nOpCount) = nOpCount
    split
    · exact .returnFalse
    · next hvch =>
      split
      · exact .returnFalse
      · next hcount =>
        split
        · exact .returnFalse
        · have hlimits : Limits { s with pc := rest, nOpCount := nOpCount } := by
            refine ⟨h.stack, h.altstack, Nat.le_of_not_lt fun hover => ?_⟩
            split at hnOpCount
            · next hlt => exact hcount ⟨hlt, hover⟩
            · exact absurd (hnOpCount ▸ h.nOpCount) (Nat.not_le.mpr hover)
          refine (execOpcode_safe env hlimits opcode (Nat.le_of_not_lt hvch)).bind
            fun s' hs' => ?_
          unfold sizeLimit
          split
          · exact .returnFalse
          · next hsize =>
            have hle := Nat.le_of_not_lt hsize
            refine ⟨hs'.1 hle, hle, ?_⟩
            rw [hs'.2]
            exact CScript.length_getOp hop

theorem evalLoop_safe (env : EvalEnv) (fuel : Nat) (h : Limits s) (hfuel : s.pc.length ≤ fuel) :
    Safe Limits (evalLoop env fuel s).2 := by
  induction fuel generalizing s with
  | zero =>
    unfold evalLoop
    rw [if_pos (List.length_eq_zero_iff.mp (Nat.le_zero.mp hfuel))]
    exact h
  | succ fuel ih =>
    unfold evalLoop
    split
    · exact h
    · have hstep := step_safe env h
      dsimp only
      split
      · next e he =>
        rw [he] at hstep
        exact hstep
      · next s' hs' =>
        rw [hs'] at hstep
        exact ih hstep.1 (by have hlt := hstep.2.2; omega)

/-- The states that the loop goes through. -/
inductive Reachable (env : EvalEnv) (s₀ : EvalState) : EvalState → Prop
  | start : Reachable env s₀ s₀
  | step {s s' : EvalState} (h : Reachable env s₀ s) (hpc : s.pc ≠ [])
      (hstep : (Interpreter.step env s).2 = .ok s') : Reachable env s₀ s'

theorem Reachable.limits {env : EvalEnv} {s₀ : EvalState} (h₀ : Limits s₀)
    (h : Reachable env s₀ s) : Limits s := by
  induction h with
  | start => exact h₀
  | step _ _ hstep ih => exact ((step_safe env ih).of_ok hstep).1

theorem evalScript_safe (env : EvalEnv) {stack : Stack} (h : Small stack) (script : CScript) :
    Safe Small (evalScript env stack script).2 := by
  unfold evalScript
  split
  · exact .returnFalse
  · refine (evalLoop_safe env script.length (s := start stack script)
      ⟨h, fun _ hmem => (by cases hmem), Nat.zero_le _⟩ (Nat.le_refl _)).bind fun s hs => ?_
    split
    · exact .returnFalse
    · exact hs.stack

end loop

/-! ## `VerifyScript` -/

/-- The script of a script hash takes an item off the stack. -/
theorem evalScript_scriptHash_nil (env : EvalEnv) {script : CScript}
    (h : script.isPayToScriptHash = true) :
    (evalScript env [] script).2 = .error .returnFalse := by
  obtain ⟨rest, rfl⟩ : ∃ rest, script = 0xa9 :: rest := by
    unfold CScript.isPayToScriptHash at h
    simp only [Bool.and_eq_true, beq_iff_eq] at h
    cases script with
    | nil => cases h.1.1.2
    | cons b rest => exact ⟨rest, congrArg (· :: rest) (Option.some.inj h.1.1.2)⟩
  have hstep : step env (start [] (0xa9 :: rest)) = (0, .error .returnFalse) := rfl
  unfold evalScript
  split
  · rfl
  · have hpc : (start [] (0xa9 :: rest)).pc ≠ [] := List.cons_ne_nil _ _
    rw [List.length_cons]
    unfold evalLoop
    rw [if_neg hpc, hstep]
    rfl

theorem isTrueOnTop_safe (stack : Stack) : Safe (fun _ => True) (isTrueOnTop stack) := by
  unfold isTrueOnTop
  split
  · exact .returnFalse
  · split
    · exact trivial
    · exact .returnFalse

theorem verifyScript_safe (env : EvalEnv) (scriptSig scriptPubKey : CScript) :
    Safe (fun _ => True) (verifyScript env scriptSig scriptPubKey).2 := by
  have hnil : Small [] := fun _ hmem => (by cases hmem)
  have h₁ := evalScript_safe env hnil scriptSig
  unfold verifyScript
  split
  · next n e he =>
    rw [he] at h₁
    exact h₁
  · next n₁ stack he =>
    rw [he] at h₁
    have h₂ := evalScript_safe env h₁ scriptPubKey
    split
    · next n₂ e he₂ =>
      rw [he₂] at h₂
      exact h₂
    · next n₂ stack₂ he₂ =>
      rw [he₂] at h₂
      have htop := isTrueOnTop_safe stack₂
      split
      · next e hetop =>
        rw [hetop] at htop
        exact htop
      · split
        · next hscriptHash =>
          split
          · cases stack with
            | nil =>
              have hfail := evalScript_scriptHash_nil env hscriptHash
              rw [he₂] at hfail
              cases hfail
            | cons pubKey2 stackCopy =>
              have h₃ := evalScript_safe env (List.forall_mem_cons.mp h₁).2 pubKey2
              exact h₃.bind fun stack _ => isTrueOnTop_safe stack
          · exact .returnFalse
        · exact trivial

/-- `EvalScript` ends; at the end of every instruction the stacks, their elements and the counted
instructions are inside their limits; no instruction uses an index that is out of range; and so it
is for `VerifyScript`. -/
theorem interpreter_within_limits (env : EvalEnv) (stack : Stack) (script : CScript)
    (hstack : ∀ vch ∈ stack, vch.length ≤ maxScriptElementSize) :
    (evalScript env stack script).2 ≠ .error .outOfFuel ∧
    (∀ s, Reachable env (start stack script) s →
      (step env s).2 ≠ .error .outOfRange ∧
      ∀ s', (step env s).2 = .ok s' →
        s'.stack.length + s'.altstack.length ≤ 1000 ∧
        (∀ vch ∈ s'.stack ++ s'.altstack, vch.length ≤ 520) ∧
        s'.nOpCount ≤ 201) ∧
    (∀ vch bn, castToBigNum vch = .ok bn → vch.length ≤ 4) ∧
    ∀ scriptSig scriptPubKey,
      (verifyScript env scriptSig scriptPubKey).2 ≠ .error .outOfRange ∧
      (verifyScript env scriptSig scriptPubKey).2 ≠ .error .outOfFuel := by
  refine ⟨(evalScript_safe env hstack script).ne_outOfFuel, fun s hs => ?_,
    fun vch bn => length_of_castToBigNum, fun scriptSig scriptPubKey => ?_⟩
  · have hstart : Limits (start stack script) :=
      ⟨hstack, fun _ hmem => (by cases hmem), Nat.zero_le _⟩
    have hlimits := hs.limits hstart
    have hsafe := step_safe env hlimits
    refine ⟨hsafe.ne_outOfRange, fun s' hs' => ?_⟩
    obtain ⟨hafter, hsize, -⟩ := hsafe.of_ok hs'
    refine ⟨hsize, fun vch hvch => ?_, hafter.nOpCount⟩
    rcases List.mem_append.mp hvch with hmem | hmem
    · exact hafter.stack vch hmem
    · exact hafter.altstack vch hmem
  · have hsafe := verifyScript_safe env scriptSig scriptPubKey
    exact ⟨hsafe.ne_outOfRange, hsafe.ne_outOfFuel⟩

section samples

/-- Hashes of zeros, and signatures that are all good. -/
def sampleEnv : EvalEnv where
  hash op _ := List.replicate op.size 0
  hash_length _ _ := List.length_replicate
  checkSignatureElement _ := true
  checkSig _ _ _ := true

/-- `OP_DUP` of one element. -/
theorem interpreter_within_limits_sample :
    (evalScript sampleEnv [[1]] [0x76]).2 ≠ .error .outOfFuel ∧
      (step sampleEnv (start [[1]] [0x76])).2 ≠ .error .outOfRange := by
  have hlimits := interpreter_within_limits sampleEnv [[1]] [0x76] (by decide)
  exact ⟨hlimits.1, (hlimits.2.1 _ .start).1⟩

end samples

end Interpreter

end NoLimitCoin
