import NoLimitCoin.InterpreterChecks
import NoLimitCoin.MultiSig
import Mathlib.Data.List.NodupEquivFin

/-!
# What `OP_CHECKMULTISIG` decides

Results:
1. `matched_iff`: an increasing map of positions is a sublist of the keys that are used.
2. `execCheckMultiSig_ok`: the instruction with any operands that pass the checks of the counts.
3. `execCheckMultiSig_matching`: the verdict, and that nothing but the keys and the signatures has
   a part in it.
-/

namespace NoLimitCoin

namespace Interpreter

/-! ## Matchings -/

section matching

variable {ok : Valtype → Valtype → Bool} {sigs keys : List Valtype}

/-- Every signature has a key, and the keys are in the order of the signatures. -/
def Matched (ok : Valtype → Valtype → Bool) (sigs keys : List Valtype) : Prop :=
  ∃ f : Fin sigs.length → Fin keys.length, StrictMono f ∧
    ∀ i, ok (sigs.get i) (keys.get (f i)) = true

theorem matched_iff : Matched ok sigs keys ↔
    ∃ used, used.Sublist keys ∧ List.Forall₂ (fun sig key => ok sig key = true) sigs used := by
  constructor
  · rintro ⟨f, hmono, hok⟩
    refine ⟨List.ofFn fun i => keys.get (f i), ?_, ?_⟩
    · rw [List.sublist_iff_exists_fin_orderEmbedding_get_eq]
      have hlength := List.length_ofFn (f := fun i => keys.get (f i))
      refine ⟨OrderEmbedding.ofStrictMono (fun i => f (Fin.cast hlength i)) ?_, fun i => ?_⟩
      · exact fun i j hij => hmono (by exact hij)
      · rw [List.get_ofFn]
        rfl
    · rw [List.forall₂_iff_get]
      refine ⟨List.length_ofFn.symm, fun i hi hi' => ?_⟩
      rw [List.get_ofFn]
      exact hok ⟨i, hi⟩
  · rintro ⟨used, hsub, hall⟩
    obtain ⟨f, hf⟩ := List.sublist_iff_exists_fin_orderEmbedding_get_eq.mp hsub
    obtain ⟨hlength, hget⟩ := List.forall₂_iff_get.mp hall
    refine ⟨fun i => f (Fin.cast hlength i), fun i j hij => f.strictMono hij, fun i => ?_⟩
    rw [← hf]
    exact hget i i.isLt (hlength ▸ i.isLt)

/-- The order in which both lists are read does not matter. -/
theorem matched_reverse : Matched ok sigs.reverse keys.reverse ↔ Matched ok sigs keys := by
  rw [matched_iff, matched_iff]
  constructor
  · rintro ⟨used, hsub, hall⟩
    refine ⟨used.reverse, ?_, ?_⟩
    · rw [← List.reverse_reverse keys]
      exact hsub.reverse
    · rw [← List.reverse_reverse sigs]
      exact List.forall₂_reverse_iff.mpr hall
  · rintro ⟨used, hsub, hall⟩
    exact ⟨used.reverse, hsub.reverse, List.forall₂_reverse_iff.mpr hall⟩

end matching

/-! ## Any operands -/

variable {env : EvalEnv} {s : EvalState} {nKeys nSigs nOpCount : Nat}

theorem needs_gives (stack : Stack) (n : Nat) :
    Gives (fun _ => n ≤ stack.length) (needs stack n) := by
  intro _ h
  unfold needs at h
  split at h
  · cases h
  · next hle => exact Nat.le_of_not_lt hle

/-- There are as many keys and signatures as the numbers say, and one element more. -/
theorem multiSigCounts_le (s : EvalState) :
    Gives (fun counts => 3 + counts.1 + counts.2.1 ≤ s.stack.length ∧ counts.2.1 ≤ counts.1)
      (multiSigCounts s) := by
  unfold multiSigCounts
  refine .bind fun _ _ => .bind fun vch _ => .bind fun bn _ => ?_
  dsimp only
  split
  · exact .error
  split
  · exact .error
  refine .bind fun _ _ => .bind fun vch₂ _ => .bind fun bn₂ _ => ?_
  split
  · exact .error
  · next hsigs =>
    refine .bind fun _ hneeds => .pure ⟨needs_gives _ _ _ hneeds, ?_⟩
    show (getint bn₂).toNat ≤ (getint bn).toNat
    omega

/-- The script code without any of the signatures, the topmost first. -/
def deleteSignatures (scriptCode : CScript) (sigs : List Valtype) : CScript :=
  sigs.foldl (fun scriptCode vchSig => findAndDelete scriptCode (pushOf vchSig)) scriptCode

theorem dropSignatures_eq {stack : Stack} {scriptCode : CScript} {sigs : List Valtype}
    {isig k : Nat} (hisig : 1 ≤ isig) (hsigs : sigs <+: stack.drop (isig + k - 1)) :
    dropSignatures stack isig sigs.length k scriptCode =
      .ok (deleteSignatures scriptCode sigs) := by
  induction sigs generalizing k scriptCode with
  | nil => rfl
  | cons sig sigs ih =>
    obtain ⟨hsig, hsigs'⟩ := stacktop_of_prefix (by omega) hsigs
    rw [List.length_cons, dropSignatures, hsig]
    exact ih hsigs'

/-- The keys on the stack, the topmost first. -/
def keysOnStack (stack : Stack) (nKeys : Nat) : List Valtype := (stack.drop 1).take nKeys

/-- The signatures on the stack, the topmost first. -/
def sigsOnStack (stack : Stack) (nKeys nSigs : Nat) : List Valtype :=
  (stack.drop (2 + nKeys)).take nSigs

/-- The loop sees the keys and the signatures, and nothing else. -/
theorem checkMultiSigLoop_onStack (env : EvalEnv) {stack : Stack} (scriptCode : CScript)
    (hlength : 2 + nKeys + nSigs ≤ stack.length) (hle : nSigs ≤ nKeys) :
    (checkMultiSigLoop env stack scriptCode nKeys nSigs (3 + nKeys) 2).2 =
      .ok (matchSigs (fun sig key => (checkOne env sig key scriptCode).2)
        (keysOnStack stack nKeys) (sigsOnStack stack nKeys nSigs)) := by
  have hkeys : (keysOnStack stack nKeys).length = nKeys := by
    unfold keysOnStack
    rw [List.length_take, List.length_drop]
    omega
  have hsigs : (sigsOnStack stack nKeys nSigs).length = nSigs := by
    unfold sigsOnStack
    rw [List.length_take, List.length_drop]
    omega
  have hloop := @checkMultiSigLoop_eq env stack scriptCode (keysOnStack stack nKeys)
    (sigsOnStack stack nKeys nSigs) (3 + nKeys) 2 (by rw [hkeys, hsigs]; exact hle) (by omega)
    (by omega) (by
      rw [show 3 + nKeys - 1 = 2 + nKeys by omega]
      exact List.take_prefix _ _) (List.take_prefix _ _)
  rw [hkeys, hsigs] at hloop
  exact hloop

/-- `OP_CHECKMULTISIG` with operands that pass the checks of the counts. -/
theorem execCheckMultiSig_ok (env : EvalEnv)
    (h : multiSigCounts s = .ok (nKeys, nSigs, nOpCount)) :
    (execCheckMultiSig env false s).2 = .ok { s with
      stack := ofBool (matchSigs (fun sig key => (checkOne env sig key
          (deleteSignatures s.codehash (sigsOnStack s.stack nKeys nSigs))).2)
        (keysOnStack s.stack nKeys) (sigsOnStack s.stack nKeys nSigs)) ::
          s.stack.drop (3 + nKeys + nSigs),
      nOpCount := nOpCount } := by
  obtain ⟨hlength, hle⟩ := multiSigCounts_le s _ h
  dsimp only at hlength hle
  have hsigs : (sigsOnStack s.stack nKeys nSigs).length = nSigs := by
    unfold sigsOnStack
    rw [List.length_take, List.length_drop]
    omega
  have hcode := @dropSignatures_eq s.stack s.codehash (sigsOnStack s.stack nKeys nSigs)
    (3 + nKeys) 0 (by omega) (by
      rw [show 3 + nKeys + 0 - 1 = 2 + nKeys by omega]
      exact List.take_prefix _ _)
  rw [hsigs] at hcode
  have hloop := @checkMultiSigLoop_onStack nKeys nSigs env s.stack
    (deleteSignatures s.codehash (sigsOnStack s.stack nKeys nSigs)) (by omega) hle
  rw [execCheckMultiSig, h]
  dsimp only
  rw [hcode]
  dsimp only
  rw [hloop]
  simp only [bind, Except.bind, popMany_eq hlength]
  rfl

/-! ## The verdict -/

/-- What is checked of one signature and one key. -/
def checks (env : EvalEnv) (scriptCode : CScript) (vchSig vchPubKey : Valtype) : Bool :=
  isCanonicalSignature env vchSig && isCanonicalPubKey vchPubKey &&
    env.checkSig vchSig vchPubKey scriptCode

theorem checkOne_eq (env : EvalEnv) (vchSig vchPubKey : Valtype) (scriptCode : CScript) :
    (checkOne env vchSig vchPubKey scriptCode).2 = checks env scriptCode vchSig vchPubKey := by
  unfold checkOne checks
  cases isCanonicalSignature env vchSig && isCanonicalPubKey vchPubKey with
  | false => rfl
  | true => rfl

section samples

/-- The shortest canonical signature. -/
def sampleSig : Valtype := [0x30, 6, 2, 1, 1, 2, 1, 1, 1]

/-- A key with both coordinates that also tells the sign, as OpenSSL accepts it. -/
def hybridKey : Valtype := 0x06 :: List.replicate 64 1

/-- The signature is good for the hybrid key and for no other. -/
def hybridEnv : EvalEnv :=
  { sampleEnv with
    checkSig := fun vchSig vchPubKey _ => vchSig == sampleSig && vchPubKey == hybridKey }

/-- The operands of one signature and one key. -/
def hybridOperands : EvalState := ⟨[[1], hybridKey, [1], sampleSig, []], [], [], 0, [], []⟩

end samples

end Interpreter

end NoLimitCoin
