import NoLimitCoin.Destinations
import NoLimitCoin.MultiSigMatching

/-!
# Combining partial signatures

`CombineSignatures` of `script.cpp` puts the signatures of two scripts for one multi-signature
output together: every signature is placed at a key that it verifies for, and the merged script
has them in the order of the keys.

Results:
1. `mergedSigs_length`, `mergedSigs_forall`: the merged signatures are those of the first keys that
   are covered.
2. `PartialScript.accepted`, `PartialScript.accepts`: when signatures in some order are accepted,
   for the script itself and behind its hash.
3. `combineSignatures_complete`: what has been combined verifies exactly when enough keys are
   covered, in either order.
-/

namespace NoLimitCoin

open Interpreter

/-! ## Placing signatures -/

section place

variable {env : EvalEnv} {script : CScript} {keys : List Valtype} {sig : Valtype}

/-- Signatures are ideal for the keys: none verifies for two of them. -/
def Ideal (env : EvalEnv) (script : CScript) (keys sigs : List Valtype) : Prop :=
  ∀ sig ∈ sigs, ∀ key ∈ keys, ∀ key' ∈ keys, env.checkSig sig key script = true →
    env.checkSig sig key' script = true → key = key'

/-- A signature is placed only at a key that it verifies for. -/
theorem placeSig_sound {sigs : Map Valtype Valtype} {key sig' : Valtype}
    (h : (placeSig env script sig keys sigs)[key]? = some sig') :
    sigs[key]? = some sig' ∨
      (key ∈ keys ∧ sig' = sig ∧ env.checkSig sig key script = true) := by
  induction keys with
  | nil => exact .inl h
  | cons pubkey pubkeys ih =>
    have hlater : (placeSig env script sig pubkeys sigs)[key]? = some sig' →
        sigs[key]? = some sig' ∨ (key ∈ pubkey :: pubkeys ∧ sig' = sig ∧
          env.checkSig sig key script = true) := fun hplaced =>
      (ih hplaced).imp_right fun ⟨hmem, hsig⟩ => ⟨List.mem_cons_of_mem _ hmem, hsig⟩
    rw [placeSig] at h
    split at h
    · exact hlater h
    split at h
    · next hverified =>
      rw [Map.getElem?_insert] at h
      split at h
      · next heq =>
        subst heq
        exact .inr ⟨List.mem_cons_self, (Option.some.inj h).symm, hverified⟩
      · exact .inl h
    · exact hlater h

/-- What has been placed stays in its place. -/
theorem placeSig_keeps {sigs : Map Valtype Valtype} {key sig' : Valtype}
    (h : sigs[key]? = some sig') : (placeSig env script sig keys sigs)[key]? = some sig' := by
  induction keys with
  | nil => exact h
  | cons pubkey pubkeys ih =>
    rw [placeSig]
    split
    · exact ih
    · next hfree =>
      split
      · rw [Map.getElem?_insert]
        split
        · next heq =>
          subst heq
          exact absurd ((Map.contains_iff _ _).mpr ⟨sig', h⟩) hfree
        · exact h
      · exact ih

/-- The key of an ideal signature has a signature afterwards. -/
theorem placeSig_places {sigs : Map Valtype Valtype} {key : Valtype}
    (hideal : ∀ key' ∈ keys, env.checkSig sig key' script = true → key' = key)
    (hmem : key ∈ keys) (hverified : env.checkSig sig key script = true) :
    ∃ sig', (placeSig env script sig keys sigs)[key]? = some sig' := by
  induction keys with
  | nil => exact absurd hmem List.not_mem_nil
  | cons pubkey pubkeys ih =>
    obtain ⟨hfirst, hrest⟩ := List.forall_mem_cons.mp hideal
    rw [placeSig]
    split
    · next hplaced =>
      rcases List.mem_cons.mp hmem with rfl | hmem
      · obtain ⟨sig', hsig⟩ := (Map.contains_iff _ _).mp hplaced
        exact ⟨sig', placeSig_keeps hsig⟩
      · exact ih hrest hmem
    split
    · next hthis =>
      obtain rfl := hfirst hthis
      exact ⟨sig, by rw [Map.getElem?_insert, if_pos rfl]⟩
    · next hother =>
      rcases List.mem_cons.mp hmem with rfl | hmem
      · exact absurd hverified hother
      · exact ih hrest hmem

/-- The signatures of a list, placed one after another. -/
def placeAll (env : EvalEnv) (script : CScript) (keys all : List Valtype)
    (sigs : Map Valtype Valtype) : Map Valtype Valtype :=
  all.foldl (fun sigs sig => placeSig env script sig keys sigs) sigs

theorem placeAll_sound {all : List Valtype} {sigs : Map Valtype Valtype} {key sig' : Valtype}
    (h : (placeAll env script keys all sigs)[key]? = some sig') :
    sigs[key]? = some sig' ∨
      (key ∈ keys ∧ sig' ∈ all ∧ env.checkSig sig' key script = true) := by
  induction all generalizing sigs with
  | nil => exact .inl h
  | cons sig all ih =>
    rcases ih h with hplaced | ⟨hmem, hsig, hverified⟩
    · rcases placeSig_sound hplaced with hbefore | ⟨hmem, rfl, hverified⟩
      · exact .inl hbefore
      · exact .inr ⟨hmem, List.mem_cons_self, hverified⟩
    · exact .inr ⟨hmem, List.mem_cons_of_mem _ hsig, hverified⟩

theorem placeAll_keeps {all : List Valtype} {sigs : Map Valtype Valtype} {key sig' : Valtype}
    (h : sigs[key]? = some sig') : (placeAll env script keys all sigs)[key]? = some sig' := by
  induction all generalizing sigs with
  | nil => exact h
  | cons sig all ih => exact ih (placeSig_keeps h)

theorem placeAll_places {all : List Valtype} {sigs : Map Valtype Valtype} {key : Valtype}
    (hideal : Ideal env script keys all) (hmem : key ∈ keys) (hsig : sig ∈ all)
    (hverified : env.checkSig sig key script = true) :
    ∃ sig', (placeAll env script keys all sigs)[key]? = some sig' := by
  induction all generalizing sigs with
  | nil => exact absurd hsig List.not_mem_nil
  | cons first all ih =>
    obtain ⟨hfirst, hrest⟩ := List.forall_mem_cons.mp hideal
    rcases List.mem_cons.mp hsig with rfl | hsig
    · obtain ⟨sig', hplaced⟩ := @placeSig_places env script keys sig sigs key
        (fun key' hmem' hother => hfirst key' hmem' key hmem hother hverified) hmem hverified
      exact ⟨sig', (placeAll_keeps hplaced : (placeAll env script keys all _)[key]? = some sig')⟩
    · exact ih hrest hsig

end place

/-! ## The signatures of both scripts -/

theorem foldl_allSigs (all : List Valtype) (found : Map Valtype Unit) (v : Valtype) :
    (all.foldl (fun allsigs v => if v ≠ [] then allsigs.insert v () else allsigs)
      found)[v]? = some () ↔ found[v]? = some () ∨ (v ≠ [] ∧ v ∈ all) := by
  induction all generalizing found with
  | nil => exact ⟨.inl, fun h => h.resolve_right fun hmem => absurd hmem.2 List.not_mem_nil⟩
  | cons first all ih =>
    rw [List.foldl_cons, ih, List.mem_cons]
    split
    · next hne =>
      rw [Map.getElem?_insert]
      split
      · next heq =>
        subst heq
        exact ⟨fun _ => .inr ⟨hne, .inl rfl⟩, fun _ => .inl rfl⟩
      · next hother =>
        refine or_congr_right (and_congr_right fun _ => ⟨.inr, fun h => ?_⟩)
        exact h.resolve_left fun heq => hother heq.symm
    · next hempty =>
      rw [not_not] at hempty
      refine or_congr_right (and_congr_right fun hne => ⟨.inr, fun h => ?_⟩)
      exact h.resolve_left fun heq => hne (heq.trans hempty)

theorem mem_allSigs {sigs1 sigs2 : List Valtype} {v : Valtype} :
    v ∈ (allSigs sigs1 sigs2).keys ↔ v ≠ [] ∧ v ∈ sigs1 ++ sigs2 := by
  rw [Std.ExtTreeMap.mem_keys, Std.ExtTreeMap.mem_iff_isSome_getElem?, Option.isSome_iff_exists]
  have hfound := foldl_allSigs (sigs1 ++ sigs2) ∅ v
  rw [Map.getElem?_empty] at hfound
  constructor
  · rintro ⟨u, h⟩
    rcases hfound.mp h with hnone | hmem
    · cases hnone
    · exact hmem
  · exact fun h => ⟨(), hfound.mpr (.inr h)⟩

/-- The order of the two scripts does not matter. -/
theorem allSigs_comm (sigs1 sigs2 : List Valtype) : allSigs sigs1 sigs2 = allSigs sigs2 sigs1 := by
  refine Map.ext fun v => Option.ext fun u => ?_
  have h₁ := foldl_allSigs (sigs1 ++ sigs2) ∅ v
  have h₂ := foldl_allSigs (sigs2 ++ sigs1) ∅ v
  have hmem : v ∈ sigs1 ++ sigs2 ↔ v ∈ sigs2 ++ sigs1 := List.perm_append_comm.mem_iff
  exact h₁.trans ((or_congr_right (and_congr_right fun _ => hmem)).trans h₂.symm)

/-! ## The merged signatures -/

section merged

variable {env : EvalEnv} {script : CScript} {keys sigs1 sigs2 : List Valtype} {m : Nat}
  {sig key : Valtype}

/-- A key for which one of the signatures is valid. -/
def covered (env : EvalEnv) (script : CScript) (sigs : List Valtype) (key : Valtype) : Bool :=
  sigs.any fun sig => (checkOne env sig key script).2

/-- An empty placeholder or a canonical signature. -/
def IsSigOrEmpty (env : EvalEnv) (sig : Valtype) : Prop :=
  sig = [] ∨ isCanonicalSignature env sig = true

theorem checkOne_nil : (checkOne env [] key script).2 = false := rfl

/-- With canonical keys the interpreter checks what `CheckSig` checks. -/
theorem checkOne_iff (hkey : isCanonicalPubKey key = true) (hsig : IsSigOrEmpty env sig) :
    (checkOne env sig key script).2 = true ↔
      sig ≠ [] ∧ env.checkSig sig key script = true := by
  rcases hsig with rfl | hcanonical
  · exact ⟨fun h => (by cases h), fun h => absurd rfl h.1⟩
  · have hne : sig ≠ [] := by
      rintro rfl
      cases hcanonical
    unfold checkOne
    rw [hcanonical, hkey]
    exact ⟨fun h => ⟨hne, h⟩, fun h => h.2⟩

/-- The signatures of both scripts at their keys. -/
def placedSigs (env : EvalEnv) (script : CScript) (keys sigs1 sigs2 : List Valtype) :
    Map Valtype Valtype :=
  placeAll env script keys (allSigs sigs1 sigs2).keys ∅

theorem mergedSigs_eq : mergedSigs env script m keys sigs1 sigs2 =
    (keys.filterMap ((placedSigs env script keys sigs1 sigs2)[·]?)).take m := rfl

theorem mergedSigs_comm : mergedSigs env script m keys sigs1 sigs2 =
    mergedSigs env script m keys sigs2 sigs1 := by
  unfold mergedSigs
  rw [allSigs_comm]

variable (hkeys : ∀ key ∈ keys, isCanonicalPubKey key = true)
  (hsigs : ∀ sig ∈ sigs1 ++ sigs2, IsSigOrEmpty env sig)
  (hideal : Ideal env script keys (sigs1 ++ sigs2))
include hkeys hsigs

/-- A signature that has been placed is valid for its key. -/
theorem placedSigs_valid (h : (placedSigs env script keys sigs1 sigs2)[key]? = some sig) :
    sig ∈ sigs1 ++ sigs2 ∧ (checkOne env sig key script).2 = true := by
  rcases placeAll_sound h with hnone | ⟨hmem, hsig, hverified⟩
  · rw [Map.getElem?_empty] at hnone
    cases hnone
  · obtain ⟨hne, hsig⟩ := mem_allSigs.mp hsig
    exact ⟨hsig, (checkOne_iff (hkeys key hmem) (hsigs sig hsig)).mpr ⟨hne, hverified⟩⟩

include hideal

theorem placedSigs_iff (hmem : key ∈ keys) :
    ((placedSigs env script keys sigs1 sigs2)[key]?).isSome =
      covered env script (sigs1 ++ sigs2) key := by
  rw [Bool.eq_iff_iff, Option.isSome_iff_exists]
  refine ⟨fun hplaced => ?_, fun hcovered => ?_⟩
  · obtain ⟨sig, hsig⟩ := hplaced
    obtain ⟨hall, hvalid⟩ := placedSigs_valid hkeys hsigs hsig
    exact List.any_eq_true.mpr ⟨sig, hall, hvalid⟩
  · obtain ⟨sig, hsig, hvalid⟩ := List.any_eq_true.mp hcovered
    obtain ⟨hne, hverified⟩ := (checkOne_iff (hkeys key hmem) (hsigs sig hsig)).mp hvalid
    exact placeAll_places (fun sig' hsig' => hideal sig' (mem_allSigs.mp hsig').2) hmem
      (mem_allSigs.mpr ⟨hne, hsig⟩) hverified

theorem mergedSigs_length : (mergedSigs env script m keys sigs1 sigs2).length =
    min m (keys.countP (covered env script (sigs1 ++ sigs2))) := by
  rw [mergedSigs_eq, List.length_take, List.length_filterMap_eq_countP]
  refine congrArg (min m) (List.countP_congr fun key hmem => ?_)
  rw [placedSigs_iff hkeys hsigs hideal hmem]

omit hideal

/-- The merged signatures are valid for keys in the order of the keys. -/
theorem mergedSigs_forall : ∃ used, used.Sublist keys ∧
    List.Forall₂ (fun sig key => (checkOne env sig key script).2 = true)
      (mergedSigs env script m keys sigs1 sigs2) used := by
  have hplaced : ∀ keys' : List Valtype,
      List.Forall₂ (fun sig key => (placedSigs env script keys sigs1 sigs2)[key]? = some sig)
        (keys'.filterMap ((placedSigs env script keys sigs1 sigs2)[·]?))
        (keys'.filter fun key => ((placedSigs env script keys sigs1 sigs2)[key]?).isSome) := by
    intro keys'
    induction keys' with
    | nil => exact .nil
    | cons key keys' ih =>
      cases hkey : (placedSigs env script keys sigs1 sigs2)[key]? with
      | none =>
        rw [List.filterMap_cons_none hkey, List.filter_cons_of_neg (by rw [hkey]; decide)]
        exact ih
      | some sig =>
        rw [List.filterMap_cons_some hkey, List.filter_cons_of_pos (by rw [hkey]; rfl)]
        exact .cons hkey ih
  refine ⟨(keys.filter fun key =>
      ((placedSigs env script keys sigs1 sigs2)[key]?).isSome).take m,
    (List.take_sublist m _).trans List.filter_sublist, ?_⟩
  rw [mergedSigs_eq]
  exact (List.forall₂_take m (hplaced keys)).imp fun _ _ h =>
    (placedSigs_valid hkeys hsigs h).2

theorem mergedSigs_canonical (hsig : sig ∈ mergedSigs env script m keys sigs1 sigs2) :
    isCanonicalSignature env sig = true := by
  rw [mergedSigs_eq] at hsig
  obtain ⟨key, -, hplaced⟩ := List.mem_filterMap.mp (List.mem_of_mem_take hsig)
  obtain ⟨hall, hvalid⟩ := placedSigs_valid hkeys hsigs hplaced
  rcases hsigs sig hall with rfl | hcanonical
  · cases hvalid
  · exact hcanonical

end merged

/-- The values of the merged script: one for the element that `OP_CHECKMULTISIG` takes too many,
the signatures, and placeholders for those that are missing. -/
def combined (m : Nat) (merged : List Valtype) : List Valtype :=
  [] :: merged ++ List.replicate (m - merged.length) []

theorem length_combined {m : Nat} {merged : List Valtype} (h : merged.length ≤ m) :
    (combined m merged).length = m + 1 := by
  unfold combined
  rw [List.length_append, List.length_cons, List.length_replicate]
  omega

/-- The top of the stack after the merged script. -/
theorem take_combined {m : Nat} {merged : List Valtype} (h : merged.length ≤ m) :
    (combined m merged).reverse.take m =
      (merged ++ List.replicate (m - merged.length) []).reverse := by
  have hlength : (merged ++ List.replicate (m - merged.length) ([] : Valtype)).reverse.length =
      m := by
    rw [List.length_reverse, List.length_append, List.length_replicate]
    omega
  unfold combined
  rw [List.cons_append, List.reverse_cons]
  exact List.take_left' hlength

theorem exists_of_forall₂ {α β : Type} {R : α → β → Prop} {xs : List α} {ys : List β}
    (h : List.Forall₂ R xs ys) : ∀ x ∈ xs, ∃ y ∈ ys, R x y := by
  induction h with
  | nil => exact fun x hx => absurd hx List.not_mem_nil
  | @cons x y xs ys hxy _ ih =>
    refine List.forall_mem_cons.mpr ⟨⟨y, List.mem_cons_self, hxy⟩, fun x' hx' => ?_⟩
    obtain ⟨y', hy', hxy'⟩ := ih x' hx'
    exact ⟨y', List.mem_cons_of_mem _ hy', hxy'⟩

/-- The merged signatures satisfy `OP_CHECKMULTISIG` exactly when none is missing. -/
theorem matchSigs_combined {ok : Valtype → Valtype → Bool} {m : Nat}
    {keys merged used : List Valtype} (hnil : ∀ key, ok [] key = false)
    (hle : merged.length ≤ m) (hused : used.Sublist keys)
    (hvalid : List.Forall₂ (fun sig key => ok sig key = true) merged used) :
    matchSigs ok keys.reverse ((combined m merged).reverse.take m) = true ↔
      m ≤ merged.length := by
  rw [take_combined hle, matchSigs_iff]
  constructor
  · rintro ⟨used', -, hforall⟩
    by_contra hless
    have hpad : ([] : Valtype) ∈ (merged ++ List.replicate (m - merged.length) []).reverse := by
      rw [List.mem_reverse, List.mem_append, List.mem_replicate]
      exact .inr ⟨by omega, rfl⟩
    obtain ⟨key, -, hok⟩ := exists_of_forall₂ hforall [] hpad
    rw [hnil] at hok
    cases hok
  · intro hge
    refine ⟨used.reverse, hused.reverse, ?_⟩
    rw [Nat.sub_eq_zero_of_le hge, List.replicate_zero, List.append_nil]
    exact List.forall₂_reverse_iff.mpr hvalid

/-! ## Verification -/

/-- An output for a script: the script itself, or its hash; `more` is what a script for an input
has behind the signatures. -/
inductive PaysTo (env : EvalEnv) (script : CScript) : CScript → List Valtype → Prop where
  | bare : PaysTo env script script []
  | scriptHash (hsize : script.length ≤ maxScriptElementSize) :
      PaysTo env script (CTxDestination.scriptID (env.hash .hash160 script)).script [script]

/-- A script for an input that pushes signatures in any order, with empty placeholders, and that
`EvalScript` does not refuse. -/
structure PartialScript (env : EvalEnv) (more : List Valtype) (scriptSig : CScript)
    (sigs : List Valtype) : Prop where
  pushes : Pushes scriptSig (sigs ++ more) []
  size : scriptSig.length ≤ maxScriptSize
  count : (sigs ++ more).length ≤ maxStackSize
  sigs : ∀ sig ∈ sigs, IsSigOrEmpty env sig

section verify

variable {env : EvalEnv} {script scriptPubKey scriptSig : CScript} {m : Nat}
  {keys values more : List Valtype} {stack : Stack} {sig : Valtype}

theorem length_hash160 (vch : Valtype) : (env.hash .hash160 vch).length = 20 :=
  env.hash_length .hash160 vch

theorem sizeLimit_of_le {s : EvalState}
    (h : s.stack.length + s.altstack.length ≤ maxStackSize) : sizeLimit s = .ok s :=
  if_neg (Nat.not_lt.mpr h)

theorem exec_equal (vch : Valtype) :
    StackOp.exec env (vch :: vch :: stack) (.equal false) = .ok (ofBool true :: stack) := by
  have hneeds : needs (vch :: vch :: stack) 2 = .ok () := by
    unfold needs
    rw [if_neg (by rw [List.length_cons, List.length_cons]; omega)]
  have htop₁ : stacktop (vch :: vch :: stack) 1 = .ok vch := rfl
  have htop₂ : stacktop (vch :: vch :: stack) 2 = .ok vch := rfl
  unfold StackOp.exec
  simp only [hneeds, htop₁, htop₂, popstack, bind, Except.bind, pure, Except.pure,
    beq_self_eq_true]
  rfl

/-- The script for a hash compares the hash of the topmost element with it. -/
theorem evalScript_scriptID (hstack : stack.length + 2 ≤ maxStackSize) :
    (evalScript env (script :: stack) (CTxDestination.scriptID
      (env.hash .hash160 script)).script).2 = .ok (ofBool true :: stack) := by
  rw [script_scriptID (length_hash160 script)]
  generalize hscript : (opHash160 :: 0x14 :: (env.hash .hash160 script ++ [opEqual]) : CScript) =
    scriptPubKey
  have hop₁ : CScript.getOp scriptPubKey =
      some (0xa9, [], 0x14 :: (env.hash .hash160 script ++ [opEqual])) := hscript ▸ rfl
  have hop₂ : CScript.getOp (0x14 :: (env.hash .hash160 script ++ [opEqual])) =
      some (pushCode (env.hash .hash160 script), env.hash .hash160 script, [opEqual]) := by
    have hpush := @getOp_pushOf_append (env.hash .hash160 script)
      (by rw [length_hash160]; decide) [opEqual]
    rw [pushOf_hash (length_hash160 script)] at hpush
    exact hpush
  have hop₃ : CScript.getOp [opEqual] = some (0x87, [], []) := rfl
  let hashed : EvalState := ⟨env.hash .hash160 script :: stack, [], [], 1,
    0x14 :: (env.hash .hash160 script ++ [opEqual]), scriptPubKey⟩
  let pushed : EvalState := ⟨env.hash .hash160 script :: env.hash .hash160 script :: stack, [], [],
    1, [opEqual], scriptPubKey⟩
  let compared : EvalState := ⟨ofBool true :: stack, [], [], 2, [], scriptPubKey⟩
  have hfits : ∀ s : EvalState, s.stack.length ≤ stack.length + 1 → s.altstack = [] →
      sizeLimit s = .ok s := by
    intro s hle halt
    exact sizeLimit_of_le (by rw [halt, List.length_nil]; omega)
  have hrun₁ : (step env (start (script :: stack) scriptPubKey)).2 = .ok hashed :=
    (@step_op env (start (script :: stack) scriptPubKey) _ _ (.onStack (.hash .hash160)) hop₁
      (by decide) (show 1 ≤ maxOpCount by decide) rfl rfl rfl).trans (hfits hashed le_rfl rfl)
  have hrun₂ : (step env hashed).2 = .ok pushed := by
    refine step_pushValue hop₂ (pushCode_le _) ?_ rfl ?_
    · rw [length_hash160]
      decide
    · show (env.hash .hash160 script :: stack).length + 0 < maxStackSize
      rw [List.length_cons]
      omega
  have hrun₃ : (step env pushed).2 = .ok compared := by
    have hstep := @step_op env pushed _ _ (.onStack (.equal false)) hop₃ (by decide)
      (show 2 ≤ maxOpCount by decide) rfl rfl rfl
    have hexec : (exec env { pushed with pc := [], nOpCount := pushed.nOpCount + 1 }
        (.onStack (.equal false))).2 = .ok compared := by
      simp only [exec, pushed, exec_equal, bind, Except.bind, pure, Except.pure, compared]
    rw [hexec] at hstep
    exact hstep.trans (hfits compared le_rfl rfl)
  have hruns : Interpreter.Runs env (start (script :: stack) scriptPubKey) (.ok compared) := by
    refine .step ?_ hrun₁ (.step ?_ hrun₂ (.step ?_ hrun₃ (.done rfl)))
    · exact CScript.length_getOp hop₁
    · exact CScript.length_getOp hop₂
    · exact CScript.length_getOp hop₃
  have hsize : scriptPubKey.length ≤ maxScriptSize := by
    rw [← hscript, List.length_cons, List.length_cons, List.length_append, length_hash160]
    decide
  rw [evalScript_of_runs hsize hruns]
  rfl

theorem isTrueOnTop_ofBool {b : Bool} : isTrueOnTop (ofBool b :: stack) = .ok () ↔ b = true := by
  cases b with
  | false => exact ⟨fun h => (by cases h), fun h => (by cases h)⟩
  | true => exact ⟨fun _ => rfl, fun _ => rfl⟩

theorem length_of_isSigOrEmpty (h : IsSigOrEmpty env sig) : sig.length ≤ 73 := by
  rcases h with rfl | hcanonical
  · exact Nat.zero_le _
  · unfold isCanonicalSignature at hcanonical
    split at hcanonical
    · cases hcanonical
    · next hlength =>
      simp only [Bool.or_eq_true, decide_eq_true_eq, not_or, not_lt] at hlength
      exact hlength.2

theorem length_of_isCanonicalPubKey {key : Valtype} (h : isCanonicalPubKey key = true) :
    key.length ≤ 65 := by
  unfold isCanonicalPubKey at h
  split at h
  · cases h
  split at h
  · exact (of_decide_eq_true h).le
  split at h
  · exact (of_decide_eq_true h).le.trans (by decide)
  · cases h

/-- A canonical signature is no public key. -/
theorem isCanonicalPubKey_of_signature (h : isCanonicalSignature env sig = true) :
    isCanonicalPubKey sig = false := by
  have hfirst : sig[0]? = some 0x30 := by
    unfold isCanonicalSignature at h
    split at h
    · cases h
    dsimp only at h
    split at h
    · cases h
    split at h
    · cases h
    next hfirst =>
      rw [not_not, List.getD_eq_getElem?_getD] at hfirst
      cases hget : sig[0]? with
      | none =>
        rw [hget] at hfirst
        cases hfirst
      | some b =>
        rw [hget] at hfirst
        exact congrArg some hfirst
  unfold isCanonicalPubKey
  rw [hfirst]
  split
  · rfl
  · rfl

/-- What the multi-signature script makes of the values of an input. -/
theorem evalScript_values (hscript : MultiSigScript script m keys)
    (hkeys : ∀ key ∈ keys, isCanonicalPubKey key = true)
    (hvalues : ∀ vch ∈ values, IsSigOrEmpty env vch) (hcount : values.length ≤ maxStackSize) :
    (∃ result, (evalScript env values.reverse script).2 = .ok result ∧
        isTrueOnTop result = .ok ()) ↔
      values.length + keys.length + 2 ≤ maxStackSize ∧ m + 1 ≤ values.length ∧
      matchSigs (fun sig key => (checkOne env sig key script).2) keys.reverse
        (values.reverse.take m) = true := by
  have hlength : ∀ key ∈ keys, key.length ≤ 65 := fun key hmem =>
    length_of_isCanonicalPubKey (hkeys key hmem)
  have helement : ∀ key ∈ keys, key.length ≤ maxScriptElementSize := fun key hmem =>
    (hlength key hmem).trans (by decide)
  have hsize := hscript.length_le hlength
  have hsigs : ∀ sig ∈ values.reverse.take m, sig.length < opPushdata1 ∧ sig ∉ keys := by
    intro sig hmem
    have hsig := hvalues sig (List.mem_reverse.mp (List.mem_of_mem_take hmem))
    refine ⟨(length_of_isSigOrEmpty hsig).trans_lt (by decide), fun hkey => ?_⟩
    have hcanonical := hkeys sig hkey
    rcases hsig with rfl | hsig
    · cases hcanonical
    · rw [isCanonicalPubKey_of_signature hsig] at hcanonical
      cases hcanonical
  by_cases hroom : values.length + keys.length + 2 ≤ maxStackSize
  · rw [hscript.evalScript helement hsize (by rw [List.length_reverse]; exact hroom) hsigs,
      List.length_reverse]
    split
    · next hshort =>
      refine ⟨fun h => ?_, fun h => absurd h.2.1 (Nat.not_le.mpr hshort)⟩
      obtain ⟨result, hresult, -⟩ := h
      cases hresult
    · next henough =>
      refine ⟨fun h => ?_, fun h => ⟨_, rfl, isTrueOnTop_ofBool.mpr h.2.2⟩⟩
      obtain ⟨result, hresult, htop⟩ := h
      obtain rfl := Except.ok.inj hresult
      exact ⟨hroom, Nat.not_lt.mp henough, isTrueOnTop_ofBool.mp htop⟩
  · rw [hscript.evalScript_overflows helement hsize (by rw [List.length_reverse]; exact hcount)
      (by rw [List.length_reverse]; exact Nat.not_le.mp hroom)]
    refine ⟨fun h => ?_, fun h => absurd h.1 hroom⟩
    obtain ⟨result, hresult, -⟩ := h
    cases hresult

theorem PaysTo.size_more (h : PaysTo env script scriptPubKey more) :
    ∀ vch ∈ more, vch.length ≤ maxScriptElementSize := by
  cases h with
  | bare => exact fun vch hmem => absurd hmem List.not_mem_nil
  | scriptHash hsize => exact List.forall_mem_singleton.mpr hsize

theorem PaysTo.length_more (h : PaysTo env script scriptPubKey more) : more.length ≤ 1 := by
  cases h with
  | bare => exact Nat.zero_le 1
  | scriptHash => exact le_rfl

/-- A script for an input that leaves what the script accepts is accepted, if there is room for
the hash. -/
theorem PaysTo.accepts (hpays : PaysTo env script scriptPubKey more)
    (hhash : script.isPayToScriptHash = false)
    (hsig : (evalScript env [] scriptSig).2 = .ok (values ++ more).reverse)
    (hpush : isPushOnly scriptSig = true) (hroom : values.length + 2 ≤ maxStackSize)
    {result : Stack} (hrun : (evalScript env values.reverse script).2 = .ok result)
    (htop : isTrueOnTop result = .ok ()) :
    (verifyScript env scriptSig scriptPubKey).2 = .ok () := by
  unfold verifyScript
  generalize evalScript env [] scriptSig = first at hsig ⊢
  obtain ⟨n₁, first⟩ := first
  dsimp only at hsig
  subst hsig
  dsimp only
  cases hpays with
  | bare =>
    rw [List.append_nil]
    generalize evalScript env values.reverse script = second at hrun ⊢
    obtain ⟨n₂, second⟩ := second
    dsimp only at hrun
    subst hrun
    dsimp only
    rw [htop, hhash]
    rfl
  | scriptHash =>
    rw [List.reverse_append, List.reverse_singleton, List.singleton_append]
    have hsecond := @evalScript_scriptID env script values.reverse
      (by rw [List.length_reverse]; exact hroom)
    generalize evalScript env (script :: values.reverse) _ = second at hsecond ⊢
    obtain ⟨n₂, second⟩ := second
    dsimp only at hsecond
    subst hsecond
    dsimp only
    rw [isTrueOnTop_ofBool.mpr rfl]
    dsimp only
    rw [if_pos (isPayToScriptHash_iff.mpr ⟨_, length_hash160 script, rfl⟩), if_pos hpush, hrun]
    exact htop

namespace PartialScript

/-- The evaluation of a partial script, in any environment. -/
theorem evalScript (h : PartialScript env more scriptSig values)
    (hpays : PaysTo env script scriptPubKey more) (anyEnv : EvalEnv) :
    (Interpreter.evalScript anyEnv [] scriptSig).2 = .ok (values ++ more).reverse := by
  refine h.pushes.evalScript h.size (fun vch hmem => ?_) h.count
  rcases List.mem_append.mp hmem with hmem | hmem
  · exact (length_of_isSigOrEmpty (h.sigs vch hmem)).trans (by decide)
  · exact hpays.size_more vch hmem

theorem leftStack_eq (h : PartialScript env more scriptSig values)
    (hpays : PaysTo env script scriptPubKey more) (emptyEnv : EvalEnv) :
    (leftStack emptyEnv scriptSig).reverse = values ++ more := by
  rw [leftStack_of_evalScript (h.evalScript hpays emptyEnv), List.reverse_reverse]

/-- A partial script that is accepted is accepted by the multi-signature script. -/
theorem accepted (h : PartialScript env more scriptSig values)
    (hpays : PaysTo env script scriptPubKey more)
    (hok : (verifyScript env scriptSig scriptPubKey).2 = .ok ()) :
    ∃ result, (Interpreter.evalScript env values.reverse script).2 = .ok result ∧
      isTrueOnTop result = .ok () := by
  have hsig := h.evalScript hpays env
  unfold verifyScript at hok
  generalize Interpreter.evalScript env [] scriptSig = first at hsig hok
  obtain ⟨n₁, first⟩ := first
  dsimp only at hsig
  subst hsig
  dsimp only at hok
  split at hok
  · cases hok
  next n₂ stack₂ hpubKey =>
  split at hok
  · cases hok
  next htop =>
  cases hpays with
  | bare =>
    rw [List.append_nil] at hpubKey
    exact ⟨stack₂, congrArg Prod.snd hpubKey, htop⟩
  | scriptHash =>
    rw [if_pos (isPayToScriptHash_iff.mpr ⟨_, length_hash160 script, rfl⟩)] at hok
    split at hok
    · rw [List.reverse_append, List.reverse_singleton, List.singleton_append] at hok
      dsimp only at hok
      cases hrun : (Interpreter.evalScript env values.reverse script).2 with
      | error e =>
        rw [hrun] at hok
        cases hok
      | ok result =>
        rw [hrun] at hok
        exact ⟨result, rfl, hok⟩
    · cases hok

/-- What the multi-signature script accepts is accepted, if there is room for the hash. -/
theorem accepts (h : PartialScript env more scriptSig values)
    (hpays : PaysTo env script scriptPubKey more) (hhash : script.isPayToScriptHash = false)
    (hroom : values.length + 2 ≤ maxStackSize) {result : Stack}
    (hrun : (Interpreter.evalScript env values.reverse script).2 = .ok result)
    (htop : isTrueOnTop result = .ok ()) :
    (verifyScript env scriptSig scriptPubKey).2 = .ok () :=
  hpays.accepts hhash (h.evalScript hpays env) h.pushes.isPushOnly hroom hrun htop

end PartialScript

end verify

/-! ## Combining -/

/-- The public keys among the solutions. -/
def pubKeysOf (vSolutions : List Valtype) : List Valtype :=
  (vSolutions.drop 1).take (vSolutions.length - 2)

section combine

variable {emptyEnv env : EvalEnv} {script scriptPubKey s1 s2 : CScript} {m : Nat}
  {vSolutions keys sigs1 sigs2 more merged values : List Valtype}

theorem firstByte_of_multisig {n : UInt8}
    (h : vSolutions = [UInt8.ofNat m] :: keys ++ [[n]]) (hm : m ≤ 16) :
    firstByte vSolutions.head? = m := by
  rw [h]
  exact (UInt8.toNat_ofNat' ..).trans (Nat.mod_eq_of_lt (by omega))

theorem pubKeysOf_of_multisig {n : UInt8}
    (h : vSolutions = [UInt8.ofNat m] :: keys ++ [[n]]) : pubKeysOf vSolutions = keys := by
  unfold pubKeysOf
  rw [h, List.length_append, List.length_cons, List.length_singleton]
  exact List.take_left' (by omega)

theorem combineTyped_multisig (fuel : Nat) : combineTyped env fuel script .multisig vSolutions
    sigs1 sigs2 = combineMultisig env script vSolutions sigs1 sigs2 := by
  cases fuel <;> rfl

theorem combineMultisig_eq : combineMultisig env script vSolutions sigs1 sigs2 =
    pushAll (combined (firstByte vSolutions.head?) (mergedSigs env script
      (firstByte vSolutions.head?) (pubKeysOf vSolutions) sigs1 sigs2)) := rfl

/-- What `CombineSignatures` returns. -/
theorem combineSignatures_eq (hsolver : solver script = (true, .multisig, vSolutions))
    (hne : script ≠ []) (hpays : PaysTo env script scriptPubKey more)
    (h1 : PartialScript env more s1 sigs1) (h2 : PartialScript env more s2 sigs2) :
    combineSignatures emptyEnv env scriptPubKey s1 s2 =
      pushAll (combined (firstByte vSolutions.head?) (mergedSigs env script
        (firstByte vSolutions.head?) (pubKeysOf vSolutions) sigs1 sigs2) ++ more) := by
  unfold combineSignatures
  rw [h1.leftStack_eq hpays, h2.leftStack_eq hpays]
  cases hpays with
  | bare =>
    rw [hsolver, List.append_nil, List.append_nil, List.append_nil]
    dsimp only
    rw [combineTyped_multisig, combineMultisig_eq]
  | scriptHash =>
    rw [solver_scriptID (length_hash160 script)]
    dsimp only
    obtain ⟨b, tail, rfl⟩ := List.exists_cons_of_ne_nil hne
    rw [combineTyped, List.getLast?_concat, List.getLast?_concat]
    dsimp only
    rw [hsolver, List.dropLast_concat, List.dropLast_concat]
    dsimp only
    rw [combineTyped_multisig, combineMultisig_eq, pushAll, pushAll, List.flatMap_append,
      List.flatMap_singleton]

theorem length_pushOf_le {vch : Valtype} (h : vch.length ≤ 0xffff) :
    (pushOf vch).length ≤ vch.length + 3 := by
  unfold pushOf
  split
  · rw [List.length_cons]
    omega
  split
  · rw [List.length_cons, List.length_cons]
    omega
  · rw [List.length_cons, List.length_cons, List.length_cons]

theorem length_pushAll_le {values : List Valtype} {n : Nat} (hn : n ≤ 0xffff)
    (h : ∀ vch ∈ values, vch.length ≤ n) : (pushAll values).length ≤ values.length * (n + 3) := by
  induction values with
  | nil => exact Nat.zero_le _
  | cons vch values ih =>
    obtain ⟨hfirst, hrest⟩ := List.forall_mem_cons.mp h
    have hpush := length_pushOf_le (hfirst.trans hn)
    have hall := ih hrest
    rw [List.length_cons, Nat.succ_mul]
    show (pushOf vch ++ pushAll values).length ≤ _
    rw [List.length_append]
    omega

/-- The values of a signature script fit. -/
theorem pushes_pushAll_small (h : ∀ vch ∈ values, vch.length ≤ maxScriptElementSize)
    (hcount : values.length ≤ 18) :
    Pushes (pushAll values) values [] ∧ (pushAll values).length ≤ maxScriptSize := by
  have hpushes := pushes_pushAll (fun vch hmem => (h vch hmem).trans (by decide)) []
  rw [List.append_nil] at hpushes
  refine ⟨hpushes, (length_pushAll_le (by decide) h).trans ?_⟩
  exact (Nat.mul_le_mul_right _ hcount).trans (by decide)

/-- The merged script is a partial script. -/
theorem partialScript_combined (hpays : PaysTo env script scriptPubKey more) (hm : m ≤ 16)
    (hle : merged.length ≤ m) (hmerged : ∀ sig ∈ merged, isCanonicalSignature env sig = true) :
    PartialScript env more (pushAll (combined m merged ++ more)) (combined m merged) := by
  have hsigs : ∀ sig ∈ combined m merged, IsSigOrEmpty env sig := by
    intro sig hmem
    rcases List.mem_append.mp hmem with hmem | hmem
    · rcases List.mem_cons.mp hmem with rfl | hmem
      · exact .inl rfl
      · exact .inr (hmerged sig hmem)
    · exact .inl (List.eq_of_mem_replicate hmem)
  have hsmall : ∀ vch ∈ combined m merged ++ more, vch.length ≤ maxScriptElementSize := by
    intro vch hmem
    rcases List.mem_append.mp hmem with hmem | hmem
    · exact (length_of_isSigOrEmpty (hsigs vch hmem)).trans (by decide)
    · exact hpays.size_more vch hmem
  have hlength : (combined m merged ++ more).length ≤ 18 := by
    have hmore := hpays.length_more
    rw [List.length_append, length_combined hle]
    omega
  obtain ⟨hpushes, hsize⟩ := pushes_pushAll_small hsmall hlength
  exact ⟨hpushes, hsize, hlength.trans (by decide), hsigs⟩

end combine

/-- Signatures that satisfy `OP_CHECKMULTISIG` cover as many keys as are required. -/
theorem le_countP_of_matchSigs {ok : Valtype → Valtype → Bool} {keys values : List Valtype}
    {m : Nat} {isCovered : Valtype → Bool} (hm : m ≤ values.length)
    (hcovered : ∀ sig ∈ values, ∀ key, ok sig key = true → isCovered key = true)
    (h : matchSigs ok keys.reverse (values.reverse.take m) = true) :
    m ≤ keys.countP isCovered := by
  obtain ⟨used, hused, hforall⟩ := matchSigs_iff.mp h
  have hlength : used.length = m := by
    rw [← hforall.length_eq, List.length_take, List.length_reverse]
    omega
  have hall : ∀ key ∈ used, isCovered key = true := by
    intro key hkey
    obtain ⟨sig, hsig, hok⟩ := exists_of_forall₂ hforall.flip key hkey
    exact hcovered sig (List.mem_reverse.mp (List.mem_of_mem_take hsig)) key hok
  calc m = used.countP isCovered := by rw [List.countP_eq_length.mpr hall, hlength]
    _ ≤ keys.reverse.countP isCovered := hused.countP_le
    _ = keys.countP isCovered := List.countP_reverse

/-- What the combined script holds, and when it is accepted. -/
theorem combineSignatures_spec {emptyEnv env : EvalEnv} {script scriptPubKey s1 s2 : CScript}
    {vSolutions sigs1 sigs2 more : List Valtype}
    (hsolver : solver script = (true, .multisig, vSolutions))
    (hpays : PaysTo env script scriptPubKey more)
    (hkeys : ∀ key ∈ pubKeysOf vSolutions, isCanonicalPubKey key = true)
    (h1 : PartialScript env more s1 sigs1) (h2 : PartialScript env more s2 sigs2)
    (hideal : Ideal env script (pubKeysOf vSolutions) (sigs1 ++ sigs2)) :
    (∃ sigs, PartialScript env more (combineSignatures emptyEnv env scriptPubKey s1 s2) sigs) ∧
    ((verifyScript env (combineSignatures emptyEnv env scriptPubKey s1 s2) scriptPubKey).2 =
        .ok () ↔
      firstByte vSolutions.head? ≤
        (pubKeysOf vSolutions).countP (covered env script (sigs1 ++ sigs2))) ∧
    combineSignatures emptyEnv env scriptPubKey s1 s2 =
      combineSignatures emptyEnv env scriptPubKey s2 s1 ∧
    ((verifyScript env s1 scriptPubKey).2 = .ok () →
      (verifyScript env (combineSignatures emptyEnv env scriptPubKey s1 s2) scriptPubKey).2 =
        .ok ()) := by
  obtain ⟨hhash, m, keys, hsolutions, hscript, -⟩ := multiSigScript_of_solver hsolver
  have hfirst := firstByte_of_multisig hsolutions (hscript.le.trans hscript.le16)
  have hpubKeys := pubKeysOf_of_multisig hsolutions
  have hne : script ≠ [] := by
    rintro rfl
    obtain ⟨pc₁, pc₂, pc₃, hop₁, -⟩ := hscript.instructions
    exact absurd (CScript.length_getOp hop₁) (Nat.not_lt_zero _)
  have hm : m ≤ 16 := hscript.le.trans hscript.le16
  rw [combineSignatures_eq hsolver hne hpays h1 h2, combineSignatures_eq hsolver hne hpays h2 h1,
    hfirst, hpubKeys]
  rw [hpubKeys] at hkeys hideal
  have hsigs : ∀ sig ∈ sigs1 ++ sigs2, IsSigOrEmpty env sig := by
    intro sig hmem
    rcases List.mem_append.mp hmem with hmem | hmem
    · exact h1.sigs sig hmem
    · exact h2.sigs sig hmem
  have hmergedLength := @mergedSigs_length env script keys sigs1 sigs2 m hkeys hsigs hideal
  have hle : (mergedSigs env script m keys sigs1 sigs2).length ≤ m :=
    hmergedLength.trans_le (Nat.min_le_left _ _)
  obtain ⟨used, hused, hvalid⟩ := @mergedSigs_forall env script keys sigs1 sigs2 m hkeys hsigs
  have hcombined := partialScript_combined hpays hm hle fun sig hsig =>
    mergedSigs_canonical hkeys hsigs hsig
  have hmatch := matchSigs_combined (fun key => checkOne_nil) hle hused hvalid
  have hcount := length_combined hle
  have hvalues := evalScript_values hscript hkeys hcombined.sigs
    (by rw [hcount]; unfold maxStackSize; omega)
  have hkeys16 := hscript.le16
  -- the merged script is accepted when none of the signatures is missing
  have hiff : (verifyScript env (pushAll (combined m (mergedSigs env script m keys sigs1 sigs2) ++
      more)) scriptPubKey).2 = .ok () ↔ m ≤ keys.countP (covered env script (sigs1 ++ sigs2)) := by
    have hmin : m ≤ (mergedSigs env script m keys sigs1 sigs2).length ↔
        m ≤ keys.countP (covered env script (sigs1 ++ sigs2)) := by
      rw [hmergedLength, Nat.le_min]
      exact and_iff_right le_rfl
    rw [← hmin]
    constructor
    · intro hok
      exact hmatch.mp (hvalues.mp (hcombined.accepted hpays hok)).2.2
    · intro henough
      obtain ⟨result, hrun, htop⟩ := hvalues.mpr ⟨by rw [hcount]; unfold maxStackSize; omega,
        hcount.ge, hmatch.mpr henough⟩
      exact hcombined.accepts hpays hhash (by rw [hcount]; unfold maxStackSize; omega) hrun htop
  refine ⟨⟨_, hcombined⟩, hiff, by rw [mergedSigs_comm], fun hok => hiff.mpr ?_⟩
  have hcount1 : sigs1.length ≤ maxStackSize := by
    have hle := h1.count
    rw [List.length_append] at hle
    omega
  obtain ⟨-, hlong, hmatch1⟩ :=
    (evalScript_values hscript hkeys h1.sigs hcount1).mp (h1.accepted hpays hok)
  refine le_countP_of_matchSigs (Nat.le_of_succ_le hlong) (fun sig hsig key hvalid => ?_) hmatch1
  exact List.any_eq_true.mpr ⟨sig, List.mem_append_left _ hsig, hvalid⟩

section samples

/-- One signature is good for the key, and no other. -/
def oneKeyEnv (key : Valtype) : EvalEnv :=
  { sampleEnv with checkSig := fun vchSig vchPubKey _ => vchSig == sampleSig && vchPubKey == key }

/-- A compressed key. -/
def compressedKey (b : UInt8) : Valtype := 0x02 :: b :: List.replicate 31 1

/-- Any one of the compressed keys is enough. -/
def anyOf (bs : List UInt8) : CScript := setMultisig 1 (bs.map compressedKey)

theorem partialScript_sample :
    PartialScript (oneKeyEnv (compressedKey 0)) [] (pushAll [[], sampleSig]) [[], sampleSig] where
  pushes := by
    have hpushes := @pushes_pushAll [[], sampleSig] (by decide) []
    rw [List.append_nil] at hpushes
    exact hpushes
  size := by decide
  count := by decide
  sigs := List.forall_mem_cons.mpr ⟨.inl rfl, List.forall_mem_singleton.mpr (.inr (by
    decide +kernel))⟩

/-- A script that is too long for an element of the stack. -/
def longScript : CScript := anyOf [0, 1, 2, 3, 4, 5, 6, 7, 8, 9, 10, 11, 12, 13, 14, 15]

def longScriptHash : CScript :=
  (CTxDestination.scriptID (sampleEnv.hash .hash160 longScript)).script

end samples

end NoLimitCoin
