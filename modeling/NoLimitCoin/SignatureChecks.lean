import NoLimitCoin.Connected
import NoLimitCoin.InterpreterChecks

/-!
# The signature checks of a block

`ConnectBlock` adds up the operations of the scripts a transaction brings itself: its `scriptSig`s,
its outputs, and the redeem scripts of its inputs.  The `scriptPubKey` an input spends was counted
by the block that has it, so it is no part of the sum.

Results:

1. `suppliedChecks_le`, `txChecks_le`: the checks of the scripts of an input and of a transaction.
2. `connectTx_sigOps`, `connectBlock_sigOps`: what `ConnectBlock` counts.
3. `signatureChecks_bounded`: both together.
-/

namespace NoLimitCoin

open Prog NodeM

namespace Interpreter

/-- The checks of the scripts an input brings itself: all but those of the `scriptPubKey`, which is
evaluated second. -/
def suppliedChecks (env : EvalEnv) (scriptSig scriptPubKey : CScript) : Nat :=
  (((verifyScript env scriptSig scriptPubKey).1.eraseIdx 1).map Prod.snd).sum

/-- The redeem script makes no more checks than are counted for it. -/
theorem redeem_le (env : EvalEnv) {scriptSig scriptPubKey redeem : CScript} {n₃ : Nat}
    {first second : CScript × Nat}
    (h : (verifyScript env scriptSig scriptPubKey).1 = [first, second, (redeem, n₃)]) :
    n₃ ≤ scriptPubKey.getSigOpCountFor scriptSig := by
  obtain ⟨hhash, -, hwhich⟩ := verifyScript_redeem env h
  unfold CScript.getSigOpCountFor
  rw [hhash]
  rcases hwhich with hlast | ⟨-, rfl, -⟩
  · rw [hlast]
    exact verifyScript_checks env scriptSig scriptPubKey (redeem, n₃) (by rw [h]; simp)
  · exact Nat.zero_le _

/-- The evaluations of `VerifyScript`, by how far it gets. -/
theorem verifyScript_cases (env : EvalEnv) (scriptSig scriptPubKey : CScript) : ∃ n₁,
    (verifyScript env scriptSig scriptPubKey).1 = [(scriptSig, n₁)] ∨
    (∃ n₂, (verifyScript env scriptSig scriptPubKey).1 = [(scriptSig, n₁), (scriptPubKey, n₂)]) ∨
    ∃ n₂ redeem n₃, (verifyScript env scriptSig scriptPubKey).1 =
      [(scriptSig, n₁), (scriptPubKey, n₂), (redeem, n₃)] := by
  unfold verifyScript
  split
  · next n₁ e he => exact ⟨n₁, .inl rfl⟩
  · next n₁ stack he =>
    refine ⟨n₁, .inr ?_⟩
    split
    · next n₂ e he₂ => exact .inl ⟨n₂, rfl⟩
    · next n₂ stack₂ he₂ =>
      split
      · exact .inl ⟨n₂, rfl⟩
      · split
        · split
          · cases stack with
            | nil => exact .inl ⟨n₂, rfl⟩
            | cons pubKey2 stackCopy => exact .inr ⟨n₂, pubKey2, _, rfl⟩
          · exact .inl ⟨n₂, rfl⟩
        · exact .inl ⟨n₂, rfl⟩

theorem suppliedChecks_le (env : EvalEnv) (scriptSig scriptPubKey : CScript) :
    suppliedChecks env scriptSig scriptPubKey ≤ scriptSig.getSigOpCount false +
      if scriptPubKey.isPayToScriptHash then scriptPubKey.getSigOpCountFor scriptSig else 0 := by
  have hchecks := verifyScript_checks env scriptSig scriptPubKey
  have hcount := getSigOpCount_le scriptSig
  unfold suppliedChecks
  obtain ⟨n₁, hone | ⟨n₂, htwo⟩ | ⟨n₂, redeem, n₃, hthree⟩⟩ :=
    verifyScript_cases env scriptSig scriptPubKey
  · rw [hone] at hchecks ⊢
    have h₁ : n₁ ≤ scriptSig.getSigOpCount true := hchecks (scriptSig, n₁) (by simp)
    show n₁ + 0 ≤ _
    omega
  · rw [htwo] at hchecks ⊢
    have h₁ : n₁ ≤ scriptSig.getSigOpCount true := hchecks (scriptSig, n₁) (by simp)
    show n₁ + 0 ≤ _
    omega
  · have h₃ := redeem_le env hthree
    rw [if_pos (verifyScript_redeem env hthree).1]
    rw [hthree] at hchecks ⊢
    have h₁ : n₁ ≤ scriptSig.getSigOpCount true := hchecks (scriptSig, n₁) (by simp)
    show n₁ + (n₃ + 0) ≤ _
    omega

end Interpreter

namespace CTransaction

open Interpreter

/-- The checks of the scripts an input brings, against the output it spends. -/
def inputChecks (env : Nat → EvalEnv) (inputs : MapPrevTx) (item : CTxIn × Nat) : Nat :=
  match getOutputFor inputs item.1 with
  | .error _ => 0
  | .ok prevout => suppliedChecks (env item.2) item.1.scriptSig prevout.scriptPubKey

def suppliedTxChecks (env : Nat → EvalEnv) (tx : CTransaction) (inputs : MapPrevTx) : Nat :=
  (tx.vin.zipIdx.map (inputChecks env inputs)).sum

/-- The loop of `GetP2SHSigOpCount` against the inputs it counts. -/
theorem suppliedChecks_loop (env : Nat → EvalEnv) (inputs : MapPrevTx) (vin : List CTxIn)
    (i nSigOps : Nat) {n : Nat}
    (h : vin.foldlM (fun nSigOps txin => do
      let prevout ← getOutputFor inputs txin
      pure (if prevout.scriptPubKey.isPayToScriptHash then
          nSigOps + prevout.scriptPubKey.getSigOpCountFor txin.scriptSig
        else nSigOps)) nSigOps = (.ok n : Except Exit Nat)) :
    nSigOps + ((vin.zipIdx i).map (inputChecks env inputs)).sum ≤
      n + (vin.map fun txin => txin.scriptSig.getSigOpCount false).sum := by
  induction vin generalizing i nSigOps with
  | nil =>
    cases h
    exact Nat.le_refl _
  | cons txin vin ih =>
    rw [List.foldlM_cons] at h
    obtain ⟨nSigOps', hfirst, hrest⟩ := except_bind_eq_ok.mp h
    obtain ⟨prevout, hprevout, hsum⟩ := except_bind_eq_ok.mp hfirst
    have hrest := ih (i + 1) nSigOps' hrest
    have hone := suppliedChecks_le (env i) txin.scriptSig prevout.scriptPubKey
    have hchecks : inputChecks env inputs (txin, i) =
        suppliedChecks (env i) txin.scriptSig prevout.scriptPubKey := by
      unfold inputChecks
      dsimp only
      rw [hprevout]
    rw [List.zipIdx_cons, List.map_cons, List.sum_cons, List.map_cons, List.sum_cons, hchecks]
    cases hsum
    split at hone
    · next hhash =>
      rw [if_pos hhash] at hrest
      omega
    · next hhash =>
      rw [if_neg hhash] at hrest
      omega

theorem suppliedTxChecks_le (env : Nat → EvalEnv) {tx : CTransaction} {inputs : MapPrevTx} {n : Nat}
    (hbase : tx.isCoinBase = false) (h : tx.getP2SHSigOpCount inputs = .ok n) :
    tx.suppliedTxChecks env inputs ≤ tx.getLegacySigOpCount + n := by
  unfold getP2SHSigOpCount at h
  rw [hbase] at h
  have hloop := suppliedChecks_loop env inputs tx.vin 0 0 h
  unfold suppliedTxChecks getLegacySigOpCount
  omega

end CTransaction

namespace CBlock

open CTransaction Interpreter

theorem tally_sigOps {nBestHeight : Int} {tx : CTransaction} {inputs : MapPrevTx}
    {s s' : ConnectState} (h : tally nBestHeight tx inputs s = .ok s') :
    s'.nSigOps = s.nSigOps := by
  unfold tally at h
  obtain ⟨_, _, h⟩ := except_bind_eq_ok.mp h
  obtain ⟨_, _, h⟩ := except_bind_eq_ok.mp h
  obtain ⟨_, _, h⟩ := except_bind_eq_ok.mp h
  obtain ⟨_, _, h⟩ := except_bind_eq_ok.mp h
  split at h
  · obtain ⟨_, _, h⟩ := except_bind_eq_ok.mp h
    obtain rfl := Except.ok.inj h
    rfl
  · obtain ⟨_, _, h⟩ := except_bind_eq_ok.mp h
    obtain ⟨_, _, h⟩ := except_bind_eq_ok.mp h
    obtain ⟨_, _, h⟩ := except_bind_eq_ok.mp h
    obtain rfl := Except.ok.inj h
    rfl

/-- What a round of the loop of `ConnectBlock` counts, and that its inputs are the ones whose
signatures are verified. -/
theorem connectTx_sigOps {env : Env} {pindex : Uint256} {index : CBlockIndex} {fJustCheck : Bool}
    {s s' : ConnectState} {tx : CTransaction} {w w' : World}
    (h : connectTx env pindex index fJustCheck s tx w = .ok s' w') :
    s'.nSigOps ≤ maxBlockSigops ∧
      (tx.isCoinBase = true → s.nSigOps ≤ s'.nSigOps) ∧
      (tx.isCoinBase = false → ∃ inputs n, tx.getP2SHSigOpCount inputs = .ok n ∧
        s'.nSigOps = s.nSigOps + tx.getLegacySigOpCount + n ∧
        ∃ node queue queue' pos,
          tx.connectInputs env node inputs queue pos (some pindex) true false = .ok queue') := by
  obtain ⟨txindexOld, w₁, hread, h⟩ := bind_eq_ok.mp h
  obtain ⟨_, w₂, hoverwrites, h⟩ := bind_eq_ok.mp h
  obtain ⟨_, w₃, hsigops, h⟩ := bind_eq_ok.mp h
  obtain ⟨s₁, w₄, hs₁, h⟩ := bind_eq_ok.mp h
  obtain ⟨rfl, -⟩ := pure_eq_ok.mp h
  have hlegacy := of_decide_eq_true (require_run_eq_ok.mp hsigops).1
  cases hbase : tx.isCoinBase with
  | true =>
    rw [hbase] at hs₁
    obtain ⟨v, w₅, hv, hs₁⟩ := bind_eq_ok.mp hs₁
    obtain ⟨sum, w₆, hsum, hs₁⟩ := bind_eq_ok.mp hs₁
    obtain ⟨rfl, -⟩ := pure_eq_ok.mp hs₁
    exact ⟨hlegacy, fun _ => Nat.le_add_right _ _, fun hnot => (by cases hnot)⟩
  | false =>
    rw [hbase] at hs₁
    obtain ⟨inputs, w₅, hfetch, hs₁⟩ := bind_eq_ok.mp hs₁
    obtain ⟨n, w₆, hcount, hs₁⟩ := bind_eq_ok.mp hs₁
    obtain ⟨_, w₇, hrequire, hs₁⟩ := bind_eq_ok.mp hs₁
    obtain ⟨node, w₈, hnode, hs₁⟩ := bind_eq_ok.mp hs₁
    obtain ⟨s₂, w₉, htally, hs₁⟩ := bind_eq_ok.mp hs₁
    obtain ⟨queue, w₁₀, hconnect, hs₁⟩ := bind_eq_ok.mp hs₁
    obtain ⟨rfl, -⟩ := pure_eq_ok.mp hs₁
    have hsigOps := tally_sigOps (fromExcept_eq_ok.mp htally).1
    have hle := of_decide_eq_true (require_run_eq_ok.mp hrequire).1
    refine ⟨?_, fun hnot => (by cases hnot), fun _ => ⟨inputs, n,
      (fromExcept_eq_ok.mp hcount).1, ?_, node, _, queue, _,
      mapError_eq_ok.mp (fromExcept_eq_ok.mp hconnect).1⟩⟩
    · show s₂.nSigOps ≤ _
      rw [hsigOps]
      exact hle
    · exact hsigOps

/-- The transactions of a block that spend, each with the outputs its signatures are verified
against. -/
structure Spends (env : Env) (pindex : Uint256) (vtx : List CTransaction)
    (spends : List (CTransaction × MapPrevTx)) : Prop where
  all : spends.map Prod.fst = vtx.filter fun tx => !tx.isCoinBase
  connected : ∀ spend ∈ spends, ∃ node queue queue' pos,
    spend.1.connectInputs env node spend.2 queue pos (some pindex) true false = .ok queue'

/-- The checks of the scripts that the inputs of a block bring. -/
def suppliedBlockChecks (env : CTransaction → Nat → EvalEnv)
    (spends : List (CTransaction × MapPrevTx)) : Nat :=
  (spends.map fun spend => spend.1.suppliedTxChecks (env spend.1) spend.2).sum

theorem connectLoop_sigOps {env : Env} {pindex : Uint256} {index : CBlockIndex} {fJustCheck : Bool}
    {vtx : List CTransaction} {s s' : ConnectState} {w w' : World}
    (hs : s.nSigOps ≤ maxBlockSigops)
    (h : vtx.foldlM (connectTx env pindex index fJustCheck) s w = .ok s' w') :
    s'.nSigOps ≤ maxBlockSigops ∧ ∃ spends, Spends env pindex vtx spends ∧
      ∀ ienv, s.nSigOps + suppliedBlockChecks ienv spends ≤ s'.nSigOps := by
  induction vtx generalizing s w with
  | nil =>
    obtain ⟨rfl, -⟩ := pure_eq_ok.mp h
    exact ⟨hs, [], ⟨rfl, fun _ hmem => (by cases hmem)⟩, fun _ => Nat.le_refl _⟩
  | cons tx vtx ih =>
    rw [List.foldlM_cons] at h
    obtain ⟨s₁, w₁, hfirst, hrest⟩ := bind_eq_ok.mp h
    obtain ⟨hle, hcoinBase, hspend⟩ := connectTx_sigOps hfirst
    obtain ⟨hle', spends, hspends, hchecks⟩ := ih hle hrest
    refine ⟨hle', ?_⟩
    cases hbase : tx.isCoinBase with
    | true =>
      refine ⟨spends, ⟨?_, hspends.connected⟩, fun ienv => ?_⟩
      · rw [List.filter_cons, hbase]
        exact hspends.all
      · exact (Nat.add_le_add_right (hcoinBase hbase) _).trans (hchecks ienv)
    | false =>
      obtain ⟨inputs, n, hcount, hsum, hconnect⟩ := hspend hbase
      refine ⟨(tx, inputs) :: spends, ⟨?_, ?_⟩, fun ienv => ?_⟩
      · rw [List.filter_cons, hbase, List.map_cons, hspends.all]
        rfl
      · exact List.forall_mem_cons.mpr ⟨hconnect, hspends.connected⟩
      · have hone := suppliedTxChecks_le (ienv tx) hbase hcount
        have hmore := hchecks ienv
        unfold suppliedBlockChecks at hmore ⊢
        rw [List.map_cons, List.sum_cons]
        dsimp only
        omega

/-- A block `ConnectBlock` accepts brings no more checks than `MAX_BLOCK_SIGOPS`. -/
theorem connectBlock_sigOps {env : Env} {block : CBlock} {pindex : Uint256} {fJustCheck : Bool}
    {w w' : World} (h : block.connectBlock env pindex fJustCheck w = .ok () w') :
    ∃ spends, Spends env pindex block.vtx spends ∧
      ∀ ienv, suppliedBlockChecks ienv spends ≤ maxBlockSigops := by
  obtain ⟨sys, w₁, hsys, h⟩ := bind_eq_ok.mp h
  obtain ⟨_, w₂, hblock, h⟩ := bind_eq_ok.mp h
  obtain ⟨index, w₃, hindex, h⟩ := bind_eq_ok.mp h
  obtain ⟨s, w₄, hloop, h⟩ := bind_eq_ok.mp h
  obtain ⟨hle, spends, hspends, hchecks⟩ := connectLoop_sigOps (Nat.zero_le _) hloop
  refine ⟨spends, hspends, fun ienv => ?_⟩
  exact ((Nat.le_add_left _ _).trans (hchecks ienv)).trans hle

end CBlock

namespace Interpreter

/-- The operations that are counted bound the checks that are made: of every script `VerifyScript`
evaluates; of the redeem script of a script hash, which is the script that is counted, but for a
`scriptSig` that ends with a small number; and of all scripts that the inputs of an accepted block
bring. -/
theorem signatureChecks_bounded :
    (∀ (env : EvalEnv) (scriptSig scriptPubKey : CScript),
      (∀ item ∈ (verifyScript env scriptSig scriptPubKey).1,
        item.2 ≤ item.1.getSigOpCount true ∧
          item.1.getSigOpCount true ≤ item.1.getSigOpCount false) ∧
      ∀ (redeem : CScript) (n₃ : Nat) (first second : CScript × Nat),
        (verifyScript env scriptSig scriptPubKey).1 = [first, second, (redeem, n₃)] →
          n₃ ≤ scriptPubKey.getSigOpCountFor scriptSig ∧
          (CScript.lastPush scriptSig.length [] scriptSig = some redeem ∨
            CScript.lastPush scriptSig.length [] scriptSig = some [] ∧ n₃ = 0 ∧
              (verifyScript env scriptSig scriptPubKey).2 = .error .returnFalse)) ∧
    ∀ (env : Env) (block : CBlock) (pindex : Uint256) (fJustCheck : Bool) (w w' : World),
      block.connectBlock env pindex fJustCheck w = .ok () w' →
        ∃ spends, CBlock.Spends env pindex block.vtx spends ∧
          ∀ ienv, CBlock.suppliedBlockChecks ienv spends ≤ maxBlockSigops := by
  refine ⟨fun env scriptSig scriptPubKey => ⟨fun item hitem => ?_,
    fun redeem n₃ first second h => ⟨redeem_le env h, (verifyScript_redeem env h).2.2⟩⟩,
    fun env block pindex fJustCheck w w' h => CBlock.connectBlock_sigOps h⟩
  exact ⟨verifyScript_checks env scriptSig scriptPubKey item hitem, getSigOpCount_le item.1⟩

section samples

/-- A script hash of zeros. -/
def sampleScriptHash : CScript := [0xa9, 0x14] ++ List.replicate 20 0 ++ [0x87]

/-- A canonical signature and a canonical public key, pushed. -/
def sampleScriptSig : CScript :=
  pushOf [0x30, 6, 2, 1, 1, 2, 1, 1, 1] ++ pushOf (2 :: List.replicate 32 0)

/-- Sixty times `OP_2DUP OP_CHECKSIG OP_DROP`, and `OP_CHECKSIG`. -/
def sampleScriptPubKey : CScript := (List.replicate 60 [0x6e, 0xac, 0x75]).flatten ++ [0xac]

/-- A transaction with `n` outputs of that script, and one that spends them all. -/
def sampleFrom (n : Nat) : CTransaction :=
  ⟨1, 0, [], List.replicate n ⟨1, sampleScriptPubKey⟩, 0⟩

def sampleTo (n : Nat) : CTransaction :=
  ⟨1, 0, (List.range n).map fun i => ⟨⟨7, i⟩, sampleScriptSig, uint32Max⟩, [], 0⟩

def sampleInputs (n : Nat) : MapPrevTx :=
  (∅ : MapPrevTx).insert 7 (.new ⟨1, 1, 1⟩ n, sampleFrom n)

theorem sampleTo_legacy (n : Nat) : (sampleTo n).getLegacySigOpCount = 0 := by
  have hzero : sampleScriptSig.getSigOpCount false = 0 := by decide +kernel
  unfold CTransaction.getLegacySigOpCount sampleTo
  rw [List.map_map]
  refine Nat.add_eq_zero_iff.mpr ⟨List.sum_eq_zero fun count hcount => ?_, rfl⟩
  obtain ⟨i, -, rfl⟩ := List.mem_map.mp hcount
  exact hzero

theorem sampleTo_p2sh (n : Nat) : (sampleTo n).getP2SHSigOpCount (sampleInputs n) = .ok 0 := by
  have hhash : sampleScriptPubKey.isPayToScriptHash = false := by decide +kernel
  have houtput : ∀ txin ∈ (sampleTo n).vin,
      CTransaction.getOutputFor (sampleInputs n) txin = .ok ⟨1, sampleScriptPubKey⟩ := by
    intro txin htxin
    obtain ⟨i, hi, rfl⟩ := List.mem_map.mp htxin
    unfold CTransaction.getOutputFor sampleInputs sampleFrom
    rw [Map.getElem?_insert, if_pos rfl]
    dsimp only
    rw [List.getElem?_replicate, if_pos (List.mem_range.mp hi)]
  have hloop : ∀ vin : List CTxIn, (∀ txin ∈ vin,
      CTransaction.getOutputFor (sampleInputs n) txin = .ok ⟨1, sampleScriptPubKey⟩) →
      vin.foldlM (fun nSigOps txin => do
        let prevout ← CTransaction.getOutputFor (sampleInputs n) txin
        pure (if prevout.scriptPubKey.isPayToScriptHash then
            nSigOps + prevout.scriptPubKey.getSigOpCountFor txin.scriptSig
          else nSigOps)) 0 = (.ok 0 : Except Exit Nat) := by
    intro vin
    induction vin with
    | nil => exact fun _ => rfl
    | cons txin vin ih =>
      intro hvin
      rw [List.forall_mem_cons] at hvin
      rw [List.foldlM_cons, hvin.1]
      dsimp only [bind, Except.bind, pure, Except.pure]
      rw [hhash]
      exact ih hvin.2
  unfold CTransaction.getP2SHSigOpCount
  split
  · rfl
  · exact hloop _ houtput

/-- The script that is counted is not the redeem script after `OP_1`; and a transaction that spends
6600 outputs counts for nothing, while its signatures take more checks than a block may count. -/
theorem signatureChecks_not_bounded :
    ((verifyScript sampleEnv [0x51] sampleScriptHash).1 =
        [([0x51], 0), (sampleScriptHash, 0), ([1], 0)] ∧
      CScript.lastPush 1 [] [0x51] = some []) ∧
    (sampleTo 6600).getLegacySigOpCount = 0 ∧
    (sampleTo 6600).getP2SHSigOpCount (sampleInputs 6600) = .ok 0 ∧
    maxBlockSigops < 6600 *
      ((verifyScript sampleEnv sampleScriptSig sampleScriptPubKey).1.map Prod.snd).sum := by
  refine ⟨⟨?_, ?_⟩, sampleTo_legacy 6600, sampleTo_p2sh 6600, ?_⟩
  · decide +kernel
  · decide +kernel
  · decide +kernel

end samples

end Interpreter

end NoLimitCoin
