import Mathlib.Algebra.Order.BigOperators.Group.List
import NoLimitCoin.Fetched

/-!
# Two computations of an input value

`ConnectInputs` adds up the inputs of a transaction itself, `GetValueIn` does it again for the
fee.  Both know the post-mine bonus, under different guards: `ConnectInputs` starts its sum
again with the bonus at every input that names `hashPostmine`, whatever the height and the
number of inputs; `GetValueIn` adds it for a single input from `POSTMINE_BLOCK` on.

Results:

1. `checkLoop_ok`: the sum of `ConnectInputs`.
2. `valueIn_agrees_iff`: for an accepted transaction the two values agree, and the fee is what
   `GetMinFee` asks for, exactly when `PostmineCounted` holds.
3. `not_valueIn_agrees`: two inputs at `POSTMINE_BLOCK` and a negative fee.
-/

namespace NoLimitCoin

open Prog NodeM

namespace CTransaction

/-! ## The sum of `ConnectInputs` -/

/-- An input that names the post-mine transaction. -/
def NamesPostmine (txin : CTxIn) : Prop := txin.prevout.hash = hashPostmine

instance : DecidablePred NamesPostmine := fun txin =>
  inferInstanceAs (Decidable (txin.prevout.hash = hashPostmine))

/-- The value `ConnectInputs` counts. -/
def countedValue (inputs : MapPrevTx) : Int → List CTxIn → Int
  | nValueIn, [] => nValueIn
  | nValueIn, txin :: vin =>
    countedValue inputs ((if NamesPostmine txin then postmineValue else nValueIn) +
      spentValue inputs txin) vin

/-- The output an input spends is there and has no negative value. -/
def Spends (inputs : MapPrevTx) (txin : CTxIn) : Prop :=
  ∃ txout, spentOutput inputs txin = some txout ∧ 0 ≤ txout.nValue

theorem Spends.spentValue_nonneg {inputs : MapPrevTx} {txin : CTxIn} (h : Spends inputs txin) :
    0 ≤ spentValue inputs txin := by
  obtain ⟨txout, hout, hnonneg⟩ := h
  rw [spentValue_of_output hout]
  exact hnonneg

theorem checkInput_ok {node : Node} {pindexBlock : Option Uint256} {tx : CTransaction}
    {inputs : MapPrevTx} {n v : Int} {txin : CTxIn}
    (h : checkInput node pindexBlock tx inputs n txin = .ok v) :
    Spends inputs txin ∧ moneyRange v = true ∧
      v = (if NamesPostmine txin then postmineValue else n) + spentValue inputs txin := by
  unfold checkInput at h
  split at h
  · exact absurd h nofun
  · next txindex txPrev hprev =>
    split at h
    · exact absurd h nofun
    · next txout hout =>
      have hspent : spentOutput inputs txin = some txout := by
        simp only [spentOutput, hprev, Option.bind_some, hout]
      simp only [except_seq_eq_ok, require_eq_ok, Bool.and_eq_true, moneyRange_iff] at h
      obtain ⟨-, -, -, hrange, h⟩ := h
      obtain rfl := Except.ok.inj h
      rw [moneyRange_iff, spentValue_of_output hspent]
      refine ⟨⟨txout, hspent, hrange.1.1⟩, hrange.2, ?_⟩
      by_cases hname : NamesPostmine txin
      · rw [if_pos hname]
        exact if_pos hname
      · rw [if_neg hname]
        exact if_neg hname

theorem checkLoop_ok {node : Node} {pindexBlock : Option Uint256} {tx : CTransaction}
    {inputs : MapPrevTx} {vin : List CTxIn} {n v : Int} (hn : moneyRange n = true)
    (h : vin.foldlM (checkInput node pindexBlock tx inputs) n = .ok v) :
    (∀ txin ∈ vin, Spends inputs txin) ∧ moneyRange v = true ∧ v = countedValue inputs n vin := by
  induction vin generalizing n with
  | nil =>
    obtain rfl : n = v := Except.ok.inj h
    exact ⟨fun _ hmem => absurd hmem (by simp), hn, rfl⟩
  | cons txin vin ih =>
    rw [List.foldlM_cons] at h
    obtain ⟨n', hone, h⟩ := except_bind_eq_ok.mp h
    obtain ⟨hspends, hrange, rfl⟩ := checkInput_ok hone
    obtain ⟨hrest, hv, hcounted⟩ := ih hrange h
    exact ⟨List.forall_mem_cons.mpr ⟨hspends, hrest⟩, hv, hcounted⟩

theorem countedValue_append (inputs : MapPrevTx) (n : Int) (before after : List CTxIn) :
    countedValue inputs n (before ++ after) =
      countedValue inputs (countedValue inputs n before) after := by
  induction before generalizing n with
  | nil => rfl
  | cons txin before ih => exact ih _

theorem countedValue_of_none {inputs : MapPrevTx} {vin : List CTxIn}
    (h : ∀ txin ∈ vin, ¬ NamesPostmine txin) (n : Int) :
    countedValue inputs n vin = n + (vin.map (spentValue inputs)).sum := by
  induction vin generalizing n with
  | nil => simp [countedValue]
  | cons txin vin ih =>
    obtain ⟨htxin, hvin⟩ := List.forall_mem_cons.mp h
    rw [countedValue, if_neg htxin, ih hvin, List.map_cons, List.sum_cons]
    omega

/-- The inputs up to the last one that names the post-mine transaction do not count. -/
theorem countedValue_of_last (inputs : MapPrevTx) (before : List CTxIn) {after : List CTxIn}
    {txin : CTxIn} (htxin : NamesPostmine txin) (hafter : ∀ t ∈ after, ¬ NamesPostmine t) (n : Int) :
    countedValue inputs n (before ++ txin :: after) =
      postmineValue + ((txin :: after).map (spentValue inputs)).sum := by
  rw [countedValue_append, countedValue, if_pos htxin, countedValue_of_none hafter, List.map_cons,
    List.sum_cons]
  omega

/-- A list with an element that satisfies a predicate has a last one. -/
theorem exists_last {p : CTxIn → Prop} [DecidablePred p] {vin : List CTxIn}
    (h : ∃ txin ∈ vin, p txin) :
    ∃ before txin after, vin = before ++ txin :: after ∧ p txin ∧ ∀ t ∈ after, ¬ p t := by
  induction vin with
  | nil =>
    obtain ⟨txin, hmem, -⟩ := h
    exact absurd hmem (by simp)
  | cons t vin ih =>
    by_cases hlater : ∃ txin ∈ vin, p txin
    · obtain ⟨before, txin, after, rfl, htxin, hafter⟩ := ih hlater
      exact ⟨t :: before, txin, after, rfl, htxin, hafter⟩
    · obtain ⟨txin, hmem, htxin⟩ := h
      rcases List.mem_cons.mp hmem with rfl | hmem
      · exact ⟨[], txin, vin, rfl, htxin, fun s hs hps => hlater ⟨s, hs, hps⟩⟩
      · exact absurd ⟨txin, hmem, htxin⟩ hlater

/-! ## The sum of `GetValueIn` -/

theorem sum_spentValue_nonneg {inputs : MapPrevTx} {vin : List CTxIn}
    (h : ∀ txin ∈ vin, Spends inputs txin) : 0 ≤ (vin.map (spentValue inputs)).sum := by
  refine List.sum_nonneg fun v hv => ?_
  obtain ⟨txin, hmem, rfl⟩ := List.mem_map.mp hv
  exact (h txin hmem).spentValue_nonneg

theorem inRange_of_moneyRange {v : Int} (h : moneyRange v = true) : Int64.inRange v = true := by
  obtain ⟨hlow, hhigh⟩ := moneyRange_iff.mp h
  simp only [maxMoney, coin] at hhigh
  simp only [Int64.inRange, Bool.and_eq_true, decide_eq_true_eq]
  omega

theorem sumValueIn_eq {inputs : MapPrevTx} {vin : List CTxIn} {n : Int}
    (h : ∀ txin ∈ vin, Spends inputs txin) (hn : 0 ≤ n)
    (hsum : n + (vin.map (spentValue inputs)).sum ≤ maxMoney) :
    sumValueIn inputs n vin = .ok (n + (vin.map (spentValue inputs)).sum) := by
  induction vin generalizing n with
  | nil => simp [sumValueIn]
  | cons txin vin ih =>
    obtain ⟨⟨txout, hout, hnonneg⟩, hvin⟩ := List.forall_mem_cons.mp h
    rw [List.map_cons, List.sum_cons, spentValue_of_output hout] at hsum ⊢
    have hrest := sum_spentValue_nonneg hvin
    have hchecked : Int64.checked (n + txout.nValue) = .ok (n + txout.nValue) :=
      Int64.checked_eq_ok.mpr ⟨inRange_of_moneyRange (moneyRange_iff.mpr (by omega)), rfl⟩
    unfold sumValueIn
    rw [getOutputFor_eq_ok.mpr hout]
    show (Int64.checked (n + txout.nValue) >>= fun n' => sumValueIn inputs n' vin) = _
    rw [hchecked]
    show sumValueIn inputs (n + txout.nValue) vin = _
    rw [ih hvin (by omega) (by omega)]
    congr 1
    omega

/-- The post-mine condition of `GetValueIn` for inputs that have been fetched. -/
def EarnsPostmine (nBestHeight : Int) (tx : CTransaction) : Prop :=
  (postmineBlock : Int) ≤ nBestHeight ∧ ∃ txin, tx.vin = [txin] ∧ NamesPostmine txin

theorem observesPostmine_iff {node : Node} {mapTestPool : Map Uint256 CTxIndex}
    {fBlock fMiner : Bool} {tx : CTransaction} {inputs : MapPrevTx} {nBestHeight : Int}
    (hinputs : FetchedInputs node mapTestPool fBlock fMiner tx.vin inputs) :
    observesPostmine nBestHeight tx inputs = true ↔ EarnsPostmine nBestHeight tx := by
  simp only [observesPostmine, Bool.and_eq_true, decide_eq_true_eq, EarnsPostmine]
  constructor
  · rintro ⟨⟨⟨hheight, hcontains⟩, hlength⟩, -⟩
    obtain ⟨txin, hvin⟩ := List.length_eq_one_iff.mp hlength
    obtain ⟨txin', hmem, hname⟩ := (hinputs.keys _).mp hcontains
    rw [hvin, List.mem_singleton] at hmem
    exact ⟨hheight, txin, hvin, hmem ▸ hname⟩
  · rintro ⟨hheight, txin, hvin, hname⟩
    have hcontains : inputs.contains hashPostmine = true :=
      (hinputs.keys _).mpr ⟨txin, by simp [hvin], hname⟩
    refine ⟨⟨⟨hheight, hcontains⟩, by simp [hvin]⟩, ?_⟩
    obtain ⟨prev, hprev⟩ := (Map.contains_iff _ _).mp hcontains
    have hsingle : inputs = (∅ : MapPrevTx).insert hashPostmine prev := by
      refine Map.ext fun hash => ?_
      rw [Map.getElem?_insert]
      split
      · next heq => rw [← heq, hprev]
      · next hne =>
        rw [Map.getElem?_empty, ← Map.contains_eq_false_iff]
        refine Bool.eq_false_iff.mpr fun hcontains' => hne ?_
        obtain ⟨txin', hmem, hname'⟩ := (hinputs.keys _).mp hcontains'
        rw [hvin, List.mem_singleton] at hmem
        rw [← hname', hmem]
        exact hname.symm
    rw [hsingle]
    rfl

theorem getValueIn_false_ok {nBestHeight v : Int} {tx : CTransaction} {inputs : MapPrevTx}
    (hbase : tx.isCoinBase = false) (h : tx.getValueIn nBestHeight inputs false = .ok v) :
    v = tx.valueIn inputs := by
  unfold getValueIn at h
  rw [hbase] at h
  simpa [valueIn] using sumValueIn_ok h

/-- `GetValueIn` with the bonus, for inputs that have been fetched. -/
theorem getValueIn_true_ok {node : Node} {mapTestPool : Map Uint256 CTxIndex}
    {fBlock fMiner : Bool} {nBestHeight v : Int} {tx : CTransaction} {inputs : MapPrevTx}
    (hinputs : FetchedInputs node mapTestPool fBlock fMiner tx.vin inputs)
    (hbase : tx.isCoinBase = false) (h : tx.getValueIn nBestHeight inputs true = .ok v) :
    (EarnsPostmine nBestHeight tx → v = postmineValue + tx.valueIn inputs) ∧
      (¬ EarnsPostmine nBestHeight tx → v = tx.valueIn inputs) := by
  unfold getValueIn at h
  rw [hbase, if_neg Bool.false_ne_true, Bool.true_and] at h
  split at h
  · next hobserves =>
    have hearns := (observesPostmine_iff hinputs).mp hobserves
    refine ⟨fun _ => ?_, fun hnot => absurd hearns hnot⟩
    obtain ⟨-, txin, hvin, -⟩ := hearns
    rw [hvin] at h
    obtain ⟨txout, hout, h⟩ := except_bind_eq_ok.mp h
    obtain ⟨-, rfl⟩ := Int64.checked_eq_ok.mp h
    simp [valueIn, hvin, spentValue_of_output (getOutputFor_eq_ok.mp hout)]
  · next hobserves =>
    refine ⟨fun hearns => absurd ((observesPostmine_iff hinputs).mpr hearns) hobserves, fun _ => ?_⟩
    simpa [valueIn] using sumValueIn_ok h

/-! ## Where the two agree -/

/-- The value `ConnectInputs` counts is the one `GetValueIn` returns, and the fee it leaves is
not negative and not below `GetMinFee`. -/
def ValueInAgrees (node : Node) (pindexBlock : Option Uint256) (tx : CTransaction)
    (inputs : MapPrevTx) : Prop :=
  ∃ nValueIn nValueOut, tx.vin.foldlM (checkInput node pindexBlock tx inputs) 0 = .ok nValueIn ∧
    tx.getValueIn node.nBestHeight inputs true = .ok nValueIn ∧ tx.getValueOut = .ok nValueOut ∧
    0 ≤ nValueIn - nValueOut ∧ tx.getMinFeeDefault ≤ nValueIn - nValueOut

/-- No input names the post-mine transaction, or the transaction has one input and the height is
reached, or the inputs before the last one that names it are worth exactly the bonus. -/
def PostmineCounted (nBestHeight : Int) (tx : CTransaction) (inputs : MapPrevTx) : Prop :=
  (∀ txin ∈ tx.vin, ¬ NamesPostmine txin) ∨
    ((postmineBlock : Int) ≤ nBestHeight ∧ tx.vin.length = 1) ∨
    ∃ before txin after, tx.vin = before ++ txin :: after ∧ NamesPostmine txin ∧
      (∀ t ∈ after, ¬ NamesPostmine t) ∧ (before.map (spentValue inputs)).sum = postmineValue

/-- What `ConnectInputs` has checked of the value of a transaction it accepts. -/
theorem connectInputs_value {env : Env} {node : Node} {tx : CTransaction} {inputs : MapPrevTx}
    {mapTestPool mapTestPool' : Map Uint256 CTxIndex} {posThisTx : CDiskTxPos}
    {pindexBlock : Option Uint256} {fBlock fMiner : Bool} (hbase : tx.isCoinBase = false)
    (h : tx.connectInputs env node inputs mapTestPool posThisTx pindexBlock fBlock fMiner =
      .ok mapTestPool') :
    (∀ txin ∈ tx.vin, Spends inputs txin) ∧ moneyRange (countedValue inputs 0 tx.vin) = true ∧
      tx.vin.foldlM (checkInput node pindexBlock tx inputs) 0 =
        .ok (countedValue inputs 0 tx.vin) ∧
      (tx.isCoinStake = false → tx.checkFee (countedValue inputs 0 tx.vin) fBlock = .ok ()) := by
  unfold connectInputs at h
  rw [hbase, if_neg Bool.false_ne_true] at h
  obtain ⟨nValueIn, hloop, h⟩ := except_bind_eq_ok.mp h
  obtain ⟨⟨inputs', mapTestPool''⟩, -, h⟩ := except_bind_eq_ok.mp h
  obtain ⟨hspends, hrange, rfl⟩ := checkLoop_ok (by decide) hloop
  refine ⟨hspends, hrange, hloop, fun hstake => ?_⟩
  rw [hstake] at h
  exact (except_seq_eq_ok.mp h).1

theorem checkFee_ok {tx : CTransaction} {nValueIn : Int} {fBlock : Bool}
    (h : tx.checkFee nValueIn fBlock = .ok ()) : tx.getValueOut = .ok tx.valueOut ∧
      0 ≤ nValueIn - tx.valueOut ∧ tx.getMinFeeDefault ≤ nValueIn - tx.valueOut := by
  unfold checkFee at h
  obtain ⟨nValueOut, hout, h⟩ := except_bind_eq_ok.mp h
  obtain rfl := getValueOut_ok hout
  simp only [except_seq_eq_ok, require_eq_ok, decide_eq_true_eq] at h
  obtain ⟨-, hfee, hmin, -⟩ := h
  exact ⟨hout, hfee, hmin⟩

/-- Of an accepted transaction, `GetValueIn` returns the counted value exactly when the bonus is
counted once. -/
theorem getValueIn_eq_counted_iff {node : Node} {mapTestPool : Map Uint256 CTxIndex}
    {fBlock fMiner : Bool} {nBestHeight : Int} {tx : CTransaction} {inputs : MapPrevTx}
    (hinputs : FetchedInputs node mapTestPool fBlock fMiner tx.vin inputs)
    (hbase : tx.isCoinBase = false) (hspends : ∀ txin ∈ tx.vin, Spends inputs txin)
    (hrange : moneyRange (countedValue inputs 0 tx.vin) = true) :
    tx.getValueIn nBestHeight inputs true = .ok (countedValue inputs 0 tx.vin) ↔
      PostmineCounted nBestHeight tx inputs := by
  have hplain : ¬ EarnsPostmine nBestHeight tx → countedValue inputs 0 tx.vin = tx.valueIn inputs →
      tx.getValueIn nBestHeight inputs true = .ok (countedValue inputs 0 tx.vin) := by
    intro hearns heq
    have hobserves : ¬ observesPostmine nBestHeight tx inputs = true := fun h =>
      hearns ((observesPostmine_iff hinputs).mp h)
    have hsum := sumValueIn_eq hspends (Int.le_refl 0) (by
      rw [Int.zero_add]
      exact le_of_eq_of_le heq.symm (moneyRange_iff.mp hrange).2)
    rw [getValueIn, hbase, if_neg Bool.false_ne_true, Bool.true_and, if_neg hobserves, hsum, heq,
      Int.zero_add, valueIn]
  by_cases hnone : ∀ txin ∈ tx.vin, ¬ NamesPostmine txin
  · refine ⟨fun _ => .inl hnone, fun _ => hplain ?_ ?_⟩
    · rintro ⟨-, txin, hvin, hname⟩
      exact hnone txin (by simp [hvin]) hname
    · rw [countedValue_of_none hnone, Int.zero_add, valueIn]
  obtain ⟨before, txin, after, hvin, hname, hafter⟩ :=
    exists_last (p := NamesPostmine) (by simpa using hnone)
  have hcounted := countedValue_of_last inputs before hname hafter 0
  have hsum : tx.valueIn inputs =
      (before.map (spentValue inputs)).sum + ((txin :: after).map (spentValue inputs)).sum := by
    rw [valueIn, hvin, List.map_append, List.sum_append]
  rw [← hvin] at hcounted
  by_cases hearns : EarnsPostmine nBestHeight tx
  · obtain ⟨hheight, t, ht, htname⟩ := hearns
    refine ⟨fun _ => .inr (.inl ⟨hheight, by simp [ht]⟩), fun _ => ?_⟩
    have hobserves := (observesPostmine_iff hinputs).mpr ⟨hheight, t, ht, htname⟩
    obtain ⟨txout, hout, -⟩ := hspends t (by simp [ht])
    have hvalue : countedValue inputs 0 tx.vin = postmineValue + txout.nValue := by
      rw [ht, countedValue, if_pos htname, countedValue, spentValue_of_output hout]
    rw [getValueIn, hbase, if_neg Bool.false_ne_true, Bool.true_and, if_pos hobserves, hvalue]
    rw [hvalue] at hrange
    simp only [ht, getOutputFor_eq_ok.mpr hout]
    exact Int64.checked_eq_ok.mpr ⟨inRange_of_moneyRange hrange, rfl⟩
  · constructor
    · intro h
      have hvalue := (getValueIn_true_ok hinputs hbase h).2 hearns
      refine .inr (.inr ⟨before, txin, after, hvin, hname, hafter, ?_⟩)
      omega
    · rintro (hnone' | ⟨hheight, hlength⟩ | ⟨before', txin', after', hvin', hname', hafter', heq⟩)
      · exact absurd hnone' hnone
      · obtain ⟨t, ht⟩ := List.length_eq_one_iff.mp hlength
        have hmem : txin ∈ tx.vin := by simp [hvin]
        rw [ht, List.mem_singleton] at hmem
        exact absurd ⟨hheight, t, ht, hmem ▸ hname⟩ hearns
      · refine hplain hearns ?_
        rw [hvin', countedValue_of_last _ _ hname' hafter', ← heq, valueIn, hvin', List.map_append,
          List.sum_append]

/-- For every transaction that `ConnectInputs` accepts with inputs that `FetchInputs` has
produced, the two computations agree exactly when the bonus is counted once. -/
theorem valueIn_agrees_iff (env : Env) (node : Node) (tx : CTransaction) (inputs : MapPrevTx)
    (mapTestPool mapTestPool' : Map Uint256 CTxIndex) (posThisTx : CDiskTxPos)
    (pindexBlock : Option Uint256) (fBlock fMiner : Bool) (w w' : World)
    (hfetch : tx.fetchInputs mapTestPool fBlock fMiner w = .ok inputs w')
    (hbase : tx.isCoinBase = false) (hstake : tx.isCoinStake = false)
    (hconnect : tx.connectInputs env node inputs mapTestPool posThisTx pindexBlock fBlock fMiner =
      .ok mapTestPool') :
    ValueInAgrees node pindexBlock tx inputs ↔ PostmineCounted node.nBestHeight tx inputs := by
  obtain ⟨hspends, hrange, hloop, hfee⟩ := connectInputs_value hbase hconnect
  obtain ⟨hout, hnonneg, hmin⟩ := checkFee_ok (hfee hstake)
  rw [← getValueIn_eq_counted_iff (fetchInputs_ok hbase hfetch).1 hbase hspends hrange]
  constructor
  · rintro ⟨nValueIn, nValueOut, hloop', hvalue, -⟩
    rw [hloop] at hloop'
    rw [Except.ok.inj hloop']
    exact hvalue
  · exact fun hvalue => ⟨_, _, hloop, hvalue, hout, hnonneg, hmin⟩

/-! ## A negative fee -/

/-- Spends an output of the post-mine transaction and an output of another one. -/
def twoInputs : CTransaction where
  nVersion := 1
  nTime := 1700000000
  vin := [⟨⟨hashPostmine, 0⟩, [], uint32Max⟩, ⟨⟨5, 0⟩, [], uint32Max⟩]
  vout := [⟨100 * coin, [0x51]⟩]
  nLockTime := 0

/-- A transaction with one output of one coin. -/
def oneCoin : CTransaction where
  nVersion := 1
  nTime := 1600000000
  vin := [⟨⟨3, 0⟩, [], uint32Max⟩]
  vout := [⟨coin, [0x51]⟩]
  nLockTime := 0

/-- A node at `POSTMINE_BLOCK` whose index has the two previous transactions, unspent. -/
def postmineWorld : World where
  node := { Node.initial with
    nBestHeight := postmineBlock
    txdb := ⟨(∅ : Map DbKey DbVal).insert (.tx hashPostmine) (.txindex (.new ⟨1, 8, 100⟩ 1)) |>.insert
      (.tx 5) (.txindex (.new ⟨1, 8, 200⟩ 1)), none⟩
    files := { BlockFiles.empty with
      txAt := (∅ : Map FilePos CTransaction).insert ⟨1, 100⟩ oneCoin |>.insert ⟨1, 200⟩ oneCoin } }
  sys := ⟨1700000000, fun _ => true, true, false, false⟩
  log := []

/-- The transaction is accepted in a block, with inputs worth two coins and outputs worth a
hundred. -/
theorem twoInputs_connects : ∃ inputs w' mapTestPool',
    twoInputs.fetchInputs ∅ true false postmineWorld = .ok inputs w' ∧
      twoInputs.connectInputs mainNet postmineWorld.node inputs ∅ ⟨1, 300, 400⟩ none true false =
        .ok mapTestPool' ∧
      twoInputs.getValueIn postmineBlock inputs true = .ok (2 * coin) := by
  have h : succeeds (fun inputs _ =>
      decide (twoInputs.getValueIn postmineBlock inputs true = .ok (2 * coin)) &&
      (twoInputs.connectInputs mainNet postmineWorld.node inputs ∅ ⟨1, 300, 400⟩ none true
        false).isOk) (twoInputs.fetchInputs ∅ true false postmineWorld) = true := by
    decide +kernel
  obtain ⟨inputs, w', hfetch, h⟩ := succeeds_iff.mp h
  simp only [Bool.and_eq_true, decide_eq_true_eq] at h
  obtain ⟨hvalue, hok⟩ := h
  cases hconnect : twoInputs.connectInputs mainNet postmineWorld.node inputs ∅ ⟨1, 300, 400⟩ none
      true false with
  | error e => rw [hconnect] at hok; exact absurd hok nofun
  | ok mapTestPool' => exact ⟨inputs, w', mapTestPool', hfetch, hconnect, hvalue⟩

/-- `valueIn_agrees_iff` speaks about this transaction. -/
theorem valueIn_agrees_iff_twoInputs : ∃ inputs w',
    twoInputs.fetchInputs ∅ true false postmineWorld = .ok inputs w' ∧
      (ValueInAgrees postmineWorld.node none twoInputs inputs ↔
        PostmineCounted postmineWorld.node.nBestHeight twoInputs inputs) := by
  obtain ⟨inputs, w', mapTestPool', hfetch, hconnect, -⟩ := twoInputs_connects
  exact ⟨inputs, w', hfetch, valueIn_agrees_iff mainNet postmineWorld.node twoInputs inputs ∅
    mapTestPool' ⟨1, 300, 400⟩ none true false postmineWorld w' hfetch (by decide) (by decide)
    hconnect⟩

/-- The claim that the two computations agree for every accepted transaction is false. -/
theorem not_valueIn_agrees : ¬ ∀ (env : Env) (node : Node) (tx : CTransaction)
    (inputs : MapPrevTx) (mapTestPool mapTestPool' : Map Uint256 CTxIndex)
    (posThisTx : CDiskTxPos) (pindexBlock : Option Uint256) (fBlock fMiner : Bool) (w w' : World),
    tx.fetchInputs mapTestPool fBlock fMiner w = .ok inputs w' → tx.isCoinBase = false →
    tx.isCoinStake = false → tx.connectInputs env node inputs mapTestPool posThisTx pindexBlock
      fBlock fMiner = .ok mapTestPool' → ValueInAgrees node pindexBlock tx inputs := by
  intro hall
  obtain ⟨inputs, w', mapTestPool', hfetch, hconnect, hvalue⟩ := twoInputs_connects
  obtain ⟨nValueIn, nValueOut, -, hvalue', hout, hnonneg, -⟩ :=
    hall mainNet postmineWorld.node twoInputs inputs ∅ mapTestPool' ⟨1, 300, 400⟩ none true false
      postmineWorld w' hfetch (by decide) (by decide) hconnect
  have hheight : postmineWorld.node.nBestHeight = postmineBlock := rfl
  rw [hheight, hvalue] at hvalue'
  rw [← Except.ok.inj hvalue', getValueOut_ok hout] at hnonneg
  exact absurd hnonneg (by decide)

end CTransaction

end NoLimitCoin
