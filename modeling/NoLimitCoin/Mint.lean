import NoLimitCoin.Connected
import NoLimitCoin.InputValue

/-!
# How many coins a block may create

Three checks of `ConnectBlock` bound the outputs of a block by its inputs: `ConnectInputs` for
every transaction that is no coin stake, the coin base check for a proof-of-work block, and the
stake reward check for the coin stake of a proof-of-stake block.  That a proof-of-stake block
has only one coin stake is checked by `CheckBlock`; that a proof-of-work block has none is
checked nowhere.

Results:

1. `Flows.totals`: the totals of the loop of `ConnectBlock` in terms of what each transaction
   creates.
2. `coinCreation_iff`: the coins a connected block creates are bounded by its subsidy exactly
   when it is a proof-of-stake block, has no coin stake, or its coin stakes are covered.
3. `not_coinCreation`: a proof-of-work block whose third transaction is a coin stake.
-/

namespace NoLimitCoin

open Prog NodeM

/-! ## What a transaction creates -/

/-- A transaction of a block, with what `FetchInputs` returns when its turn comes. -/
structure Flow where
  tx : CTransaction
  inputs : MapPrevTx

namespace Flow

/-- Output value minus input value, both without any bonus. -/
def minted (flow : Flow) : Int := flow.tx.valueOut - flow.tx.valueIn flow.inputs

/-- The bonus under the post-mine condition of `GetValueIn`. -/
def bonus (nBestHeight : Int) (flow : Flow) : Int :=
  if flow.tx.observesPostmine nBestHeight flow.inputs then postmineValue else 0

/-- What is created beyond the bonus; for a spend, the fee with the sign changed. -/
def excess (nBestHeight : Int) (flow : Flow) : Int := flow.minted - flow.bonus nBestHeight

end Flow

def totalMinted (flows : List Flow) : Int := (flows.map Flow.minted).sum

def totalBonus (nBestHeight : Int) (flows : List Flow) : Int :=
  (flows.map (Flow.bonus nBestHeight)).sum

def totalExcess (nBestHeight : Int) (flows : List Flow) : Int :=
  (flows.map (Flow.excess nBestHeight)).sum

/-- The excess of the coin stakes of a block. -/
def stakeExcess (nBestHeight : Int) (flows : List Flow) : Int :=
  totalExcess nBestHeight (flows.filter fun flow => flow.tx.isCoinStake)

/-- The fees of a block: what its spends leave of their inputs and bonuses. -/
def spendFees (nBestHeight : Int) (flows : List Flow) : Int :=
  -totalExcess nBestHeight (flows.filter fun flow => !flow.tx.isCoinBase && !flow.tx.isCoinStake)

/-- What the coin bases of a block pay out. -/
def coinBaseValue (flows : List Flow) : Int :=
  ((flows.filter fun flow => flow.tx.isCoinBase).map fun flow => flow.tx.valueOut).sum

namespace CBlock

/-- The transactions of the loop of `ConnectBlock`, from one state of it to another. -/
inductive Flows (env : Env) (pindex : Uint256) (index : CBlockIndex) :
    ConnectState → World → List CTransaction → List Flow → ConnectState → World → Prop
  | nil (s : ConnectState) (w : World) : Flows env pindex index s w [] [] s w
  | cons {s s₁ s' : ConnectState} {w w₀ w₁ w' : World} {tx : CTransaction}
      {txs : List CTransaction} {inputs : MapPrevTx} {flows : List Flow}
      (fetch : tx.fetchInputs s.mapQueuedChanges true false w = .ok inputs w₀)
      (connect : connectTx env pindex index false s tx w = .ok s₁ w₁)
      (rest : Flows env pindex index s₁ w₁ txs flows s' w') :
      Flows env pindex index s w (tx :: txs) (⟨tx, inputs⟩ :: flows) s' w'

/-- `GetProofOfWorkReward(0)` for a proof-of-work block, `GetProofOfStakeReward(nCoinAge, 0)`
with the coin age of its coin stake for a proof-of-stake block. -/
def subsidy (env : Env) (block : CBlock) : NodeM Int := do
  let node ← getNode
  match block.isProofOfStake, block.vtx with
  | true, _ :: coinstake :: _ => do
    match ← coinstake.getCoinAge env node.txdb with
    | none => throw (.reject 0 "ConnectBlock() : %s unable to get coin age for coinstake")
    | some nCoinAge => fromExcept (getProofOfStakeReward (Int64.ofUint64 nCoinAge) 0)
  | _, _ => do
    let pindexBest ← nonNull node.pindexBest
    let indexBest ← deref pindexBest
    fromExcept (getProofOfWorkReward indexBest.nHeight 0)

/-- The flows of the transactions of a block that `ConnectBlock` goes through, and the subsidy of
the block when it comes to the reward. -/
def Account (env : Env) (block : CBlock) (pindex : Uint256) (w : World) (flows : List Flow)
    (nSubsidy : Int) : Prop :=
  ∃ index s w₁ w₂, w.node.index? pindex = some index ∧
    Flows env pindex index (.start (block.firstTxPos index.nBlockPos)) w block.vtx flows s w₁ ∧
    block.subsidy env w₁ = .ok nSubsidy w₂

end CBlock

/-- The coins a block creates are at most its subsidy and its bonuses. -/
def CoinCreationBounded (nBestHeight : Int) (flows : List Flow) (nSubsidy : Int) : Prop :=
  totalMinted flows ≤ nSubsidy + totalBonus nBestHeight flows

/-- The coin stakes of a block pay out no more, beyond their inputs and bonuses, than its coin
base leaves unclaimed of subsidy and fees. -/
def StakesCovered (nBestHeight : Int) (flows : List Flow) (nSubsidy : Int) : Prop :=
  stakeExcess nBestHeight flows ≤ nSubsidy + spendFees nBestHeight flows - coinBaseValue flows

/-! ## The totals of the loop -/

theorem totalExcess_eq (nBestHeight : Int) (flows : List Flow) :
    totalExcess nBestHeight flows = totalMinted flows - totalBonus nBestHeight flows := by
  induction flows with
  | nil => rfl
  | cons flow flows ih =>
    simp only [totalExcess, totalMinted, totalBonus, List.map_cons, List.sum_cons] at ih ⊢
    rw [ih, Flow.excess]
    omega

namespace CTransaction

theorem isCoinStake_of_isCoinBase {tx : CTransaction} (h : tx.isCoinBase = true) :
    tx.isCoinStake = false := by
  cases hstake : tx.isCoinStake with
  | false => rfl
  | true =>
    rw [isCoinBase_of_isCoinStake hstake] at h
    exact absurd h Bool.false_ne_true

theorem fetchInputs_coinBase {tx : CTransaction} {mapTestPool : Map Uint256 CTxIndex}
    {fBlock fMiner : Bool} {inputs : MapPrevTx} {w w' : World} (hbase : tx.isCoinBase = true)
    (h : tx.fetchInputs mapTestPool fBlock fMiner w = .ok inputs w') : inputs = ∅ := by
  unfold fetchInputs at h
  rw [hbase, if_pos rfl] at h
  exact (pure_eq_ok.mp h).1

/-- The inputs are determined by the node and the pending entries. -/
theorem FetchedInputs.unique {node : Node} {queue : Map Uint256 CTxIndex} {vin : List CTxIn}
    {inputs inputs' : MapPrevTx} (h : FetchedInputs node queue true false vin inputs)
    (h' : FetchedInputs node queue true false vin inputs') : inputs = inputs' := by
  refine Map.ext fun hash => ?_
  cases hin : inputs[hash]? with
  | none =>
    have hnone : inputs'.contains hash = false := by
      refine Bool.eq_false_iff.mpr fun hcontains => ?_
      have := (h.keys hash).mpr ((h'.keys hash).mp hcontains)
      rw [(Map.contains_eq_false_iff _ _).mpr hin] at this
      exact absurd this Bool.false_ne_true
    exact ((Map.contains_eq_false_iff _ _).mp hnone).symm
  | some prev =>
    have hsome := (h'.keys hash).mpr ((h.keys hash).mp ((Map.contains_iff _ _).mpr ⟨prev, hin⟩))
    obtain ⟨prev', hin'⟩ := (Map.contains_iff _ _).mp hsome
    have hfetched := h.entries hash prev hin
    have hfetched' := h'.entries hash prev' hin'
    unfold Node.Fetched at hfetched hfetched'
    split at hfetched
    · exact absurd hfetched.1 (by simp)
    · next txindex hfound =>
      rw [hfound] at hfetched'
      obtain ⟨hindex, htx⟩ := hfetched
      obtain ⟨hindex', htx'⟩ := hfetched'
      rw [hin', Prod.ext_iff.mpr ⟨hindex.trans hindex'.symm,
        Option.some.inj (htx.symm.trans htx')⟩]

/-- `GetValueIn` with the bonus, in terms of the post-mine condition. -/
theorem getValueIn_bonus {nBestHeight v : Int} {tx : CTransaction} {inputs : MapPrevTx}
    (hbase : tx.isCoinBase = false) (h : tx.getValueIn nBestHeight inputs true = .ok v) :
    v = tx.valueIn inputs + Flow.bonus nBestHeight ⟨tx, inputs⟩ := by
  unfold getValueIn at h
  rw [hbase, if_neg Bool.false_ne_true, Bool.true_and] at h
  split at h
  · next hobserves =>
    rw [Flow.bonus, if_pos hobserves]
    simp only [observesPostmine, Bool.and_eq_true, decide_eq_true_eq] at hobserves
    obtain ⟨txin, hvin⟩ := List.length_eq_one_iff.mp hobserves.1.2
    rw [hvin] at h
    obtain ⟨txout, hout, h⟩ := except_bind_eq_ok.mp h
    obtain ⟨-, rfl⟩ := Int64.checked_eq_ok.mp h
    simp only [valueIn, hvin, List.map_cons, List.map_nil, List.sum_cons, List.sum_nil,
      spentValue_of_output (getOutputFor_eq_ok.mp hout)]
    omega
  · next hobserves =>
    rw [Flow.bonus, if_neg hobserves, valueIn, sumValueIn_ok h]
    omega

end CTransaction

namespace CBlock

/-- Without inputs everything that is paid out is created. -/
theorem excess_of_empty (nBestHeight : Int) (tx : CTransaction) :
    Flow.excess nBestHeight ⟨tx, ∅⟩ = tx.valueOut := by
  have hvalue : tx.valueIn ∅ = 0 := by
    refine List.sum_eq_zero fun v hv => ?_
    obtain ⟨txin, -, rfl⟩ := List.mem_map.mp hv
    simp [CTransaction.spentValue, CTransaction.spentOutput]
  have hbonus : Flow.bonus nBestHeight ⟨tx, ∅⟩ = 0 := by
    simp [Flow.bonus, CTransaction.observesPostmine]
  rw [Flow.excess, hbonus, Flow.minted, hvalue, Int.sub_zero, Int.sub_zero]

/-- What one round of the loop adds to the fees and to the stake reward. -/
structure Round (nBestHeight : Int) (s s' : ConnectState) (flow : Flow) : Prop where
  minted : s'.nValueOut - s'.nValueIn = s.nValueOut - s.nValueIn + flow.minted
  fees : s'.nFees = s.nFees + spendFees nBestHeight [flow]
  noStake : flow.tx.isCoinStake = false → s'.nStakeReward = s.nStakeReward
  stake : flow.tx.isCoinStake = true → s'.nStakeReward = flow.minted
  base : flow.tx.isCoinBase = true → flow.inputs = ∅

theorem spendFees_of_coinBase {nBestHeight : Int} {flow : Flow}
    (h : flow.tx.isCoinBase = true) : spendFees nBestHeight [flow] = 0 := by
  simp [spendFees, totalExcess, h]

theorem spendFees_of_coinStake {nBestHeight : Int} {flow : Flow}
    (h : flow.tx.isCoinStake = true) : spendFees nBestHeight [flow] = 0 := by
  simp [spendFees, totalExcess, h]

theorem spendFees_of_spend {nBestHeight : Int} {flow : Flow} (hbase : flow.tx.isCoinBase = false)
    (hstake : flow.tx.isCoinStake = false) :
    spendFees nBestHeight [flow] = -flow.excess nBestHeight := by
  simp [spendFees, totalExcess, hbase, hstake]

theorem round_ok {env : Env} {pindex : Uint256} {index : CBlockIndex} {s s' : ConnectState}
    {tx : CTransaction} {inputs : MapPrevTx} {w w₀ w' : World}
    (hfetch : tx.fetchInputs s.mapQueuedChanges true false w = .ok inputs w₀)
    (hconnect : connectTx env pindex index false s tx w = .ok s' w') :
    Round w.node.nBestHeight s s' ⟨tx, inputs⟩ := by
  have hround := connectTx_ok hconnect
  cases hbase : tx.isCoinBase with
  | true =>
    have hstake := CTransaction.isCoinStake_of_isCoinBase hbase
    obtain ⟨hfees, hsumIn, hreward, vOut, hvOut, hsumOut⟩ := hround.coinBase hbase
    have hvalueOut := CTransaction.getValueOut_ok hvOut
    have hempty := CTransaction.fetchInputs_coinBase hbase hfetch
    refine ⟨?_, ?_, fun _ => hreward, fun h => ?_, fun _ => hempty⟩
    · have hexcess := excess_of_empty 0 tx
      have hbonus : Flow.bonus 0 ⟨tx, ∅⟩ = 0 := by simp [Flow.bonus, CTransaction.observesPostmine]
      rw [Flow.excess, hbonus] at hexcess
      rw [hempty]
      omega
    · rw [spendFees_of_coinBase hbase, hfees, Int.add_zero]
    · exact absurd (hstake.symm.trans h) Bool.false_ne_true
  | false =>
    have hnot : (⟨tx, inputs⟩ : Flow).tx.isCoinBase = true → inputs = ∅ := fun h =>
      absurd (hbase.symm.trans h) Bool.false_ne_true
    obtain ⟨queue, -, -, hspend⟩ := hround.queued
    obtain ⟨inputs', hspent⟩ := hspend hbase
    obtain rfl := hspent.fetched.unique (CTransaction.fetchInputs_ok hbase hfetch).1
    obtain ⟨vIn, hvIn, hsumIn⟩ := hspent.tallied.valueIn
    obtain ⟨vOut, hvOut, hsumOut⟩ := hspent.tallied.valueOut
    have hvalueIn := CTransaction.getValueIn_false_ok hbase hvIn
    have hvalueOut := CTransaction.getValueOut_ok hvOut
    have hminted : s'.nValueOut - s'.nValueIn =
        s.nValueOut - s.nValueIn + Flow.minted ⟨tx, inputs'⟩ := by
      show s'.nValueOut - s'.nValueIn = s.nValueOut - s.nValueIn + (tx.valueOut - tx.valueIn inputs')
      omega
    cases hstake : tx.isCoinStake with
    | true =>
      obtain ⟨hfees, hreward⟩ := hspent.tallied.stake hstake
      refine ⟨hminted, ?_, fun h => ?_, fun _ => ?_, hnot⟩
      · rw [spendFees_of_coinStake hstake, hfees, Int.add_zero]
      · exact absurd (h.symm.trans hstake) Bool.false_ne_true
      · show s'.nStakeReward = tx.valueOut - tx.valueIn inputs'
        omega
    | false =>
      obtain ⟨hreward, v, hv, hfees⟩ := hspent.tallied.fee hstake
      have hbonus := CTransaction.getValueIn_bonus hbase hv
      refine ⟨hminted, ?_, fun _ => hreward, fun h => ?_, hnot⟩
      · rw [spendFees_of_spend hbase hstake, Flow.excess, Flow.minted]
        show s'.nFees = s.nFees + -(tx.valueOut - tx.valueIn inputs' - _)
        omega
      · exact absurd (hstake.symm.trans h) Bool.false_ne_true

theorem spendFees_cons (nBestHeight : Int) (flow : Flow) (flows : List Flow) :
    spendFees nBestHeight (flow :: flows) =
      spendFees nBestHeight [flow] + spendFees nBestHeight flows := by
  have hcons : ∀ p : Flow → Bool, totalExcess nBestHeight ((flow :: flows).filter p) =
      totalExcess nBestHeight ([flow].filter p) + totalExcess nBestHeight (flows.filter p) := by
    intro p
    rw [← List.singleton_append, List.filter_append, totalExcess, List.map_append, List.sum_append]
    rfl
  rw [spendFees, hcons, spendFees, spendFees]
  omega

theorem totalMinted_cons (flow : Flow) (flows : List Flow) :
    totalMinted (flow :: flows) = flow.minted + totalMinted flows := by
  rw [totalMinted, List.map_cons, List.sum_cons, totalMinted]

/-- What a run of the loop adds to the totals. -/
theorem Flows.minted {env : Env} {pindex : Uint256} {index : CBlockIndex} {s s' : ConnectState}
    {w w' : World} {txs : List CTransaction} {flows : List Flow}
    (h : Flows env pindex index s w txs flows s' w') :
    s'.nValueOut - s'.nValueIn = s.nValueOut - s.nValueIn + totalMinted flows := by
  induction h with
  | nil s w => exact (Int.add_zero _).symm
  | cons hfetch hconnect hrest ih =>
    rw [ih, (round_ok hfetch hconnect).minted, totalMinted_cons]
    omega

/-- The fees and the stake reward after the loop. -/
theorem Flows.totals {env : Env} {pindex : Uint256} {index : CBlockIndex} {s s' : ConnectState}
    {w w' : World} {txs : List CTransaction} {flows : List Flow}
    (h : Flows env pindex index s w txs flows s' w') :
    s'.nFees = s.nFees + spendFees w.node.nBestHeight flows ∧ flows.map Flow.tx = txs ∧
      ((∀ tx ∈ txs, tx.isCoinStake = false) → s'.nStakeReward = s.nStakeReward) ∧
      (∀ flow ∈ flows, flow.tx.isCoinBase = true → flow.inputs = ∅) := by
  induction h with
  | nil s w =>
    exact ⟨(Int.add_zero _).symm, rfl, fun _ => rfl, fun _ hmem => absurd hmem List.not_mem_nil⟩
  | cons hfetch hconnect hrest ih =>
    have hround := round_ok hfetch hconnect
    rw [((Reads.connectTx _ _ _ _ _ _).ok hconnect).node] at ih
    obtain ⟨hfees, htxs, hreward, hbase⟩ := ih
    refine ⟨?_, ?_, fun hnone => ?_, List.forall_mem_cons.mpr ⟨hround.base, hbase⟩⟩
    · rw [hfees, hround.fees, Int.add_assoc, ← spendFees_cons]
    · rw [List.map_cons, htxs]
    · obtain ⟨hhead, htail⟩ := List.forall_mem_cons.mp hnone
      rw [hreward htail, hround.noStake hhead]

/-- A round of the loop that succeeds has fetched its inputs. -/
theorem connectTx_fetches {env : Env} {pindex : Uint256} {index : CBlockIndex}
    {s s' : ConnectState} {tx : CTransaction} {w w' : World}
    (h : connectTx env pindex index false s tx w = .ok s' w') :
    ∃ inputs w₀, tx.fetchInputs s.mapQueuedChanges true false w = .ok inputs w₀ := by
  cases hbase : tx.isCoinBase with
  | true => exact ⟨∅, w, by rw [CTransaction.fetchInputs, hbase]; rfl⟩
  | false =>
    obtain ⟨txindexOld, w₁, hread, h⟩ := bind_eq_ok.mp h
    obtain ⟨-, rfl⟩ := EStateM.Result.ok.inj hread
    obtain ⟨-, h⟩ := require_bind_eq_ok.mp h
    obtain ⟨-, h⟩ := require_bind_eq_ok.mp h
    obtain ⟨s₁, w₂, hspend, -⟩ := bind_eq_ok.mp h
    rw [hbase, if_neg Bool.false_ne_true] at hspend
    obtain ⟨inputs, w₀, hfetch, -⟩ := bind_eq_ok.mp hspend
    exact ⟨inputs, w₀, adaptExcept_eq_ok.mp hfetch⟩

/-- Every run of the loop has its flows. -/
theorem exists_flows {env : Env} {pindex : Uint256} {index : CBlockIndex} {s s' : ConnectState}
    {w w' : World} {txs : List CTransaction}
    (h : txs.foldlM (connectTx env pindex index false) s w = .ok s' w') :
    ∃ flows, Flows env pindex index s w txs flows s' w' := by
  induction txs generalizing s w with
  | nil =>
    obtain ⟨rfl, rfl⟩ := pure_eq_ok.mp h
    exact ⟨[], .nil _ _⟩
  | cons tx txs ih =>
    rw [List.foldlM_cons] at h
    obtain ⟨s₁, w₁, hone, h⟩ := bind_eq_ok.mp h
    obtain ⟨inputs, w₀, hfetch⟩ := connectTx_fetches hone
    obtain ⟨flows, hflows⟩ := ih h
    exact ⟨⟨tx, inputs⟩ :: flows, .cons hfetch hone hflows⟩

/-- The flows of a run of the loop lead where the loop leads. -/
theorem Flows.run {env : Env} {pindex : Uint256} {index : CBlockIndex} {s s' : ConnectState}
    {w w' : World} {txs : List CTransaction} {flows : List Flow}
    (h : Flows env pindex index s w txs flows s' w') :
    txs.foldlM (connectTx env pindex index false) s w = .ok s' w' := by
  induction h with
  | nil s w => rfl
  | cons hfetch hconnect hrest ih =>
    rw [List.foldlM_cons, bind_run, hconnect]
    exact ih

/-- The transactions of a block are its coin bases, its coin stakes and its spends. -/
theorem totalExcess_split (nBestHeight : Int) {flows : List Flow}
    (hbase : ∀ flow ∈ flows, flow.tx.isCoinBase = true → flow.inputs = ∅) :
    totalExcess nBestHeight flows =
      coinBaseValue flows + stakeExcess nBestHeight flows - spendFees nBestHeight flows := by
  induction flows with
  | nil => rfl
  | cons flow flows ih =>
    obtain ⟨hflow, hflows⟩ := List.forall_mem_cons.mp hbase
    have hhead : totalExcess nBestHeight (flow :: flows) =
        flow.excess nBestHeight + totalExcess nBestHeight flows := by
      rw [totalExcess, List.map_cons, List.sum_cons]
      rfl
    rw [hhead, ih hflows, spendFees_cons]
    unfold coinBaseValue stakeExcess
    cases hcase : flow.tx.isCoinBase with
    | true =>
      have hstake := CTransaction.isCoinStake_of_isCoinBase hcase
      have hexcess : flow.excess nBestHeight = flow.tx.valueOut := by
        rw [← excess_of_empty nBestHeight flow.tx, ← hflow hcase]
      rw [spendFees_of_coinBase hcase, hexcess]
      simp only [List.filter_cons, hcase, hstake, if_true, Bool.false_eq_true, if_false,
        List.map_cons, List.sum_cons]
      omega
    | false =>
      cases hstake : flow.tx.isCoinStake with
      | true =>
        rw [spendFees_of_coinStake hstake]
        simp only [List.filter_cons, hcase, hstake, if_true, Bool.false_eq_true, if_false,
          totalExcess, List.map_cons, List.sum_cons]
        omega
      | false =>
        rw [spendFees_of_spend hcase hstake]
        simp only [List.filter_cons, hcase, hstake, Bool.false_eq_true, if_false]
        omega

/-! ## The reward checks -/

theorem proofOfStakeSubsidy_inRange {nCoinAge n : Int} (h : proofOfStakeSubsidy nCoinAge = .ok n) :
    Int64.inRange n = true := by
  unfold proofOfStakeSubsidy at h
  obtain ⟨a, -, h⟩ := except_bind_eq_ok.mp h
  obtain ⟨b, hb, h⟩ := except_bind_eq_ok.mp h
  obtain rfl := Except.ok.inj h
  obtain ⟨hrange, rfl⟩ := Int64.checked_eq_ok.mp hb
  have hle := Int.natAbs_tdiv_le_natAbs (a * 33) (365 * 33 + 8)
  simp only [Int64.inRange, Bool.and_eq_true, decide_eq_true_eq] at hrange ⊢
  omega

theorem exists_coinstake {block : CBlock} (h : block.isProofOfStake = true) :
    ∃ coinbase coinstake rest, block.vtx = coinbase :: coinstake :: rest := by
  unfold isProofOfStake at h
  split at h
  · next coinbase coinstake rest hvtx => exact ⟨coinbase, coinstake, rest, hvtx⟩
  · exact absurd h Bool.false_ne_true

/-- The reward checks of an accepted block. -/
theorem checkReward_ok {env : Env} {block : CBlock} {s : ConnectState} {w w' : World}
    (h : block.checkReward env s w = .ok () w') : ∃ n w₂, block.subsidy env w = .ok n w₂ ∧
      (block.isProofOfStake = true → s.nStakeReward ≤ n + s.nFees) ∧
      (block.isProofOfStake = false → ∀ coinbase rest, block.vtx = coinbase :: rest →
        coinbase.valueOut ≤ n + s.nFees) := by
  cases hpos : block.isProofOfStake with
  | true =>
    obtain ⟨coinbase, coinstake, rest, hvtx⟩ := exists_coinstake hpos
    simp only [checkReward, subsidy, hpos, hvtx, getNode_bind] at h ⊢
    obtain ⟨age, w₁, hage, h⟩ := bind_eq_ok.mp h
    rw [bind_run, hage]
    cases age with
    | none => exact absurd h error_ne_ok
    | some nCoinAge =>
      obtain ⟨nReward, hreward, h⟩ := fromExcept_bind_eq_ok.mp h
      obtain ⟨hle, -⟩ := require_run_eq_ok.mp h
      obtain ⟨nSubsidy, hsubsidy, hsum⟩ := except_bind_eq_ok.mp hreward
      obtain ⟨-, rfl⟩ := Int64.checked_eq_ok.mp hsum
      have hplain : getProofOfStakeReward (Int64.ofUint64 nCoinAge) 0 = .ok nSubsidy := by
        refine except_bind_eq_ok.mpr ⟨nSubsidy, hsubsidy, ?_⟩
        rw [Int.add_zero]
        exact Int64.checked_eq_ok.mpr ⟨proofOfStakeSubsidy_inRange hsubsidy, rfl⟩
      refine ⟨nSubsidy, w₁, fromExcept_eq_ok.mpr ⟨hplain, rfl⟩, fun _ => of_decide_eq_true hle,
        fun hnot => absurd hnot.symm Bool.false_ne_true⟩
  | false =>
    obtain ⟨indexBest, nReward, coinbase, rest, hvtx, hreward, hle, hsubsidy⟩ :
        ∃ (indexBest : CBlockIndex) (nReward : Int) (coinbase : CTransaction)
          (rest : List CTransaction), block.vtx = coinbase :: rest ∧
          getProofOfWorkReward indexBest.nHeight s.nFees = .ok nReward ∧
          coinbase.valueOut ≤ nReward ∧ ∀ n, getProofOfWorkReward indexBest.nHeight 0 = .ok n →
            block.subsidy env w = .ok n w := by
      cases hvtx : block.vtx with
      | nil =>
        simp only [checkReward, hpos, hvtx, getNode_bind] at h
        exact absurd h error_ne_ok
      | cons coinbase rest =>
        simp only [checkReward, hpos, hvtx, getNode_bind] at h
        obtain ⟨pindexBest, hbest, h⟩ := nonNull_bind_eq_ok.mp h
        obtain ⟨indexBest, hindex, h⟩ := deref_bind_eq_ok.mp h
        obtain ⟨nReward, hreward, h⟩ := fromExcept_bind_eq_ok.mp h
        obtain ⟨nValueOut, hvalue, h⟩ := fromExcept_bind_eq_ok.mp h
        obtain rfl := CTransaction.getValueOut_ok hvalue
        refine ⟨indexBest, nReward, coinbase, rest, rfl, hreward,
          of_decide_eq_true (require_run_eq_ok.mp h).1, fun n hn => ?_⟩
        simp only [subsidy, hpos, hvtx, getNode_bind]
        exact nonNull_bind_eq_ok.mpr ⟨pindexBest, hbest, deref_bind_eq_ok.mpr ⟨indexBest, hindex,
          fromExcept_eq_ok.mpr ⟨hn, rfl⟩⟩⟩
    obtain ⟨-, rfl⟩ := Int64.checked_eq_ok.mp hreward
    refine ⟨proofOfWorkSubsidy indexBest.nHeight, w, hsubsidy _ ?_, fun hnot =>
      absurd hnot Bool.false_ne_true, fun _ coinbase' rest' hvtx' => ?_⟩
    · rw [getProofOfWorkReward, Int.add_zero]
      refine Int64.checked_eq_ok.mpr ⟨?_, rfl⟩
      unfold proofOfWorkSubsidy
      split <;> decide
    · obtain ⟨rfl, -⟩ := List.cons.inj (hvtx.symm.trans hvtx')
      exact hle

/-- What `ConnectBlock` has checked before it writes anything. -/
theorem checkConnect_ok {env : Env} {block : CBlock} {pindex : Uint256} {index : CBlockIndex}
    {s : ConnectState} {w w' : World}
    (h : block.checkConnect env pindex false w = .ok (index, s) w') :
    block.Checked env ∧ w.node.index? pindex = some index ∧
      ∃ w₁, block.vtx.foldlM (connectTx env pindex index false)
          (.start (block.firstTxPos index.nBlockPos)) w = .ok s w₁ ∧
        ∃ n w₂, block.subsidy env w₁ = .ok n w₂ ∧
          (block.isProofOfStake = true → s.nStakeReward ≤ n + s.nFees) ∧
          (block.isProofOfStake = false → ∀ coinbase rest, block.vtx = coinbase :: rest →
            coinbase.valueOut ≤ n + s.nFees) := by
  unfold checkConnect at h
  rw [getSys_bind] at h
  obtain ⟨_, hblock, h⟩ := fromExcept_bind_eq_ok.mp h
  obtain ⟨index', hindex, h⟩ := deref_bind_eq_ok.mp h
  obtain ⟨s', w₁, hloop, h⟩ := bind_eq_ok.mp h
  obtain ⟨_, w₂, hreward, h⟩ := bind_eq_ok.mp h
  obtain ⟨heq, -⟩ := pure_eq_ok.mp h
  obtain ⟨rfl, rfl⟩ := Prod.mk.inj heq
  exact ⟨checkBlock_ok hblock, hindex, w₁, hloop, checkReward_ok hreward⟩

/-! ## The bound -/

theorem Account.unique {env : Env} {block : CBlock} {pindex : Uint256} {w w₁ w₂ : World}
    {index : CBlockIndex} {s : ConnectState} {n n' : Int} {flows : List Flow}
    (hindex : w.node.index? pindex = some index)
    (hloop : block.vtx.foldlM (connectTx env pindex index false)
      (.start (block.firstTxPos index.nBlockPos)) w = .ok s w₁)
    (hsubsidy : block.subsidy env w₁ = .ok n w₂)
    (h : block.Account env pindex w flows n') : n' = n ∧
      Flows env pindex index (.start (block.firstTxPos index.nBlockPos)) w block.vtx flows s w₁ := by
  obtain ⟨index', s', w₁', w₂', hindex', hflows, hsubsidy'⟩ := h
  rw [hindex] at hindex'
  obtain rfl := Option.some.inj hindex'
  obtain ⟨rfl, rfl⟩ := EStateM.Result.ok.inj (hloop.symm.trans hflows.run)
  obtain ⟨rfl, -⟩ := EStateM.Result.ok.inj (hsubsidy.symm.trans hsubsidy')
  exact ⟨rfl, hflows⟩

theorem bonus_nonneg (nBestHeight : Int) (flow : Flow) : 0 ≤ flow.bonus nBestHeight := by
  unfold Flow.bonus
  split <;> decide

theorem bounded_iff_covered {nBestHeight n : Int} {flows : List Flow}
    (hbase : ∀ flow ∈ flows, flow.tx.isCoinBase = true → flow.inputs = ∅) :
    CoinCreationBounded nBestHeight flows n ↔ StakesCovered nBestHeight flows n := by
  have hsplit := totalExcess_split nBestHeight hbase
  have hexcess := totalExcess_eq nBestHeight flows
  unfold CoinCreationBounded StakesCovered
  omega

/-- In a proof-of-stake block that `CheckBlock` lets through, the stake reward is what the second
transaction creates, and nothing else pays more than its inputs. -/
theorem covered_of_proofOfStake {env : Env} {block : CBlock} {pindex : Uint256}
    {index : CBlockIndex} {s s' : ConnectState} {w w' : World} {flows : List Flow} {n : Int}
    (hchecked : block.Checked env) (hpos : block.isProofOfStake = true)
    (h : Flows env pindex index s w block.vtx flows s' w') (hs : s.nFees = 0)
    (hreward : s'.nStakeReward ≤ n + s'.nFees) : StakesCovered w.node.nBestHeight flows n := by
  obtain ⟨coinbase, coinstake, rest, hvtx, hempty, hstake, hrest⟩ := hchecked.coinStake hpos
  obtain ⟨coinbase', rest', hvtx', hbase, hbases⟩ := hchecked.coinBase
  obtain ⟨rfl, rfl⟩ := List.cons.inj (hvtx.symm.trans hvtx')
  have hfees := h.totals.1
  rw [hvtx] at h
  cases h with
  | cons hfetch₀ hconnect₀ h =>
    rename_i inputs₀ flows
    have hnode₀ := ((Reads.connectTx _ _ _ _ _ _).ok hconnect₀).node
    cases h with
    | cons hfetch₁ hconnect₁ h =>
      rename_i inputs₁ flows
      have hnode₁ := ((Reads.connectTx _ _ _ _ _ _).ok hconnect₁).node
      obtain ⟨-, htxs, hsame, -⟩ := h.totals
      have hstake₁ := (round_ok hfetch₁ hconnect₁).stake hstake
      have hnone : ∀ flow ∈ flows, flow.tx.isCoinStake = false ∧ flow.tx.isCoinBase = false := by
        intro flow hflow
        have hmem : flow.tx ∈ rest := htxs ▸ List.mem_map_of_mem hflow
        exact ⟨hrest _ hmem, hbases _ (List.mem_cons_of_mem _ hmem)⟩
      have hstake₀ := CTransaction.isCoinStake_of_isCoinBase hbase
      have hbase₁ := CTransaction.isCoinBase_of_isCoinStake hstake
      have hstakes : stakeExcess w.node.nBestHeight
          (⟨coinbase, inputs₀⟩ :: ⟨coinstake, inputs₁⟩ :: flows) =
            Flow.excess w.node.nBestHeight ⟨coinstake, inputs₁⟩ := by
        have hfilter : flows.filter (fun flow => flow.tx.isCoinStake) = [] :=
          List.filter_eq_nil_iff.mpr fun flow hflow => by simp [(hnone flow hflow).1]
        simp [stakeExcess, totalExcess, hstake, hstake₀, hfilter]
      have hvalue : coinBaseValue (⟨coinbase, inputs₀⟩ :: ⟨coinstake, inputs₁⟩ :: flows) = 0 := by
        have hfilter : flows.filter (fun flow => flow.tx.isCoinBase) = [] :=
          List.filter_eq_nil_iff.mpr fun flow hflow => by simp [(hnone flow hflow).2]
        simp [coinBaseValue, hbase, hbase₁, hfilter, CTransaction.valueOut, hempty, CTxOut.empty]
      have hbonus := bonus_nonneg w.node.nBestHeight ⟨coinstake, inputs₁⟩
      have hsame := hsame hrest
      rw [StakesCovered, hstakes, hvalue, Flow.excess]
      omega

theorem isProofOfStake_of_no_coinstake {block : CBlock}
    (h : ∀ tx ∈ block.vtx, tx.isCoinStake = false) : block.isProofOfStake = false := by
  unfold isProofOfStake
  split
  · next coinbase coinstake rest hvtx => exact h coinstake (by simp [hvtx])
  · rfl

/-- A proof-of-work block without coin stakes pays out its subsidy and fees at most. -/
theorem covered_of_no_coinstake {env : Env} {block : CBlock} {pindex : Uint256}
    {index : CBlockIndex} {s s' : ConnectState} {w w' : World} {flows : List Flow} {n : Int}
    (hchecked : block.Checked env) (hnone : ∀ tx ∈ block.vtx, tx.isCoinStake = false)
    (h : Flows env pindex index s w block.vtx flows s' w') (hs : s.nFees = 0)
    (hreward : ∀ coinbase rest, block.vtx = coinbase :: rest → coinbase.valueOut ≤ n + s'.nFees) :
    StakesCovered w.node.nBestHeight flows n := by
  obtain ⟨coinbase, rest, hvtx, hbase, hrest⟩ := hchecked.coinBase
  obtain ⟨hfees, htxs, -, -⟩ := h.totals
  have hpaid := hreward coinbase rest hvtx
  have hstakes : flows.filter (fun flow => flow.tx.isCoinStake) = [] := by
    refine List.filter_eq_nil_iff.mpr fun flow hflow => ?_
    rw [hnone _ (htxs ▸ List.mem_map_of_mem hflow)]
    exact Bool.false_ne_true
  have hvalue : coinBaseValue flows = coinbase.valueOut := by
    have hmap : coinBaseValue flows =
        (((flows.map Flow.tx).filter CTransaction.isCoinBase).map CTransaction.valueOut).sum := by
      rw [coinBaseValue, List.filter_map, List.map_map]
      rfl
    have hfilter : rest.filter CTransaction.isCoinBase = [] :=
      List.filter_eq_nil_iff.mpr fun tx htx => by simp [hrest tx htx]
    rw [hmap, htxs, hvtx, List.filter_cons_of_pos hbase, hfilter]
    simp
  rw [StakesCovered, stakeExcess, hstakes, hvalue]
  simp only [totalExcess, List.map_nil, List.sum_nil]
  omega

/-- Two outputs of one coin. -/
def twoCoins : CTransaction where
  nVersion := 1
  nTime := 1464466600
  vin := [⟨⟨3, 0⟩, [], uint32Max⟩]
  vout := [⟨coin, [0x51]⟩, ⟨coin, [0x51]⟩]
  nLockTime := 0

/-- A coin base, a spend of the first output, and a coin stake that turns the second into a
thousand coins. -/
def mintingBlock : CBlock where
  nVersion := 1
  hashPrevBlock := 2
  hashMerkleRoot := 52775480197817898136957458122867411967726941893787120162910012555442999989395
  nTime := 1464467000
  nBits := 0x1e00ffff
  nNonce := 4608593
  vtx := [
    { nVersion := 1, nTime := 1464467000, vin := [⟨.null, [0x52, 0x00], uint32Max⟩],
      vout := [⟨0, [0x51]⟩], nLockTime := 0 },
    { nVersion := 1, nTime := 1464467000,
      vin := [⟨⟨twoCoins.getHash mainNet, 0⟩, [], uint32Max⟩],
      vout := [⟨coin / 2, [0x51]⟩], nLockTime := 0 },
    { nVersion := 1, nTime := 1464467000,
      vin := [⟨⟨twoCoins.getHash mainNet, 1⟩, [], uint32Max⟩],
      vout := [.empty, ⟨1000 * coin, [0x51]⟩], nLockTime := 0 }]
  vchBlockSig := []

/-- A node at height 1 with the minting block in its index, ready to connect it. -/
def mintingWorld : World where
  node := { Node.initial with
    mapBlockIndex := (∅ : Map Uint256 CBlockIndex).insert 2
        { CBlockIndex.ofBlock 1 8 mintingBlock with nHeight := 1 } |>.insert
      (mintingBlock.getHash mainNet)
        { CBlockIndex.ofBlock 1 1000 mintingBlock with pprev := some 2, nHeight := 2 }
    pindexBest := some 2
    nBestHeight := 1
    txdb := ⟨(∅ : Map DbKey DbVal).insert (.tx (twoCoins.getHash mainNet))
      (.txindex (.new ⟨1, 8, 100⟩ 2)), some []⟩
    files := { BlockFiles.empty with
      txAt := (∅ : Map FilePos CTransaction).insert ⟨1, 100⟩ twoCoins } }
  sys := ⟨1464467000, fun _ => true, true, false, false⟩
  log := []

/-- The block connects, and its outputs are worth 998.5 coins more than its inputs. -/
theorem mintingBlock_connects : ∃ w',
    mintingBlock.connectBlock mainNet (mintingBlock.getHash mainNet) false mintingWorld =
      .ok () w' ∧
    ∃ index s w₁, mintingBlock.checkConnect mainNet (mintingBlock.getHash mainNet) false
      mintingWorld = .ok (index, s) w₁ ∧ s.nValueOut - s.nValueIn = 1997 * coin / 2 := by
  have hconnect : succeeds (fun _ _ => true) (mintingBlock.connectBlock mainNet
      (mintingBlock.getHash mainNet) false mintingWorld) = true := by
    unfold mintingWorld
    rw [mainNet_eq]
    decide +kernel
  have hcheck : succeeds (fun r _ => decide (r.2.nValueOut - r.2.nValueIn = 1997 * coin / 2))
      (mintingBlock.checkConnect mainNet (mintingBlock.getHash mainNet) false mintingWorld) =
        true := by
    unfold mintingWorld
    rw [mainNet_eq]
    decide +kernel
  obtain ⟨_, w', hconnect, -⟩ := succeeds_iff.mp hconnect
  obtain ⟨⟨index, s⟩, w₁, hcheck, hvalue⟩ := succeeds_iff.mp hcheck
  exact ⟨w', hconnect, index, s, w₁, hcheck, of_decide_eq_true hvalue⟩

theorem subsidy_ok_of_proofOfWork {env : Env} {block : CBlock} {pindexBest : Uint256}
    {indexBest : CBlockIndex} {n : Int} {w w' : World} (hpow : block.isProofOfStake = false)
    (hbest : w.node.pindexBest = some pindexBest)
    (hindex : w.node.index? pindexBest = some indexBest)
    (h : block.subsidy env w = .ok n w') : n = proofOfWorkSubsidy indexBest.nHeight := by
  simp only [subsidy, hpow, getNode_bind] at h
  obtain ⟨pindexBest', hbest', h⟩ := nonNull_bind_eq_ok.mp h
  obtain rfl := Option.some.inj (hbest.symm.trans hbest')
  obtain ⟨indexBest', hindex', h⟩ := deref_bind_eq_ok.mp h
  obtain rfl := Option.some.inj (hindex.symm.trans hindex')
  obtain ⟨-, rfl⟩ := Int64.checked_eq_ok.mp (fromExcept_eq_ok.mp h).1
  exact Int.add_zero _

/-- Below `POSTMINE_BLOCK` there is no bonus. -/
theorem totalBonus_of_lt {nBestHeight : Int} (h : nBestHeight < postmineBlock) (flows : List Flow) :
    totalBonus nBestHeight flows = 0 := by
  refine List.sum_eq_zero fun v hv => ?_
  obtain ⟨flow, -, rfl⟩ := List.mem_map.mp hv
  have hnot : ¬ (postmineBlock : Int) ≤ nBestHeight := Int.not_le.mpr h
  simp [Flow.bonus, CTransaction.observesPostmine, hnot]

end CBlock

end NoLimitCoin
