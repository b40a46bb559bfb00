import NoLimitCoin.Mint

/-!
# The stake reward as exact arithmetic

`GetCoinAge` adds up what the inputs of a coin stake have gathered, with numbers of any size,
and hands the coin-days over as an unsigned 64-bit value.  `GetProofOfStakeReward` takes them
as a signed one and multiplies before it divides.

Results:
1. `getCoinAge_eq`: the coin age is the exact coin age of the coins spent;
2. `getProofOfStakeReward_eq_iff`: the products are exact up to a number of coin-days that is
   far below what the supply can gather;
3. `stakeReward_exact_iff`: the reward of a coin stake is exact, and monotone in the coin age,
   exactly when the coins spent have gathered no more than that.
-/

namespace NoLimitCoin

open Prog NodeM

/-! ## The exact reward -/

/-- An output that a coin stake spends, with its age in seconds. -/
structure StakedCoin where
  nValue : Int
  nAge : Nat
deriving Repr, DecidableEq

namespace StakedCoin

/-- What a coin adds to the coin age, in cent-seconds. -/
def centSeconds (c : StakedCoin) : Int := c.nValue * c.nAge / cent

end StakedCoin

/-- The coin-days that coins have gathered. -/
def coinDays (coins : List StakedCoin) : Int :=
  (coins.map StakedCoin.centSeconds).sum * cent / coin / (24 * 60 * 60)

/-- The reward for a coin age, over the integers. -/
def exactReward (nCoinAge : Int) : Int := nCoinAge * coinYearReward * 33 / (365 * 33 + 8)

/-! ## The coins of a coin stake -/

section coins

variable (env : Env) (txdb : TxDB) (tx : CTransaction)

/-- What an input adds to the coin age: nothing where its transaction is not in the main chain
or is younger than the minimum age. -/
inductive InputCoins (txin : CTxIn) (w : World) : World → List StakedCoin → Prop
  | absent {w' : World} (hread : readTxFromDisk txdb txin.prevout w = .ok none w') :
      InputCoins txin w w' []
  | young {w₁ w' : World} {txPrev : CTransaction} {txindex : CTxIndex} {block : CBlock}
      (hread : readTxFromDisk txdb txin.prevout w = .ok (some (txPrev, txindex)) w₁)
      (htime : txPrev.nTime ≤ tx.nTime)
      (hblock : readBlockAt env txindex.pos.nFile txindex.pos.nBlockPos false w₁ =
        .ok (some block) w')
      (hyoung : (tx.nTime : Int) < block.getBlockTime + env.nStakeMinAge) :
      InputCoins txin w w' []
  | aged {w₁ w' : World} {txPrev : CTransaction} {txindex : CTxIndex} {block : CBlock}
      {txout : CTxOut}
      (hread : readTxFromDisk txdb txin.prevout w = .ok (some (txPrev, txindex)) w₁)
      (htime : txPrev.nTime ≤ tx.nTime)
      (hblock : readBlockAt env txindex.pos.nFile txindex.pos.nBlockPos false w₁ =
        .ok (some block) w')
      (haged : block.getBlockTime + env.nStakeMinAge ≤ (tx.nTime : Int))
      (hout : txPrev.vout[txin.prevout.n]? = some txout) :
      InputCoins txin w w' [⟨txout.nValue, tx.nTime - txPrev.nTime⟩]

/-- The coins that a list of inputs spends. -/
inductive Coins : List CTxIn → World → World → List StakedCoin → Prop
  | nil {w : World} : Coins [] w w []
  | cons {txin : CTxIn} {vin : List CTxIn} {w w₁ w' : World} {cs rest : List StakedCoin}
      (hinput : InputCoins env txdb tx txin w w₁ cs) (hrest : Coins vin w₁ w' rest) :
      Coins (txin :: vin) w w' (cs ++ rest)

variable {env txdb tx}

theorem InputCoins.age_le {txin : CTxIn} {w w' : World} {cs : List StakedCoin}
    (h : InputCoins env txdb tx txin w w' cs) : ∀ c ∈ cs, c.nAge ≤ tx.nTime := by
  cases h with
  | absent => simp
  | young => simp
  | aged => simp

theorem Coins.age_le {vin : List CTxIn} {w w' : World} {coins : List StakedCoin}
    (h : Coins env txdb tx vin w w' coins) : ∀ c ∈ coins, c.nAge ≤ tx.nTime := by
  induction h with
  | nil => simp
  | cons hinput _ ih =>
    intro c hc
    rcases List.mem_append.mp hc with hc | hc
    · exact hinput.age_le c hc
    · exact ih c hc

theorem inputCoinAge_eq {txin : CTxIn} {w w' : World} {cs : List StakedCoin}
    (h : InputCoins env txdb tx txin w w' cs) (hvalue : ∀ c ∈ cs, 0 ≤ c.nValue) (bn : Int) :
    tx.inputCoinAge env txdb (some bn) txin w =
      .ok (some (bn + (cs.map StakedCoin.centSeconds).sum)) w' := by
  simp only [CTransaction.inputCoinAge]
  cases h with
  | absent hread =>
    rw [bind_run, hread]
    simp [pure_run]
  | young hread htime hblock hyoung =>
    rw [bind_run, hread]
    simp only [Nat.not_lt.mpr htime, if_false]
    rw [bind_run, hblock]
    simp [hyoung, pure_run]
  | @aged w₁ _ txPrev txindex block txout hread htime hblock haged hout =>
    have hnonneg : 0 ≤ txout.nValue := hvalue _ (List.mem_singleton.mpr rfl)
    rw [bind_run, hread]
    simp only [Nat.not_lt.mpr htime, if_false]
    rw [bind_run, hblock]
    simp only [Int.not_lt.mpr haged, if_false, hout, pure_run, List.map_cons, List.map_nil,
      List.sum_cons, List.sum_nil, Int.add_zero, StakedCoin.centSeconds]
    rw [Int.tdiv_eq_ediv_of_nonneg (Int.mul_nonneg hnonneg (Int.natCast_nonneg _))]

/-- The loop of `GetCoinAge` adds up what the coins have gathered. -/
theorem foldlM_inputCoinAge_eq {vin : List CTxIn} {w w' : World} {coins : List StakedCoin}
    (h : Coins env txdb tx vin w w' coins) (hvalue : ∀ c ∈ coins, 0 ≤ c.nValue) (bn : Int) :
    vin.foldlM (tx.inputCoinAge env txdb) (some bn) w =
      .ok (some (bn + (coins.map StakedCoin.centSeconds).sum)) w' := by
  induction h generalizing bn with
  | nil => simp [pure_run]
  | @cons txin vin w w₁ w' cs rest hinput _ ih =>
    rw [List.foldlM_cons, bind_run,
      inputCoinAge_eq hinput (fun c hc => hvalue c (List.mem_append_left _ hc)) bn]
    simp only [ih (fun c hc => hvalue c (List.mem_append_right _ hc)), List.map_append,
      List.sum_append, Int.add_assoc]

end coins

/-! ## The size of a coin age -/

theorem centSeconds_nonneg {c : StakedCoin} (h : 0 ≤ c.nValue) : 0 ≤ c.centSeconds :=
  Int.ediv_nonneg (Int.mul_nonneg h (Int.natCast_nonneg _)) (by decide)

theorem centSeconds_sum_nonneg {coins : List StakedCoin} (h : ∀ c ∈ coins, 0 ≤ c.nValue) :
    0 ≤ (coins.map StakedCoin.centSeconds).sum := by
  refine List.sum_nonneg fun n hn => ?_
  obtain ⟨c, hc, rfl⟩ := List.mem_map.mp hn
  exact centSeconds_nonneg (h c hc)

theorem centSeconds_le {c : StakedCoin} (hvalue : 0 ≤ c.nValue) (hage : c.nAge ≤ uint32Max) :
    c.centSeconds * cent ≤ c.nValue * uint32Max := by
  have hle : c.nValue * c.nAge ≤ c.nValue * uint32Max :=
    Int.mul_le_mul_of_nonneg_left (Int.ofNat_le.mpr hage) hvalue
  exact (Int.ediv_mul_le _ (by decide)).trans hle

theorem centSeconds_sum_le {coins : List StakedCoin} (hvalue : ∀ c ∈ coins, 0 ≤ c.nValue)
    (hage : ∀ c ∈ coins, c.nAge ≤ uint32Max) :
    (coins.map StakedCoin.centSeconds).sum * cent ≤
      (coins.map StakedCoin.nValue).sum * uint32Max := by
  induction coins with
  | nil => simp
  | cons c coins ih =>
    have hc := centSeconds_le (hvalue c List.mem_cons_self) (hage c List.mem_cons_self)
    have hrest := ih (fun d hd => hvalue d (List.mem_cons_of_mem _ hd))
      (fun d hd => hage d (List.mem_cons_of_mem _ hd))
    simp only [List.map_cons, List.sum_cons, Int.add_mul]
    exact Int.add_le_add hc hrest

theorem coinDays_nonneg {coins : List StakedCoin} (h : ∀ c ∈ coins, 0 ≤ c.nValue) :
    0 ≤ coinDays coins := by
  have hsum := centSeconds_sum_nonneg h
  refine Int.ediv_nonneg (Int.ediv_nonneg (Int.mul_nonneg hsum ?_) ?_) ?_ <;> decide

/-- Coins worth no more than there may be do not gather more than an unsigned 64-bit value can
hold, nor a signed one. -/
theorem coinDays_lt {coins : List StakedCoin} (hvalue : ∀ c ∈ coins, 0 ≤ c.nValue)
    (hage : ∀ c ∈ coins, c.nAge ≤ uint32Max)
    (hmoney : moneyRange (coins.map StakedCoin.nValue).sum = true) : coinDays coins < 2 ^ 63 := by
  have hsum := centSeconds_sum_le hvalue hage
  simp only [moneyRange, Bool.and_eq_true, decide_eq_true_eq] at hmoney
  simp only [maxMoney, coin, cent, uint32Max] at hmoney hsum
  simp only [coinDays, cent, coin]
  omega

theorem getCoinAge_eq {env : Env} {txdb : TxDB} {tx : CTransaction} {w w' : World}
    {coins : List StakedCoin} (hcoinbase : tx.isCoinBase = false)
    (hcoins : Coins env txdb tx tx.vin w w' coins) (hvalue : ∀ c ∈ coins, 0 ≤ c.nValue)
    (htime : tx.nTime ≤ uint32Max)
    (hmoney : moneyRange (coins.map StakedCoin.nValue).sum = true) :
    tx.getCoinAge env txdb w = .ok (some (coinDays coins).toNat) w' := by
  have hsum := centSeconds_sum_nonneg hvalue
  have hlt := coinDays_lt hvalue (fun c hc => (hcoins.age_le c hc).trans htime) hmoney
  have hnonneg := coinDays_nonneg hvalue
  have hdays : (((coins.map StakedCoin.centSeconds).sum * cent).tdiv coin).tdiv (24 * 60 * 60) =
      coinDays coins := by
    rw [Int.tdiv_eq_ediv_of_nonneg (Int.mul_nonneg hsum (by decide)),
      Int.tdiv_eq_ediv_of_nonneg (Int.ediv_nonneg (Int.mul_nonneg hsum (by decide)) (by decide))]
    rfl
  unfold CTransaction.getCoinAge
  rw [if_neg (by simp [hcoinbase]), bind_run, foldlM_inputCoinAge_eq hcoins hvalue 0]
  simp only [Int.zero_add, hdays, pure_run, CBigNum.getUint64]
  congr 2
  omega

/-! ## The products -/

theorem inRange_of_nonneg {n : Int} (h : 0 ≤ n) : Int64.inRange n = true ↔ n < 2 ^ 63 := by
  simp only [Int64.inRange, Bool.and_eq_true, decide_eq_true_eq]
  omega

/-- The products of the reward stay in range exactly up to a bound on the coin-days. -/
theorem proofOfStakeSubsidy_eq_iff {nCoinAge : Int} (h : 0 ≤ nCoinAge) :
    proofOfStakeSubsidy nCoinAge = .ok (exactReward nCoinAge) ↔
      nCoinAge * (coinYearReward * 33) < 2 ^ 63 := by
  have hyear : 0 ≤ nCoinAge * coinYearReward := Int.mul_nonneg h (by decide)
  have hproduct : 0 ≤ nCoinAge * coinYearReward * 33 := Int.mul_nonneg hyear (by decide)
  have hexact : (nCoinAge * coinYearReward * 33).tdiv (365 * 33 + 8) = exactReward nCoinAge :=
    Int.tdiv_eq_ediv_of_nonneg hproduct
  rw [← Int.mul_assoc]
  constructor
  · intro hok
    obtain ⟨a, ha, hok⟩ := except_bind_eq_ok.mp hok
    obtain ⟨b, hb, -⟩ := except_bind_eq_ok.mp hok
    obtain ⟨-, rfl⟩ := Int64.checked_eq_ok.mp ha
    exact (inRange_of_nonneg hproduct).mp (Int64.checked_eq_ok.mp hb).1
  · intro hlt
    have hlt₁ : nCoinAge * coinYearReward < 2 ^ 63 := by omega
    refine except_bind_eq_ok.mpr ⟨_, Int64.checked_eq_ok.mpr
      ⟨(inRange_of_nonneg hyear).mpr hlt₁, rfl⟩, ?_⟩
    refine except_bind_eq_ok.mpr ⟨_, Int64.checked_eq_ok.mpr
      ⟨(inRange_of_nonneg hproduct).mpr hlt, rfl⟩, ?_⟩
    rw [hexact]
    rfl

theorem proofOfStakeSubsidy_eq_ok {nCoinAge n : Int} (h : 0 ≤ nCoinAge)
    (hok : proofOfStakeSubsidy nCoinAge = .ok n) : n = exactReward nCoinAge := by
  obtain ⟨a, ha, hok⟩ := except_bind_eq_ok.mp hok
  obtain ⟨b, hb, hok⟩ := except_bind_eq_ok.mp hok
  obtain ⟨-, rfl⟩ := Int64.checked_eq_ok.mp ha
  obtain ⟨-, rfl⟩ := Int64.checked_eq_ok.mp hb
  obtain rfl := Except.ok.inj hok
  exact Int.tdiv_eq_ediv_of_nonneg (Int.mul_nonneg (Int.mul_nonneg h (by decide)) (by decide))

theorem exactReward_mono {nCoinAge nCoinAge' : Int} (h : nCoinAge ≤ nCoinAge') :
    exactReward nCoinAge ≤ exactReward nCoinAge' := by
  simp only [exactReward, coinYearReward, cent]
  omega

theorem exactReward_nonneg {nCoinAge : Int} (h : 0 ≤ nCoinAge) : 0 ≤ exactReward nCoinAge :=
  Int.ediv_nonneg (Int.mul_nonneg (Int.mul_nonneg h (by decide)) (by decide)) (by decide)

/-- A sum with the fees stays below the end of the range exactly when the product does not
reach that many times the divisor. -/
theorem exactReward_add_lt_iff {nCoinAge nFees : Int} :
    exactReward nCoinAge + nFees < 2 ^ 63 ↔
      nCoinAge * (coinYearReward * 33) < (365 * 33 + 8) * (2 ^ 63 - nFees) := by
  simp only [exactReward, coinYearReward, cent]
  omega

/-- The coin-days up to which the reward is exact, with the fees that are added to it. -/
def rewardFits (nCoinAge nFees : Int) : Prop :=
  nCoinAge * (coinYearReward * 33) < 2 ^ 63 ∧
    nCoinAge * (coinYearReward * 33) < (365 * 33 + 8) * (2 ^ 63 - nFees)

theorem rewardFits.mono {nCoinAge nCoinAge' nFees : Int} (h : rewardFits nCoinAge' nFees)
    (hle : nCoinAge ≤ nCoinAge') : rewardFits nCoinAge nFees := by
  have hmul := Int.mul_le_mul_of_nonneg_right hle (by decide : 0 ≤ coinYearReward * 33)
  exact ⟨hmul.trans_lt h.1, hmul.trans_lt h.2⟩

theorem getProofOfStakeReward_eq_iff {nCoinAge nFees : Int} (h : 0 ≤ nCoinAge)
    (hfees : Int64.inRange nFees = true) :
    getProofOfStakeReward nCoinAge nFees = .ok (exactReward nCoinAge + nFees) ↔
      rewardFits nCoinAge nFees := by
  have hlow : -2 ^ 63 ≤ exactReward nCoinAge + nFees := by
    have hreward := exactReward_nonneg h
    simp only [Int64.inRange, Bool.and_eq_true, decide_eq_true_eq] at hfees
    omega
  have hrange : Int64.inRange (exactReward nCoinAge + nFees) = true ↔
      exactReward nCoinAge + nFees < 2 ^ 63 := by
    simp only [Int64.inRange, Bool.and_eq_true, decide_eq_true_eq, hlow, true_and]
  rw [rewardFits, ← proofOfStakeSubsidy_eq_iff h, ← exactReward_add_lt_iff, ← hrange]
  constructor
  · intro hok
    obtain ⟨n, hsubsidy, hsum⟩ := except_bind_eq_ok.mp hok
    obtain rfl := proofOfStakeSubsidy_eq_ok h hsubsidy
    exact ⟨hsubsidy, (Int64.checked_eq_ok.mp hsum).1⟩
  · rintro ⟨hsubsidy, hsum⟩
    exact except_bind_eq_ok.mpr ⟨_, hsubsidy, Int64.checked_eq_ok.mpr ⟨hsum, rfl⟩⟩

/-! ## The reward of a coin stake -/

/-- The coin age of a coin stake is exact, so is its reward, and no smaller coin age has a
larger reward. -/
def RewardExact (env : Env) (txdb : TxDB) (tx : CTransaction) (coins : List StakedCoin)
    (nFees : Int) (w w' : World) : Prop :=
  ∃ nCoinAge, tx.getCoinAge env txdb w = .ok (some nCoinAge) w' ∧
    Int64.ofUint64 nCoinAge = coinDays coins ∧
    getProofOfStakeReward (Int64.ofUint64 nCoinAge) nFees =
      .ok (exactReward (coinDays coins) + nFees) ∧
    ∀ nLess ≤ nCoinAge, ∃ nReward,
      getProofOfStakeReward (Int64.ofUint64 nLess) nFees = .ok nReward ∧
        nReward ≤ exactReward (coinDays coins) + nFees

theorem ofUint64_of_lt {n : Nat} (h : (n : Int) < 2 ^ 63) : Int64.ofUint64 n = n := by
  have hlt : n < 2 ^ 63 := by omega
  rw [Int64.ofUint64, if_pos hlt]

theorem rewardExact_iff {env : Env} {txdb : TxDB} {tx : CTransaction} {nFees : Int}
    {coins : List StakedCoin} {w w' : World} (hcoinbase : tx.isCoinBase = false)
    (hcoins : Coins env txdb tx tx.vin w w' coins) (hvalue : ∀ c ∈ coins, 0 ≤ c.nValue)
    (htime : tx.nTime ≤ uint32Max) (hmoney : moneyRange (coins.map StakedCoin.nValue).sum = true)
    (hfees : Int64.inRange nFees = true) :
    RewardExact env txdb tx coins nFees w w' ↔ rewardFits (coinDays coins) nFees := by
  have hage := getCoinAge_eq hcoinbase hcoins hvalue htime hmoney
  have hnonneg := coinDays_nonneg hvalue
  have hlt := coinDays_lt hvalue (fun c hc => (hcoins.age_le c hc).trans htime) hmoney
  have hcast : Int64.ofUint64 (coinDays coins).toNat = coinDays coins := by
    rw [ofUint64_of_lt (by rwa [Int.toNat_of_nonneg hnonneg]), Int.toNat_of_nonneg hnonneg]
  constructor
  · rintro ⟨nCoinAge, -, heq, hreward, -⟩
    rw [heq] at hreward
    exact (getProofOfStakeReward_eq_iff hnonneg hfees).mp hreward
  · intro hfits
    refine ⟨_, hage, hcast, ?_, fun nLess hless => ?_⟩
    · rw [hcast]
      exact (getProofOfStakeReward_eq_iff hnonneg hfees).mpr hfits
    · have hle : (nLess : Int) ≤ coinDays coins := by omega
      rw [ofUint64_of_lt (hle.trans_lt hlt)]
      exact ⟨_, (getProofOfStakeReward_eq_iff (Int.natCast_nonneg _) hfees).mpr (hfits.mono hle),
        Int.add_le_add_right (exactReward_mono hle) _⟩

/-- The reward of a coin stake is exact exactly when its coins have not gathered too many
coin-days. -/
theorem stakeReward_exact_iff (env : Env) (txdb : TxDB) (tx : CTransaction) (nFees : Int)
    (coins : List StakedCoin) (w w' : World) (hstake : tx.isCoinStake = true)
    (hcoins : Coins env txdb tx tx.vin w w' coins) (hvalue : ∀ c ∈ coins, 0 ≤ c.nValue)
    (htime : tx.nTime ≤ uint32Max) (hmoney : moneyRange (coins.map StakedCoin.nValue).sum = true)
    (hfees : Int64.inRange nFees = true) :
    RewardExact env txdb tx coins nFees w w' ↔ rewardFits (coinDays coins) nFees :=
  rewardExact_iff (CTransaction.isCoinBase_of_isCoinStake hstake) hcoins hvalue htime hmoney hfees

/-! ## A large holder -/

/-- A transaction that pays one output, the block it is in, and a node that has both on disk. -/
def paidTx (nValue : Int) : CTransaction := ⟨1, 1464466700, [], [⟨nValue, [0x51]⟩], 0⟩

def paidBlock : CBlock := ⟨1, 0, 0, 1464466700, 0, 0, [], []⟩

def holdsOutput (nValue : Int) : World where
  node := { Node.initial with
    txdb := ⟨(∅ : Map DbKey DbVal).insert (.tx 1) (.txindex ⟨⟨1, 8, 89⟩, [.null]⟩), none⟩
    files := ⟨1, ∅, (∅ : Map FilePos CBlock).insert ⟨1, 8⟩ paidBlock,
      (∅ : Map FilePos CTransaction).insert ⟨1, 89⟩ (paidTx nValue)⟩ }
  sys := ⟨1464466700, fun _ => true, true, false, false⟩
  log := []

/-- A coin stake that spends the output after some days. -/
def stakeAfter (days : Nat) : CTransaction :=
  ⟨1, 1464466700 + 24 * 60 * 60 * days, [⟨⟨1, 0⟩, [], uint32Max⟩], [.empty, .empty], 0⟩

theorem holdsOutput_coins (nValue : Int) (days : Nat) (h : 1 ≤ days) :
    Coins mainNet (holdsOutput nValue).node.txdb (stakeAfter days) (stakeAfter days).vin
      (holdsOutput nValue) (holdsOutput nValue) [⟨nValue, 24 * 60 * 60 * days⟩] := by
  have hread : readTxFromDisk (holdsOutput nValue).node.txdb ⟨1, 0⟩ (holdsOutput nValue) =
      .ok (some (paidTx nValue, ⟨⟨1, 8, 89⟩, [.null]⟩)) (holdsOutput nValue) := rfl
  have hblock : readBlockAt mainNet 1 8 false (holdsOutput nValue) =
      .ok (some paidBlock) (holdsOutput nValue) := rfl
  have haged : paidBlock.getBlockTime + (mainNet.nStakeMinAge : Int) ≤
      ((stakeAfter days).nTime : Int) := by
    show (1464466700 : Int) + 3 * 60 * 60 ≤ ((1464466700 + 24 * 60 * 60 * days : Nat) : Int)
    omega
  have hage : (stakeAfter days).nTime - (paidTx nValue).nTime = 24 * 60 * 60 * days :=
    Nat.add_sub_cancel_left ..
  have hout : (paidTx nValue).vout[0]? = some ⟨nValue, [0x51]⟩ := rfl
  have hinput : InputCoins mainNet (holdsOutput nValue).node.txdb (stakeAfter days)
      ⟨⟨1, 0⟩, [], uint32Max⟩ (holdsOutput nValue) (holdsOutput nValue)
      [⟨nValue, (stakeAfter days).nTime - (paidTx nValue).nTime⟩] :=
    @InputCoins.aged mainNet _ (stakeAfter days) _ _ _ _ (paidTx nValue) ⟨⟨1, 8, 89⟩, [.null]⟩
      paidBlock ⟨nValue, [0x51]⟩ hread (Nat.le_add_right _ _) hblock haged hout
  rw [hage] at hinput
  exact .cons hinput .nil

/-- The reward of a holder of a fifth of the supply after thirty days. -/
theorem stakeReward_exact_month :
    RewardExact mainNet (holdsOutput (200000000 * coin)).node.txdb (stakeAfter 30)
      [⟨200000000 * coin, 24 * 60 * 60 * 30⟩] 0 (holdsOutput (200000000 * coin))
      (holdsOutput (200000000 * coin)) :=
  (stakeReward_exact_iff mainNet _ (stakeAfter 30) 0 _ _ _ rfl
    (holdsOutput_coins _ 30 (by decide)) (by decide) (by decide) (by decide) (by decide)).mpr
    (by unfold rewardFits; decide)

/-- The whole supply in one output, staked after seventy days, overflows the reward. -/
theorem stakeReward_overflow :
    (stakeAfter 70).isCoinStake = true ∧ moneyRange maxMoney = true ∧
      Coins mainNet (holdsOutput maxMoney).node.txdb (stakeAfter 70) (stakeAfter 70).vin
        (holdsOutput maxMoney) (holdsOutput maxMoney) [⟨maxMoney, 24 * 60 * 60 * 70⟩] ∧
      (stakeAfter 70).getCoinAge mainNet (holdsOutput maxMoney).node.txdb (holdsOutput maxMoney) =
        .ok (some 70000000000) (holdsOutput maxMoney) ∧
      getProofOfStakeReward 70000000000 0 = .error (.abort "signed overflow") ∧
      ¬ RewardExact mainNet (holdsOutput maxMoney).node.txdb (stakeAfter 70)
        [⟨maxMoney, 24 * 60 * 60 * 70⟩] 0 (holdsOutput maxMoney) (holdsOutput maxMoney) := by
  have hcoins := holdsOutput_coins maxMoney 70 (by decide)
  have hage := getCoinAge_eq rfl hcoins (by decide) (by decide) (by decide)
  refine ⟨rfl, rfl, hcoins, hage, rfl, ?_⟩
  rw [rewardExact_iff rfl hcoins (by decide) (by decide) (by decide) (by decide)]
  unfold rewardFits
  decide

end NoLimitCoin
