import NoLimitCoin.CoinSelection
import NoLimitCoin.MinerRuns
import NoLimitCoin.Standard

/-!
# Signing a proof-of-stake block

`CreateCoinStake` of `wallet.cpp` looks for a coin whose kernel meets the target, backwards from
the current time, and `SignBlock` makes a block of the template out of the coin stake.

Result: `signBlock_timely_iff`, when a signed block obeys the rules on its times.
-/

namespace NoLimitCoin

open Prog NodeM Interpreter

/-! ## The coin stake -/

def nStakeSplitAge : Int := 1 * 24 * 60 * 60

def nStakeCombineThreshold : Int := 1000 * coin

def nMaxStakeSearchInterval : Nat := 60

/-- What `CreateCoinStake` and `SignBlock` ask the wallet.  A key is given by its public key. -/
structure StakeWallet where
  nBalance : Int
  nReserveBalance : Int
  /-- `AvailableCoinsMinConf`. -/
  availableCoins : List Coin
  /-- The order of a set of coins, which is that of their pointers. -/
  setOrder : List Coin → List Coin
  hash160 : Valtype → Valtype
  /-- `GetKey`. -/
  getKey : Valtype → Option Valtype
  /-- `SignSignature` of an input, for the transaction it spends. -/
  signSignature : CTransaction → CTransaction → Nat → Option CScript
  /-- `CKey::Sign`. -/
  sign : Valtype → Uint256 → Option (List UInt8)

/-- The loop of `SelectCoinsSimple`. -/
def selectCoinsLoop (nTargetValue : Int) (nSpendTime : Nat) : (nValueRet : Int) → List Coin →
    List Coin
  | _, [] => []
  | nValueRet, c :: coins =>
    if nTargetValue ≤ nValueRet then []
    else if nSpendTime < c.1.nTime then selectCoinsLoop nTargetValue nSpendTime nValueRet coins
    else if nTargetValue ≤ c.txout.nValue then [c]
    else if c.txout.nValue < nTargetValue + cent then
      c :: selectCoinsLoop nTargetValue nSpendTime (nValueRet + c.txout.nValue) coins
    else selectCoinsLoop nTargetValue nSpendTime nValueRet coins

namespace StakeWallet

/-- `SelectCoinsSimple`. -/
def selectCoinsSimple (wallet : StakeWallet) (nTargetValue : Int) (nSpendTime : Nat) : List Coin :=
  wallet.setOrder (selectCoinsLoop nTargetValue nSpendTime 0 wallet.availableCoins)

/-- The key and the output script for a kernel: only outputs to a public key or to its hash are
supported. -/
def kernelScript (wallet : StakeWallet) (scriptPubKeyKernel : CScript) : Option (Valtype × CScript) :=
  match solver scriptPubKeyKernel with
  | (true, .pubkeyhash, vSolution :: _) =>
    (wallet.getKey vSolution).map fun key => (key, pushOf key ++ [UInt8.ofNat opCheckSig])
  | (true, .pubkey, vchPubKey :: _) =>
    match wallet.getKey (wallet.hash160 vchPubKey) with
    | none => none
    | some key => if key = vchPubKey then some (key, scriptPubKeyKernel) else none
  | _ => none

end StakeWallet

/-- The kernel that has been found. -/
structure StakeKernel where
  nTime : Nat
  coin : Coin
  block : CBlock
  key : Valtype
  scriptPubKeyOut : CScript

/-- `txNew.nTime - n`. -/
def secondsBack (nTime n : Nat) : Nat := (nTime + 2 ^ 32 - n) % 2 ^ 32

/-- The loop over the last seconds: how far back the first kernel is. -/
def searchBack (env : Env) (node : Node) (nBits : Nat) (block : CBlock) (nTxPrevOffset : Nat)
    (c : Coin) (nSearchInterval : Int) (nTime : Nat) : Option Nat :=
  (List.range (min nSearchInterval nMaxStakeSearchInterval).toNat).find? fun n =>
    (checkStakeKernelHash env node nBits block nTxPrevOffset c.1 ⟨c.1.getHash env, c.2⟩
      (secondsBack nTime n)).isSome

/-- The search for one coin: the first second with a kernel ends it, whether the script of the
coin is supported or not. -/
def tryCoin (env : Env) (wallet : StakeWallet) (nBits : Nat) (nSearchInterval : Int) (nTime : Nat)
    (c : Coin) : NodeM (Option StakeKernel) := do
  let node ← getNode
  match node.txdb.fresh.readTxIndex (c.1.getHash env) with
  | none => pure none
  | some txindex =>
    match ← readBlockAt env txindex.pos.nFile txindex.pos.nBlockPos false with
    | none => pure none
    | some block =>
      if (secondsBack nTime nMaxStakeSearchInterval : Int) <
          block.getBlockTime + env.nStakeMinAge then pure none
      else
        let nTxPrevOffset := (txindex.pos.nTxPos + 2 ^ 32 - txindex.pos.nBlockPos) % 2 ^ 32
        match searchBack env node nBits block nTxPrevOffset c nSearchInterval nTime with
        | none => pure none
        | some n => pure ((wallet.kernelScript c.txout.scriptPubKey).map fun script =>
            ⟨secondsBack nTime n, c, block, script.1, script.2⟩)

/-- The loop over the coins. -/
def findKernel (env : Env) (wallet : StakeWallet) (nBits : Nat) (nSearchInterval : Int)
    (nTime : Nat) : List Coin → NodeM (Option StakeKernel)
  | [] => pure none
  | c :: coins => do
    match ← tryCoin env wallet nBits nSearchInterval nTime c with
    | some kernel => pure (some kernel)
    | none => findKernel env wallet nBits nSearchInterval nTime coins

/-- The kernel of a coin stake, from the coins that the wallet may spend. -/
def stakeKernel (env : Env) (wallet : StakeWallet) (nBits : Nat) (nSearchInterval : Int)
    (nTime : Nat) : NodeM (Option StakeKernel) :=
  if wallet.nBalance ≤ wallet.nReserveBalance then pure none
  else findKernel env wallet nBits nSearchInterval nTime
    (wallet.selectCoinsSimple (wallet.nBalance - wallet.nReserveBalance) nTime)

/-- The loop that adds more inputs of the same key: the inputs and their value. -/
def addInputs (env : Env) (nSpendable : Int) (kernel : StakeKernel) : (nInputs : Nat) →
    (nCredit : Int) → List Coin → List Coin × Int
  | _, nCredit, [] => ([], nCredit)
  | nInputs, nCredit, c :: coins =>
    if (c.txout.scriptPubKey = kernel.coin.txout.scriptPubKey ∨
        c.txout.scriptPubKey = kernel.scriptPubKeyOut) ∧
        c.1.getHash env ≠ kernel.coin.1.getHash env then
      if 100 ≤ nInputs ∨ nStakeCombineThreshold ≤ nCredit ∨
          nSpendable < nCredit + c.txout.nValue then ([], nCredit)
      else if nStakeCombineThreshold ≤ c.txout.nValue ∨
          getWeight env c.1.nTime kernel.nTime < env.nStakeMinAge then
        addInputs env nSpendable kernel nInputs nCredit coins
      else
        let (more, nCredit) :=
          addInputs env nSpendable kernel (nInputs + 1) (nCredit + c.txout.nValue) coins
        (c :: more, nCredit)
    else addInputs env nSpendable kernel nInputs nCredit coins

/-- `SignSignature` for the inputs from `nIn` on. -/
def signInputs (wallet : StakeWallet) : (nIn : Nat) → List Coin → CTransaction →
    Option CTransaction
  | _, [], tx => some tx
  | nIn, c :: coins, tx =>
    match wallet.signSignature c.1 tx nIn with
    | none => none
    | some scriptSig =>
      signInputs wallet (nIn + 1) coins
        { tx with vin := tx.vin.modify nIn fun txin => { txin with scriptSig := scriptSig } }

/-- The amounts of the outputs after the empty one. -/
def stakeAmounts (fSplit : Bool) (nCredit : Int) : List Int :=
  if fSplit then
    let half := (nCredit.tdiv 2).tdiv cent * cent
    [half, nCredit - half]
  else [nCredit]

/-- `CreateCoinStake`, for a transaction of the time `nTime`: the coin stake and the key. -/
def createCoinStake (env : Env) (wallet : StakeWallet) (nBits : Nat) (nSearchInterval nFees : Int)
    (nTime : Nat) : NodeM (Option (CTransaction × Valtype)) := do
  match ← stakeKernel env wallet nBits nSearchInterval nTime with
  | none => pure none
  | some kernel =>
    let nSpendable := wallet.nBalance - wallet.nReserveBalance
    let nCredit := kernel.coin.txout.nValue
    if nCredit = 0 ∨ nSpendable < nCredit then pure none
    else do
      let fSplit := decide (getWeight env kernel.block.nTime kernel.nTime < nStakeSplitAge)
      let (more, nCredit) := if fSplit then ([], nCredit)
        else addInputs env nSpendable kernel 1 nCredit (wallet.selectCoinsSimple nSpendable nTime)
      let coins := kernel.coin :: more
      let unsigned (amounts : List Int) : CTransaction :=
        ⟨1, kernel.nTime, coins.map fun c => ⟨⟨c.1.getHash env, c.2⟩, [], uint32Max⟩,
          .empty :: amounts.map fun n => ⟨n, kernel.scriptPubKeyOut⟩, 0⟩
      let node ← getNode
      match ← (unsigned (stakeAmounts fSplit 0)).getCoinAge env node.txdb.fresh with
      | none => throw (.reject 0 "CreateCoinStake : failed to calculate coin age")
      | some nCoinAge => do
        let nReward ← fromExcept (getProofOfStakeReward (Int64.ofUint64 nCoinAge) nFees)
        if nReward ≤ 0 then pure none
        else
          match signInputs wallet 0 coins (unsigned (stakeAmounts fSplit (nCredit + nReward))) with
          | none => throw (.reject 0 "CreateCoinStake : failed to sign coinstake")
          | some txNew =>
            if maxBlockSizeGen / 5 ≤ txNew.getSerializeSize then
              throw (.reject 0 "CreateCoinStake : exceeded coinstake size limit")
            else pure (some (txNew, kernel.key))

/-! ## The block -/

/-- The block that `SignBlock` makes of a template: its time is that of the coin stake at first,
and is raised to the time of the latest transaction and to what the previous block demands. -/
def stakeBlock (env : Env) (node : Node) (indexBest : CBlockIndex) (block : CBlock)
    (txCoinStake : CTransaction) : CBlock :=
  let vtx := match block.vtx with
    | [] => []
    | coinbase :: rest => { coinbase with nTime := txCoinStake.nTime } :: rest
  let nTime := toUint32 (max (getPastTimeLimit node indexBest + 1)
    ({ block with vtx := vtx } : CBlock).getMaxTransactionTime)
  let nTime := toUint32 (max (nTime : Int) (pastDrift indexBest.getBlockTime))
  let vtx := (vtx.filter fun tx => decide (tx.nTime ≤ nTime)).insertIdx 1 txCoinStake
  let block := { block with nTime := nTime, vtx := vtx }
  { block with hashMerkleRoot := block.buildMerkleTree env }

/-- `CBlock::SignBlock`: the signed block unless it returns false, and the time that the last
search has reached. -/
def signBlock (env : Env) (wallet : StakeWallet) (nFees nLastCoinStakeSearchTime : Int)
    (block : CBlock) : NodeM (Option CBlock × Int) := do
  let coinbase ← nonNull block.vtx.head?
  let txout ← nonNull coinbase.vout.head?
  if !txout.isEmpty then pure (none, nLastCoinStakeSearchTime)
  else if block.isProofOfStake then pure (some block, nLastCoinStakeSearchTime)
  else do
    let sys ← getSys
    let nSearchTime := toUint32 sys.adjustedTime
    if (nSearchTime : Int) ≤ nLastCoinStakeSearchTime then pure (none, nLastCoinStakeSearchTime)
    else do
      let created ← attempt (createCoinStake env wallet block.nBits
        (nSearchTime - nLastCoinStakeSearchTime) nFees nSearchTime)
      match created with
      | .error (.abort what) => throw (.abort what)
      | .error _ | .ok none => pure (none, (nSearchTime : Int))
      | .ok (some (txCoinStake, key)) => do
        let node ← getNode
        let pindexBest ← nonNull node.pindexBest
        let indexBest ← deref pindexBest
        if (txCoinStake.nTime : Int) <
            max (getPastTimeLimit node indexBest + 1) (pastDrift indexBest.getBlockTime) then
          pure (none, (nSearchTime : Int))
        else
          let block := stakeBlock env node indexBest block txCoinStake
          pure ((wallet.sign key (block.getHash env)).map fun vchBlockSig =>
            { block with vchBlockSig := vchBlockSig }, nLastCoinStakeSearchTime)

/-! ## The times of the block -/

theorem toUint32_of_lt {n : Nat} (h : n < 2 ^ 32) : toUint32 n = n := by
  unfold toUint32
  omega

/-- `GetMaxTransactionTime` is the latest time, or zero. -/
theorem le_maxTime {txs : List CTransaction} (m : Int) :
    m ≤ txs.foldl (fun maxTransactionTime tx => max maxTransactionTime tx.nTime) m ∧
      ∀ tx ∈ txs, (tx.nTime : Int) ≤
        txs.foldl (fun maxTransactionTime tx => max maxTransactionTime tx.nTime) m := by
  induction txs generalizing m with
  | nil => exact ⟨le_rfl, by simp⟩
  | cons tx txs ih =>
    obtain ⟨hm, htxs⟩ := ih (max m tx.nTime)
    refine ⟨(le_max_left _ _).trans hm, List.forall_mem_cons.mpr ⟨?_, htxs⟩⟩
    exact (le_max_right _ _).trans hm

theorem maxTime_le {txs : List CTransaction} {m n : Int} (hm : m ≤ n)
    (htxs : ∀ tx ∈ txs, (tx.nTime : Int) ≤ n) :
    txs.foldl (fun maxTransactionTime tx => max maxTransactionTime tx.nTime) m ≤ n := by
  induction txs generalizing m with
  | nil => exact hm
  | cons tx txs ih =>
    obtain ⟨htx, hrest⟩ := List.forall_mem_cons.mp htxs
    exact ih (max_le hm htx) hrest

/-- The time conditions of `CheckBlock` and `AcceptBlock` for a proof-of-stake block on the best
block. -/
structure TimeRules (node : Node) (block : CBlock) : Prop where
  /-- `CheckCoinStakeTimestamp`. -/
  coinstake : ∃ tx, block.vtx[1]? = some tx ∧ block.getBlockTime = tx.nTime
  transactions : ∀ tx ∈ block.vtx, (tx.nTime : Int) ≤ block.getBlockTime
  limit : ∃ pindexBest indexBest, node.pindexBest = some pindexBest ∧
    node.index? pindexBest = some indexBest ∧ getPastTimeLimit node indexBest < block.getBlockTime

/-- The block of a template, for the time of the latest transaction. -/
theorem stakeBlock_eq {env : Env} {node : Node} {indexBest : CBlockIndex} {block : CBlock}
    {coinbase txCoinStake : CTransaction} {rest : List CTransaction} {n : Nat}
    (hvtx : block.vtx = coinbase :: rest) (hn : n < 2 ^ 32)
    (hmax : ({ coinbase with nTime := txCoinStake.nTime } :: rest).foldl
      (fun maxTransactionTime tx => max maxTransactionTime (tx.nTime : Int)) 0 = n)
    (hlimit : max (getPastTimeLimit node indexBest + 1) (pastDrift indexBest.getBlockTime) ≤ n) :
    (stakeBlock env node indexBest block txCoinStake).nTime = n ∧
      (stakeBlock env node indexBest block txCoinStake).vtx =
        { coinbase with nTime := txCoinStake.nTime } :: txCoinStake :: rest := by
  obtain ⟨hpast, hdrift⟩ := max_le_iff.mp hlimit
  have htime : toUint32 (max (toUint32 (max (getPastTimeLimit node indexBest + 1)
      (({ coinbase with nTime := txCoinStake.nTime } :: rest).foldl
        (fun maxTransactionTime tx => max maxTransactionTime (tx.nTime : Int)) 0)) : Int)
      (pastDrift indexBest.getBlockTime)) = n := by
    rw [hmax, max_eq_right hpast, toUint32_of_lt hn, max_eq_left hdrift, toUint32_of_lt hn]
  unfold stakeBlock
  rw [hvtx]
  refine ⟨htime, ?_⟩
  show (List.filter (fun tx : CTransaction => decide (tx.nTime ≤ toUint32 _)) _).insertIdx 1 _ = _
  have hall : ∀ tx ∈ ({ coinbase with nTime := txCoinStake.nTime } : CTransaction) :: rest,
      tx.nTime ≤ n := by
    intro tx htx
    have hle := (le_maxTime 0).2 tx htx
    rw [hmax] at hle
    exact Int.ofNat_le.mp hle
  refine (congrArg (List.insertIdx · 1 txCoinStake) (List.filter_eq_self.mpr ?_)).trans rfl
  exact fun tx htx => decide_eq_true ((hall tx htx).trans htime.ge)

/-- A signed block has the time of its coin stake exactly if no transaction of the template is
later. -/
theorem stakeBlock_timely_iff {env : Env} {node : Node} {pindexBest : Uint256}
    {indexBest : CBlockIndex} {block : CBlock} {txCoinStake : CTransaction}
    (htemplate : Miner.IsTemplate block) (hstake : txCoinStake.nTime < 2 ^ 32)
    (hbest : node.pindexBest = some pindexBest) (hindex : node.index? pindexBest = some indexBest)
    (hlimit : max (getPastTimeLimit node indexBest + 1) (pastDrift indexBest.getBlockTime) ≤
      txCoinStake.nTime) (vchBlockSig : List UInt8) :
    TimeRules node { stakeBlock env node indexBest block txCoinStake with
        vchBlockSig := vchBlockSig } ↔
      ∀ tx ∈ block.vtx.tail, tx.nTime ≤ txCoinStake.nTime := by
  obtain ⟨coinbase, rest, hvtx, -, hbound, hrest⟩ := htemplate.coinbase
  generalize hfirst : ({ coinbase with nTime := txCoinStake.nTime } : CTransaction) = first at *
  have hless : ∀ tx ∈ first :: rest, tx.nTime < 2 ^ 32 :=
    List.forall_mem_cons.mpr ⟨hfirst ▸ hstake, fun tx htx => (hrest tx htx).2.2.trans_lt hbound⟩
  obtain ⟨hnonneg, hle⟩ := @le_maxTime (first :: rest) 0
  have hupper := @maxTime_le (first :: rest) 0 (2 ^ 32 - 1) (by decide)
    fun tx htx => by have := hless tx htx; omega
  obtain ⟨n, hmax⟩ := Int.eq_ofNat_of_zero_le hnonneg
  rw [hmax] at hle hupper
  have hn : n < 2 ^ 32 := by omega
  obtain ⟨hfirstLe, hrestLe⟩ := List.forall_mem_cons.mp hle
  have hstakeLe : (txCoinStake.nTime : Int) ≤ n := by
    rw [← hfirst] at hfirstLe
    exact hfirstLe
  obtain ⟨htime, hvtx'⟩ := @stakeBlock_eq env node indexBest block coinbase txCoinStake rest n
    hvtx hn (hfirst ▸ hmax) (hlimit.trans hstakeLe)
  rw [hvtx, List.tail_cons]
  constructor
  · intro h tx htx
    obtain ⟨tx', htx', heq⟩ := h.coinstake
    have hsecond : tx' = txCoinStake := by
      rw [hvtx'] at htx'
      exact (Option.some.inj htx').symm
    rw [hsecond] at heq
    have hblock : n = txCoinStake.nTime :=
      Int.ofNat_inj.mp ((congrArg Nat.cast htime).symm.trans heq)
    exact hblock ▸ Int.ofNat_le.mp (hrestLe tx htx)
  · intro h
    have hblock : n = txCoinStake.nTime := by
      refine le_antisymm (Int.ofNat_le.mp ?_) (Int.ofNat_le.mp hstakeLe)
      rw [← hmax]
      refine maxTime_le (Int.natCast_nonneg _) (List.forall_mem_cons.mpr ⟨?_, fun tx htx => ?_⟩)
      · rw [← hfirst]
      · exact Int.ofNat_le.mpr (h tx htx)
    refine ⟨⟨txCoinStake, by rw [hvtx']; rfl, ?_⟩, ?_, pindexBest, indexBest, hbest, hindex, ?_⟩
    · exact congrArg Nat.cast (htime.trans hblock)
    · intro tx htx
      show (tx.nTime : Int) ≤ (stakeBlock env node indexBest block txCoinStake).nTime
      rw [htime]
      have htx' : tx ∈ first :: txCoinStake :: rest := by
        rw [← hfirst, ← hvtx']
        exact htx
      rcases List.mem_cons.mp htx' with rfl | htx'
      · exact hfirstLe
      · rcases List.mem_cons.mp htx' with rfl | htx'
        · exact hstakeLe
        · exact hrestLe tx htx'
    · show getPastTimeLimit node indexBest < (stakeBlock env node indexBest block txCoinStake).nTime
      rw [htime, hblock]
      exact Int.lt_of_add_one_le ((le_max_left _ _).trans hlimit)

/-! ## The time of the coin stake -/

section

variable {env : Env} {wallet : StakeWallet} {nBits nTime : Nat} {nSearchInterval nFees : Int}
  {w w' : World}

theorem tryCoin_time {c : Coin} {kernel : StakeKernel}
    (h : tryCoin env wallet nBits nSearchInterval nTime c w = .ok (some kernel) w') :
    kernel.nTime < 2 ^ 32 := by
  rw [tryCoin, getNode_bind] at h
  cases hindex : w.node.txdb.fresh.readTxIndex (c.1.getHash env) with
  | none =>
    rw [hindex] at h
    exact absurd (pure_eq_ok.mp h).1 (by simp)
  | some txindex =>
    rw [hindex] at h
    obtain ⟨header, w₁, -, h⟩ := bind_eq_ok.mp h
    cases header with
    | none => exact absurd (pure_eq_ok.mp h).1 (by simp)
    | some block =>
      dsimp only at h
      split at h
      · exact absurd (pure_eq_ok.mp h).1 (by simp)
      cases hback : searchBack env w.node nBits block
          ((txindex.pos.nTxPos + 2 ^ 32 - txindex.pos.nBlockPos) % 2 ^ 32) c nSearchInterval
          nTime with
      | none =>
        rw [hback] at h
        exact absurd (pure_eq_ok.mp h).1 (by simp)
      | some n =>
        rw [hback] at h
        obtain ⟨script, -, rfl⟩ := Option.map_eq_some_iff.mp (pure_eq_ok.mp h).1.symm
        exact Nat.mod_lt _ (by decide)

theorem findKernel_time {coins : List Coin} {kernel : StakeKernel}
    (h : findKernel env wallet nBits nSearchInterval nTime coins w = .ok (some kernel) w') :
    kernel.nTime < 2 ^ 32 := by
  induction coins generalizing w with
  | nil => exact absurd (pure_eq_ok.mp h).1 (by simp)
  | cons c coins ih =>
    obtain ⟨found, w₁, hfound, h⟩ := bind_eq_ok.mp h
    cases found with
    | none => exact ih h
    | some found =>
      obtain ⟨heq, -⟩ := pure_eq_ok.mp h
      obtain rfl := Option.some.inj heq
      exact tryCoin_time hfound

theorem stakeKernel_time {kernel : StakeKernel}
    (h : stakeKernel env wallet nBits nSearchInterval nTime w = .ok (some kernel) w') :
    kernel.nTime < 2 ^ 32 := by
  unfold stakeKernel at h
  split at h
  · exact absurd (pure_eq_ok.mp h).1 (by simp)
  · exact findKernel_time h

theorem signInputs_time {nIn : Nat} {coins : List Coin} {tx tx' : CTransaction}
    (h : signInputs wallet nIn coins tx = some tx') : tx'.nTime = tx.nTime := by
  induction coins generalizing nIn tx with
  | nil => rw [Option.some.inj h]
  | cons c coins ih =>
    rw [signInputs] at h
    split at h
    · exact absurd h (by simp)
    · have hrest := ih h
      exact hrest

/-- The coin stake has the time of the kernel that the search has found. -/
theorem createCoinStake_time {tx : CTransaction} {key : Valtype}
    (h : createCoinStake env wallet nBits nSearchInterval nFees nTime w = .ok (some (tx, key)) w') :
    ∃ kernel w₁, stakeKernel env wallet nBits nSearchInterval nTime w = .ok (some kernel) w₁ ∧
      tx.nTime = kernel.nTime := by
  obtain ⟨found, w₁, hfound, h⟩ := bind_eq_ok.mp h
  cases found with
  | none => exact absurd (pure_eq_ok.mp h).1 (by simp)
  | some kernel =>
    refine ⟨kernel, w₁, hfound, ?_⟩
    dsimp only at h
    split at h
    · exact absurd (pure_eq_ok.mp h).1 (by simp)
    rw [getNode_bind] at h
    obtain ⟨coinAge, w₂, -, h⟩ := bind_eq_ok.mp h
    cases coinAge with
    | none => exact absurd h nofun
    | some nCoinAge =>
      obtain ⟨nReward, -, h⟩ := fromExcept_bind_eq_ok.mp h
      split at h
      · exact absurd (pure_eq_ok.mp h).1 (by simp)
      generalize hsigned : signInputs wallet 0 _ _ = signed at h
      cases signed with
      | none => exact absurd h nofun
      | some txNew =>
        dsimp only at h
        split at h
        · exact absurd h nofun
        obtain ⟨heq, -⟩ := pure_eq_ok.mp h
        obtain ⟨rfl, -⟩ := Prod.mk.inj (Option.some.inj heq)
        exact signInputs_time hsigned

end

/-! ## `CreateCoinStake` reads only -/

section

variable (env : Env) (wallet : StakeWallet) (nBits nTime : Nat) (nSearchInterval nFees : Int)

theorem reads_tryCoin (c : Coin) : Reads (tryCoin env wallet nBits nSearchInterval nTime c) := by
  refine Keeps.bind Reads.getNode fun node => ?_
  cases node.txdb.fresh.readTxIndex (c.1.getHash env) with
  | none => exact Reads.pure _
  | some txindex =>
    refine Keeps.bind (Reads.readBlockAt _ _ _ _) fun header => ?_
    cases header with
    | none => exact Reads.pure _
    | some block =>
      refine Keeps.ite (Reads.pure _) ?_
      dsimp only
      cases searchBack env node nBits block
          ((txindex.pos.nTxPos + 2 ^ 32 - txindex.pos.nBlockPos) % 2 ^ 32) c nSearchInterval
          nTime with
      | none => exact Reads.pure _
      | some n => exact Reads.pure _

theorem reads_stakeKernel : Reads (stakeKernel env wallet nBits nSearchInterval nTime) := by
  refine Keeps.ite (Reads.pure _) ?_
  induction wallet.selectCoinsSimple (wallet.nBalance - wallet.nReserveBalance) nTime with
  | nil => exact Reads.pure _
  | cons c coins ih =>
    refine Keeps.bind (reads_tryCoin env wallet nBits nTime nSearchInterval c) fun found => ?_
    cases found with
    | none => exact ih
    | some kernel => exact Reads.pure _

theorem reads_createCoinStake :
    Reads (createCoinStake env wallet nBits nSearchInterval nFees nTime) := by
  refine Keeps.bind (reads_stakeKernel env wallet nBits nTime nSearchInterval) fun found => ?_
  cases found with
  | none => exact Reads.pure _
  | some kernel =>
    refine Keeps.ite (Reads.pure _) (Keeps.bind Reads.getNode fun _ =>
      Keeps.bind (Reads.getCoinAge _ _ _) fun coinAge => ?_)
    cases coinAge with
    | none => exact Reads.throw _
    | some nCoinAge =>
      refine Keeps.bind (Keeps.fromExcept _) fun nReward => Keeps.ite (Reads.pure _) ?_
      generalize signInputs wallet 0 _ _ = signed
      cases signed with
      | none => exact Reads.throw _
      | some txNew => exact Keeps.ite (Reads.throw _) (Reads.pure _)

end

/-- A block that has been signed is made of the template by a coin stake that is late enough for
the best block. -/
theorem signBlock_ok {env : Env} {wallet : StakeWallet} {nFees nLast nLast' : Int}
    {block signed : CBlock} {w w' : World} (htemplate : Miner.IsTemplate block)
    (h : signBlock env wallet nFees nLast block w = .ok (some signed, nLast') w') :
    ∃ pindexBest indexBest kernel tx w₁ vchBlockSig, w.node.pindexBest = some pindexBest ∧
      w.node.index? pindexBest = some indexBest ∧
      stakeKernel env wallet block.nBits (toUint32 w.sys.adjustedTime - nLast)
        (toUint32 w.sys.adjustedTime) w = .ok (some kernel) w₁ ∧ tx.nTime = kernel.nTime ∧
      max (getPastTimeLimit w.node indexBest + 1) (pastDrift indexBest.getBlockTime) ≤ tx.nTime ∧
      signed = { stakeBlock env w.node indexBest block tx with vchBlockSig := vchBlockSig } := by
  obtain ⟨coinbase, rest, hvtx, hvout, -, hrest⟩ := htemplate.coinbase
  have hwork : block.isProofOfStake = false := by
    rw [CBlock.isProofOfStake, hvtx]
    cases rest with
    | nil => rfl
    | cons tx rest => exact (hrest tx (by simp)).2.1
  unfold signBlock at h
  rw [hvtx] at h
  obtain ⟨coinbase', hcoinbase, h⟩ := nonNull_bind_eq_ok.mp h
  obtain rfl := Option.some.inj hcoinbase
  rw [hvout] at h
  obtain ⟨txout, htxout, h⟩ := nonNull_bind_eq_ok.mp h
  obtain rfl := Option.some.inj htxout
  rw [if_neg (by decide), hwork, if_neg (by decide), getSys_bind] at h
  dsimp only at h
  split at h
  · exact absurd (congrArg Prod.fst (pure_eq_ok.mp h).1) (by simp)
  obtain ⟨created, w₁, hcreated, hcont⟩ := bind_eq_ok.mp h
  rcases attempt_eq_ok.mp hcreated with ⟨found, rfl, hrun⟩ | ⟨e, rfl, -⟩
  · rcases found with _ | ⟨tx, key⟩
    · exact absurd (congrArg Prod.fst (pure_eq_ok.mp hcont).1) (by simp)
    dsimp only at hcont
    rw [getNode_bind, ((reads_createCoinStake _ _ _ _ _ _).ok hrun).node] at hcont
    obtain ⟨pindexBest, hbest, hcont⟩ := nonNull_bind_eq_ok.mp hcont
    obtain ⟨indexBest, hindex, hcont⟩ := deref_bind_eq_ok.mp hcont
    rw [((reads_createCoinStake _ _ _ _ _ _).ok hrun).node] at hindex
    split at hcont
    · exact absurd (congrArg Prod.fst (pure_eq_ok.mp hcont).1) (by simp)
    next hlimit =>
    obtain ⟨vchBlockSig, -, hsigned⟩ :=
      Option.map_eq_some_iff.mp (congrArg Prod.fst (pure_eq_ok.mp hcont).1).symm
    obtain ⟨kernel, w₂, hkernel, htime⟩ := createCoinStake_time hrun
    exact ⟨pindexBest, indexBest, kernel, tx, w₂, vchBlockSig, hbest, hindex, hkernel, htime,
      not_lt.mp hlimit, hsigned.symm⟩
  · cases e with
    | abort what => exact absurd hcont nofun
    | reject nDoS text => exact absurd (congrArg Prod.fst (pure_eq_ok.mp hcont).1) (by simp)

/-- A block that has been signed on a template of `CreateNewBlock` obeys the rules on its times
exactly if no transaction of the pool in it is later than the kernel. -/
theorem signBlock_timely_iff {env : Env} {options : Miner.Options} {priorities : Miner.Priorities}
    {reserved : Option CScript} {wallet : StakeWallet} {nFees nLast nLast' : Int}
    {block signed : CBlock} {w₀ w₀' w w' : World}
    (htemplate : Miner.createNewBlock env options priorities reserved true w₀ =
      .ok (some (block, nFees)) w₀')
    (hsign : signBlock env wallet nFees nLast block w = .ok (some signed, nLast') w') :
    TimeRules w.node signed ↔
      ∀ kernel w₁, stakeKernel env wallet block.nBits (toUint32 w.sys.adjustedTime - nLast)
        (toUint32 w.sys.adjustedTime) w = .ok (some kernel) w₁ →
          ∀ tx ∈ block.vtx.tail, tx.nTime ≤ kernel.nTime := by
  have htemplate' := Miner.createNewBlock_template htemplate
  obtain ⟨pindexBest, indexBest, kernel, tx, w₁, vchBlockSig, hbest, hindex, hkernel, htime,
    hlimit, rfl⟩ := signBlock_ok htemplate' hsign
  have hbound : tx.nTime < 2 ^ 32 := htime ▸ stakeKernel_time hkernel
  rw [stakeBlock_timely_iff htemplate' hbound hbest hindex hlimit, htime]
  constructor
  · intro h kernel' w₂ hkernel'
    obtain ⟨heq, -⟩ := EStateM.Result.ok.inj (hkernel.symm.trans hkernel')
    exact Option.some.inj heq ▸ h
  · exact fun h => h kernel w₁ hkernel

/-! ## A template with a late transaction -/

/-- One round of `StakeMiner`: the template, and what `SignBlock` makes of it. -/
def stakeMinerRound (env : Env) (options : Miner.Options) (priorities : Miner.Priorities)
    (wallet : StakeWallet) (nLastCoinStakeSearchTime : Int) :
    NodeM ((CBlock × Int) × Option CBlock × Int) := do
  match ← Miner.createNewBlock env options priorities none true with
  | none => throw .returnFalse
  | some (block, nFees) => do
    let signed ← signBlock env wallet nFees nLastCoinStakeSearchTime block
    pure ((block, nFees), signed)

theorem stakeMinerRound_ok {env : Env} {options : Miner.Options} {priorities : Miner.Priorities}
    {wallet : StakeWallet} {nLast : Int} {template : CBlock × Int} {signed : Option CBlock × Int}
    {w w' : World}
    (h : stakeMinerRound env options priorities wallet nLast w = .ok (template, signed) w') :
    ∃ w₁, Miner.createNewBlock env options priorities none true w = .ok (some template) w₁ ∧
      signBlock env wallet template.2 nLast template.1 w₁ = .ok signed w' := by
  obtain ⟨found, w₁, hcreate, h⟩ := bind_eq_ok.mp h
  cases found with
  | none => exact absurd h (by simp [throw_run])
  | some found =>
    obtain ⟨signed', w₂, hsign, h⟩ := bind_eq_ok.mp h
    obtain ⟨heq, rfl⟩ := pure_eq_ok.mp h
    obtain ⟨rfl, rfl⟩ := Prod.mk.inj heq
    exact ⟨w₁, hcreate, hsign⟩

/-- A coin of the wallet, old enough to stake. -/
def stakedTx : CTransaction :=
  ⟨1, 1600000000, [⟨⟨5, 0⟩, [], uint32Max⟩],
    [⟨300000 * coin, [0x21] ++ List.replicate 33 2 ++ [0xac]⟩], 0⟩

def fundingTx : CTransaction :=
  ⟨1, 1600000000, [⟨⟨6, 0⟩, [], uint32Max⟩], [⟨10 * coin, [0x51]⟩], 0⟩

/-- It has the time of the template, later than the kernel of the coin. -/
def lateTx : CTransaction :=
  ⟨1, 1600030100, [⟨⟨fundingTx.getHash mainNet, 0⟩, [], uint32Max⟩], [⟨coin, [0x51]⟩], 0⟩

def stakedBlock : CBlock := ⟨6, 0, 0, 1600000000, 0x1e0fffff, 0, [], []⟩

def stakingWorld (pool : List CTransaction) : World where
  node := { Node.initial with
    mapBlockIndex := ((∅ : Map Uint256 CBlockIndex).insert (stakedBlock.getHash mainNet)
      { CBlockIndex.ofBlock 1 8 stakedBlock with pnext := some 7 }).insert 7
      { CBlockIndex.ofBlock 1 1000 { stakedBlock with nTime := 1600030000 } with
        pprev := some (stakedBlock.getHash mainNet), nHeight := 1, nFlags := blockStakeModifier }
    pindexBest := some 7
    nBestHeight := 1
    mempool := ⟨pool.foldl (fun m tx => m.insert (tx.getHash mainNet) tx) ∅, ∅⟩
    txdb := ⟨((∅ : Map DbKey DbVal).insert (.tx (stakedTx.getHash mainNet))
      (.txindex ⟨⟨1, 8, 100⟩, [.null]⟩)).insert (.tx (fundingTx.getHash mainNet))
      (.txindex ⟨⟨1, 8, 300⟩, [.null]⟩), none⟩
    files := ⟨1, ∅, (∅ : Map FilePos CBlock).insert ⟨1, 8⟩ stakedBlock,
      ((∅ : Map FilePos CTransaction).insert ⟨1, 100⟩ stakedTx).insert ⟨1, 300⟩ fundingTx⟩ }
  sys := ⟨1600030100, fun _ => true, true, false, false⟩
  log := []

def stakingWallet : StakeWallet where
  nBalance := 100000000 * coin
  nReserveBalance := 0
  availableCoins := [(stakedTx, 0)]
  setOrder coins := coins
  hash160 key := key
  getKey key := some key
  signSignature _ _ _ := some []
  sign _ _ := some [0]

def noPriorities : Miner.Priorities := ⟨fun _ _ => 0, fun _ => false, fun _ => false⟩

/-- What the round makes of a pool, for a search that has last reached the time 1600029100. -/
def stakingRound (pool : List CTransaction) :
    EStateM.Result Exit World ((CBlock × Int) × Option CBlock × Int) :=
  stakeMinerRound mainNet .default noPriorities stakingWallet 1600029100 (stakingWorld pool)

/-- The round on a pool with an early transaction. -/
theorem signBlock_timely_iff_stakingRound :
    ∃ template w₁ signed nLast' w', Miner.createNewBlock mainNet .default noPriorities none true
        (stakingWorld [{ lateTx with nTime := 1600030000 }]) = .ok (some template) w₁ ∧
      signBlock mainNet stakingWallet template.2 1600029100 template.1 w₁ =
        .ok (some signed, nLast') w' ∧
      template.1.vtx.length = 2 ∧
      (TimeRules w₁.node signed ↔
        ∀ kernel w₂, stakeKernel mainNet stakingWallet template.1.nBits
          (toUint32 w₁.sys.adjustedTime - 1600029100) (toUint32 w₁.sys.adjustedTime) w₁ =
            .ok (some kernel) w₂ →
          ∀ tx ∈ template.1.vtx.tail, tx.nTime ≤ kernel.nTime) := by
  have hround : succeeds (fun r _ => decide (r.1.1.vtx.length = 2) && r.2.1.isSome)
      (stakingRound [{ lateTx with nTime := 1600030000 }]) = true := by
    unfold stakingRound stakingWorld lateTx
    rw [mainNet_eq]
    decide +kernel
  obtain ⟨⟨template, found, nLast'⟩, w', hround, h⟩ := succeeds_iff.mp hround
  obtain ⟨hlength, hfound⟩ := Bool.and_eq_true_iff.mp h
  obtain ⟨signed, hsigned⟩ := Option.isSome_iff_exists.mp hfound
  obtain rfl : found = some signed := hsigned
  obtain ⟨w₁, hcreate, hsign⟩ := stakeMinerRound_ok hround
  exact ⟨template, w₁, signed, nLast', w', hcreate, hsign, of_decide_eq_true hlength,
    signBlock_timely_iff hcreate hsign⟩

/-- A block signed for a kernel that is earlier than a transaction of the template has not the
time of its coin stake. -/
theorem signBlock_not_timely :
    ¬ ∀ (options : Miner.Options) (priorities : Miner.Priorities) (wallet : StakeWallet)
      (nFees nLast nLast' : Int) (block signed : CBlock) (w₀ w w' : World),
      Miner.createNewBlock mainNet options priorities none true w₀ = .ok (some (block, nFees)) w →
      signBlock mainNet wallet nFees nLast block w = .ok (some signed, nLast') w' →
      TimeRules w.node signed := by
  intro hall
  have hround : succeeds (fun r _ => r.2.1.any fun signed =>
      signed.vtx[1]?.all fun tx => !decide (signed.getBlockTime = tx.nTime))
      (stakingRound [lateTx]) = true := by
    unfold stakingRound stakingWorld lateTx
    rw [mainNet_eq]
    decide +kernel
  obtain ⟨⟨⟨block, nFees⟩, found, nLast'⟩, w', hround, h⟩ := succeeds_iff.mp hround
  obtain ⟨signed, hsigned, hlate⟩ := (Option.any_eq_true _ _).mp h
  obtain rfl : found = some signed := hsigned
  obtain ⟨w₁, hcreate, hsign⟩ := stakeMinerRound_ok hround
  obtain ⟨tx, htx, htime⟩ :=
    (hall _ _ _ _ _ _ _ _ _ _ _ hcreate hsign).coinstake
  rw [htx, Option.all_some, htime, decide_eq_true rfl] at hlate
  exact absurd hlate (by decide)

end NoLimitCoin
