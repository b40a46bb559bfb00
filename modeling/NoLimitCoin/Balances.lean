import NoLimitCoin.Accounts
import NoLimitCoin.Signing

/-!
# Three balances

The balance of the wallet is computed in three ways.  `GetBalance` sums the unspent outputs of
trusted transactions; `getbalance *` sums what `GetAmounts` tells of them, received less sent less
fees; `GetAddressBalances` sums unspent outputs by address.

Results:
1. `getBalance_eq`, `getBalanceAll_eq`, `getAddressBalances_eq`: each balance as a sum.
2. `sum_debits`: what trusted transactions take from the wallet, coin by coin.
3. `balances_agree_iff`: when the balances agree.
-/

namespace NoLimitCoin

namespace Balances

open AccountWallet

/-- What the balances look at besides the wallet. -/
structure BalanceEnv where
  node : Env
  amounts : AmountEnv
  /-- `IsFinal()`, for the next block. -/
  isFinal : CTransaction → Bool
  /-- `GetDepthInMainChain`. -/
  depth : MerkleTxRecord → Int
  fConfChange : Bool
  /-- `IsMine` of a script that `Solver` does not know. -/
  isMine_empty : ∀ txout, txout.scriptPubKey = [] → amounts.isMine txout = false

/-- The chain as a transaction of the wallet sees it. -/
def BalanceEnv.chain (env : BalanceEnv) : ChainView :=
  ⟨env.isFinal, fun wtx => env.depth wtx.toMerkleTxRecord, fun _ => 0⟩

section commands

variable (env : BalanceEnv) (wallet : AccountWallet)

/-! ## `IsTrusted` -/

/-- `mapPrev`. -/
def mapPrev (vtxPrev : List MerkleTxRecord) : Map Uint256 MerkleTxRecord :=
  vtxPrev.foldl (fun mapPrev tx => mapPrev.insert (tx.tx.getHash env.node) tx) ∅

/-- The transactions that the inputs spend, where all are there. -/
def inputsIn (mapPrev : Map Uint256 MerkleTxRecord) (vin : List CTxIn) :
    Option (List MerkleTxRecord) :=
  vin.mapM fun txin => mapPrev[txin.prevout.hash]?

/-- The loop of `IsTrusted` over its work queue, with a limit for its rounds. -/
def trustedLoop (prev : Map Uint256 MerkleTxRecord) :
    (fuel : Nat) → (vWorkQueue : List MerkleTxRecord) → Except Exit Bool
  | _, [] => .ok true
  | 0, _ :: _ => .error (.abort "the work queue does not end")
  | fuel + 1, ptx :: vWorkQueue =>
    if !env.isFinal ptx.tx then .ok false
    else if env.depth ptx ≥ 1 then trustedLoop prev fuel vWorkQueue
    else if env.depth ptx < 0 then .ok false
    else do
      let fFromMe ← isFromMe env.amounts wallet ptx.tx
      if !fFromMe then return false
      match inputsIn prev ptx.tx.vin with
      | none => return false
      | some parents => trustedLoop prev fuel (vWorkQueue ++ parents)

/-- `IsTrusted`. -/
def isTrusted (fuel : Nat) (wtx : CWalletTxRecord) : Except Exit Bool :=
  if !env.isFinal wtx.tx then .ok false
  else if env.chain.depth wtx ≥ 1 then .ok true
  else if env.chain.depth wtx < 0 then .ok false
  else if env.fConfChange then .ok false
  else do
    let fFromMe ← isFromMe env.amounts wallet wtx.tx
    if !fFromMe then return false
    trustedLoop env wallet (mapPrev env wtx.vtxPrev) fuel [wtx.toMerkleTxRecord]

/-! ## `GetBalance` -/

/-- `IsSpent`, of an output that there is. -/
def isSpent (wtx : CWalletTxRecord) (i : Nat) : Bool := wtx.vfSpent[i]?.getD false

/-- `CWallet::GetCredit` of an output. -/
def getCredit (txout : CTxOut) : Except Exit Int :=
  if !moneyRange txout.nValue then .error (.abort "CWallet::GetCredit() : value out of range")
  else .ok (if env.amounts.isMine txout then txout.nValue else 0)

/-- A coinbase or coinstake transaction that is not deep enough in the chain yet. -/
def isImmature (wtx : CWalletTxRecord) : Bool :=
  (wtx.tx.isCoinBase || wtx.tx.isCoinStake) && decide (env.chain.blocksToMaturity wtx > 0)

/-- The loop of `GetAvailableCredit`, over the outputs with their numbers. -/
def creditLoop (wtx : CWalletTxRecord) (nCredit : Int) (item : CTxOut × Nat) : Except Exit Int :=
  if isSpent wtx item.2 then .ok nCredit
  else do
    let nCredit := nCredit + (← getCredit env item.1)
    if moneyRange nCredit then return nCredit
    else .error (.abort "CWalletTx::GetAvailableCredit() : value out of range")

/-- `GetAvailableCredit`; what it caches is up to date. -/
def getAvailableCredit (wtx : CWalletTxRecord) : Except Exit Int :=
  if isImmature env wtx then .ok 0
  else wtx.tx.vout.zipIdx.foldlM (creditLoop env wtx) 0

/-- `GetBalance`. -/
def getBalance (fuel : Nat) : Except Exit Int :=
  wallet.txs.foldlM (fun nTotal wtx => do
    let fTrusted ← isTrusted env wallet fuel wtx
    if fTrusted then
      let nCredit ← getAvailableCredit env wtx
      return nTotal + nCredit
    else return nTotal) 0

/-! ## `getbalance *` -/

/-- A transaction in the loop of `getbalance *`. -/
def tallyTrusted (fuel : Nat) (nMinDepth nBalance : Int) (wtx : CWalletTxRecord) :
    Except Exit Int := do
  let fTrusted ← isTrusted env wallet fuel wtx
  if fTrusted then
    let amounts ← getAmounts env.amounts wallet wtx
    let nBalance :=
      if env.chain.credits nMinDepth wtx then nBalance + amount amounts.listReceived else nBalance
    return nBalance - amount amounts.listSent - amounts.nFee
  else return nBalance

/-- `getbalance *`. -/
def getBalanceAll (fuel : Nat) (nMinDepth : Int) : Except Exit Int :=
  wallet.txs.foldlM (tallyTrusted env wallet fuel nMinDepth) 0

/-! ## `GetAddressBalances` -/

/-- The loop over the outputs in `GetAddressBalances`. -/
def addOutput (wtx : CWalletTxRecord) (balances : Tally CTxDestination Int) (item : CTxOut × Nat) :
    Tally CTxDestination Int :=
  if env.amounts.isMine item.1 then
    match extractDestination env.amounts.hash160 item.1.scriptPubKey with
    | some addr => balances.add addr (if isSpent wtx item.2 then 0 else item.1.nValue)
    | none => balances
  else balances

/-- A transaction in the loop of `GetAddressBalances`. -/
def tallyAddresses (fuel : Nat) (balances : Tally CTxDestination Int) (wtx : CWalletTxRecord) :
    Except Exit (Tally CTxDestination Int) :=
  if !env.isFinal wtx.tx then .ok balances
  else do
    let fTrusted ← isTrusted env wallet fuel wtx
    if !fTrusted then return balances
    if isImmature env wtx then return balances
    let fFromMe ← isFromMe env.amounts wallet wtx.tx
    if env.chain.depth wtx < (if fFromMe then 0 else 1) then return balances
    return wtx.tx.vout.zipIdx.foldl (addOutput env wtx) balances

/-- `GetAddressBalances`. -/
def getAddressBalances (fuel : Nat) : Except Exit (Tally CTxDestination Int) :=
  wallet.txs.foldlM (tallyAddresses env wallet fuel) ∅

end commands

/-! ## Trusted transactions -/

section trusted

variable (env : BalanceEnv) (wallet : AccountWallet) (fuel : Nat)

/-- `IsTrusted`, where it answers. -/
def trusted (wtx : CWalletTxRecord) : Bool :=
  match isTrusted env wallet fuel wtx with
  | .ok fTrusted => fTrusted
  | .error _ => false

variable {env wallet fuel} {wtx : CWalletTxRecord}

theorem trusted_eq {fTrusted : Bool} (h : isTrusted env wallet fuel wtx = .ok fTrusted) :
    trusted env wallet fuel wtx = fTrusted := by
  rw [trusted, h]

/-- A trusted transaction is in the chain, or one of the wallet's own that waits for it. -/
theorem trusted_cases (h : isTrusted env wallet fuel wtx = .ok true) :
    env.isFinal wtx.tx = true ∧ (env.chain.depth wtx ≥ 1 ∨
      (0 ≤ env.chain.depth wtx ∧ isFromMe env.amounts wallet wtx.tx = .ok true)) := by
  unfold isTrusted at h
  split at h
  · cases h
  next hfinal =>
  have hfinal : env.isFinal wtx.tx = true := by simpa using hfinal
  refine ⟨hfinal, ?_⟩
  split at h
  · next hdepth => exact .inl hdepth
  split at h
  · cases h
  next hdepth =>
  split at h
  · cases h
  obtain ⟨fFromMe, hfrom, h⟩ := except_bind_eq_ok.mp h
  cases fFromMe with
  | false => cases h
  | true => exact .inr ⟨not_lt.mp hdepth, hfrom⟩

/-- Being mature is being deep enough for a trusted transaction. -/
theorem credits_eq (h : isTrusted env wallet fuel wtx = .ok true) :
    env.chain.credits 0 wtx = !isImmature env wtx := by
  have hdepth : 0 ≤ env.chain.depth wtx := by
    rcases (trusted_cases h).2 with hdeep | ⟨hdeep, -⟩
    · exact le_trans (by decide) hdeep
    · exact hdeep
  unfold ChainView.credits isImmature
  rw [decide_eq_true hdepth, Bool.true_and]
  unfold ChainView.blocksToMaturity
  cases wtx.tx.isCoinBase || wtx.tx.isCoinStake with
  | false => rfl
  | true =>
    rw [Bool.eq_iff_iff]
    simp

end trusted

/-! ## Sums over outputs -/

/-- A sum over the outputs of a transaction. -/
def outputSum (wtx : CWalletTxRecord) (f : CTxOut → Nat → Int) : Int :=
  (wtx.tx.vout.zipIdx.map fun item => f item.1 item.2).sum

theorem outputSum_congr (wtx : CWalletTxRecord) {f g : CTxOut → Nat → Int}
    (h : ∀ txout i, wtx.tx.vout[i]? = some txout → f txout i = g txout i) :
    outputSum wtx f = outputSum wtx g := by
  refine congrArg List.sum (List.map_congr_left fun item hitem => ?_)
  exact h item.1 item.2 (List.mem_zipIdx_iff_getElem?.mp hitem)

theorem outputSum_add (wtx : CWalletTxRecord) (f g : CTxOut → Nat → Int) :
    outputSum wtx (fun txout i => f txout i + g txout i) = outputSum wtx f + outputSum wtx g :=
  List.sum_map_add

/-- A sum for which the numbers of the outputs do not matter. -/
theorem outputSum_plain (wtx : CWalletTxRecord) (f : CTxOut → Int) :
    outputSum wtx (fun txout _ => f txout) = (wtx.tx.vout.map f).sum := by
  have hmap : wtx.tx.vout.zipIdx.map (fun item => f item.1) =
      (wtx.tx.vout.zipIdx.map Prod.fst).map f := by
    rw [List.map_map]
    rfl
  rw [outputSum, hmap, List.zipIdx_map_fst]

section amounts

variable (env : BalanceEnv) (wallet : AccountWallet) (fuel : Nat)

/-- What an output is worth to the wallet. -/
def ownValue (txout : CTxOut) : Int := if env.amounts.isMine txout then txout.nValue else 0

/-- The own outputs that are marked as spent. -/
def spentSum (wtx : CWalletTxRecord) : Int :=
  outputSum wtx fun txout i => if isSpent wtx i then ownValue env txout else 0

/-- The unspent own outputs. -/
def unspentSum (wtx : CWalletTxRecord) : Int :=
  outputSum wtx fun txout i => if isSpent wtx i then 0 else ownValue env txout

/-- What a transaction takes from the wallet. -/
def debitOf (wtx : CWalletTxRecord) : Int := (wtx.tx.vin.map (debitIn env.amounts wallet)).sum

/-- What `GetAmounts` leaves out of a transaction that the wallet has paid for, though it is not
the wallet's, or not yet: change of an immature transaction, and outputs without a script. -/
def leftOut (wtx : CWalletTxRecord) : Int :=
  if debitOf env wallet wtx > 0 then
    (wtx.tx.vout.map fun txout =>
      if skips env.amounts wallet (debitOf env wallet wtx) txout &&
        !(env.amounts.isMine txout && !isImmature env wtx) then txout.nValue else 0).sum
  else 0

variable {env wallet fuel} {wtx : CWalletTxRecord}

theorem spentSum_add_unspentSum : spentSum env wtx + unspentSum env wtx =
    (wtx.tx.vout.map (ownValue env)).sum := by
  rw [spentSum, unspentSum, ← outputSum_add, ← outputSum_plain]
  refine outputSum_congr wtx fun txout i _ => ?_
  cases isSpent wtx i <;> simp

/-! ## `GetBalance` -/

theorem getAvailableCredit_eq {nCredit : Int} (h : getAvailableCredit env wtx = .ok nCredit) :
    nCredit = if isImmature env wtx then 0 else unspentSum env wtx := by
  unfold getAvailableCredit at h
  split at h
  · next himmature => rw [if_pos himmature, Except.ok.inj h]
  · next hmature =>
    rw [if_neg hmature, ← zero_add (unspentSum env wtx)]
    refine foldlM_measure id h fun n item n' hstep => ?_
    dsimp only [id]
    unfold creditLoop at hstep
    split at hstep
    · next hspent => rw [if_pos hspent, add_zero, Except.ok.inj hstep]
    · next hspent =>
      obtain ⟨credit, hcredit, hstep⟩ := except_bind_eq_ok.mp hstep
      rw [if_neg hspent]
      dsimp only at hstep
      split at hstep
      · rw [← Except.ok.inj hstep]
        unfold getCredit at hcredit
        split at hcredit
        · cases hcredit
        · rw [← Except.ok.inj hcredit]
          rfl
      · cases hstep

theorem getBalance_eq {nTotal : Int} (h : getBalance env wallet fuel = .ok nTotal) :
    nTotal = (wallet.txs.map fun wtx => if trusted env wallet fuel wtx then
      (if isImmature env wtx then 0 else unspentSum env wtx) else 0).sum := by
  rw [← zero_add (List.sum _)]
  refine foldlM_measure id h fun n wtx n' hstep => ?_
  obtain ⟨fTrusted, htrusted, hstep⟩ := except_bind_eq_ok.mp hstep
  rw [trusted_eq htrusted]
  cases fTrusted with
  | false => rw [if_neg Bool.false_ne_true, add_zero, Except.ok.inj hstep]
  | true =>
    obtain ⟨nCredit, hcredit, hstep⟩ := except_bind_eq_ok.mp hstep
    rw [if_pos rfl, ← getAvailableCredit_eq hcredit, ← Except.ok.inj hstep]
    rfl

/-! ## `getbalance *` -/

/-- The sum of some of the outputs. -/
def partSum (vout : List CTxOut) (p : CTxOut → Bool) : Int :=
  (vout.map fun txout => if p txout then txout.nValue else 0).sum

theorem partSum_not (vout : List CTxOut) (p : CTxOut → Bool) :
    partSum vout p + partSum vout (fun txout => !p txout) = (vout.map CTxOut.nValue).sum := by
  unfold partSum
  rw [← List.sum_map_add]
  refine congrArg List.sum (List.map_congr_left fun txout _ => ?_)
  by_cases hp : p txout = true <;> simp [hp]

/-- Own outputs are skipped or not, and so are those that are not own. -/
theorem partSum_split (vout : List CTxOut) (skip own : CTxOut → Bool) :
    partSum vout (fun txout => !skip txout && own txout) + partSum vout skip =
      partSum vout own + partSum vout (fun txout => skip txout && !own txout) := by
  unfold partSum
  rw [← List.sum_map_add, ← List.sum_map_add]
  refine congrArg List.sum (List.map_congr_left fun txout _ => ?_)
  by_cases hskip : skip txout = true <;> by_cases hown : own txout = true <;> simp [hskip, hown]

theorem amount_entries (env : AmountEnv) (vout : List CTxOut) (p : CTxOut → Bool) :
    amount ((vout.filter p).map (entryOf env)) = partSum vout p := by
  rw [amount, List.map_map, partSum, ← List.sum_map_filter_eq]
  rfl

/-- What `GetAmounts` tells of the outputs, with what it leaves out, is what they are. -/
theorem amounts_eq {amounts : Amounts} (h : getAmounts env.amounts wallet wtx = .ok amounts) :
    (if isImmature env wtx then 0 else amount amounts.listReceived) - amount amounts.listSent -
        amounts.nFee =
      (if isImmature env wtx then 0 else (wtx.tx.vout.map (ownValue env)).sum) -
        debitOf env wallet wtx + leftOut env wallet wtx := by
  obtain ⟨nDebit, hdebit, hfee, hreceived, hsent, -⟩ := getAmounts_eq h
  obtain ⟨hsum, hpos⟩ := getDebit_eq hdebit
  have hdebitOf : debitOf env wallet wtx = nDebit := hsum.symm
  have hown : (wtx.tx.vout.map (ownValue env)).sum = partSum wtx.tx.vout env.amounts.isMine := rfl
  rw [List.filter_filter] at hreceived
  rw [hreceived, hsent, hdebitOf, hown, amount_entries, leftOut, hdebitOf]
  unfold feeOf at hfee
  split at hfee
  · next hpaid =>
    obtain ⟨nValueOut, hout, hfee⟩ := except_bind_eq_ok.mp hfee
    rw [if_pos hpaid, if_pos hpaid, amount_entries, ← Except.ok.inj hfee,
      CTransaction.getValueOut_ok hout, CTransaction.valueOut,
      ← partSum_not wtx.tx.vout (skips env.amounts wallet nDebit)]
    have hsplit := partSum_split wtx.tx.vout (skips env.amounts wallet nDebit) env.amounts.isMine
    simp only [Bool.and_comm (env.amounts.isMine _)]
    cases himmature : isImmature env wtx with
    | true =>
      simp only [Bool.not_true, Bool.false_and, Bool.not_false, Bool.and_true, if_true]
      unfold partSum
      ring
    | false =>
      simp only [Bool.not_false, Bool.true_and, Bool.false_eq_true, if_false]
      unfold partSum at hsplit ⊢
      linarith
  · next hpaid =>
    have hzero : nDebit = 0 := le_antisymm (not_lt.mp hpaid) hpos
    rw [if_neg hpaid, if_neg hpaid, ← Except.ok.inj hfee, hzero]
    -- of a transaction that others have paid for only what is not own is skipped
    have hkept : partSum wtx.tx.vout (fun txout => env.amounts.isMine txout &&
        !skips env.amounts wallet 0 txout) = partSum wtx.tx.vout env.amounts.isMine := by
      refine congrArg (partSum wtx.tx.vout) (funext fun txout => ?_)
      unfold skips
      cases hscript : txout.scriptPubKey with
      | nil => rw [env.isMine_empty txout hscript]; rfl
      | cons b script => cases env.amounts.isMine txout <;> simp
    rw [hkept]
    simp [amount]

theorem getBalanceAll_eq {nBalance : Int}
    (h : getBalanceAll env wallet fuel 0 = .ok nBalance) :
    nBalance = (wallet.txs.map fun wtx => if trusted env wallet fuel wtx then
      (if isImmature env wtx then 0 else (wtx.tx.vout.map (ownValue env)).sum) -
        debitOf env wallet wtx + leftOut env wallet wtx else 0).sum := by
  rw [← zero_add (List.sum _)]
  refine foldlM_measure id h fun n wtx n' hstep => ?_
  obtain ⟨fTrusted, htrusted, hstep⟩ := except_bind_eq_ok.mp hstep
  dsimp only [id]
  rw [trusted_eq htrusted]
  cases fTrusted with
  | false => rw [if_neg Bool.false_ne_true, add_zero, Except.ok.inj hstep]
  | true =>
    obtain ⟨amounts, hamounts, hstep⟩ := except_bind_eq_ok.mp hstep
    rw [if_pos rfl, ← amounts_eq hamounts, ← Except.ok.inj hstep, credits_eq htrusted]
    cases isImmature env wtx <;> simp <;> ring

/-! ## `GetAddressBalances` -/

/-- The unspent own outputs that have an address. -/
def addressSum (env : BalanceEnv) (wtx : CWalletTxRecord) : Int :=
  outputSum wtx fun txout i =>
    if (extractDestination env.amounts.hash160 txout.scriptPubKey).isSome then
      (if isSpent wtx i then 0 else ownValue env txout) else 0

theorem total_addOutput (balances : Tally CTxDestination Int) (items : List (CTxOut × Nat)) :
    (items.foldl (addOutput env wtx) balances).total = balances.total + (items.map fun item =>
      if (extractDestination env.amounts.hash160 item.1.scriptPubKey).isSome then
        (if isSpent wtx item.2 then 0 else ownValue env item.1) else 0).sum := by
  induction items generalizing balances with
  | nil => simp
  | cons item items ih =>
    rw [List.foldl_cons, ih, List.map_cons, List.sum_cons, ← add_assoc]
    congr 1
    unfold addOutput ownValue
    split
    · cases extractDestination env.amounts.hash160 item.1.scriptPubKey with
      | none => simp
      | some addr => simp [Tally.total_add]
    · simp

theorem tallyAddresses_eq {t t' : Tally CTxDestination Int}
    (h : tallyAddresses env wallet fuel t wtx = .ok t') :
    t'.total = t.total + if trusted env wallet fuel wtx then
      (if isImmature env wtx then 0 else addressSum env wtx) else 0 := by
  unfold tallyAddresses at h
  split at h
  · next hfinal =>
    -- a transaction that is not final is not trusted
    have htrusted : isTrusted env wallet fuel wtx = .ok false := by
      rw [isTrusted, if_pos hfinal]
    rw [trusted_eq htrusted, if_neg Bool.false_ne_true, add_zero, Except.ok.inj h]
  obtain ⟨fTrusted, htrusted, h⟩ := except_bind_eq_ok.mp h
  rw [trusted_eq htrusted]
  cases fTrusted with
  | false => rw [if_neg Bool.false_ne_true, add_zero, Except.ok.inj h]
  | true =>
    simp only [Bool.not_true, Bool.false_eq_true, if_false, if_true] at h ⊢
    split at h
    · next himmature => rw [if_pos himmature, add_zero, Except.ok.inj h]
    next hmature =>
    obtain ⟨fFromMe, hfrom, h⟩ := except_bind_eq_ok.mp h
    -- it is deep enough by the same conditions
    have hdepth : ¬ env.chain.depth wtx < (if fFromMe then 0 else 1) := by
      rcases (trusted_cases htrusted).2 with hdeep | ⟨hdeep, hmine⟩
      · split <;> omega
      · rw [Except.ok.inj (hfrom.symm.trans hmine)]
        exact not_lt.mpr hdeep
    rw [if_neg hdepth] at h
    rw [if_neg hmature, ← Except.ok.inj h, total_addOutput]
    rfl

theorem getAddressBalances_eq {balances : Tally CTxDestination Int}
    (h : getAddressBalances env wallet fuel = .ok balances) :
    balances.total = (wallet.txs.map fun wtx => if trusted env wallet fuel wtx then
      (if isImmature env wtx then 0 else addressSum env wtx) else 0).sum := by
  calc balances.total = Tally.total (∅ : Tally CTxDestination Int) +
        (wallet.txs.map fun wtx => if trusted env wallet fuel wtx then
          (if isImmature env wtx then 0 else addressSum env wtx) else 0).sum :=
        foldlM_measure Tally.total h fun _ _ _ hstep => tallyAddresses_eq hstep
    _ = _ := by rw [Tally.total_empty, zero_add]

/-! ## Coins and who spends them -/

/-- The outpoints that trusted transactions spend. -/
def spentPoints (env : BalanceEnv) (wallet : AccountWallet) (fuel : Nat) : List COutPoint :=
  (wallet.txs.filter (trusted env wallet fuel)).flatMap fun wtx => wtx.tx.vin.map CTxIn.prevout

/-- A sum over the coins: the outputs of all transactions of the wallet. -/
def coinSum (wallet : AccountWallet) (f : COutPoint → CWalletTxRecord → CTxOut → Int) : Int :=
  (wallet.mapWallet.toList.map fun item =>
    outputSum item.2 fun txout i => f ⟨item.1, i⟩ item.2 txout).sum

theorem coinSum_congr {f g : COutPoint → CWalletTxRecord → CTxOut → Int}
    (h : ∀ hash wtx i txout, wallet.mapWallet[hash]? = some wtx → wtx.tx.vout[i]? = some txout →
      f ⟨hash, i⟩ wtx txout = g ⟨hash, i⟩ wtx txout) : coinSum wallet f = coinSum wallet g := by
  refine congrArg List.sum (List.map_congr_left fun item hitem => ?_)
  refine outputSum_congr item.2 fun txout i hout => ?_
  exact h item.1 item.2 i txout ((Map.mem_toList _ _ _).mp hitem) hout

theorem coinSum_add (f g : COutPoint → CWalletTxRecord → CTxOut → Int) :
    coinSum wallet (fun o wtx txout => f o wtx txout + g o wtx txout) =
      coinSum wallet f + coinSum wallet g := by
  unfold coinSum
  rw [← List.sum_map_add]
  exact congrArg List.sum (List.map_congr_left fun item _ => outputSum_add item.2 _ _)

/-- What an outpoint is worth to the wallet is what the coin there is worth. -/
theorem coinSum_single (txin : CTxIn) : coinSum wallet (fun o _ txout =>
    if txin.prevout = o then ownValue env txout else 0) = debitIn env.amounts wallet txin := by
  have houtputs : ∀ (hash : Uint256) (wtx : CWalletTxRecord),
      outputSum wtx (fun txout i => if txin.prevout = ⟨hash, i⟩ then ownValue env txout else 0) =
      if hash = txin.prevout.hash then wtx.tx.vout[txin.prevout.n]?.elim 0 (ownValue env)
      else 0 := by
    intro hash wtx
    have hpoint : ∀ i, txin.prevout = ⟨hash, i⟩ ↔ hash = txin.prevout.hash ∧ i = txin.prevout.n :=
      fun i => ⟨fun h => by rw [h]; exact ⟨rfl, rfl⟩, fun h => by rw [h.1, h.2]⟩
    simp only [hpoint]
    split
    · next hhash =>
      rw [← List.sum_zipIdx_single, outputSum]
      simp only [hhash, true_and]
    · next hhash =>
      simp only [hhash, false_and, if_false]
      exact List.sum_eq_zero fun n hn => by
        obtain ⟨_, -, rfl⟩ := List.mem_map.mp hn
        rfl
  unfold coinSum debitIn
  simp only [houtputs]
  rw [Map.sum_single wallet.mapWallet txin.prevout.hash fun wtx =>
    wtx.tx.vout[txin.prevout.n]?.elim 0 (ownValue env)]
  cases wallet.mapWallet[txin.prevout.hash]? with
  | none => rfl
  | some prev =>
    dsimp only [Option.elim_some]
    cases prev.tx.vout[txin.prevout.n]? <;> rfl

/-- What inputs take from the wallet, coin by coin. -/
theorem coinSum_count (vin : List CTxIn) : coinSum wallet (fun o _ txout =>
    (vin.map CTxIn.prevout).count o * ownValue env txout) =
      (vin.map (debitIn env.amounts wallet)).sum := by
  induction vin with
  | nil =>
    refine List.sum_eq_zero fun n hn => ?_
    obtain ⟨item, -, rfl⟩ := List.mem_map.mp hn
    refine List.sum_eq_zero fun n hn => ?_
    obtain ⟨_, -, rfl⟩ := List.mem_map.mp hn
    simp
  | cons txin vin ih =>
    rw [List.map_cons, List.map_cons, List.sum_cons, ← ih, ← coinSum_single, ← coinSum_add]
    refine coinSum_congr fun hash wtx i txout _ _ => ?_
    rw [List.count_cons]
    by_cases hpoint : txin.prevout = ⟨hash, i⟩
    · simp [hpoint]
      ring
    · simp [hpoint]

/-- What trusted transactions take from the wallet. -/
theorem sum_debits : (wallet.txs.map fun wtx =>
    if trusted env wallet fuel wtx then debitOf env wallet wtx else 0).sum =
      coinSum wallet fun o _ txout =>
        (spentPoints env wallet fuel).count o * ownValue env txout := by
  have hinputs : spentPoints env wallet fuel =
      ((wallet.txs.filter (trusted env wallet fuel)).flatMap fun wtx => wtx.tx.vin).map
        CTxIn.prevout := by
    rw [spentPoints, List.map_flatMap]
  rw [hinputs, coinSum_count, ← List.sum_map_filter_eq]
  generalize wallet.txs.filter (trusted env wallet fuel) = txs
  induction txs with
  | nil => rfl
  | cons wtx txs ih =>
    rw [List.map_cons, List.sum_cons, ih, List.flatMap_cons, List.map_append, List.sum_append]
    rfl

end amounts

/-! ## When they agree -/

section agreement

variable (env : BalanceEnv) (wallet : AccountWallet) (fuel : Nat)

/-- The spent flags are right: a transaction of the wallet that is trusted spends the output. -/
def FlagsRight : Prop :=
  ∀ (hash : Uint256) (wtx : CWalletTxRecord) (i : Nat) (txout : CTxOut),
    wallet.mapWallet[hash]? = some wtx → wtx.tx.vout[i]? = some txout →
    env.amounts.isMine txout = true →
    (isSpent wtx i = true ↔ ∃ (hash' : Uint256) (wtx' : CWalletTxRecord),
      wallet.mapWallet[hash']? = some wtx' ∧ isTrusted env wallet fuel wtx' = .ok true ∧
        ∃ txin ∈ wtx'.tx.vin, txin.prevout = ⟨hash, i⟩)

/-- Every own output has a destination. -/
def AllAddressed : Prop :=
  ∀ (hash : Uint256) (wtx : CWalletTxRecord) (txout : CTxOut),
    wallet.mapWallet[hash]? = some wtx → txout ∈ wtx.tx.vout → env.amounts.isMine txout = true →
    (extractDestination env.amounts.hash160 txout.scriptPubKey).isSome = true

/-- How often trusted transactions spend a coin, but for the one time that is expected of a coin of
a trusted transaction that is mature. -/
def timesTooOften (o : COutPoint) (wtx : CWalletTxRecord) : Nat :=
  (spentPoints env wallet fuel).count o -
    if trusted env wallet fuel wtx && !isImmature env wtx then 1 else 0

/-- The own coins that trusted transactions spend too early or too often. -/
def overspent : Int :=
  coinSum wallet fun o wtx txout => timesTooOften env wallet fuel o wtx * ownValue env txout

/-- What `GetAmounts` leaves out of the trusted transactions that the wallet has paid for. -/
def leftOutSum : Int :=
  (wallet.txs.map fun wtx =>
    if trusted env wallet fuel wtx then leftOut env wallet wtx else 0).sum

variable {env wallet fuel}

theorem trusted_iff {wtx : CWalletTxRecord} :
    trusted env wallet fuel wtx = true ↔ isTrusted env wallet fuel wtx = .ok true := by
  unfold trusted
  cases h : isTrusted env wallet fuel wtx with
  | error e => simp
  | ok fTrusted => simp

theorem mem_txs {wtx : CWalletTxRecord} :
    wtx ∈ wallet.txs ↔ ∃ hash : Uint256, wallet.mapWallet[hash]? = some wtx := by
  unfold AccountWallet.txs
  rw [List.mem_map]
  constructor
  · rintro ⟨item, hitem, rfl⟩
    exact ⟨item.1, (Map.mem_toList _ _ _).mp hitem⟩
  · rintro ⟨hash, hfound⟩
    exact ⟨(hash, wtx), (Map.mem_toList _ _ _).mpr hfound, rfl⟩

theorem mem_spentPoints {o : COutPoint} :
    o ∈ spentPoints env wallet fuel ↔ ∃ (hash : Uint256) (wtx : CWalletTxRecord),
      wallet.mapWallet[hash]? = some wtx ∧ isTrusted env wallet fuel wtx = .ok true ∧
        ∃ txin ∈ wtx.tx.vin, txin.prevout = o := by
  unfold spentPoints
  simp only [List.mem_flatMap, List.mem_filter, List.mem_map, mem_txs, trusted_iff]
  constructor
  · rintro ⟨wtx, ⟨⟨hash, hfound⟩, htrusted⟩, hspends⟩
    exact ⟨hash, wtx, hfound, htrusted, hspends⟩
  · rintro ⟨hash, wtx, hfound, htrusted, hspends⟩
    exact ⟨wtx, ⟨⟨hash, hfound⟩, htrusted⟩, hspends⟩

/-- The spent coins of mature trusted transactions, coin by coin. -/
theorem sum_spent : (wallet.txs.map fun wtx => if trusted env wallet fuel wtx then
      (if isImmature env wtx then 0 else spentSum env wtx) else 0).sum =
    coinSum wallet fun o wtx txout =>
      if (trusted env wallet fuel wtx && !isImmature env wtx) && isSpent wtx o.n then
        ownValue env txout else 0 := by
  unfold AccountWallet.txs coinSum
  rw [List.map_map]
  refine congrArg List.sum (List.map_congr_left fun item _ => ?_)
  dsimp only [Function.comp]
  have hzero : outputSum item.2 (fun _ _ => 0) = 0 :=
    List.sum_eq_zero fun n hn => by
      obtain ⟨_, -, rfl⟩ := List.mem_map.mp hn
      rfl
  unfold spentSum
  cases trusted env wallet fuel item.2 <;> cases isImmature env item.2 <;> simp [hzero]

/-- Where the flags are right, the coins that are spent without being marked in a mature trusted
transaction are those that are spent too early or too often. -/
theorem overspent_eq (hflags : FlagsRight env wallet fuel) :
    (wallet.txs.map fun wtx =>
      if trusted env wallet fuel wtx then debitOf env wallet wtx else 0).sum =
      overspent env wallet fuel + (wallet.txs.map fun wtx => if trusted env wallet fuel wtx then
        (if isImmature env wtx then 0 else spentSum env wtx) else 0).sum := by
  rw [sum_debits, sum_spent, overspent, ← coinSum_add]
  refine coinSum_congr fun hash wtx i txout hfound hout => ?_
  by_cases hmine : env.amounts.isMine txout = true
  · have hspent : isSpent wtx i = true ↔
        0 < (spentPoints env wallet fuel).count ⟨hash, i⟩ := by
      rw [List.count_pos_iff, mem_spentPoints]
      exact hflags hash wtx i txout hfound hout hmine
    unfold timesTooOften
    generalize (spentPoints env wallet fuel).count ⟨hash, i⟩ = n at hspent ⊢
    cases trusted env wallet fuel wtx && !isImmature env wtx with
    | false => simp
    | true =>
      cases n with
      | zero =>
        have hunmarked : isSpent wtx i = false := by simpa using hspent
        simp [hunmarked]
      | succ n =>
        have hmarked : isSpent wtx i = true := hspent.mpr (Nat.succ_pos n)
        simp [hmarked]
        ring
  · have hnothing : ownValue env txout = 0 := if_neg hmine
    simp [hnothing]

/-- What the two totals differ by. -/
theorem balances_differ {nTotal nBalance : Int} (hflags : FlagsRight env wallet fuel)
    (htotal : getBalance env wallet fuel = .ok nTotal)
    (hall : getBalanceAll env wallet fuel 0 = .ok nBalance) :
    nBalance + overspent env wallet fuel = nTotal + leftOutSum env wallet fuel := by
  have hspent := overspent_eq hflags
  have hterms : ∀ wtx ∈ wallet.txs,
      (if trusted env wallet fuel wtx then
        (if isImmature env wtx then 0 else (wtx.tx.vout.map (ownValue env)).sum) -
          debitOf env wallet wtx + leftOut env wallet wtx else 0) +
        (if trusted env wallet fuel wtx then debitOf env wallet wtx else 0) =
      (if trusted env wallet fuel wtx then
        (if isImmature env wtx then 0 else spentSum env wtx) else 0) +
        (if trusted env wallet fuel wtx then
          (if isImmature env wtx then 0 else unspentSum env wtx) else 0) +
        if trusted env wallet fuel wtx then leftOut env wallet wtx else 0 := by
    intro wtx _
    have hparts := @spentSum_add_unspentSum env wtx
    cases trusted env wallet fuel wtx with
    | false => simp
    | true =>
      cases isImmature env wtx with
      | false =>
        simp only [if_true, Bool.false_eq_true, if_false]
        linarith
      | true => simp
  have hsums := congrArg List.sum (List.map_congr_left hterms)
  rw [List.sum_map_add, List.sum_map_add, List.sum_map_add, ← getBalanceAll_eq hall,
    ← getBalance_eq htotal, hspent] at hsums
  unfold leftOutSum
  linarith

theorem addressBalances_eq {nTotal : Int} {balances : Tally CTxDestination Int}
    (haddressed : AllAddressed env wallet) (htotal : getBalance env wallet fuel = .ok nTotal)
    (hbalances : getAddressBalances env wallet fuel = .ok balances) : balances.total = nTotal := by
  rw [getAddressBalances_eq hbalances, getBalance_eq htotal]
  refine congrArg List.sum (List.map_congr_left fun wtx hwtx => ?_)
  obtain ⟨hash, hfound⟩ := mem_txs.mp hwtx
  have hsame : addressSum env wtx = unspentSum env wtx := by
    refine outputSum_congr wtx fun txout i hout => ?_
    by_cases hmine : env.amounts.isMine txout = true
    · exact if_pos (haddressed hash wtx txout hfound (List.mem_of_getElem? hout) hmine)
    · have hnothing : ownValue env txout = 0 := if_neg hmine
      simp [hnothing]
  rw [hsame]

/-- The balances agree exactly when the coins that are spent too early or too often are worth what
`GetAmounts` leaves out; the balances of addresses always sum up to `GetBalance`. -/
theorem balances_agree_iff {nTotal nBalance : Int} {balances : Tally CTxDestination Int}
    (hflags : FlagsRight env wallet fuel) (htotal : getBalance env wallet fuel = .ok nTotal)
    (hall : getBalanceAll env wallet fuel 0 = .ok nBalance)
    (hbalances : getAddressBalances env wallet fuel = .ok balances) :
    (nTotal = nBalance ∧ (AllAddressed env wallet → nTotal = balances.total)) ↔
      overspent env wallet fuel = leftOutSum env wallet fuel := by
  have hdiffer := balances_differ hflags htotal hall
  constructor
  · rintro ⟨hsame, -⟩
    rw [hsame] at hdiffer
    exact add_left_cancel hdiffer
  · intro hcond
    rw [hcond] at hdiffer
    exact ⟨(add_right_cancel hdiffer).symm,
      fun haddressed => (addressBalances_eq haddressed htotal hbalances).symm⟩

/-- The flags, as a check of each output. -/
theorem flagsRight_of_forall (h : ∀ item ∈ wallet.mapWallet.toList,
    ∀ output ∈ item.2.tx.vout.zipIdx, env.amounts.isMine output.1 = true →
      (isSpent item.2 output.2 = true ↔ ⟨item.1, output.2⟩ ∈ spentPoints env wallet fuel)) :
    FlagsRight env wallet fuel := by
  intro hash wtx i txout hfound hout hmine
  rw [← mem_spentPoints]
  exact h (hash, wtx) ((Map.mem_toList _ _ _).mpr hfound) (txout, i)
    (List.mem_zipIdx_iff_getElem?.mpr hout) hmine

end agreement

section samples

/-- A script that pays to a key. -/
def keyScript : CScript := [0x76, 0xa9, 0x14] ++ List.replicate 20 1 ++ [0x88, 0xac]

/-- Every output with a script is the wallet's; a transaction of block 1 is a thousand blocks
deep, any other one five. -/
def balanceEnv : BalanceEnv where
  node := mainNet
  amounts := ⟨id, fun txout => !txout.scriptPubKey.isEmpty, fun _ => true⟩
  isFinal _ := true
  depth mtx := if mtx.hashBlock = 1 then 1000 else 5
  fConfChange := false
  isMine_empty txout h := by
    dsimp only
    rw [h]
    rfl

/-- A coin of the value 100. -/
def fundRecord (vfSpent : List Bool) : CWalletTxRecord :=
  { Accounts.lockedRecord with
    tx := ⟨1, 0, [⟨⟨9, 0⟩, [], 0⟩], [⟨100, keyScript⟩], 0⟩
    hashBlock := 1
    vfSpent := vfSpent }

/-- A coinstake transaction that spends the coin and mints 10. -/
def stakeRecord : CWalletTxRecord :=
  { Accounts.lockedRecord with
    tx := ⟨1, 0, [⟨⟨1, 0⟩, [], 0⟩], [⟨0, []⟩, ⟨110, keyScript⟩], 0⟩
    hashBlock := 2 }

def fundWallet : AccountWallet :=
  ⟨(∅ : Map Uint256 CWalletTxRecord).insert 1 (fundRecord []), ∅⟩

def stakeWallet : AccountWallet :=
  ⟨((∅ : Map Uint256 CWalletTxRecord).insert 1 (fundRecord [true])).insert 2 stakeRecord, ∅⟩

theorem balances_agree_iff_sample : (getAddressBalances balanceEnv fundWallet 9).map (·.total) =
    .ok 100 ∧ overspent balanceEnv fundWallet 9 = leftOutSum balanceEnv fundWallet 9 := by
  have hbalances : (getAddressBalances balanceEnv fundWallet 9).map (·.total) = .ok 100 := by
    decide +kernel
  refine ⟨hbalances, ?_⟩
  cases h : getAddressBalances balanceEnv fundWallet 9 with
  | error e =>
    rw [h] at hbalances
    cases hbalances
  | ok balances =>
    rw [h] at hbalances
    have htotal : balances.total = 100 := Except.ok.inj hbalances
    have hiff := balances_agree_iff (flagsRight_of_forall (by decide +kernel))
      (by decide +kernel : getBalance balanceEnv fundWallet 9 = .ok 100)
      (by decide +kernel : getBalanceAll balanceEnv fundWallet 9 0 = .ok 100) h
    exact hiff.mp ⟨rfl, fun _ => htotal.symm⟩

/-- While the coinstake transaction is immature, its output counts in one of the balances. -/
theorem stakeWallet_disagrees : FlagsRight balanceEnv stakeWallet 9 ∧
    getBalance balanceEnv stakeWallet 9 = .ok 0 ∧
    getBalanceAll balanceEnv stakeWallet 9 0 = .ok 110 ∧
    ¬ getBalance balanceEnv stakeWallet 9 = getBalanceAll balanceEnv stakeWallet 9 0 := by
  have htotal : getBalance balanceEnv stakeWallet 9 = .ok 0 := by decide +kernel
  have hall : getBalanceAll balanceEnv stakeWallet 9 0 = .ok 110 := by decide +kernel
  refine ⟨flagsRight_of_forall (by decide +kernel), htotal, hall, fun h => ?_⟩
  rw [htotal, hall] at h
  cases h

end samples

end Balances

end NoLimitCoin
