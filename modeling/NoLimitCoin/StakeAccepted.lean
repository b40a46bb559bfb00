import NoLimitCoin.InterpreterLimits
import NoLimitCoin.Replay
import NoLimitCoin.Staking
import NoLimitCoin.VerifyScript

/-!
# A coin stake is accepted by the chain it was built on

`CreateCoinStake` searches a kernel, adds inputs under a rule of its own, moves the time of the
transaction back and pays the reward.  The validators repeat the kernel check, the coin age and
the signatures on the result.

Results:
1. `stakeKernel_spec`: the kernel is that of a coin of the wallet, at the time of the coin stake.
2. `addInputs_spec`: further inputs are other coins, and stay within what may be staked.
3. `createCoinStake_accepted`: what holds of the coin stake.
-/

namespace NoLimitCoin

open Prog NodeM Interpreter

/-! ## What the wallet relies on -/

/-- The outpoint of a coin. -/
def Coin.outpoint (env : Env) (c : Coin) : COutPoint := ⟨c.1.getHash env, c.2⟩

section inputs

variable {env : Env} {coins : List Coin} {tx : CTransaction}

/-- A transaction whose inputs have no scripts yet is what is signed. -/
theorem unsigned_of_vin (h : tx.vin = coins.map fun c => ⟨c.outpoint env, [], uint32Max⟩) :
    tx.unsigned = tx := by
  obtain ⟨nVersion, nTime, vin, vout, nLockTime⟩ := tx
  obtain rfl := h
  unfold CTransaction.unsigned
  dsimp only
  rw [List.map_map]
  rfl

theorem prevouts_of_vin (h : tx.vin = coins.map fun c => ⟨c.outpoint env, [], uint32Max⟩) :
    tx.vin.map CTxIn.prevout = coins.map (Coin.outpoint env) := by
  rw [h, List.map_map]
  rfl

theorem spendsFrom_of_vin (h : tx.vin = coins.map fun c => ⟨c.outpoint env, [], uint32Max⟩)
    (hcoins : ∀ c ∈ coins, c.1.vout[c.2]? = some c.txout) : SpendsFrom tx 0 coins := by
  intro i c hc
  refine ⟨hcoins c (List.mem_of_getElem? hc), ⟨c.outpoint env, [], uint32Max⟩, ?_, rfl⟩
  rw [h, Nat.zero_add, List.getElem?_map, hc]
  rfl

end inputs

/-- The value of coins. -/
def stakedValue (coins : List Coin) : Int := (coins.map fun c => c.txout.nValue).sum

/-- The wallet is one of the node: its transactions are those of the chain, `mapWallet` has one
for every hash, and what it signs can be verified. -/
structure StakeWallet.Sound {Key : Type} (env : Env) (sig : SigEnv Key) (node : Node)
    (wallet : StakeWallet) : Prop where
  distinct : (wallet.availableCoins.map (Coin.outpoint env)).Nodup
  output : ∀ c ∈ wallet.availableCoins, c.1.vout[c.2]? = some c.txout
  size : ∀ c ∈ wallet.availableCoins, c.1.vout.length < 2 ^ 32
  nonneg : ∀ c ∈ wallet.availableCoins, 0 ≤ c.txout.nValue
  stored : ∀ c ∈ wallet.availableCoins, ∀ txindex,
    node.txdb.fresh.readTxIndex (c.1.getHash env) = some txindex →
      node.files.txAt[(⟨txindex.pos.nFile, txindex.pos.nTxPos⟩ : FilePos)]? = some c.1
  /-- A set keeps the coins that are put into it. -/
  order : ∀ coins, coins.Nodup → (wallet.setOrder coins).Perm coins
  keySize : ∀ address key, wallet.getKey address = some key → isPubKeySize key = true
  tests : Tests env wallet.signSignature
  signs : ∀ address key hash vchSig, wallet.getKey address = some key →
    wallet.sign key hash = some vchSig →
      vchSig ≠ [] ∧ ∃ k, sig.setPubKey key = some k ∧ sig.verify k hash vchSig = true

/-! ## Choosing coins -/

section select

variable {env : Env} {wallet : StakeWallet} {nTargetValue : Int} {nSpendTime : Nat}

theorem selectCoinsLoop_sublist (nValueRet : Int) (coins : List Coin) :
    (selectCoinsLoop nTargetValue nSpendTime nValueRet coins).Sublist coins := by
  induction coins generalizing nValueRet with
  | nil => exact List.Sublist.refl _
  | cons c coins ih =>
    rw [selectCoinsLoop]
    split
    · exact List.nil_sublist _
    split
    · exact (ih _).cons c
    split
    · exact (List.nil_sublist coins).cons_cons c
    split
    · exact (ih _).cons_cons c
    · exact (ih _).cons c

variable {Key : Type} {sig : SigEnv Key} {node : Node}

theorem StakeWallet.Sound.selected (h : wallet.Sound env sig node) :
    (∀ c ∈ wallet.selectCoinsSimple nTargetValue nSpendTime, c ∈ wallet.availableCoins) ∧
      ((wallet.selectCoinsSimple nTargetValue nSpendTime).map (Coin.outpoint env)).Nodup := by
  have hsub := @selectCoinsLoop_sublist nTargetValue nSpendTime 0 wallet.availableCoins
  have hnodup := (hsub.map (Coin.outpoint env)).nodup h.distinct
  have hperm := h.order _ hnodup.of_map
  exact ⟨fun c hc => hsub.subset (hperm.subset hc), (hperm.map _).nodup_iff.mpr hnodup⟩

/-- The inputs that are added are other coins, and keep the value within the limit. -/
theorem addInputs_spec {nSpendable : Int} {kernel : StakeKernel} {nInputs : Nat} {nCredit : Int}
    {coins : List Coin} (hle : nCredit ≤ nSpendable) :
    (addInputs env nSpendable kernel nInputs nCredit coins).1.Sublist coins ∧
      (∀ c ∈ (addInputs env nSpendable kernel nInputs nCredit coins).1,
        c.1.getHash env ≠ kernel.coin.1.getHash env) ∧
      (addInputs env nSpendable kernel nInputs nCredit coins).2 =
        nCredit + stakedValue (addInputs env nSpendable kernel nInputs nCredit coins).1 ∧
      (addInputs env nSpendable kernel nInputs nCredit coins).2 ≤ nSpendable := by
  induction coins generalizing nInputs nCredit with
  | nil =>
    exact ⟨List.Sublist.refl _, fun c hc => absurd hc List.not_mem_nil, (add_zero _).symm, hle⟩
  | cons c coins ih =>
    have hskip : ∀ n, _ := fun n => @ih n nCredit hle
    rw [addInputs]
    split
    · next hsame =>
      split
      · exact ⟨List.nil_sublist _, fun c hc => absurd hc List.not_mem_nil, (add_zero _).symm, hle⟩
      · next hstop =>
        rw [not_or, not_or, not_lt] at hstop
        split
        · obtain ⟨hsub, hother, hvalue, hlimit⟩ := @ih nInputs nCredit hle
          exact ⟨hsub.cons c, hother, hvalue, hlimit⟩
        · obtain ⟨hsub, hother, hvalue, hlimit⟩ :=
            @ih (nInputs + 1) (nCredit + c.txout.nValue) hstop.2.2
          refine ⟨hsub.cons_cons c, List.forall_mem_cons.mpr ⟨hsame.2, hother⟩, ?_, hlimit⟩
          dsimp only
          rw [hvalue, stakedValue, stakedValue, List.map_cons, List.sum_cons, add_assoc]
    · obtain ⟨hsub, hother, hvalue, hlimit⟩ := @ih nInputs nCredit hle
      exact ⟨hsub.cons c, hother, hvalue, hlimit⟩

end select

/-! ## The kernel -/

/-- The kernel of a coin, as the validators find it. -/
structure IsKernel (env : Env) (wallet : StakeWallet) (nBits : Nat) (node : Node)
    (kernel : StakeKernel) : Prop where
  script : wallet.kernelScript kernel.coin.txout.scriptPubKey =
    some (kernel.key, kernel.scriptPubKeyOut)
  found : ∃ txindex hash stored,
    node.txdb.fresh.readTxIndex (kernel.coin.1.getHash env) = some txindex ∧
      BlockFiles.validFile txindex.pos.nFile = true ∧
      node.files.blockAt[(⟨txindex.pos.nFile, txindex.pos.nBlockPos⟩ : FilePos)]? = some stored ∧
      kernel.block = { stored with vtx := [], vchBlockSig := [] } ∧
      checkStakeKernelHash env node nBits kernel.block
        ((txindex.pos.nTxPos + 2 ^ 32 - txindex.pos.nBlockPos) % 2 ^ 32) kernel.coin.1
        (kernel.coin.outpoint env) kernel.nTime = some hash

section kernel

variable {env : Env} {wallet : StakeWallet} {nBits nTime : Nat} {nSearchInterval : Int}
  {w w' : World} {kernel : StakeKernel}

theorem readHeader_ok {nFile nBlockPos : Nat} {block : CBlock}
    (h : readBlockAt env nFile nBlockPos false w = .ok (some block) w') :
    BlockFiles.validFile nFile = true ∧ ∃ stored,
      w.node.files.blockAt[(⟨nFile, nBlockPos⟩ : FilePos)]? = some stored ∧
        block = { stored with vtx := [], vchBlockSig := [] } := by
  obtain ⟨ok, w₁, hok, h⟩ := bind_eq_ok.mp h
  have hnode := (Reads.diskOk.ok hok).node
  rw [getNode_bind, hnode] at h
  split at h
  · cases (pure_eq_ok.mp h).1
  · next hvalid =>
    rw [Bool.not_eq_true', Bool.not_eq_false, Bool.and_eq_true] at hvalid
    refine ⟨hvalid.2, ?_⟩
    cases hblock : w.node.files.blockAt[(⟨nFile, nBlockPos⟩ : FilePos)]? with
    | none =>
      rw [hblock] at h
      cases (pure_eq_ok.mp h).1
    | some stored =>
      rw [hblock] at h
      exact ⟨stored, rfl, Option.some.inj (pure_eq_ok.mp h).1⟩

theorem tryCoin_spec {c : Coin}
    (h : tryCoin env wallet nBits nSearchInterval nTime c w = .ok (some kernel) w') :
    kernel.coin = c ∧ IsKernel env wallet nBits w.node kernel := by
  rw [tryCoin, getNode_bind] at h
  cases hindex : w.node.txdb.fresh.readTxIndex (c.1.getHash env) with
  | none =>
    rw [hindex] at h
    cases (pure_eq_ok.mp h).1
  | some txindex =>
    rw [hindex] at h
    obtain ⟨header, w₁, hread, h⟩ := bind_eq_ok.mp h
    cases header with
    | none => cases (pure_eq_ok.mp h).1
    | some block =>
      dsimp only at h
      split at h
      · cases (pure_eq_ok.mp h).1
      cases hback : searchBack env w.node nBits block
          ((txindex.pos.nTxPos + 2 ^ 32 - txindex.pos.nBlockPos) % 2 ^ 32) c nSearchInterval
          nTime with
      | none =>
        rw [hback] at h
        cases (pure_eq_ok.mp h).1
      | some n =>
        rw [hback] at h
        obtain ⟨script, hscript, rfl⟩ := Option.map_eq_some_iff.mp (pure_eq_ok.mp h).1.symm
        obtain ⟨hvalid, stored, hstored, hblock⟩ := readHeader_ok hread
        unfold searchBack at hback
        have hmeets := List.find?_some hback
        obtain ⟨hash, hhash⟩ := Option.isSome_iff_exists.mp hmeets
        exact ⟨rfl, hscript, txindex, hash, stored, hindex, hvalid, hstored, hblock, hhash⟩

theorem findKernel_spec {coins : List Coin}
    (h : findKernel env wallet nBits nSearchInterval nTime coins w = .ok (some kernel) w') :
    kernel.coin ∈ coins ∧ IsKernel env wallet nBits w.node kernel := by
  induction coins generalizing w with
  | nil => cases (pure_eq_ok.mp h).1
  | cons c coins ih =>
    obtain ⟨found, w₁, hfound, h⟩ := bind_eq_ok.mp h
    cases found with
    | none =>
      obtain ⟨hmem, hkernel⟩ := ih h
      rw [((reads_tryCoin env wallet nBits nTime nSearchInterval c).ok hfound).node] at hkernel
      exact ⟨List.mem_cons_of_mem c hmem, hkernel⟩
    | some found =>
      obtain rfl := Option.some.inj (pure_eq_ok.mp h).1
      obtain ⟨hcoin, hkernel⟩ := tryCoin_spec hfound
      exact ⟨hcoin ▸ List.mem_cons_self, hkernel⟩

theorem stakeKernel_spec
    (h : stakeKernel env wallet nBits nSearchInterval nTime w = .ok (some kernel) w') :
    kernel.coin ∈ wallet.selectCoinsSimple (wallet.nBalance - wallet.nReserveBalance) nTime ∧
      IsKernel env wallet nBits w.node kernel := by
  unfold stakeKernel at h
  split at h
  · cases (pure_eq_ok.mp h).1
  · exact findKernel_spec h

end kernel

/-! ## The transaction -/

section transaction

variable {env : Env} {wallet : StakeWallet} {nBits nTime : Nat} {nSearchInterval nFees : Int}
  {w w' : World}

/-- The kernel is split. -/
def StakeKernel.splits (env : Env) (kernel : StakeKernel) : Bool :=
  decide (getWeight env kernel.block.nTime kernel.nTime < nStakeSplitAge)

/-- The inputs after the kernel, and the value of all of them. -/
def moreInputs (env : Env) (wallet : StakeWallet) (nTime : Nat) (kernel : StakeKernel) :
    List Coin × Int :=
  if kernel.splits env = true then ([], kernel.coin.txout.nValue)
  else addInputs env (wallet.nBalance - wallet.nReserveBalance) kernel 1 kernel.coin.txout.nValue
    (wallet.selectCoinsSimple (wallet.nBalance - wallet.nReserveBalance) nTime)

/-- The coin stake before it is signed. -/
def unsignedStake (env : Env) (kernel : StakeKernel) (coins : List Coin) (amounts : List Int) :
    CTransaction :=
  ⟨1, kernel.nTime, coins.map fun c => ⟨c.outpoint env, [], uint32Max⟩,
    .empty :: amounts.map fun n => ⟨n, kernel.scriptPubKeyOut⟩, 0⟩

/-- How a coin stake has come about. -/
theorem createCoinStake_ok {tx : CTransaction} {key : Valtype}
    (h : createCoinStake env wallet nBits nSearchInterval nFees nTime w = .ok (some (tx, key)) w') :
    ∃ kernel w₁ nCoinAge w₂ nReward,
      stakeKernel env wallet nBits nSearchInterval nTime w = .ok (some kernel) w₁ ∧
      key = kernel.key ∧ kernel.coin.txout.nValue ≤ wallet.nBalance - wallet.nReserveBalance ∧
      (unsignedStake env kernel (kernel.coin :: (moreInputs env wallet nTime kernel).1)
        (stakeAmounts (kernel.splits env) 0)).getCoinAge env w₁.node.txdb.fresh w₁ =
          .ok (some nCoinAge) w₂ ∧
      getProofOfStakeReward (Int64.ofUint64 nCoinAge) nFees = .ok nReward ∧ 0 < nReward ∧
      signInputs wallet 0 (kernel.coin :: (moreInputs env wallet nTime kernel).1)
        (unsignedStake env kernel (kernel.coin :: (moreInputs env wallet nTime kernel).1)
          (stakeAmounts (kernel.splits env)
            ((moreInputs env wallet nTime kernel).2 + nReward))) = some tx := by
  obtain ⟨found, w₁, hfound, h⟩ := bind_eq_ok.mp h
  cases found with
  | none => cases (pure_eq_ok.mp h).1
  | some kernel =>
    dsimp only at h
    split at h
    · cases (pure_eq_ok.mp h).1
    next hcredit =>
    rw [not_or, not_lt] at hcredit
    rw [getNode_bind] at h
    obtain ⟨coinAge, w₂, hage, h⟩ := bind_eq_ok.mp h
    cases coinAge with
    | none => cases h
    | some nCoinAge =>
      obtain ⟨nReward, hreward, h⟩ := fromExcept_bind_eq_ok.mp h
      split at h
      · cases (pure_eq_ok.mp h).1
      next hpositive =>
      generalize hsigned : signInputs wallet 0 _ _ = signed at h
      cases signed with
      | none => cases h
      | some txNew =>
        dsimp only at h
        split at h
        · cases h
        obtain ⟨rfl, rfl⟩ := Prod.mk.inj (Option.some.inj (pure_eq_ok.mp h).1)
        exact ⟨kernel, w₁, nCoinAge, w₂, nReward, hfound, rfl, hcredit.2, hage, hreward,
          not_le.mp hpositive, hsigned⟩

theorem signInputs_eq (nIn : Nat) (coins : List Coin) (tx : CTransaction) :
    signInputs wallet nIn coins tx = signLoop wallet.signSignature nIn coins tx := by
  induction coins generalizing nIn tx with
  | nil => rfl
  | cons c coins ih =>
    rw [signInputs, signLoop]
    cases wallet.signSignature c.1 tx nIn with
    | none => rfl
    | some scriptSig => exact ih _ _

/-- The amounts of the outputs make up the value, whether it is split or not. -/
theorem stakeAmounts_spec (fSplit : Bool) {nCredit : Int} (h : 0 ≤ nCredit) :
    (stakeAmounts fSplit nCredit).sum = nCredit ∧
      ∀ n ∈ stakeAmounts fSplit nCredit, 0 ≤ n ∧ n ≤ nCredit := by
  cases fSplit with
  | false => exact ⟨Int.add_zero _, List.forall_mem_singleton.mpr ⟨h, le_rfl⟩⟩
  | true =>
    have hcent : (0 : Int) < cent := by decide
    have hhalf : 0 ≤ nCredit.tdiv 2 ∧ nCredit.tdiv 2 ≤ nCredit := by
      rw [Int.tdiv_eq_ediv_of_nonneg h]
      omega
    have hcents : 0 ≤ (nCredit.tdiv 2).tdiv cent * cent ∧
        (nCredit.tdiv 2).tdiv cent * cent ≤ nCredit.tdiv 2 := by
      rw [Int.tdiv_eq_ediv_of_nonneg hhalf.1]
      exact ⟨Int.mul_nonneg (Int.ediv_nonneg hhalf.1 hcent.le) hcent.le,
        Int.ediv_mul_le _ hcent.ne'⟩
    have hle := hcents.2.trans hhalf.2
    refine ⟨?_, List.forall_mem_cons.mpr ⟨⟨hcents.1, hle⟩, List.forall_mem_singleton.mpr ?_⟩⟩
    · rw [stakeAmounts, if_pos rfl]
      dsimp only
      rw [List.sum_cons, List.sum_singleton]
      omega
    · exact ⟨Int.sub_nonneg_of_le hle, Int.sub_le_self _ hcents.1⟩

/-- The coin age is that of the outpoints and the time. -/
theorem foldlM_inputCoinAge_congr {txdb : TxDB} {a b : CTransaction} (htime : a.nTime = b.nTime)
    {xs ys : List CTxIn} (h : xs.map CTxIn.prevout = ys.map CTxIn.prevout) (acc : Option Int) :
    xs.foldlM (CTransaction.inputCoinAge env txdb a) acc =
      ys.foldlM (CTransaction.inputCoinAge env txdb b) acc := by
  have hstep : ∀ (x y : CTxIn) acc, x.prevout = y.prevout →
      CTransaction.inputCoinAge env txdb a acc x = CTransaction.inputCoinAge env txdb b acc y := by
    intro x y acc hxy
    unfold CTransaction.inputCoinAge
    rw [hxy, htime]
  induction xs generalizing ys acc with
  | nil =>
    obtain rfl := List.map_eq_nil_iff.mp h.symm
    rfl
  | cons x xs ih =>
    cases ys with
    | nil => cases h
    | cons y ys =>
      obtain ⟨hxy, hrest⟩ := List.cons.inj h
      rw [List.foldlM_cons, List.foldlM_cons, hstep x y acc hxy]
      exact congrArg _ (funext fun acc => ih hrest acc)

theorem getCoinAge_congr {txdb : TxDB} {a b : CTransaction} (ha : a.isCoinBase = false)
    (hb : b.isCoinBase = false) (htime : a.nTime = b.nTime)
    (h : a.vin.map CTxIn.prevout = b.vin.map CTxIn.prevout) :
    a.getCoinAge env txdb = b.getCoinAge env txdb := by
  unfold CTransaction.getCoinAge
  rw [ha, hb, foldlM_inputCoinAge_congr htime h]

theorem verifySignature_eq {txFrom txTo : CTransaction} {txin : CTxIn} {txout : CTxOut} {nIn : Nat}
    (hout : txFrom.vout[txin.prevout.n]? = some txout)
    (hhash : txin.prevout.hash = txFrom.getHash env) :
    CTransaction.verifySignature env txFrom txTo txin nIn =
      env.verifyScript txin.scriptSig txout.scriptPubKey txTo nIn := by
  unfold CTransaction.verifySignature
  rw [hout]
  dsimp only
  rw [decide_eq_true hhash, Bool.true_and]

theorem checkProofOfStake_run {tx txPrev : CTransaction} {txin : CTxIn} {rest : List CTxIn}
    {txindex : CTxIndex} {txout : CTxOut} {stored : CBlock} {hash : Uint256}
    (hdisk : w.DiskWorks) (hstake : tx.isCoinStake = true) (hvin : tx.vin = txin :: rest)
    (hindex : w.node.txdb.fresh.readTxIndex txin.prevout.hash = some txindex)
    (hvalid : BlockFiles.validFile txindex.pos.nFile = true)
    (htx : w.node.files.txAt[(⟨txindex.pos.nFile, txindex.pos.nTxPos⟩ : FilePos)]? = some txPrev)
    (hout : txPrev.vout[txin.prevout.n]? = some txout)
    (hverify : CTransaction.verifySignature env txPrev tx txin 0 = true)
    (hstored : w.node.files.blockAt[(⟨txindex.pos.nFile, txindex.pos.nBlockPos⟩ : FilePos)]? =
      some stored)
    (hhash : checkStakeKernelHash env w.node nBits { stored with vtx := [], vchBlockSig := [] }
      ((txindex.pos.nTxPos + 2 ^ 32 - txindex.pos.nBlockPos) % 2 ^ 32) txPrev txin.prevout
      tx.nTime = some hash) :
    checkProofOfStake env tx nBits w = .ok hash w := by
  have hread :
      readTxFromDisk w.node.txdb.fresh txin.prevout w = .ok (some (txPrev, txindex)) w := by
    rw [readTxFromDisk, hindex]
    dsimp only
    rw [bind_of_ok (readTxAt_run hdisk _), if_pos hvalid, htx]
    dsimp only
    rw [if_pos (List.getElem?_eq_some_iff.mp hout).1]
    rfl
  have hheader := readBlockAt_run env hdisk txindex.pos.nFile txindex.pos.nBlockPos
  rw [if_pos hvalid, hstored] at hheader
  unfold checkProofOfStake
  refine require_bind_eq_ok.mpr ⟨hstake, ?_⟩
  rw [hvin]
  dsimp only
  rw [getNode_bind, bind_of_ok hread]
  dsimp only
  refine require_bind_eq_ok.mpr ⟨hverify, ?_⟩
  rw [bind_of_ok hheader]
  dsimp only [Option.map_some]
  rw [hhash]
  rfl

end transaction

/-! ## What the validators find -/

/-- The coin stake `tx` that the wallet has built in the world `w` passes what the validators
check. -/
structure Accepted (env : Env) (wallet : StakeWallet) (nBits : Nat) (nFees : Int) (w : World)
    (tx : CTransaction) (key : Valtype) : Prop where
  distinct : (tx.vin.map CTxIn.prevout).Nodup
  /-- The inputs are coins of the wallet within the reserve, and the outputs pay their value and
  at most the reward. -/
  pays : ∃ coins : List Coin, (∀ c ∈ coins, c ∈ wallet.availableCoins) ∧
    tx.vin.map CTxIn.prevout = coins.map (Coin.outpoint env) ∧
    stakedValue coins ≤ wallet.nBalance - wallet.nReserveBalance ∧
    ∃ nCoinAge w₁ w₂ nReward, w₁.node = w.node ∧
      tx.getCoinAge env w.node.txdb.fresh w₁ = .ok (some nCoinAge) w₂ ∧
      getProofOfStakeReward (Int64.ofUint64 nCoinAge) nFees = .ok nReward ∧
      (tx.vout.map CTxOut.nValue).sum - stakedValue coins ≤ nReward ∧
      (stakedValue coins + nReward ≤ maxMoney →
        ∀ txout ∈ tx.vout, moneyRange txout.nValue = true)
  nonneg : ∀ txout ∈ tx.vout, 0 ≤ txout.nValue
  mark : tx.vout.head? = some .empty
  kernel : ∀ w₂ : World, w₂.node = w.node → w₂.DiskWorks →
    ∃ hash, checkProofOfStake env tx nBits w₂ = .ok hash w₂
  signed : ∀ (block : CBlock) (vchBlockSig : List UInt8), block.vtx[1]? = some tx →
    wallet.sign key (block.getHash env) = some vchBlockSig →
      ({ block with vchBlockSig := vchBlockSig } : CBlock).checkBlockSignature env = true

section accepted

variable {Key : Type} {env : Env} {base : EvalEnv} {sig : SigEnv Key} {wallet : StakeWallet}
  {node : Node} {kernel : StakeKernel} {nBits nTime : Nat}

/-- The inputs of a coin stake are coins of the wallet with different outpoints, within what may be
staked. -/
theorem stakeCoins_spec (hwallet : wallet.Sound env sig node)
    (hkernel : kernel.coin ∈ wallet.selectCoinsSimple (wallet.nBalance - wallet.nReserveBalance)
      nTime) (hle : kernel.coin.txout.nValue ≤ wallet.nBalance - wallet.nReserveBalance) :
    (∀ c ∈ kernel.coin :: (moreInputs env wallet nTime kernel).1, c ∈ wallet.availableCoins) ∧
      ((kernel.coin :: (moreInputs env wallet nTime kernel).1).map (Coin.outpoint env)).Nodup ∧
      (moreInputs env wallet nTime kernel).2 =
        stakedValue (kernel.coin :: (moreInputs env wallet nTime kernel).1) ∧
      (moreInputs env wallet nTime kernel).2 ≤ wallet.nBalance - wallet.nReserveBalance := by
  obtain ⟨hmem, hnodup⟩ := @StakeWallet.Sound.selected env wallet
    (wallet.nBalance - wallet.nReserveBalance) nTime Key sig node hwallet
  unfold moreInputs
  by_cases hsplit : kernel.splits env = true
  · rw [if_pos hsplit]
    refine ⟨List.forall_mem_singleton.mpr (hmem _ hkernel), List.nodup_singleton _, ?_, hle⟩
    exact (Int.add_zero _).symm
  · rw [if_neg hsplit]
    obtain ⟨hsub, hother, hvalue, hlimit⟩ := @addInputs_spec env
      (wallet.nBalance - wallet.nReserveBalance) kernel 1 kernel.coin.txout.nValue
      (wallet.selectCoinsSimple (wallet.nBalance - wallet.nReserveBalance) nTime) hle
    refine ⟨List.forall_mem_cons.mpr ⟨hmem _ hkernel, fun c hc => hmem c (hsub.subset hc)⟩, ?_,
      ?_, hlimit⟩
    · refine List.nodup_cons.mpr ⟨fun hin => ?_, (hsub.map _).nodup hnodup⟩
      obtain ⟨c, hc, heq⟩ := List.mem_map.mp hin
      exact hother c hc (congrArg COutPoint.hash heq)
    · rw [hvalue, stakedValue, stakedValue, List.map_cons, List.sum_cons]

/-- The block is signed for the key of its staked output. -/
theorem kernelScript_solved (hwallet : wallet.Sound env sig node) {script : CScript}
    {key : Valtype} {scriptOut : CScript}
    (h : wallet.kernelScript script = some (key, scriptOut)) :
    (∃ address, wallet.getKey address = some key) ∧
      ∃ rest, solver scriptOut = (true, .pubkey, key :: rest) := by
  unfold StakeWallet.kernelScript at h
  split at h
  · obtain ⟨key', hkey, heq⟩ := Option.map_eq_some_iff.mp h
    obtain ⟨rfl, rfl⟩ := Prod.mk.inj heq
    exact ⟨⟨_, hkey⟩, [], solver_keyScript (hwallet.keySize _ _ hkey)⟩
  · next vchPubKey rest hsolved =>
    cases hkey : wallet.getKey (wallet.hash160 vchPubKey) with
    | none =>
      rw [hkey] at h
      cases h
    | some key' =>
      rw [hkey] at h
      dsimp only at h
      split at h
      · next heq =>
        obtain ⟨rfl, rfl⟩ := Prod.mk.inj (Option.some.inj h)
        exact ⟨⟨_, hkey⟩, rest, heq ▸ hsolved⟩
      · cases h
  · cases h

theorem isCoinStake_unsignedStake {coins : List Coin} {amounts : List Int} {tx : CTransaction}
    (hkernel : kernel.coin.1.vout.length < 2 ^ 32)
    (hout : kernel.coin.1.vout[kernel.coin.2]? = some kernel.coin.txout) (hamounts : amounts ≠ [])
    (htx : tx.unsigned = unsignedStake env kernel (kernel.coin :: coins) amounts) :
    tx.isCoinStake = true := by
  have hnull : (kernel.coin.outpoint env).isNull = false := by
    have hlt := (List.getElem?_eq_some_iff.mp hout).1
    have hn : (kernel.coin.2 == uint32Max) = false := by
      rw [beq_eq_false_iff_ne]
      unfold uint32Max
      omega
    unfold COutPoint.isNull Coin.outpoint
    rw [hn, Bool.and_false]
  have hvin : tx.vin.map CTxIn.prevout = (kernel.coin :: coins).map (Coin.outpoint env) := by
    rw [← CTransaction.prevouts_unsigned, htx, unsignedStake, List.map_map]
    rfl
  have hvout : tx.vout = .empty :: amounts.map fun n => ⟨n, kernel.scriptPubKeyOut⟩ :=
    congrArg CTransaction.vout htx
  unfold CTransaction.isCoinStake
  rw [hvout]
  cases htxin : tx.vin with
  | nil =>
    rw [htxin] at hvin
    cases hvin
  | cons txin rest =>
    rw [htxin] at hvin
    cases amounts with
    | nil => exact absurd rfl hamounts
    | cons n amounts =>
      show (!txin.prevout.isNull && CTxOut.empty.isEmpty) = true
      rw [(List.cons.inj hvin).1, hnull]
      rfl

theorem stakedValue_nonneg {coins : List Coin} (hwallet : wallet.Sound env sig node)
    (hcoins : ∀ c ∈ coins, c ∈ wallet.availableCoins) : 0 ≤ stakedValue coins := by
  refine List.sum_nonneg fun n hn => ?_
  obtain ⟨c, hc, rfl⟩ := List.mem_map.mp hn
  exact hwallet.nonneg c (hcoins c hc)

/-- A block with a coin stake whose key signs it passes `CheckBlockSignature`. -/
theorem checkBlockSignature_run {tx : CTransaction} {txout : CTxOut} {rest : List CTxOut}
    {block : CBlock} {vchBlockSig : List UInt8} (hstake : tx.isCoinStake = true)
    (hvout : tx.vout = .empty :: txout :: rest) (hblock : block.vtx[1]? = some tx)
    (hsig : vchBlockSig ≠ [])
    (hverify : env.verifyBlockSig txout.scriptPubKey (block.getHash env) vchBlockSig = true) :
    ({ block with vchBlockSig := vchBlockSig } : CBlock).checkBlockSignature env = true := by
  obtain ⟨coinbase, others, hvtx⟩ : ∃ coinbase others, block.vtx = coinbase :: tx :: others := by
    cases hvtx : block.vtx with
    | nil =>
      rw [hvtx] at hblock
      cases hblock
    | cons coinbase txs =>
      rw [hvtx] at hblock
      cases txs with
      | nil => cases hblock
      | cons second others =>
        obtain rfl : second = tx := Option.some.inj hblock
        exact ⟨coinbase, others, rfl⟩
  have hproof : ({ block with vchBlockSig := vchBlockSig } : CBlock).isProofOfStake = true := by
    unfold CBlock.isProofOfStake
    rw [hvtx]
    exact hstake
  unfold CBlock.checkBlockSignature
  rw [hproof]
  dsimp only
  rw [hvtx]
  dsimp only
  rw [hvout]
  have hempty : vchBlockSig.isEmpty = false := by
    cases vchBlockSig with
    | nil => exact absurd rfl hsig
    | cons b rest => rfl
  show (!vchBlockSig.isEmpty &&
    env.verifyBlockSig txout.scriptPubKey (block.getHash env) vchBlockSig) = true
  rw [hempty, hverify]
  rfl

end accepted

/-- A coin stake that the wallet of a node builds is accepted by the chain it was built on; its
outputs are in the range of money if the coins and the reward together are. -/
theorem createCoinStake_accepted {Key : Type} (env : Env) (base : EvalEnv) (sig : SigEnv Key)
    (wallet : StakeWallet) (nBits nTime : Nat) (nSearchInterval nFees : Int) (w w' : World)
    (tx : CTransaction) (key : Valtype) (hverifies : env.Verifies base sig)
    (hwallet : wallet.Sound env sig w.node)
    (hrun : createCoinStake env wallet nBits nSearchInterval nFees nTime w =
      .ok (some (tx, key)) w') : Accepted env wallet nBits nFees w tx key := by
  obtain ⟨kernel, w₁, nCoinAge, w₂, nReward, hkernel, rfl, hle, hage, hreward, hpositive,
    hsigned⟩ := createCoinStake_ok hrun
  have hnode := ((reads_stakeKernel env wallet nBits nTime nSearchInterval).ok hkernel).node
  obtain ⟨hmem, hspec⟩ := stakeKernel_spec hkernel
  obtain ⟨hcoins, hnodup, hvalue, hlimit⟩ := stakeCoins_spec hwallet hmem hle
  have hnonneg := stakedValue_nonneg hwallet hcoins
  rw [hvalue] at hsigned hlimit
  generalize hmore : (moreInputs env wallet nTime kernel).1 = more at *
  have hcoin := hcoins kernel.coin List.mem_cons_self
  have hout := hwallet.output kernel.coin hcoin
  have hsize := hwallet.size kernel.coin hcoin
  have hpaid : 0 ≤ stakedValue (kernel.coin :: more) + nReward := by omega
  obtain ⟨hsum, hamounts⟩ := stakeAmounts_spec (kernel.splits env) hpaid
  have hsome : ∀ n, stakeAmounts (kernel.splits env) n ≠ [] := by
    intro n
    cases kernel.splits env <;> exact List.cons_ne_nil _ _
  generalize hall : stakeAmounts (kernel.splits env) (stakedValue (kernel.coin :: more) + nReward) =
    amounts at *
  rw [signInputs_eq] at hsigned
  obtain ⟨hunsigned, -, hverified⟩ := signLoop_spec hverifies.verifyScript hwallet.tests
    (spendsFrom_of_vin rfl fun c hc => hwallet.output c (hcoins c hc)) hsigned
  replace hunsigned := hunsigned.trans (unsigned_of_vin rfl)
  have hstake := isCoinStake_unsignedStake hsize hout (hall ▸ hsome _) hunsigned
  have hvin : tx.vin.map CTxIn.prevout = (kernel.coin :: more).map (Coin.outpoint env) := by
    rw [← CTransaction.prevouts_unsigned, hunsigned]
    exact prevouts_of_vin rfl
  have hvout : tx.vout = .empty :: amounts.map fun n => ⟨n, kernel.scriptPubKeyOut⟩ :=
    congrArg CTransaction.vout hunsigned
  have htime : tx.nTime = kernel.nTime := congrArg CTransaction.nTime hunsigned
  have hvalues : tx.vout.map CTxOut.nValue = 0 :: amounts := by
    rw [hvout, List.map_cons, List.map_map]
    exact congrArg (0 :: ·) (List.map_id _)
  have hbounds : ∀ txout ∈ tx.vout,
      0 ≤ txout.nValue ∧ txout.nValue ≤ stakedValue (kernel.coin :: more) + nReward := by
    intro txout htxout
    have hmem := List.mem_map_of_mem (f := CTxOut.nValue) htxout
    rw [hvalues] at hmem
    rcases List.mem_cons.mp hmem with hzero | hmem
    · rw [hzero]
      exact ⟨le_rfl, hpaid⟩
    · exact hamounts _ hmem
  refine ⟨hvin ▸ hnodup, ⟨kernel.coin :: more, hcoins, hvin, hlimit, nCoinAge, w₁, w₂, nReward,
    hnode, ?_, hreward, ?_, fun hmax txout htxout => ?_⟩,
    fun txout htxout => (hbounds txout htxout).1,
    ?_, fun w₂ hw₂ hdisk => ?_, fun block vchBlockSig hblock hsig => ?_⟩
  · rw [← hnode, ← hage]
    refine congrFun (getCoinAge_congr (CTransaction.isCoinBase_of_isCoinStake hstake)
      (CTransaction.isCoinBase_of_isCoinStake (isCoinStake_unsignedStake hsize hout (hsome 0)
        (unsigned_of_vin rfl))) htime ?_) w₁
    exact hvin.trans (prevouts_of_vin rfl).symm
  · rw [hvalues, List.sum_cons, hsum]
    omega
  · obtain ⟨hlow, hhigh⟩ := hbounds txout htxout
    exact moneyRange_iff.mpr ⟨hlow, hhigh.trans hmax⟩
  · rw [hvout]
    rfl
  · obtain ⟨txindex, hash, stored, hindex, hvalid, hstored, hblock, hhash⟩ := hspec.found
    obtain ⟨txin, htxin, hscript⟩ := hverified 0 kernel.coin rfl
    obtain ⟨rest, hrest⟩ : ∃ rest, tx.vin = txin :: rest := by
      cases hcase : tx.vin with
      | nil =>
        rw [hcase] at htxin
        cases htxin
      | cons first rest =>
        rw [hcase] at htxin
        exact ⟨rest, by rw [Option.some.inj htxin]⟩
    have hprevout : txin.prevout = kernel.coin.outpoint env := by
      rw [hrest] at hvin
      exact (List.cons.inj hvin).1
    refine ⟨hash, ?_⟩
    have htx := hwallet.stored kernel.coin hcoin txindex hindex
    rw [← hw₂] at hindex hstored hhash htx
    refine checkProofOfStake_run hdisk hstake hrest (hprevout ▸ hindex) hvalid htx
      (by rw [hprevout]; exact hout) ?_ hstored ?_
    · rw [verifySignature_eq (by rw [hprevout]; exact hout) (congrArg COutPoint.hash hprevout)]
      exact hscript
    · rw [hprevout, htime, ← hblock]
      exact hhash
  · obtain ⟨⟨address, hkey⟩, rest, hsolved⟩ := kernelScript_solved hwallet hspec.script
    obtain ⟨hne, k, hset, hverify⟩ := hwallet.signs address _ _ _ hkey hsig
    cases amounts with
    | nil => exact absurd hall (hsome _)
    | cons n amounts =>
      refine checkBlockSignature_run hstake hvout hblock hne ?_
      rw [hverifies.verifyBlockSig]
      unfold blockSigVerifier
      rw [hsolved]
      dsimp only
      rw [hset]
      exact hverify

/-! ## A wallet with one old coin -/

/-- A key is its bytes, and every signature of this sample is good. -/
def stakeSig : SigEnv Valtype where
  hash _ := 0
  setPubKey vchPubKey := some vchPubKey
  verify _ _ _ := true

def stakeEnv : Env :=
  { mainNet with
    verifyScript := scriptVerifier sampleEnv stakeSig, verifyBlockSig := blockSigVerifier stakeSig }

/-- A coin for a public key. -/
def coinTx (nValue : Int) : CTransaction := { stakedTx with vout :=
  [⟨nValue, [0x21] ++ List.replicate 33 2 ++ [0xac]⟩] }

/-- The coin is in the first of two blocks. -/
def coinWorld (nValue : Int) : World :=
  { stakingWorld [] with node := { (stakingWorld []).node with
      txdb := ⟨(∅ : Map DbKey DbVal).insert (.tx ((coinTx nValue).getHash stakeEnv))
        (.txindex ⟨⟨1, 8, 100⟩, [.null]⟩), none⟩
      files := { (stakingWorld []).node.files with
        txAt := (∅ : Map FilePos CTransaction).insert ⟨1, 100⟩ (coinTx nValue) } } }

/-- The push of a signature in the form that the interpreter asks for. -/
def coinScriptSig : CScript := [9, 0x30, 6, 2, 1, 1, 2, 1, 1, 1]

/-- `SignSignature`, with the one script that this wallet knows. -/
def testedScriptSig (txFrom txTo : CTransaction) (nIn : Nat) : Option CScript := do
  let txin ← txTo.vin[nIn]?
  let txout ← txFrom.vout[txin.prevout.n]?
  if stakeEnv.verifyScript coinScriptSig txout.scriptPubKey
      (txTo.setScriptSig nIn coinScriptSig) nIn then some coinScriptSig
  else none

def coinWallet (nValue : Int) : StakeWallet where
  nBalance := nValue
  nReserveBalance := 0
  availableCoins := [(coinTx nValue, 0)]
  setOrder coins := coins
  hash160 vch := vch
  getKey vch := if isPubKeySize vch then some vch else none
  signSignature := testedScriptSig
  sign _ _ := some [0]

theorem tests_testedScriptSig : Tests stakeEnv testedScriptSig := by
  intro txFrom txTo nIn scriptSig txin txout hsign htxin htxout
  unfold testedScriptSig at hsign
  rw [htxin, Option.bind_eq_bind, Option.bind_some, htxout, Option.bind_eq_bind,
    Option.bind_some] at hsign
  split at hsign
  · next htested =>
    obtain rfl := Option.some.inj hsign
    exact htested
  · cases hsign

theorem coinWallet_sound {nValue : Int} (hnonneg : 0 ≤ nValue) :
    (coinWallet nValue).Sound stakeEnv stakeSig (coinWorld nValue).node where
  distinct := List.nodup_singleton _
  output := List.forall_mem_singleton.mpr rfl
  size := List.forall_mem_singleton.mpr (Nat.one_lt_two_pow (by decide))
  nonneg := List.forall_mem_singleton.mpr hnonneg
  stored := by
    refine List.forall_mem_singleton.mpr fun txindex hindex => ?_
    have hread : (coinWorld nValue).node.txdb.fresh.readTxIndex ((coinTx nValue).getHash stakeEnv) =
        some ⟨⟨1, 8, 100⟩, [.null]⟩ :=
      (CTxDB.read_eq_view _ _ _).trans (congrArg (Option.bind · DbVal.txindex?)
        ((Map.getElem?_insert _ _ _ _).trans (if_pos rfl)))
    obtain rfl := Option.some.inj (hindex.symm.trans hread)
    exact (Map.getElem?_insert _ _ _ _).trans (if_pos rfl)
  order _ _ := List.Perm.refl _
  keySize address key h := by
    unfold coinWallet at h
    dsimp only at h
    split at h
    · next hsize => exact Option.some.inj h ▸ hsize
    · cases h
  tests := tests_testedScriptSig
  signs _ _ _ vchSig _ h := by
    obtain rfl := Option.some.inj h
    exact ⟨List.cons_ne_nil _ _, _, rfl, rfl⟩

/-- What the wallet builds out of its coin. -/
def coinStakeOf (nValue : Int) : EStateM.Result Exit World (Option (CTransaction × Valtype)) :=
  createCoinStake stakeEnv (coinWallet nValue) 0x1e0fffff 60 0 1600200000 (coinWorld nValue)

/-- A coin stake of an ordinary coin. -/
theorem createCoinStake_accepted_coin : ∃ tx key w',
    coinStakeOf (300000 * coin) = .ok (some (tx, key)) w' ∧
      Accepted stakeEnv (coinWallet (300000 * coin)) 0x1e0fffff 0 (coinWorld (300000 * coin)) tx
        key := by
  have hbuilt : succeeds (fun r _ => r.isSome) (coinStakeOf (300000 * coin)) = true := by
    unfold coinStakeOf coinWorld stakingWorld stakeEnv
    rw [mainNet_eq]
    decide +kernel
  obtain ⟨found, w', hrun, hfound⟩ := succeeds_iff.mp hbuilt
  obtain ⟨⟨tx, key⟩, rfl⟩ := Option.isSome_iff_exists.mp hfound
  exact ⟨tx, key, w', hrun, createCoinStake_accepted stakeEnv sampleEnv stakeSig
    (coinWallet (300000 * coin)) 0x1e0fffff 1600200000 60 0 (coinWorld (300000 * coin)) w' tx key
    ⟨rfl, rfl⟩ (coinWallet_sound (by decide)) hrun⟩

/-- The reward of a coin that has all the money there may be leads out of the range of money. -/
theorem createCoinStake_outOfRange :
    ¬ ∀ (env : Env) (base : EvalEnv) (sig : SigEnv Valtype) (wallet : StakeWallet)
      (nBits nTime : Nat) (nSearchInterval nFees : Int) (w w' : World) (tx : CTransaction)
      (key : Valtype), env.Verifies base sig → wallet.Sound env sig w.node →
      createCoinStake env wallet nBits nSearchInterval nFees nTime w = .ok (some (tx, key)) w' →
      ∀ txout ∈ tx.vout, moneyRange txout.nValue = true := by
  intro hall
  have hbuilt : succeeds (fun r _ => r.any fun found =>
      found.1.vout.any fun txout => !moneyRange txout.nValue) (coinStakeOf maxMoney) = true := by
    unfold coinStakeOf coinWorld stakingWorld stakeEnv
    rw [mainNet_eq]
    decide +kernel
  obtain ⟨found, w', hrun, hfound⟩ := succeeds_iff.mp hbuilt
  obtain ⟨⟨tx, key⟩, rfl, hout⟩ := (Option.any_eq_true _ _).mp hfound
  obtain ⟨txout, htxout, hrange⟩ := List.any_eq_true.mp hout
  rw [hall stakeEnv sampleEnv stakeSig (coinWallet maxMoney) 0x1e0fffff 1600200000 60 0
    (coinWorld maxMoney) w' tx key ⟨rfl, rfl⟩ (coinWallet_sound (by decide)) hrun txout
    htxout] at hrange
  exact absurd hrange (by decide)

end NoLimitCoin
