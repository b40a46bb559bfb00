import NoLimitCoin.StakeAccepted
import NoLimitCoin.Wallet

/-!
# Creating a payment

`CreateTransaction` of `wallet.cpp` chooses coins for the payees and a fee, pays the change back,
signs, and starts again with a higher fee as long as the fee is too low for the size of what it has
built.  Coins that the user has chosen all become inputs.

Results:
1. `availableCoins_spec`, `availableCoins_nodup`: the coins are unspent outputs of the wallet.
2. `selectCoins_spec`: what is selected, with and without a choice of the user.
3. `feeLoop_terminates`: a round that asks for a higher fee has built a larger transaction.
4. `createTransaction_created`: what holds of the transaction that is created.
-/

namespace NoLimitCoin

open Prog Interpreter
open KeyPool (Thrown)

/-! ## Destinations -/

/-- `CTxDestination`. -/
inductive CTxDestination where
  | noDestination
  | keyID (id : Valtype)
  | scriptID (id : Valtype)
deriving Repr, DecidableEq

/-- `SetDestination`. -/
def CTxDestination.script : CTxDestination → CScript
  | noDestination => []
  | keyID id => [0x76, opHash160] ++ pushOf id ++ [0x88, UInt8.ofNat opCheckSig]
  | scriptID id => [opHash160] ++ pushOf id ++ [opEqual]

/-- `ExtractDestination`. -/
def extractDestination (hash160 : Valtype → Valtype) (scriptPubKey : CScript) :
    Option CTxDestination :=
  match solver scriptPubKey with
  | (true, .pubkey, vchPubKey :: _) => some (.keyID (hash160 vchPubKey))
  | (true, .pubkeyhash, vSolution :: _) => some (.keyID vSolution)
  | (true, .scripthash, vSolution :: _) => some (.scriptID vSolution)
  | _ => none

/-- `CCoinControl`. -/
structure CCoinControl where
  destChange : CTxDestination
  fReturnChange : Bool
  setSelected : Finset COutPoint

/-- `coinControl && coinControl->HasSelected()`. -/
def hasSelected (coinControl : Option CCoinControl) : Bool :=
  coinControl.any fun control => decide (control.setSelected.Nonempty)

/-- `!coinControl || !coinControl->HasSelected() || coinControl->IsSelected(hash, n)`. -/
def mayTake (coinControl : Option CCoinControl) (o : COutPoint) : Bool :=
  coinControl.all fun control =>
    !decide (control.setSelected.Nonempty) || decide (o ∈ control.setSelected)

/-! ## The coins of the wallet -/

/-- What a payment asks about the coins of the wallet, and the settings of the node. -/
structure PaymentEnv extends WalletEnv where
  isFinal : CWalletTx → Bool
  /-- `GetDepthInMainChain`, which is negative unless the transaction is in the chain or in the
  memory pool. -/
  depth : CWalletTx → Int
  isFromMe : CTransaction → Bool
  hash160 : Valtype → Valtype
  nMinimumInputValue : Int
  nTransactionFee : Int
  fSplitBlock : Bool

/-- `!IsSpent(i)` for an output that is there. -/
def CWalletTx.unspent (wtx : CWalletTx) (i : Nat) : Bool :=
  match wtx.isSpent i with
  | .ok fSpent => !fSpent
  | .error _ => false

/-- The part of `AvailableCoins` for one transaction of the wallet. -/
def coinsOf (penv : PaymentEnv) (coinControl : Option CCoinControl)
    (entry : Uint256 × CWalletTx) : List COutput :=
  let wtx := entry.2
  if !penv.isFinal wtx || !penv.isTrusted wtx || penv.isImmature wtx ||
      decide (penv.depth wtx < 0) then []
  else
    (wtx.tx.vout.zipIdx.filter fun output =>
      wtx.unspent output.2 && penv.isMine output.1 &&
        decide (penv.nMinimumInputValue ≤ output.1.nValue) &&
        mayTake coinControl ⟨entry.1, output.2⟩).map
      fun output => ⟨(wtx.tx, output.2), penv.depth wtx⟩

/-- `AvailableCoins`, of confirmed transactions. -/
def availableCoins (penv : PaymentEnv) (mapWallet : Map Uint256 CWalletTx)
    (coinControl : Option CCoinControl) : List COutput :=
  mapWallet.toList.flatMap (coinsOf penv coinControl)

/-- The sum that `SelectCoins` makes of the coins the user has chosen. -/
def sumValues : (nValueRet : Int) → List COutput → Except Exit Int
  | nValueRet, [] => pure nValueRet
  | nValueRet, output :: vCoins => do
    let nValueRet ← Int64.checked (nValueRet + output.nValue)
    sumValues nValueRet vCoins

/-- `SelectCoins`: the result, `setCoinsRet` and `nValueRet`. -/
def selectCoins (penv : PaymentEnv) (mapWallet : Map Uint256 CWalletTx)
    (coinControl : Option CCoinControl) (random : Fin 3 → Randomness) (nTargetValue : Int)
    (nSpendTime : Nat) : Except Exit (Bool × Finset Coin × Int) :=
  let vCoins := availableCoins penv mapWallet coinControl
  let request (nConfMine nConfTheirs : Int) : CoinRequest :=
    ⟨penv.isFromMe, nTargetValue, nSpendTime, nConfMine, nConfTheirs⟩
  if hasSelected coinControl then do
    -- all of them are taken, whatever their time is
    let nValueRet ← sumValues 0 vCoins
    pure (decide (nTargetValue ≤ nValueRet), (vCoins.map COutput.coin).toFinset, nValueRet)
  else do
    let found ← (request 1 10).selectCoinsMinConf (random 0) vCoins
    if found.1 then pure found
    else do
      let found ← (request 1 1).selectCoinsMinConf (random 1) vCoins
      if found.1 then pure found
      else (request 0 1).selectCoinsMinConf (random 2) vCoins

/-! ## The fee loop -/

/-- The arguments of `CreateTransaction`; `h` is the holder `reservekey`. -/
structure Payment where
  vecSend : List (CScript × Int)
  wtxNew : CTransaction
  h : Nat
  nSplitBlock : Int
  coinControl : Option CCoinControl

/-- What a round of the loop meets: its random choices, the order of the pointers in `setCoins`,
and what `SignSignature` makes of an input. -/
structure Round where
  select : Fin 3 → Randomness
  /-- `GetRandInt`. -/
  position : Nat → Nat
  position_lt : ∀ n, 0 < n → position n < n
  setOrder : Finset Coin → List Coin
  setOrder_nodup : ∀ setCoins, (setOrder setCoins).Nodup
  mem_setOrder : ∀ setCoins c, c ∈ setOrder setCoins ↔ c ∈ setCoins
  signSignature : CTransaction → CTransaction → Nat → Option CScript

abbrev PaymentM := EStateM (Thrown ⊕ Exit) KeyPool.CWallet

/-- Call a function of the key pool. -/
def onKeyPool {α : Type} (x : KeyPool.WalletM α) : PaymentM α := fun keys =>
  match x keys with
  | .ok a keys => .ok a keys
  | .error e keys => .error (.inl e) keys

def fromExit {α : Type} (x : Except Exit α) : PaymentM α :=
  match x with
  | .ok a => pure a
  | .error e => throw (.inr e)

/-- The outputs for one payee, of which the last one has the remainder. -/
def splitPayee (nSplitBlock : Nat) (s : CScript × Int) : List CTxOut :=
  (List.range nSplitBlock).map fun nCount =>
    if nCount + 1 = nSplitBlock then
      ⟨s.2.tdiv nSplitBlock + s.2.tmod nSplitBlock, s.1⟩
    else ⟨s.2.tdiv nSplitBlock, s.1⟩

/-- The outputs for the payees. -/
def Payment.payees (p : Payment) (fSplitBlock : Bool) : List CTxOut :=
  if !fSplitBlock then p.vecSend.map fun s => ⟨s.2, s.1⟩
  else p.vecSend.flatMap (splitPayee (max 1 p.nSplitBlock).toNat)

/-- Change below a cent goes into the fee as far as the fee is below `MIN_TX_FEE`: the change and
the fee. -/
def moveToFee (nChange nFeeRet : Int) : Int × Int :=
  if nFeeRet < minTxFee ∧ 0 < nChange ∧ nChange < cent then
    let nMoveToFee := min nChange (minTxFee - nFeeRet)
    (nChange - nMoveToFee, nFeeRet + nMoveToFee)
  else (nChange, nFeeRet)

/-- `utxoAddress`: the destination of the last coin that has one. -/
def utxoAddress (penv : PaymentEnv) (coins : List Coin) : CTxDestination :=
  coins.foldl (fun address c =>
    (extractDestination penv.hash160 c.txout.scriptPubKey).getD address) .noDestination

/-- The script for a key out of the key pool. -/
def reservedScript (penv : PaymentEnv) (h : Nat) : PaymentM CScript := do
  let found ← onKeyPool (KeyPool.getReservedKey penv.nKeypool h)
  match found with
  | some vchPubKey => pure (penv.scriptOfKey vchPubKey)
  | none => throw (.inr (.abort "assert(reservekey.GetReservedKey(vchPubKey))"))

/-- `scriptChange`. -/
def scriptChange (penv : PaymentEnv) (p : Payment) (coins : List Coin) : PaymentM CScript :=
  match p.coinControl with
  | none => reservedScript penv p.h
  | some control =>
    if control.fReturnChange then pure (utxoAddress penv coins).script
    else if control.destChange ≠ .noDestination then pure control.destChange.script
    else reservedScript penv p.h

/-- The outputs with the change among them; without any change the key goes back. -/
def addChange (penv : PaymentEnv) (p : Payment) (position : Nat → Nat) (coins : List Coin)
    (vout : List CTxOut) (nChange : Int) : PaymentM (List CTxOut) :=
  if 0 < nChange then do
    let script ← scriptChange penv p coins
    pure (vout.insertIdx (position vout.length) ⟨nChange, script⟩)
  else do
    onKeyPool (KeyPool.returnKey p.h)
    pure vout

/-- `wtxNew` before it is signed. -/
def unsignedPayment (env : Env) (wtxNew : CTransaction) (coins : List Coin)
    (vout : List CTxOut) : CTransaction :=
  { wtxNew with vin := coins.map fun c => ⟨c.outpoint env, [], uint32Max⟩, vout := vout }

/-- How a round ends: with the result of the function and `nFeeRet`, or with a fee to try. -/
abbrev RoundEnd := (Option CTransaction × Int) ⊕ Int

/-- The end of a round: the limit for the size, and whether the fee is enough for it. -/
def checkFee (penv : PaymentEnv) (tx : CTransaction) (nFeeRet : Int) : Except Exit RoundEnd :=
  let nBytes := toUint32 tx.getSerializeSize
  if maxBlockSizeGen / 5 ≤ nBytes then pure (.inl (none, nFeeRet))
  else do
    let nPayFee ← Int64.checked (penv.nTransactionFee * (1 + (nBytes : Int) / 1000))
    let nMinFee := tx.getMinFee 1 .send nBytes
    if nFeeRet < max nPayFee nMinFee then pure (.inr (max nPayFee nMinFee))
    else pure (.inl (some tx, nFeeRet))

/-- A round, from the selection of coins on. -/
def buildRound (env : Env) (penv : PaymentEnv) (p : Payment) (r : Round) (nValue nFeeRet : Int)
    (setCoins : Finset Coin) (nValueIn : Int) : PaymentM RoundEnd := do
  let coins := r.setOrder setCoins
  let nChange ← fromExit (Int64.checked (nValueIn - nValue - nFeeRet))
  let moved := moveToFee nChange nFeeRet
  let vout ← addChange penv p r.position coins (p.payees penv.fSplitBlock) moved.1
  match signLoop r.signSignature 0 coins (unsignedPayment env p.wtxNew coins vout) with
  | none => pure (.inl (none, moved.2))
  | some tx => fromExit (checkFee penv tx moved.2)

/-- A round of the loop. -/
def feeRound (env : Env) (penv : PaymentEnv) (mapWallet : Map Uint256 CWalletTx) (p : Payment)
    (nValue : Int) (r : Round) (nFeeRet : Int) : PaymentM RoundEnd := do
  let nTotalValue ← fromExit (Int64.checked (nValue + nFeeRet))
  let found ← fromExit (selectCoins penv mapWallet p.coinControl r.select nTotalValue
    p.wtxNew.nTime)
  if !found.1 then pure (.inl (none, nFeeRet))
  else buildRound env penv p r nValue nFeeRet found.2.1 found.2.2

/-- The fee that the first round tries. -/
def PaymentEnv.startFee (penv : PaymentEnv) : Int :=
  if penv.fSplitBlock then coin else penv.nTransactionFee

/-- The loop from round `n` on; nothing is returned if `fuel` rounds are not enough. -/
def feeLoop (env : Env) (penv : PaymentEnv) (mapWallet : Map Uint256 CWalletTx) (p : Payment)
    (nValue : Int) (rounds : Nat → Round) :
    (fuel n : Nat) → Int → PaymentM (Option (Option CTransaction × Int))
  | 0, _, _ => pure none
  | fuel + 1, n, nFeeRet => do
    let ended ← feeRound env penv mapWallet p nValue (rounds n) nFeeRet
    match ended with
    | .inl result => pure (some result)
    | .inr nFee => feeLoop env penv mapWallet p nValue rounds fuel (n + 1) nFee

/-- The sum of the amounts, unless it becomes negative. -/
def sumAmounts : (nValue : Int) → List (CScript × Int) → Except Exit (Option Int)
  | nValue, [] => pure (if nValue < 0 then none else some nValue)
  | nValue, s :: vecSend =>
    if nValue < 0 then pure none
    else do
      let nValue ← Int64.checked (nValue + s.2)
      sumAmounts nValue vecSend

/-- `CreateTransaction`: the transaction, if any, and `nFeeRet`. -/
def createTransaction (env : Env) (penv : PaymentEnv) (mapWallet : Map Uint256 CWalletTx)
    (p : Payment) (rounds : Nat → Round) (fuel : Nat) (nFeeRet : Int) :
    PaymentM (Option (Option CTransaction × Int)) := do
  let nSum ← fromExit (sumAmounts 0 p.vecSend)
  match nSum with
  | none => pure (some (none, nFeeRet))
  | some nValue =>
    if p.vecSend.isEmpty then pure (some (none, nFeeRet))
    else feeLoop env penv mapWallet p nValue rounds fuel 0 penv.startFee

/-! ## The coins of the wallet are unspent outputs of its own -/

/-- The output of the wallet that an outpoint names, with its transaction. -/
def walletOutput (mapWallet : Map Uint256 CWalletTx) (o : COutPoint) : Option (CWalletTx × CTxOut) :=
  match mapWallet[o.hash]? with
  | none => none
  | some wtx => wtx.tx.vout[o.n]?.map fun txout => (wtx, txout)

/-- The wallet has its transactions under their hashes, and those that are in the chain or in the
memory pool have been checked. -/
structure WalletChecked (env : Env) (penv : PaymentEnv) (mapWallet : Map Uint256 CWalletTx) :
    Prop where
  hash : ∀ (h : Uint256) (wtx : CWalletTx), mapWallet[h]? = some wtx → wtx.tx.getHash env = h
  checked : ∀ (h : Uint256) (wtx : CWalletTx), mapWallet[h]? = some wtx → 0 ≤ penv.depth wtx →
    wtx.tx.checkTransaction = .ok ()

/-- What a coin of the wallet is. -/
structure IsCoin (env : Env) (penv : PaymentEnv) (mapWallet : Map Uint256 CWalletTx) (c : Coin)
    (wtx : CWalletTx) : Prop where
  stored : mapWallet[c.1.getHash env]? = some wtx
  tx : wtx.tx = c.1
  output : c.1.vout[c.2]? = some c.txout
  unspent : wtx.isSpent c.2 = .ok false
  isMine : penv.isMine c.txout = true
  moneyRange : moneyRange c.txout.nValue = true

theorem checkOutputs_moneyRange {fMayBeEmpty : Bool} {nValueOut : Int} {vout : List CTxOut}
    (h : CTransaction.checkOutputs fMayBeEmpty nValueOut vout = .ok ()) :
    ∀ txout ∈ vout, moneyRange txout.nValue = true := by
  induction vout generalizing nValueOut with
  | nil => exact fun txout hmem => by cases hmem
  | cons txout rest ih =>
    simp only [CTransaction.checkOutputs, except_seq_eq_ok, require_eq_ok,
      decide_eq_true_eq] at h
    obtain ⟨-, hlow, hhigh, -, hrest⟩ := h
    exact List.forall_mem_cons.mpr ⟨moneyRange_iff.mpr ⟨hlow, hhigh⟩, ih hrest⟩

theorem checkTransaction_moneyRange {tx : CTransaction} (h : tx.checkTransaction = .ok ()) :
    ∀ txout ∈ tx.vout, moneyRange txout.nValue = true := by
  simp only [CTransaction.checkTransaction, except_seq_eq_ok] at h
  obtain ⟨-, -, -, houtputs, -⟩ := h
  exact checkOutputs_moneyRange houtputs

section coins

variable {env : Env} {penv : PaymentEnv} {mapWallet : Map Uint256 CWalletTx}
  {coinControl : Option CCoinControl}

theorem isSpent_of_unspent {wtx : CWalletTx} {i : Nat} (h : wtx.unspent i = true) :
    wtx.isSpent i = .ok false := by
  unfold CWalletTx.unspent at h
  split at h
  · next fSpent hspent =>
    cases fSpent with
    | false => exact hspent
    | true => cases h
  · cases h

theorem mem_coinsOf {entry : Uint256 × CWalletTx} {output : COutput}
    (h : output ∈ coinsOf penv coinControl entry) :
    0 ≤ penv.depth entry.2 ∧ ∃ txout i, output.coin = (entry.2.tx, i) ∧
      entry.2.tx.vout[i]? = some txout ∧ entry.2.isSpent i = .ok false ∧
      penv.isMine txout = true := by
  unfold coinsOf at h
  dsimp only at h
  split at h
  · cases h
  · next hkept =>
    simp only [Bool.or_eq_true, not_or, decide_eq_true_eq, not_lt] at hkept
    obtain ⟨⟨txout, i⟩, hfiltered, rfl⟩ := List.mem_map.mp h
    obtain ⟨hmem, hcond⟩ := List.mem_filter.mp hfiltered
    simp only [Bool.and_eq_true] at hcond
    exact ⟨hkept.2, txout, i, rfl, List.mk_mem_zipIdx_iff_getElem?.mp hmem,
      isSpent_of_unspent hcond.1.1.1, hcond.1.1.2⟩

theorem availableCoins_spec (hwallet : WalletChecked env penv mapWallet) {output : COutput}
    (h : output ∈ availableCoins penv mapWallet coinControl) :
    ∃ wtx, IsCoin env penv mapWallet output.coin wtx := by
  obtain ⟨⟨hash, wtx⟩, hentry, hout⟩ := List.mem_flatMap.mp h
  have hstored := Std.ExtTreeMap.mem_toList_iff_getElem?_eq_some.mp hentry
  obtain ⟨hdepth, txout, i, hcoin, hvout, hspent, hmine⟩ := mem_coinsOf hout
  have htxout : Coin.txout (wtx.tx, i) = txout := by
    unfold Coin.txout
    rw [hvout]
    rfl
  rw [hcoin]
  refine ⟨wtx, ?_, rfl, by rw [htxout]; exact hvout, hspent, by rw [htxout]; exact hmine, ?_⟩
  · rw [hwallet.hash hash wtx hstored]
    exact hstored
  · rw [htxout]
    exact checkTransaction_moneyRange (hwallet.checked hash wtx hstored hdepth) txout
      (List.mem_of_getElem? hvout)

theorem coinsOf_nodup (entry : Uint256 × CWalletTx) :
    ((coinsOf penv coinControl entry).map COutput.coin).Nodup := by
  unfold coinsOf
  dsimp only
  split
  · exact List.nodup_nil
  · rw [List.map_map]
    refine (List.filter_sublist.map _).nodup ?_
    have hindices : (entry.2.tx.vout.zipIdx.map fun output => (entry.2.tx, output.2)) =
        (List.range' 0 entry.2.tx.vout.length).map (Prod.mk entry.2.tx) := by
      rw [← List.zipIdx_map_snd, List.map_map]
      rfl
    exact hindices ▸ (List.nodup_range' 1).map (Prod.mk_right_injective _)

theorem availableCoins_nodup (hwallet : WalletChecked env penv mapWallet) :
    ((availableCoins penv mapWallet coinControl).map COutput.coin).Nodup := by
  unfold availableCoins
  rw [List.map_flatMap, List.nodup_flatMap]
  refine ⟨fun entry _ => coinsOf_nodup entry, ?_⟩
  refine mapWallet.distinct_keys_toList.imp_of_mem fun {a b} ha hb hne c hca hcb => hne ?_
  obtain ⟨outputA, houtA, rfl⟩ := List.mem_map.mp hca
  obtain ⟨outputB, houtB, hsame⟩ := List.mem_map.mp hcb
  obtain ⟨-, -, i, hcoinA, -⟩ := mem_coinsOf houtA
  obtain ⟨-, -, j, hcoinB, -⟩ := mem_coinsOf houtB
  rw [hcoinA, hcoinB] at hsame
  rw [← hwallet.hash a.1 a.2 (Std.ExtTreeMap.mem_toList_iff_getElem?_eq_some.mp ha),
    ← hwallet.hash b.1 b.2 (Std.ExtTreeMap.mem_toList_iff_getElem?_eq_some.mp hb),
    (Prod.mk.inj hsame).1]
  exact Std.ReflCmp.compare_self

theorem IsCoin.walletOutput {c : Coin} {wtx : CWalletTx} (h : IsCoin env penv mapWallet c wtx) :
    walletOutput mapWallet (c.outpoint env) = some (wtx, c.txout) := by
  unfold NoLimitCoin.walletOutput Coin.outpoint
  dsimp only
  rw [h.stored]
  dsimp only
  rw [h.tx, h.output]
  rfl

/-- The outpoint tells the coin. -/
theorem IsCoin.ext {c d : Coin} {wtx wtx' : CWalletTx} (hc : IsCoin env penv mapWallet c wtx)
    (hd : IsCoin env penv mapWallet d wtx') (h : c.outpoint env = d.outpoint env) : c = d := by
  obtain ⟨hhash, hn⟩ := COutPoint.mk.inj h
  have hstored := hc.stored
  rw [hhash] at hstored
  obtain rfl := Option.some.inj (hstored.symm.trans hd.stored)
  exact Prod.ext (hc.tx.symm.trans hd.tx) hn

theorem selectable_availableCoins (hwallet : WalletChecked env penv mapWallet) :
    CoinRequest.Selectable (availableCoins penv mapWallet coinControl) where
  distinct := availableCoins_nodup hwallet
  moneyRange output houtput := by
    obtain ⟨wtx, hcoin⟩ := availableCoins_spec hwallet houtput
    exact hcoin.moneyRange

/-! ## Selection -/

theorem sumValues_ok {nValueRet nSum : Int} {vCoins : List COutput}
    (h : sumValues nValueRet vCoins = .ok nSum) :
    nSum = nValueRet + CoinRequest.total vCoins := by
  induction vCoins generalizing nValueRet with
  | nil =>
    obtain rfl := Except.ok.inj h
    exact (add_zero _).symm
  | cons output vCoins ih =>
    rw [sumValues] at h
    obtain ⟨n, hadded, h⟩ := except_bind_eq_ok.mp h
    obtain ⟨-, rfl⟩ := Int64.checked_eq_ok.mp hadded
    rw [ih h, add_assoc]
    rfl

/-- What `SelectCoins` selects for a target. -/
structure SelectedCoins (penv : PaymentEnv) (mapWallet : Map Uint256 CWalletTx)
    (coinControl : Option CCoinControl) (nTargetValue : Int) (nSpendTime : Nat)
    (setCoins : Finset Coin) (nValueIn : Int) : Prop where
  available : ∀ c ∈ setCoins, ∃ output ∈ availableCoins penv mapWallet coinControl,
    output.coin = c
  value : nValueIn = ∑ c ∈ setCoins, c.txout.nValue
  covers : nTargetValue ≤ nValueIn
  timely : hasSelected coinControl = false → ∀ c ∈ setCoins, c.1.nTime ≤ nSpendTime
  complete : hasSelected coinControl = true →
    ∀ output ∈ availableCoins penv mapWallet coinControl, output.coin ∈ setCoins

/-- One of the three attempts of `SelectCoins`. -/
theorem selection_of_minConf (hwallet : WalletChecked env penv mapWallet) {nTargetValue : Int}
    {nSpendTime : Nat} {nConfMine nConfTheirs : Int} {random : Randomness}
    {setCoins : Finset Coin} {nValueIn : Int} (hselected : hasSelected coinControl = false)
    (h : CoinRequest.selectCoinsMinConf
      ⟨penv.isFromMe, nTargetValue, nSpendTime, nConfMine, nConfTheirs⟩ random
      (availableCoins penv mapWallet coinControl) = .ok (true, setCoins, nValueIn)) :
    SelectedCoins penv mapWallet coinControl nTargetValue nSpendTime setCoins nValueIn := by
  obtain ⟨-, hselects, -⟩ :=
    CoinRequest.selectCoinsMinConf_ok (selectable_availableCoins hwallet) h
  obtain ⟨heligible, hvalue, hcovers, -⟩ := hselects rfl
  refine ⟨fun c hc => ?_, hvalue, hcovers, fun _ c hc => ?_, fun hsome => ?_⟩
  · obtain ⟨output, houtput, -, hcoin⟩ := heligible c hc
    exact ⟨output, houtput, hcoin⟩
  · obtain ⟨output, -, hin, rfl⟩ := heligible c hc
    obtain ⟨-, htime⟩ := Bool.and_eq_true_iff.mp hin
    rw [Bool.not_eq_true', decide_eq_false_iff_not, not_lt] at htime
    exact htime
  · rw [hselected] at hsome
    cases hsome

theorem selectCoins_spec (hwallet : WalletChecked env penv mapWallet) {nTargetValue : Int}
    {nSpendTime : Nat} {random : Fin 3 → Randomness} {setCoins : Finset Coin} {nValueIn : Int}
    (h : selectCoins penv mapWallet coinControl random nTargetValue nSpendTime =
      .ok (true, setCoins, nValueIn)) :
    SelectedCoins penv mapWallet coinControl nTargetValue nSpendTime setCoins nValueIn := by
  unfold selectCoins at h
  dsimp only at h
  split at h
  · next hselected =>
    obtain ⟨nSum, hsum, h⟩ := except_bind_eq_ok.mp h
    obtain ⟨hcovers, hset⟩ := Prod.mk.inj (Except.ok.inj h)
    obtain ⟨rfl, rfl⟩ := Prod.mk.inj hset
    refine ⟨fun c hc => ?_, ?_, of_decide_eq_true hcovers, fun hnone => ?_,
      fun _ output houtput => List.mem_toFinset.mpr (List.mem_map_of_mem houtput)⟩
    · exact List.mem_map.mp (List.mem_toFinset.mp hc)
    · rw [sumValues_ok hsum, zero_add, List.sum_toFinset _ (availableCoins_nodup hwallet),
        List.map_map]
      rfl
    · rw [hselected] at hnone
      cases hnone
  · next hselected =>
    rw [Bool.not_eq_true] at hselected
    obtain ⟨found, hfound, h⟩ := except_bind_eq_ok.mp h
    split at h
    · obtain rfl := Except.ok.inj h
      exact selection_of_minConf hwallet hselected hfound
    · obtain ⟨found₂, hfound₂, h⟩ := except_bind_eq_ok.mp h
      split at h
      · obtain rfl := Except.ok.inj h
        exact selection_of_minConf hwallet hselected hfound₂
      · exact selection_of_minConf hwallet hselected h

end coins

/-! ## Payees, change and fee -/

/-- The payee gets exactly its amount, over `nParts` outputs. -/
structure PaysPayee (nParts : Nat) (s : CScript × Int) (outputs : List CTxOut) : Prop where
  length : outputs.length = nParts
  script : ∀ txout ∈ outputs, txout.scriptPubKey = s.1
  amount : (outputs.map CTxOut.nValue).sum = s.2

/-- Every payee is paid, and there is at most one output that is none of a payee. -/
def PaysPayees (nParts : Nat) (vecSend : List (CScript × Int)) (vout : List CTxOut) : Prop :=
  ∃ payments : List (List CTxOut), List.Forall₂ (PaysPayee nParts) vecSend payments ∧
    (vout = payments.flatten ∨
      ∃ position change, position < payments.flatten.length ∧
        vout = payments.flatten.insertIdx position change)

/-- The number of outputs for a payee. -/
def Payment.nParts (p : Payment) (fSplitBlock : Bool) : Nat :=
  if fSplitBlock then (max 1 p.nSplitBlock).toNat else 1

theorem splitPayee_sum (n : Nat) (s : CScript × Int) :
    ((splitPayee (n + 1) s).map CTxOut.nValue).sum = s.2 := by
  have hparts : (List.range n).map (CTxOut.nValue ∘ fun nCount =>
      if nCount + 1 = n + 1 then
        (⟨s.2.tdiv (n + 1 : Nat) + s.2.tmod (n + 1 : Nat), s.1⟩ : CTxOut)
      else ⟨s.2.tdiv (n + 1 : Nat), s.1⟩) =
      List.replicate n (s.2.tdiv (n + 1 : Nat)) := by
    refine List.eq_replicate_iff.mpr ⟨by rw [List.length_map, List.length_range], fun v hv => ?_⟩
    obtain ⟨i, hi, rfl⟩ := List.mem_map.mp hv
    have hne : i + 1 ≠ n + 1 := Nat.ne_of_lt (Nat.succ_lt_succ (List.mem_range.mp hi))
    rw [Function.comp_apply, if_neg hne]
  unfold splitPayee
  rw [List.map_map, List.range_succ, List.map_append, List.sum_append, hparts,
    List.sum_replicate, List.map_singleton, List.sum_singleton, Function.comp_apply, if_pos rfl]
  calc n • s.2.tdiv (n + 1 : Nat) + (s.2.tdiv (n + 1 : Nat) + s.2.tmod (n + 1 : Nat))
      = (n + 1 : Nat) * s.2.tdiv (n + 1 : Nat) + s.2.tmod (n + 1 : Nat) := by
        rw [nsmul_eq_mul]
        push_cast
        ring
    _ = s.2 := Int.mul_tdiv_add_tmod _ _

theorem splitPayee_spec {nParts : Nat} (hpos : 0 < nParts) (s : CScript × Int) :
    PaysPayee nParts s (splitPayee nParts s) := by
  refine ⟨by rw [splitPayee, List.length_map, List.length_range], fun txout htxout => ?_, ?_⟩
  · obtain ⟨nCount, -, rfl⟩ := List.mem_map.mp htxout
    split <;> rfl
  · obtain ⟨n, rfl⟩ := Nat.exists_eq_succ_of_ne_zero (Nat.ne_of_gt hpos)
    exact splitPayee_sum n s

/-- The outputs for the payees, grouped by payee. -/
theorem payees_grouped (p : Payment) (fSplitBlock : Bool) :
    ∃ payments : List (List CTxOut),
      List.Forall₂ (PaysPayee (p.nParts fSplitBlock)) p.vecSend payments ∧
      p.payees fSplitBlock = payments.flatten := by
  cases fSplitBlock with
  | false =>
    refine ⟨p.vecSend.map fun s => [⟨s.2, s.1⟩], ?_, ?_⟩
    · refine List.forall₂_map_right_iff.mpr (List.forall₂_same.mpr fun s _ => ⟨rfl, ?_, ?_⟩)
      · exact List.forall_mem_singleton.mpr rfl
      · exact List.sum_singleton
    · exact List.map_eq_flatMap.trans List.flatMap_def
  | true =>
    refine ⟨p.vecSend.map (splitPayee (max 1 p.nSplitBlock).toNat), ?_, ?_⟩
    · refine List.forall₂_map_right_iff.mpr (List.forall₂_same.mpr fun s _ => ?_)
      exact splitPayee_spec (show 0 < (max 1 p.nSplitBlock).toNat by omega) s
    · exact List.flatMap_def

theorem payees_sum (p : Payment) (fSplitBlock : Bool) :
    ((p.payees fSplitBlock).map CTxOut.nValue).sum = (p.vecSend.map Prod.snd).sum := by
  obtain ⟨payments, hpayments, hflatten⟩ := payees_grouped p fSplitBlock
  rw [hflatten]
  clear hflatten
  generalize p.vecSend = vecSend at hpayments ⊢
  induction hpayments with
  | nil => rfl
  | cons hpaid _ ih =>
    rw [List.flatten_cons, List.map_append, List.sum_append, List.map_cons, List.sum_cons,
      hpaid.amount, ih]

theorem length_payees_pos {p : Payment} (h : p.vecSend ≠ []) (fSplitBlock : Bool) :
    0 < (p.payees fSplitBlock).length := by
  obtain ⟨payments, hpayments, hflatten⟩ := payees_grouped p fSplitBlock
  have hparts : 0 < p.nParts fSplitBlock := by
    unfold Payment.nParts
    split <;> omega
  rw [hflatten]
  generalize p.vecSend = vecSend at hpayments h
  cases hpayments with
  | nil => exact absurd rfl h
  | cons hpaid _ =>
    rw [List.flatten_cons, List.length_append, hpaid.length]
    omega

/-- What becomes fee is taken from the change. -/
theorem moveToFee_spec {nChange : Int} (nFeeRet : Int) (h : 0 ≤ nChange) :
    (moveToFee nChange nFeeRet).1 + (moveToFee nChange nFeeRet).2 = nChange + nFeeRet ∧
      0 ≤ (moveToFee nChange nFeeRet).1 ∧ nFeeRet ≤ (moveToFee nChange nFeeRet).2 := by
  unfold moveToFee
  split <;> dsimp only <;> omega

theorem fromExit_eq_ok {α : Type} {x : Except Exit α} {a : α} {keys keys' : KeyPool.CWallet} :
    fromExit x keys = .ok a keys' ↔ x = .ok a ∧ keys' = keys := by
  cases x with
  | error e =>
    refine ⟨fun h => ?_, fun h => ?_⟩
    · cases h
    · cases h.1
  | ok b =>
    refine ⟨fun h => ?_, ?_⟩
    · obtain ⟨rfl, rfl⟩ := EStateM.Result.ok.inj h
      exact ⟨rfl, rfl⟩
    · rintro ⟨hb, rfl⟩
      obtain rfl := Except.ok.inj hb
      rfl

/-- The change is one more output, if there is any. -/
theorem addChange_ok {penv : PaymentEnv} {p : Payment} {position : Nat → Nat} {coins : List Coin}
    {vout vout' : List CTxOut} {nChange : Int} {keys keys' : KeyPool.CWallet}
    (h : addChange penv p position coins vout nChange keys = .ok vout' keys') :
    (0 < nChange ∧ ∃ script, vout' = vout.insertIdx (position vout.length) ⟨nChange, script⟩) ∨
      (nChange ≤ 0 ∧ vout' = vout) := by
  unfold addChange at h
  split at h
  · next hpos =>
    obtain ⟨script, keys₁, -, h⟩ := bind_eq_ok.mp h
    obtain ⟨rfl, -⟩ := pure_eq_ok.mp h
    exact .inl ⟨hpos, script, rfl⟩
  · next hle =>
    obtain ⟨-, keys₁, -, h⟩ := bind_eq_ok.mp h
    obtain ⟨rfl, -⟩ := pure_eq_ok.mp h
    exact .inr ⟨not_lt.mp hle, rfl⟩

theorem addChange_sum {penv : PaymentEnv} {p : Payment} {r : Round} {coins : List Coin}
    {vout vout' : List CTxOut} {nChange : Int} {keys keys' : KeyPool.CWallet}
    (hvout : 0 < vout.length) (hnonneg : 0 ≤ nChange)
    (h : addChange penv p r.position coins vout nChange keys = .ok vout' keys') :
    (vout'.map CTxOut.nValue).sum = (vout.map CTxOut.nValue).sum + nChange := by
  rcases addChange_ok h with ⟨-, script, rfl⟩ | ⟨hle, rfl⟩
  · have hperm := List.perm_insertIdx (⟨nChange, script⟩ : CTxOut) vout
      (r.position_lt _ hvout).le
    rw [(hperm.map CTxOut.nValue).sum_eq, List.map_cons, List.sum_cons, add_comm]
  · omega

/-- The change leaves the payees what they get. -/
theorem addChange_pays {penv : PaymentEnv} {p : Payment} {r : Round} {coins : List Coin}
    {vout' : List CTxOut} {nChange : Int} {keys keys' : KeyPool.CWallet}
    (hsend : p.vecSend ≠ [])
    (h : addChange penv p r.position coins (p.payees penv.fSplitBlock) nChange keys =
      .ok vout' keys') : PaysPayees (p.nParts penv.fSplitBlock) p.vecSend vout' := by
  have hpos := r.position_lt _ (length_payees_pos hsend penv.fSplitBlock)
  obtain ⟨payments, hpayments, hflatten⟩ := payees_grouped p penv.fSplitBlock
  rw [hflatten] at h hpos
  refine ⟨payments, hpayments, ?_⟩
  rcases addChange_ok h with ⟨-, script, rfl⟩ | ⟨-, rfl⟩
  · exact .inr ⟨_, _, hpos, rfl⟩
  · exact .inl rfl

/-! ## The end of a round -/

/-- The number of size classes below the limit for the size; a thousand bytes cost the same. -/
def feeClasses : Nat := maxBlockSizeGen / 5 / 1000

theorem getMinFee_send (tx : CTransaction) {nBytes : Nat} (h : nBytes < maxBlockSizeGen / 5) :
    tx.getMinFee 1 .send nBytes = (1 + (nBytes : Int) / 1000) * minTxFee := by
  have hlimit : maxBlockSizeGen / 5 = 2000000 := by decide
  have hmax : (2000 : Int) * minTxFee ≤ maxMoney := by decide
  have hone : (1 : Int) ≤ minTxFee := by decide
  have hfloor : minTxFee ≤ (1 + (nBytes : Int) / 1000) * minTxFee :=
    le_mul_of_one_le_left (by omega) (by omega)
  have hceil : (1 + (nBytes : Int) / 1000) * minTxFee ≤ 2000 * minTxFee :=
    mul_le_mul_of_nonneg_right (by omega) (by omega)
  have hnotLess : ¬ ((1 + (nBytes : Int) / 1000) * minTxFee < minTxFee ∧
      (tx.vout.any fun txout => decide (txout.nValue < cent)) = true) :=
    fun hless => absurd hless.1 (not_lt.mpr hfloor)
  unfold CTransaction.getMinFee
  simp only [ne_eq, not_true_eq_false, false_and, if_false]
  rw [if_neg (show ¬ CTransaction.GetMinFeeMode.send = .relay by decide), if_neg hnotLess,
    if_pos (moneyRange_iff.mpr (by omega))]

/-- The fee for a size class. -/
def PaymentEnv.feeOf (penv : PaymentEnv) (k : Nat) : Int :=
  (1 + (k : Int)) * max penv.nTransactionFee minTxFee

/-- What the end of a round has found out about the fee. -/
theorem checkFee_ok {penv : PaymentEnv} {tx : CTransaction} {nFeeRet : Int} {ended : RoundEnd}
    (h : checkFee penv tx nFeeRet = .ok ended) :
    ended = .inl (none, nFeeRet) ∨
      (∃ k < feeClasses, nFeeRet < penv.feeOf k ∧ ended = .inr (penv.feeOf k)) ∨
      (ended = .inl (some tx, nFeeRet) ∧
        tx.getMinFee 1 .send (toUint32 tx.getSerializeSize) ≤ nFeeRet ∧
        penv.nTransactionFee * (1 + (toUint32 tx.getSerializeSize : Int) / 1000) ≤ nFeeRet) := by
  unfold checkFee at h
  dsimp only at h
  generalize toUint32 tx.getSerializeSize = nBytes at h ⊢
  split at h
  · exact .inl (Except.ok.inj h).symm
  · next hsize =>
    obtain ⟨nPayFee, hchecked, h⟩ := except_bind_eq_ok.mp h
    obtain ⟨-, rfl⟩ := Int64.checked_eq_ok.mp hchecked
    split at h
    · next hless =>
      obtain rfl := Except.ok.inj h
      have hlimit : maxBlockSizeGen / 5 = 2000000 := by decide
      have hclass : nBytes / 1000 < feeClasses := by
        unfold feeClasses
        omega
      refine .inr (.inl ⟨nBytes / 1000, hclass, ?_⟩)
      have hfee : max (penv.nTransactionFee * (1 + (nBytes : Int) / 1000))
          (tx.getMinFee 1 .send nBytes) = penv.feeOf (nBytes / 1000) := by
        rw [getMinFee_send tx (not_le.mp hsize), mul_comm, PaymentEnv.feeOf,
          mul_max_of_nonneg _ _ (by omega)]
        rfl
      rw [← hfee]
      exact ⟨hless, rfl⟩
    · next henough =>
      obtain rfl := Except.ok.inj h
      obtain ⟨hpay, hmin⟩ := max_le_iff.mp (not_lt.mp henough)
      exact .inr (.inr ⟨rfl, hmin, hpay⟩)

/-! ## Rounds -/

section rounds

variable {env : Env} {penv : PaymentEnv} {mapWallet : Map Uint256 CWalletTx} {p : Payment}
  {nValue nFeeRet nFee : Int} {r : Round} {rounds : Nat → Round} {tx : CTransaction}
  {keys keys' : KeyPool.CWallet}

/-- A round that has selected coins. -/
theorem feeRound_ok {ended : RoundEnd}
    (h : feeRound env penv mapWallet p nValue r nFeeRet keys = .ok ended keys') :
    ended = .inl (none, nFeeRet) ∨
      ∃ setCoins nValueIn,
        selectCoins penv mapWallet p.coinControl r.select (nValue + nFeeRet) p.wtxNew.nTime =
          .ok (true, setCoins, nValueIn) ∧
        buildRound env penv p r nValue nFeeRet setCoins nValueIn keys = .ok ended keys' := by
  obtain ⟨nTotalValue, keys₁, htotal, h⟩ := bind_eq_ok.mp h
  obtain ⟨hchecked, rfl⟩ := fromExit_eq_ok.mp htotal
  obtain ⟨-, rfl⟩ := Int64.checked_eq_ok.mp hchecked
  obtain ⟨⟨fOk, setCoins, nValueIn⟩, keys₂, hfound, h⟩ := bind_eq_ok.mp h
  obtain ⟨hselect, rfl⟩ := fromExit_eq_ok.mp hfound
  cases fOk with
  | false => exact .inl (pure_eq_ok.mp h).1
  | true => exact .inr ⟨setCoins, nValueIn, hselect, h⟩

/-- What a round builds out of the coins. -/
theorem buildRound_ok {setCoins : Finset Coin} {nValueIn : Int} {ended : RoundEnd}
    (h : buildRound env penv p r nValue nFeeRet setCoins nValueIn keys = .ok ended keys') :
    (∃ nFee, ended = .inl (none, nFee)) ∨
      ∃ vout keys₁ tx,
        addChange penv p r.position (r.setOrder setCoins) (p.payees penv.fSplitBlock)
          (moveToFee (nValueIn - nValue - nFeeRet) nFeeRet).1 keys = .ok vout keys₁ ∧
        signLoop r.signSignature 0 (r.setOrder setCoins)
          (unsignedPayment env p.wtxNew (r.setOrder setCoins) vout) = some tx ∧
        checkFee penv tx (moveToFee (nValueIn - nValue - nFeeRet) nFeeRet).2 = .ok ended := by
  obtain ⟨nChange, keys₁, hchange, h⟩ := bind_eq_ok.mp h
  obtain ⟨hchecked, rfl⟩ := fromExit_eq_ok.mp hchange
  obtain ⟨-, rfl⟩ := Int64.checked_eq_ok.mp hchecked
  obtain ⟨vout, keys₂, hvout, h⟩ := bind_eq_ok.mp h
  cases hsigned : signLoop r.signSignature 0 (r.setOrder setCoins)
      (unsignedPayment env p.wtxNew (r.setOrder setCoins) vout) with
  | none =>
    rw [hsigned] at h
    exact .inl ⟨_, (pure_eq_ok.mp h).1⟩
  | some tx =>
    rw [hsigned] at h
    exact .inr ⟨vout, keys₂, tx, hvout, hsigned, (fromExit_eq_ok.mp h).1⟩

/-- A round that asks for a higher fee asks for that of a size class. -/
theorem feeRound_again (hwallet : WalletChecked env penv mapWallet)
    (h : feeRound env penv mapWallet p nValue r nFeeRet keys = .ok (.inr nFee) keys') :
    ∃ k < feeClasses, nFee = penv.feeOf k ∧ nFeeRet < nFee := by
  rcases feeRound_ok h with hnone | ⟨setCoins, nValueIn, hselect, hbuild⟩
  · cases hnone
  have hcovers := (selectCoins_spec hwallet hselect).covers
  rcases buildRound_ok hbuild with ⟨nFee, hnone⟩ | ⟨vout, keys₁, tx, -, -, hcheck⟩
  · cases hnone
  have hchange : 0 ≤ nValueIn - nValue - nFeeRet := by omega
  obtain ⟨-, -, hraised⟩ := moveToFee_spec nFeeRet hchange
  rcases checkFee_ok hcheck with hnone | ⟨k, hk, hless, hagain⟩ | ⟨hdone, -⟩
  · cases hnone
  · obtain rfl := Sum.inr.inj hagain
    exact ⟨k, hk, rfl, hraised.trans_lt hless⟩
  · cases hdone

theorem feeOf_lt {k k' : Nat} (h : penv.feeOf k < penv.feeOf k') : k < k' := by
  have hmin : (0 : Int) < minTxFee := by decide
  have hpos : 0 < max penv.nTransactionFee minTxFee := hmin.trans_le (le_max_right _ _)
  have hlt := lt_of_mul_lt_mul_right h hpos.le
  omega

/-- A round that asks for a higher fee has built a transaction of a higher size class, so that the
rounds run out of classes. -/
theorem feeLoop_terminates (hwallet : WalletChecked env penv mapWallet) {fuel n : Nat}
    (hpos : 0 < fuel)
    (hfuel : ∀ k < feeClasses, nFeeRet < penv.feeOf k → feeClasses - k < fuel) :
    feeLoop env penv mapWallet p nValue rounds fuel n nFeeRet keys ≠ .ok none keys' := by
  induction fuel generalizing n nFeeRet keys with
  | zero => exact absurd hpos (lt_irrefl 0)
  | succ fuel ih =>
    intro h
    rw [feeLoop] at h
    obtain ⟨ended, keys₁, hround, h⟩ := bind_eq_ok.mp h
    cases ended with
    | inl result => cases (pure_eq_ok.mp h).1
    | inr nFee =>
      obtain ⟨k, hk, rfl, hless⟩ := feeRound_again hwallet hround
      have hthis := hfuel k hk hless
      refine ih (by omega) (fun k' hk' hless' => ?_) h
      have hlt := feeOf_lt hless'
      omega

/-- The loop is left by one of its rounds. -/
theorem feeLoop_ok {fuel n : Nat} {result : Option CTransaction × Int}
    (h : feeLoop env penv mapWallet p nValue rounds fuel n nFeeRet keys = .ok (some result) keys') :
    ∃ m nFee keys₁, feeRound env penv mapWallet p nValue (rounds m) nFee keys₁ =
      .ok (.inl result) keys' := by
  induction fuel generalizing n nFeeRet keys with
  | zero => cases (pure_eq_ok.mp h).1
  | succ fuel ih =>
    rw [feeLoop] at h
    obtain ⟨ended, keys₁, hround, h⟩ := bind_eq_ok.mp h
    cases ended with
    | inl result' =>
      obtain ⟨heq, rfl⟩ := pure_eq_ok.mp h
      obtain rfl := Option.some.inj heq
      exact ⟨n, nFeeRet, keys, hround⟩
    | inr nFee => exact ih h

theorem sumAmounts_ok {vecSend : List (CScript × Int)} {nStart : Int}
    (h : sumAmounts nStart vecSend = .ok (some nValue)) :
    nValue = nStart + (vecSend.map Prod.snd).sum := by
  induction vecSend generalizing nStart with
  | nil =>
    rw [sumAmounts] at h
    split at h
    · cases Except.ok.inj h
    · obtain rfl := Option.some.inj (Except.ok.inj h)
      exact (add_zero _).symm
  | cons s vecSend ih =>
    rw [sumAmounts] at h
    split at h
    · cases Except.ok.inj h
    · obtain ⟨n, hadded, h⟩ := except_bind_eq_ok.mp h
      obtain ⟨-, rfl⟩ := Int64.checked_eq_ok.mp hadded
      rw [ih h, List.map_cons, List.sum_cons, add_assoc]

end rounds

/-! ## What is created -/

/-- The value of the wallet's output that an outpoint names. -/
def walletValue (mapWallet : Map Uint256 CWalletTx) (o : COutPoint) : Int :=
  ((walletOutput mapWallet o).map fun output => output.2.nValue).getD 0

/-- What holds of a transaction that has been created, but for the times of its inputs. -/
structure Built (env : Env) (penv : PaymentEnv) (mapWallet : Map Uint256 CWalletTx) (p : Payment)
    (tx : CTransaction) (nFeeRet : Int) : Prop where
  nodup : (tx.vin.map CTxIn.prevout).Nodup
  own : ∀ txin ∈ tx.vin, ∃ wtx txout, walletOutput mapWallet txin.prevout = some (wtx, txout) ∧
    wtx.isSpent txin.prevout.n = .ok false ∧ penv.isMine txout = true
  balance : (tx.vin.map fun txin => walletValue mapWallet txin.prevout).sum =
    (tx.vout.map CTxOut.nValue).sum + nFeeRet
  payees : PaysPayees (p.nParts penv.fSplitBlock) p.vecSend tx.vout
  minFee : tx.getMinFee 1 .send (toUint32 tx.getSerializeSize) ≤ nFeeRet
  payFee : penv.nTransactionFee * (1 + (toUint32 tx.getSerializeSize : Int) / 1000) ≤ nFeeRet
  verified : ∀ (i : Nat) (txin : CTxIn) (wtx : CWalletTx) (txout : CTxOut),
    tx.vin[i]? = some txin → walletOutput mapWallet txin.prevout = some (wtx, txout) →
    CTransaction.verifySignature env wtx.tx tx txin i = true

/-- What a payment promises of its transaction: no input is later than the transaction. -/
structure Created (env : Env) (penv : PaymentEnv) (mapWallet : Map Uint256 CWalletTx)
    (p : Payment) (tx : CTransaction) (nFeeRet : Int) : Prop
    extends Built env penv mapWallet p tx nFeeRet where
  timely : ∀ txin ∈ tx.vin, ∀ (wtx : CWalletTx) (txout : CTxOut),
    walletOutput mapWallet txin.prevout = some (wtx, txout) → wtx.tx.nTime ≤ tx.nTime

/-- No coin that the user has chosen is later than the payment. -/
def Timely (penv : PaymentEnv) (mapWallet : Map Uint256 CWalletTx) (p : Payment) : Prop :=
  hasSelected p.coinControl = true →
    ∀ output ∈ availableCoins penv mapWallet p.coinControl,
      output.coin.1.nTime ≤ p.wtxNew.nTime

section created

variable {Key : Type} {env : Env} {base : EvalEnv} {sig : SigEnv Key} {penv : PaymentEnv}
  {mapWallet : Map Uint256 CWalletTx} {p : Payment} {nValue nFeeRet nFee : Int} {r : Round}
  {tx : CTransaction} {keys keys' : KeyPool.CWallet}

/-- The coins that the inputs of a transaction spend. -/
structure Spends (env : Env) (penv : PaymentEnv) (mapWallet : Map Uint256 CWalletTx)
    (coins : List Coin) (tx : CTransaction) : Prop where
  vin : tx.vin.map CTxIn.prevout = coins.map (Coin.outpoint env)
  coin : ∀ c ∈ coins, ∃ wtx, IsCoin env penv mapWallet c wtx

namespace Spends

variable {coins : List Coin}

theorem input (h : Spends env penv mapWallet coins tx) {i : Nat} {txin : CTxIn}
    (htxin : tx.vin[i]? = some txin) : ∃ c wtx, coins[i]? = some c ∧
      txin.prevout = c.outpoint env ∧ IsCoin env penv mapWallet c wtx := by
  have hprevout : (coins.map (Coin.outpoint env))[i]? = some txin.prevout := by
    rw [← h.vin, List.getElem?_map, htxin]
    rfl
  obtain ⟨c, hc, houtpoint⟩ := Option.map_eq_some_iff.mp (List.getElem?_map ▸ hprevout)
  obtain ⟨wtx, hcoin⟩ := h.coin c (List.mem_of_getElem? hc)
  exact ⟨c, wtx, hc, houtpoint.symm, hcoin⟩

theorem input_of_mem (h : Spends env penv mapWallet coins tx) {txin : CTxIn}
    (htxin : txin ∈ tx.vin) : ∃ c ∈ coins, ∃ wtx, txin.prevout = c.outpoint env ∧
      IsCoin env penv mapWallet c wtx := by
  obtain ⟨i, hi⟩ := List.mem_iff_getElem?.mp htxin
  obtain ⟨c, wtx, hc, hprevout, hcoin⟩ := h.input hi
  exact ⟨c, List.mem_of_getElem? hc, wtx, hprevout, hcoin⟩

theorem mem_input (h : Spends env penv mapWallet coins tx) {c : Coin} (hc : c ∈ coins) :
    ∃ txin ∈ tx.vin, txin.prevout = c.outpoint env :=
  List.mem_map.mp (h.vin ▸ List.mem_map_of_mem hc)

theorem nodup (h : Spends env penv mapWallet coins tx) (hnodup : coins.Nodup) :
    (tx.vin.map CTxIn.prevout).Nodup := by
  rw [h.vin]
  refine hnodup.map_on fun c hc d hd heq => ?_
  obtain ⟨wtx, hcoin⟩ := h.coin c hc
  obtain ⟨wtx', hcoin'⟩ := h.coin d hd
  exact hcoin.ext hcoin' heq

theorem value (h : Spends env penv mapWallet coins tx) :
    (tx.vin.map fun txin => walletValue mapWallet txin.prevout).sum =
      (coins.map fun c => c.txout.nValue).sum := by
  have hvalues : tx.vin.map (fun txin => walletValue mapWallet txin.prevout) =
      (coins.map (Coin.outpoint env)).map (walletValue mapWallet) := by
    rw [← h.vin, List.map_map]
    rfl
  rw [hvalues, List.map_map]
  refine congrArg List.sum (List.map_congr_left fun c hc => ?_)
  obtain ⟨wtx, hcoin⟩ := h.coin c hc
  rw [Function.comp_apply, walletValue, hcoin.walletOutput]
  rfl

end Spends

/-- A round that has come to an end with a transaction. -/
theorem feeRound_created (hverifies : env.verifyScript = scriptVerifier base sig)
    (htests : Tests env r.signSignature) (hwallet : WalletChecked env penv mapWallet)
    (hsend : p.vecSend ≠ []) (hvalue : nValue = (p.vecSend.map Prod.snd).sum)
    (h : feeRound env penv mapWallet p nValue r nFeeRet keys = .ok (.inl (some tx, nFee)) keys') :
    Built env penv mapWallet p tx nFee ∧
      (Created env penv mapWallet p tx nFee ↔ Timely penv mapWallet p) := by
  rcases feeRound_ok h with hnone | ⟨setCoins, nValueIn, hselect, hbuild⟩
  · cases hnone
  rcases buildRound_ok hbuild with ⟨n, hnone⟩ | ⟨vout, keys₁, tx', hchange, hsigned, hcheck⟩
  · cases hnone
  rcases checkFee_ok hcheck with hnone | ⟨k, -, -, hagain⟩ | ⟨hdone, hminFee, hpayFee⟩
  · cases hnone
  · cases hagain
  obtain ⟨htx, hfee⟩ := Prod.mk.inj (Sum.inl.inj hdone)
  obtain rfl := Option.some.inj htx
  have hselection := selectCoins_spec hwallet hselect
  have hcovers := hselection.covers
  generalize hcoins : r.setOrder setCoins = coins at hchange hsigned
  have hmem : ∀ c, c ∈ coins ↔ c ∈ setCoins := hcoins ▸ r.mem_setOrder setCoins
  have hnodup : coins.Nodup := hcoins ▸ r.setOrder_nodup setCoins
  have hown : ∀ c ∈ coins, ∃ wtx, IsCoin env penv mapWallet c wtx := by
    intro c hc
    obtain ⟨output, houtput, rfl⟩ := hselection.available c ((hmem c).mp hc)
    exact availableCoins_spec hwallet houtput
  obtain ⟨hunsigned, -, hverified⟩ := signLoop_spec hverifies htests
    (spendsFrom_of_vin rfl fun c hc => (hown c hc).elim fun _ hcoin => hcoin.output) hsigned
  replace hunsigned := hunsigned.trans (unsigned_of_vin rfl)
  have hspends : Spends env penv mapWallet coins tx := by
    refine ⟨?_, hown⟩
    rw [← CTransaction.prevouts_unsigned, hunsigned]
    exact prevouts_of_vin rfl
  have hvout : tx.vout = vout := congrArg CTransaction.vout hunsigned
  have htime : tx.nTime = p.wtxNew.nTime := by
    show tx.unsigned.nTime = _
    rw [hunsigned]
    rfl
  have hvalueIn : (coins.map fun c => c.txout.nValue).sum = nValueIn := by
    have hset : setCoins = coins.toFinset :=
      Finset.ext fun c => (hmem c).symm.trans List.mem_toFinset.symm
    rw [hselection.value, hset, List.sum_toFinset _ hnodup]
  have hleft : 0 ≤ nValueIn - nValue - nFeeRet := by omega
  obtain ⟨hmoved, hnonneg, -⟩ := moveToFee_spec nFeeRet hleft
  rw [← hfee] at hminFee hpayFee hmoved
  have hbuilt : Built env penv mapWallet p tx nFee := by
    refine ⟨hspends.nodup hnodup, fun txin htxin => ?_, ?_, ?_, hminFee, hpayFee,
      fun i txin wtx txout htxin houtput => ?_⟩
    · obtain ⟨c, -, wtx, hprevout, hcoin⟩ := hspends.input_of_mem htxin
      rw [hprevout]
      exact ⟨wtx, c.txout, hcoin.walletOutput, hcoin.unspent, hcoin.isMine⟩
    · rw [hspends.value, hvalueIn, hvout,
        addChange_sum (length_payees_pos hsend _) hnonneg hchange, payees_sum, ← hvalue]
      omega
    · rw [hvout]
      exact addChange_pays hsend hchange
    · obtain ⟨c, wtx', hc, hprevout, hcoin⟩ := hspends.input htxin
      rw [hprevout, hcoin.walletOutput] at houtput
      obtain ⟨rfl, rfl⟩ := Prod.mk.inj (Option.some.inj houtput)
      obtain ⟨txin', htxin', hscript⟩ := hverified i c hc
      rw [Nat.zero_add] at htxin' hscript
      obtain rfl := Option.some.inj (htxin.symm.trans htxin')
      rw [verifySignature_eq (by rw [hcoin.tx, hprevout]; exact hcoin.output)
        (by rw [hcoin.tx, hprevout]; rfl)]
      exact hscript
  refine ⟨hbuilt, fun hcreated hselected output houtput => ?_, fun htimely => ⟨hbuilt, ?_⟩⟩
  · have hcoin := hselection.complete hselected output houtput
    obtain ⟨txin, htxin, hprevout⟩ := hspends.mem_input ((hmem _).mpr hcoin)
    obtain ⟨wtx, hiscoin⟩ := availableCoins_spec hwallet houtput
    have hle := hcreated.timely txin htxin wtx _ (hprevout ▸ hiscoin.walletOutput)
    rwa [hiscoin.tx, htime] at hle
  · intro txin htxin wtx txout houtput
    obtain ⟨c, hc, wtx', hprevout, hcoin⟩ := hspends.input_of_mem htxin
    rw [hprevout, hcoin.walletOutput] at houtput
    obtain ⟨rfl, -⟩ := Prod.mk.inj (Option.some.inj houtput)
    rw [hcoin.tx, htime]
    cases hselected : hasSelected p.coinControl with
    | false => exact hselection.timely hselected c ((hmem c).mp hc)
    | true =>
      obtain ⟨output, hout, rfl⟩ := hselection.available c ((hmem c).mp hc)
      exact htimely hselected output hout

/-- The part of the function that leads to the loop. -/
theorem createTransaction_run {rounds : Nat → Round} {fuel : Nat}
    {found : Option (Option CTransaction × Int)}
    (h : createTransaction env penv mapWallet p rounds fuel nFeeRet keys = .ok found keys') :
    found = some (none, nFeeRet) ∨
      (p.vecSend ≠ [] ∧ feeLoop env penv mapWallet p (p.vecSend.map Prod.snd).sum rounds fuel 0
        penv.startFee keys = .ok found keys') := by
  obtain ⟨nSum, keys₁, hsum, h⟩ := bind_eq_ok.mp h
  obtain ⟨hamounts, rfl⟩ := fromExit_eq_ok.mp hsum
  cases nSum with
  | none => exact .inl (pure_eq_ok.mp h).1
  | some nValue =>
    obtain rfl := (sumAmounts_ok hamounts).trans (zero_add _)
    dsimp only at h
    split at h
    · exact .inl (pure_eq_ok.mp h).1
    · next hempty =>
      exact .inr ⟨fun hnil => hempty (List.isEmpty_iff.mpr hnil), h⟩

/-- The loop needs at most one more round than there are size classes. -/
theorem createTransaction_terminates {rounds : Nat → Round} {fuel : Nat}
    (hwallet : WalletChecked env penv mapWallet) (hfuel : feeClasses < fuel) :
    createTransaction env penv mapWallet p rounds fuel nFeeRet keys ≠ .ok none keys' := by
  intro h
  rcases createTransaction_run h with hnone | ⟨-, hloop⟩
  · cases hnone
  · exact feeLoop_terminates hwallet (by omega) (fun k hk _ => by omega) hloop

end created

/-- A payment ends, and what it creates is as it should be exactly if no coin that the user has
chosen is later than the payment. -/
theorem createTransaction_created {Key : Type} (env : Env) (base : EvalEnv) (sig : SigEnv Key)
    (penv : PaymentEnv) (mapWallet : Map Uint256 CWalletTx) (p : Payment)
    (rounds : Nat → Round) (hverifies : env.verifyScript = scriptVerifier base sig)
    (htests : ∀ n, Tests env (rounds n).signSignature)
    (hwallet : WalletChecked env penv mapWallet) (fuel : Nat) (nFeeRet : Int)
    (keys keys' : KeyPool.CWallet) :
    (feeClasses < fuel →
      createTransaction env penv mapWallet p rounds fuel nFeeRet keys ≠ .ok none keys') ∧
    ∀ (tx : CTransaction) (nFee : Int),
      createTransaction env penv mapWallet p rounds fuel nFeeRet keys =
        .ok (some (some tx, nFee)) keys' →
      Built env penv mapWallet p tx nFee ∧
        (Created env penv mapWallet p tx nFee ↔ Timely penv mapWallet p) := by
  refine ⟨createTransaction_terminates hwallet, fun tx nFee h => ?_⟩
  rcases createTransaction_run h with hnone | ⟨hsend, hloop⟩
  · cases hnone
  · obtain ⟨m, nFee₀, keys₁, hround⟩ := feeLoop_ok hloop
    exact feeRound_created hverifies (htests m) hwallet hsend rfl hround

/-! ## A coin that the user has chosen -/

instance (penv : PaymentEnv) (mapWallet : Map Uint256 CWalletTx) (p : Payment) :
    Decidable (Timely penv mapWallet p) :=
  inferInstanceAs (Decidable (_ → _))

def chosenTx : CTransaction := coinTx (10 * coin)

def chosenCoin : COutPoint := ⟨chosenTx.getHash stakeEnv, 0⟩

/-- A wallet with one coin. -/
def chosenWallet : Map Uint256 CWalletTx :=
  (∅ : Map Uint256 CWalletTx).insert (chosenTx.getHash stakeEnv) (.ofTx chosenTx)

def chosenEnv : PaymentEnv where
  isMine txout := decide (txout.scriptPubKey = [0x21] ++ List.replicate 33 2 ++ [0xac])
  isTrusted _ := true
  isImmature _ := false
  scriptOfKey key := [0x51, UInt8.ofNat key]
  nKeypool := 1
  qtGui := false
  nAdjustedTime := 1600000000
  isFinal _ := true
  depth _ := 20
  isFromMe _ := true
  hash160 vch := vch.take 20
  nMinimumInputValue := 0
  nTransactionFee := minTxFee
  fSplitBlock := false

/-- The user pays with the coin, and the change returns to its address. -/
def chosenPayment (nTime : Nat) : Payment where
  vecSend := [([0x52], coin)]
  wtxNew := ⟨1, nTime, [], [], 0⟩
  h := 0
  nSplitBlock := 0
  coinControl := some ⟨.noDestination, true, {chosenCoin}⟩

noncomputable def chosenRound : Round where
  select _ := CoinRequest.keepOrder
  position _ := 0
  position_lt _ h := h
  setOrder setCoins := if setCoins = {(chosenTx, 0)} then [(chosenTx, 0)] else setCoins.toList
  setOrder_nodup setCoins := by
    split
    · exact List.nodup_singleton _
    · exact setCoins.nodup_toList
  mem_setOrder setCoins c := by
    split
    · next hone => rw [hone, List.mem_singleton, Finset.mem_singleton]
    · exact Finset.mem_toList
  signSignature := testedScriptSig

/-- The payment at a time. -/
noncomputable def payAt (nTime : Nat) :
    EStateM.Result (Thrown ⊕ Exit) KeyPool.CWallet (Option (Option CTransaction × Int)) :=
  createTransaction stakeEnv chosenEnv chosenWallet (chosenPayment nTime) (fun _ => chosenRound)
    (feeClasses + 1) 0 KeyPool.newWallet

theorem chosenWallet_checked : WalletChecked stakeEnv chosenEnv chosenWallet := by
  have hstored : ∀ (h : Uint256) (wtx : CWalletTx), chosenWallet[h]? = some wtx →
      chosenTx.getHash stakeEnv = h ∧ wtx = .ofTx chosenTx := by
    intro h wtx hwtx
    rw [chosenWallet, Map.getElem?_insert] at hwtx
    split at hwtx
    · next heq => exact ⟨heq, (Option.some.inj hwtx).symm⟩
    · rw [Map.getElem?_empty] at hwtx
      cases hwtx
  refine ⟨fun h wtx hwtx => ?_, fun h wtx hwtx _ => ?_⟩
  · obtain ⟨hhash, rfl⟩ := hstored h wtx hwtx
    exact hhash
  · obtain ⟨-, rfl⟩ := hstored h wtx hwtx
    have hchecked : chosenTx.checkTransaction.isOk = true := by decide +kernel
    show chosenTx.checkTransaction = .ok ()
    cases hresult : chosenTx.checkTransaction with
    | ok u => rfl
    | error e =>
      rw [hresult] at hchecked
      cases hchecked

/-- A payment that is later than its coin. -/
theorem createTransaction_created_chosen : ∃ tx nFee keys',
    payAt 1600000060 = .ok (some (some tx, nFee)) keys' ∧
      Created stakeEnv chosenEnv chosenWallet (chosenPayment 1600000060) tx nFee := by
  have hbuilt : succeeds (fun r _ => r.any fun found => found.1.isSome) (payAt 1600000060) =
      true := by
    decide +kernel
  obtain ⟨found, keys', hrun, hfound⟩ := succeeds_iff.mp hbuilt
  obtain ⟨⟨created, nFee⟩, rfl, hsome⟩ := (Option.any_eq_true _ _).mp hfound
  obtain ⟨tx, rfl⟩ := Option.isSome_iff_exists.mp hsome
  obtain ⟨-, hcreated⟩ := createTransaction_created stakeEnv sampleEnv stakeSig chosenEnv
    chosenWallet (chosenPayment 1600000060) (fun _ => chosenRound) rfl
    (fun _ => tests_testedScriptSig) chosenWallet_checked (feeClasses + 1) 0 KeyPool.newWallet keys'
  exact ⟨tx, nFee, keys', hrun, (hcreated tx nFee hrun).2.mpr (by decide +kernel)⟩

/-- A payment that is earlier than the coin that the user has chosen is created all the same. -/
theorem createTransaction_untimely :
    ¬ ∀ (env : Env) (base : EvalEnv) (sig : SigEnv Valtype) (penv : PaymentEnv)
      (mapWallet : Map Uint256 CWalletTx) (p : Payment) (rounds : Nat → Round) (fuel : Nat)
      (nFeeRet : Int) (keys keys' : KeyPool.CWallet) (tx : CTransaction) (nFee : Int),
      env.verifyScript = scriptVerifier base sig → (∀ n, Tests env (rounds n).signSignature) →
      WalletChecked env penv mapWallet → p.vecSend ≠ [] → (∀ s ∈ p.vecSend, 0 < s.2) →
      moneyRange (p.vecSend.map Prod.snd).sum = true →
      createTransaction env penv mapWallet p rounds fuel nFeeRet keys =
        .ok (some (some tx, nFee)) keys' → Created env penv mapWallet p tx nFee := by
  intro hall
  have hbuilt : succeeds (fun r _ => r.any fun found => found.1.any fun tx =>
      tx.vin.any fun txin => (walletOutput chosenWallet txin.prevout).any fun output =>
        decide (tx.nTime < output.1.tx.nTime)) (payAt 1500000000) = true := by
    decide +kernel
  obtain ⟨found, keys', hrun, hfound⟩ := succeeds_iff.mp hbuilt
  obtain ⟨⟨created, nFee⟩, rfl, hlate⟩ := (Option.any_eq_true _ _).mp hfound
  obtain ⟨tx, rfl, hlate⟩ := (Option.any_eq_true _ _).mp hlate
  obtain ⟨txin, htxin, hlate⟩ := List.any_eq_true.mp hlate
  obtain ⟨⟨wtx, txout⟩, houtput, hlate⟩ := (Option.any_eq_true _ _).mp hlate
  have hcreated := hall stakeEnv sampleEnv stakeSig chosenEnv chosenWallet
    (chosenPayment 1500000000) (fun _ => chosenRound) (feeClasses + 1) 0 KeyPool.newWallet keys'
    tx nFee rfl (fun _ => tests_testedScriptSig) chosenWallet_checked (List.cons_ne_nil _ _)
    (by decide) (by decide) hrun
  exact absurd (of_decide_eq_true hlate) (not_lt.mpr (hcreated.timely txin htxin wtx txout houtput))

end NoLimitCoin
