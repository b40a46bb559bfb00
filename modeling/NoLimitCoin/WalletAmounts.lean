import NoLimitCoin.CreateTransaction
import NoLimitCoin.WalletRecords

/-!
# What a transaction moves

`GetAmounts` of `wallet.cpp` tells of a wallet transaction what it pays to the wallet, what the
wallet pays with it and for which fee.  Change is on neither list: a transaction that the wallet
has paid for leaves out the outputs to addresses that are its own but in no address book.

Results:
1. `getDebit_eq`: what a transaction takes from the wallet.
2. `getAmounts_eq`: the lists and the fee.
-/

namespace NoLimitCoin

open Interpreter (Valtype)

/-! ## Addresses -/

namespace CTxDestination

instance : Ord CTxDestination where
  compare a b :=
    match a, b with
    | noDestination, noDestination => .eq
    | noDestination, _ => .lt
    | keyID _, noDestination => .gt
    | keyID a, keyID b => compare a b
    | keyID _, scriptID _ => .lt
    | scriptID a, scriptID b => compare a b
    | scriptID _, _ => .gt

section ord

attribute [local instance] lexOrd

/-- The order of a `boost::variant`: first which type, then the value. -/
private def which : CTxDestination → Nat × Valtype
  | noDestination => (0, [])
  | keyID id => (1, id)
  | scriptID id => (2, id)

private theorem compare_which (a b : CTxDestination) :
    compare a b = compare (which a) (which b) := by
  cases a <;> cases b <;> rfl

instance : Std.TransOrd CTxDestination := transOrd_of_map which compare_which

instance : Std.LawfulEqOrd CTxDestination :=
  lawfulEqOrd_of_injective which (fun a b h => by cases a <;> cases b <;> simp_all [which])
    compare_which

end ord

end CTxDestination

/-- The name of an account: its bytes. -/
abbrev AccountName := List UInt8

/-- The account name that stands for all accounts. -/
def allAccounts : AccountName := "*".toUTF8.toList

/-! ## The wallet and the chain -/

/-- What the keys and scripts of the wallet say. -/
structure AmountEnv where
  hash160 : Valtype → Valtype
  /-- `IsMine` of an output. -/
  isMine : CTxOut → Bool
  /-- `IsMine` of an address. -/
  isMineAddress : CTxDestination → Bool

/-- What the chain and the memory pool say of a transaction of the wallet. -/
structure ChainView where
  /-- `IsFinal()`, for the next block. -/
  isFinal : CTransaction → Bool
  /-- `GetDepthInMainChain`. -/
  depth : CWalletTxRecord → Int
  /-- `mapBlockIndex[hash]->nTime`. -/
  blockTime : Uint256 → Nat

/-- `GetBlocksToMaturity`. -/
def ChainView.blocksToMaturity (chain : ChainView) (wtx : CWalletTxRecord) : Int :=
  if !(wtx.tx.isCoinBase || wtx.tx.isCoinStake) then 0
  else max 0 (nCoinbaseMaturity + 10 - chain.depth wtx)

structure AccountWallet where
  mapWallet : Map Uint256 CWalletTxRecord
  mapAddressBook : Map CTxDestination AccountName

namespace AccountWallet

variable (env : AmountEnv) (wallet : AccountWallet)

/-- `ExtractDestination`, or `CNoDestination`. -/
def destination (txout : CTxOut) : CTxDestination :=
  (extractDestination env.hash160 txout.scriptPubKey).getD .noDestination

/-- `IsChange`. -/
def isChange (txout : CTxOut) : Bool :=
  match extractDestination env.hash160 txout.scriptPubKey with
  | some address => env.isMineAddress address && !wallet.mapAddressBook.contains address
  | none => false

/-- `CWallet::GetDebit` of an input. -/
def debitIn (txin : CTxIn) : Int :=
  match wallet.mapWallet[txin.prevout.hash]? with
  | none => 0
  | some prev =>
    match prev.tx.vout[txin.prevout.n]? with
    | none => 0
    | some txout => if env.isMine txout then txout.nValue else 0

/-- `CWallet::GetDebit` of a transaction; what `CWalletTx::GetDebit` caches is up to date. -/
def getDebit (tx : CTransaction) : Except Exit Int :=
  tx.vin.foldlM (fun nDebit txin =>
    if moneyRange (nDebit + debitIn env wallet txin) then .ok (nDebit + debitIn env wallet txin)
    else .error (.abort "CWallet::GetDebit() : value out of range")) 0

/-- `IsFromMe`. -/
def isFromMe (tx : CTransaction) : Except Exit Bool := do
  let nDebit ← getDebit env wallet tx
  return decide (nDebit > 0)

structure Amounts where
  listReceived : List (CTxDestination × Int)
  listSent : List (CTxDestination × Int)
  nFee : Int
  strSentAccount : AccountName

/-- `GetAmounts` goes past an output: a special stake output, change of a transaction that the
wallet has paid for, or an output of one that it has not paid for that is not its own. -/
def skips (nDebit : Int) (txout : CTxOut) : Bool :=
  if txout.scriptPubKey.isEmpty then true
  else if nDebit > 0 then isChange env wallet txout
  else !env.isMine txout

/-- The entry of an output in a list. -/
def entryOf (txout : CTxOut) : CTxDestination × Int := (destination env txout, txout.nValue)

/-- The fee, which only one who signs for an input knows. -/
def feeOf (nDebit : Int) (tx : CTransaction) : Except Exit Int := do
  if nDebit > 0 then
    let nValueOut ← tx.getValueOut
    return nDebit - nValueOut
  else return 0

/-- `CWalletTx::GetAmounts`. -/
def getAmounts (wtx : CWalletTxRecord) : Except Exit Amounts := do
  let nDebit ← getDebit env wallet wtx.tx
  let nFee ← feeOf nDebit wtx.tx
  let outputs := wtx.tx.vout.filter fun txout => !skips env wallet nDebit txout
  return {
    listReceived := (outputs.filter env.isMine).map (entryOf env)
    listSent := if nDebit > 0 then outputs.map (entryOf env) else []
    nFee := nFee
    strSentAccount := wtx.strFromAccount }

/-! ## What the lists hold -/

variable {env wallet}

theorem getDebit_eq {tx : CTransaction} {nDebit : Int} (h : getDebit env wallet tx = .ok nDebit) :
    nDebit = (tx.vin.map (debitIn env wallet)).sum ∧ 0 ≤ nDebit := by
  unfold getDebit at h
  suffices hgen : ∀ (vin : List CTxIn) (n : Int), 0 ≤ n → vin.foldlM (fun nDebit txin =>
      if moneyRange (nDebit + debitIn env wallet txin) then
        Except.ok (nDebit + debitIn env wallet txin)
      else .error (Exit.abort "CWallet::GetDebit() : value out of range")) n = .ok nDebit →
      nDebit = n + (vin.map (debitIn env wallet)).sum ∧ 0 ≤ nDebit by
    simpa using hgen tx.vin 0 le_rfl h
  intro vin
  induction vin with
  | nil =>
    intro n hn h
    cases h
    exact ⟨by simp, hn⟩
  | cons txin vin ih =>
    intro n hn h
    rw [List.foldlM_cons] at h
    obtain ⟨n', hn', h⟩ := except_bind_eq_ok.mp h
    split at hn'
    · next hrange =>
      cases hn'
      have hle : 0 ≤ n + debitIn env wallet txin := (moneyRange_iff.mp hrange).1
      have hsum := ih _ hle h
      rw [List.map_cons, List.sum_cons, ← add_assoc]
      exact hsum
    · cases hn'

/-- What `GetAmounts` puts on its lists. -/
theorem getAmounts_eq {wtx : CWalletTxRecord} {amounts : Amounts}
    (h : getAmounts env wallet wtx = .ok amounts) :
    ∃ nDebit, getDebit env wallet wtx.tx = .ok nDebit ∧
      feeOf nDebit wtx.tx = .ok amounts.nFee ∧
      amounts.listReceived = ((wtx.tx.vout.filter fun txout =>
        !skips env wallet nDebit txout).filter env.isMine).map (entryOf env) ∧
      amounts.listSent = (if nDebit > 0 then (wtx.tx.vout.filter fun txout =>
        !skips env wallet nDebit txout).map (entryOf env) else []) ∧
      amounts.strSentAccount = wtx.strFromAccount := by
  unfold getAmounts at h
  obtain ⟨nDebit, hdebit, h⟩ := except_bind_eq_ok.mp h
  obtain ⟨nFee, hfee, h⟩ := except_bind_eq_ok.mp h
  cases h
  exact ⟨nDebit, hdebit, hfee, rfl, rfl, rfl⟩

end AccountWallet

end NoLimitCoin
