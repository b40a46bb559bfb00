import NoLimitCoin.AccountEntries

/-!
# Balances of accounts

The balance of an account is told in two ways.  `GetAccountBalance` tallies one account;
`listaccounts` tallies all accounts in one pass.  `move` writes two accounting entries in one
transaction of the database.

Results:
1. `getAccountBalance_eq`, `listaccounts_eq`: both tallies as sums over the transactions of the
   wallet and the accounting entries.
2. `movecmd_moved`: what a move does to the entries.
3. `ledger_consistent_iff`: when both agree and a move only moves.
-/

namespace NoLimitCoin

/-! ## Amounts of an account -/

namespace AccountWallet

structure AccountAmounts where
  nReceived : Int
  nSent : Int
  nFee : Int

/-- The sum of the amounts of a list. -/
def amount (entries : List (CTxDestination × Int)) : Int := (entries.map (·.2)).sum

/-- Something received is credited to an account. -/
def creditedTo (wallet : AccountWallet) (strAccount : AccountName) (dest : CTxDestination) : Bool :=
  match wallet.mapAddressBook[dest]? with
  | some name => name == strAccount
  | none => strAccount.isEmpty

/-- `GetAccountAmounts`. -/
def getAccountAmounts (env : AmountEnv) (wallet : AccountWallet) (wtx : CWalletTxRecord)
    (strAccount : AccountName) : Except Exit AccountAmounts := do
  let amounts ← getAmounts env wallet wtx
  let fSent := strAccount == amounts.strSentAccount
  return {
    nReceived := amount (amounts.listReceived.filter fun r => wallet.creditedTo strAccount r.1)
    nSent := if fSent then amount amounts.listSent else 0
    nFee := if fSent then amounts.nFee else 0 }

/-- The transactions, in the order of their hashes. -/
def txs (wallet : AccountWallet) : List CWalletTxRecord := wallet.mapWallet.toList.map (·.2)

end AccountWallet

/-- The transaction is deep enough, and mature. -/
def ChainView.credits (chain : ChainView) (nMinDepth : Int) (wtx : CWalletTxRecord) : Bool :=
  decide (chain.depth wtx ≥ nMinDepth) && chain.blocksToMaturity wtx == 0

namespace Accounts

open AccountWallet

/-- A wallet with accounting entries whose account names can be written. -/
structure Ledger extends ListWallet where
  sized : acentries.Sized

section commands

variable (env : ListEnv) (wallet : AccountWallet) (nMinDepth : Int)

/-! ## `GetAccountBalance` -/

/-- A transaction in the loop of `GetAccountBalance`. -/
def tallyAccount (strAccount : AccountName) (nBalance : Int) (wtx : CWalletTxRecord) :
    Except Exit Int :=
  if !env.chain.isFinal wtx.tx || env.chain.depth wtx < 0 then .ok nBalance
  else do
    let amounts ← getAccountAmounts env.amounts wallet wtx strAccount
    let nBalance :=
      if amounts.nReceived ≠ 0 && env.chain.credits nMinDepth wtx then nBalance + amounts.nReceived
      else nBalance
    return nBalance - (amounts.nSent + amounts.nFee)

/-- `GetAccountCreditDebit`. -/
def getAccountCreditDebit (dbs : DbStatus) (db : AcentryRecords) (strAccount : AccountName) :
    Except Exit Int := do
  let entries ← thrown (listAccountCreditDebit dbs db strAccount)
  return (entries.map CAccountingEntry.nCreditDebit).sum

/-- `GetAccountBalance`. -/
def getAccountBalance (dbs : DbStatus) (ledger : Ledger) (strAccount : AccountName) :
    Except Exit Int := do
  let nBalance ← ledger.txs.foldlM (tallyAccount env ledger.toAccountWallet nMinDepth strAccount) 0
  let nCreditDebit ← getAccountCreditDebit dbs ledger.acentries strAccount
  return nBalance + nCreditDebit

/-! ## `listaccounts` -/

/-- The accounts of the own addresses, which are listed in any case. -/
def ownAccounts : Tally AccountName Int :=
  wallet.mapAddressBook.toList.foldl (fun mapAccountBalances entry =>
    if env.amounts.isMineAddress entry.1 then mapAccountBalances.insert entry.2 0
    else mapAccountBalances) ∅

/-- A transaction in the loop of `listaccounts`. -/
def tallyAll (mapAccountBalances : Tally AccountName Int) (wtx : CWalletTxRecord) :
    Except Exit (Tally AccountName Int) :=
  if env.chain.depth wtx < 0 then .ok mapAccountBalances
  else do
    let amounts ← getAmounts env.amounts wallet wtx
    let mapAccountBalances := mapAccountBalances.add amounts.strSentAccount (-amounts.nFee)
    let mapAccountBalances :=
      mapAccountBalances.addAll (fun _ => amounts.strSentAccount) (fun s => -s.2) amounts.listSent
    return if env.chain.credits nMinDepth wtx then
      mapAccountBalances.addAll (fun r => wallet.accountOf r.1) (·.2) amounts.listReceived
    else mapAccountBalances

/-- `listaccounts`: the balances of the accounts. -/
def listaccounts (dbs : DbStatus) (ledger : Ledger) : Except Exit (Tally AccountName Int) := do
  let mapAccountBalances ← ledger.txs.foldlM (tallyAll env ledger.toAccountWallet nMinDepth)
    (ownAccounts env ledger.toAccountWallet)
  let acentries ← thrown (listAccountCreditDebit dbs ledger.acentries allAccounts)
  return mapAccountBalances.addAll CAccountingEntry.strAccount CAccountingEntry.nCreditDebit
    acentries

end commands

/-! ## `move` -/

/-- The wallet with the counters of its order and of its accounting entries. -/
structure AccountsNode where
  ledger : Ledger
  nOrderPosNext : Int
  /-- A `uint64_t`. -/
  nAccountingEntryNumber : Nat

/-- The parameters of `move`; the names are strings that can be written. -/
structure MoveRequest where
  strFrom : { name : AccountName // name.length < 256 ^ 8 }
  strTo : { name : AccountName // name.length < 256 ^ 8 }
  nAmount : Int
  strComment : List UInt8

/-- How the accesses to `wallet.dat` go. -/
structure MoveDb where
  txnBegin : Bool
  debit : Bool
  credit : Bool
  txnCommit : Bool

inductive MoveAnswer where
  | moved
  /-- `RPC_WALLET_INVALID_ACCOUNT_NAME`: "Invalid account name". -/
  | invalidAccountName
  /-- `RPC_DATABASE_ERROR`: "database error". -/
  | databaseError
deriving Repr, DecidableEq

theorem sized_write {db : AcentryRecords} (h : db.Sized) {acentry : CAccountingEntry}
    (hname : acentry.strAccount.length < 256 ^ 8) : (db.write acentry).Sized := by
  intro key other hother
  rw [AcentryRecords.write, Map.getElem?_insert] at hother
  split at hother
  · rw [← Option.some.inj hother]
    exact hname
  · exact h key other hother

/-- The number of the `n`-th next accounting entry. -/
def AccountsNode.entryNo (node : AccountsNode) (n : Nat) : Nat :=
  (node.nAccountingEntryNumber + n) % 2 ^ 64

/-- `IncOrderPosNext` and `WriteAccountingEntry`, whose result `move` does not look at. -/
def AccountsNode.writeEntry (node : AccountsNode) (fWritten : Bool)
    (strAccount : { name : AccountName // name.length < 256 ^ 8 }) (nCreditDebit nNow : Int)
    (strOtherAccount : AccountName) (strComment : List UInt8) : AccountsNode :=
  let acentry : CAccountingEntry :=
    { strAccount := strAccount
      nCreditDebit := nCreditDebit
      nTime := nNow
      strOtherAccount := strOtherAccount
      strComment := strComment
      mapValue := ∅
      nOrderPos := node.nOrderPosNext
      nEntryNo := node.entryNo 1
      ssExtra := [] }
  { ledger :=
      if fWritten then
        { node.ledger with
          acentries := node.ledger.acentries.write acentry
          sized := sized_write node.ledger.sized strAccount.property }
      else node.ledger
    nOrderPosNext := node.nOrderPosNext + 1
    nAccountingEntryNumber := node.entryNo 1 }

/-- `move`, at the time `nNow`. -/
def movecmd (db : MoveDb) (nNow : Int) (request : MoveRequest) (node : AccountsNode) :
    AccountsNode × MoveAnswer :=
  if request.strFrom.val = allAccounts ∨ request.strTo.val = allAccounts then
    (node, .invalidAccountName)
  else if !db.txnBegin then (node, .databaseError)
  else
    let written :=
      (node.writeEntry db.debit request.strFrom (-request.nAmount) nNow request.strTo
        request.strComment).writeEntry db.credit request.strTo request.nAmount nNow request.strFrom
        request.strComment
    -- without a commit, what was written is not there
    if !db.txnCommit then ({ written with ledger := node.ledger }, .databaseError)
    else (written, .moved)

/-! ## The share of a transaction -/

section shares

variable {env : ListEnv} {wallet : AccountWallet} {nMinDepth : Int}

theorem creditedTo_eq (strAccount : AccountName) (dest : CTxDestination) :
    wallet.creditedTo strAccount dest = decide (wallet.accountOf dest = strAccount) := by
  unfold creditedTo accountOf
  cases h : wallet.mapAddressBook[dest]? with
  | none => cases strAccount <;> simp
  | some name => simp [beq_eq_decide]

variable (env wallet nMinDepth)

/-- What `GetAmounts` tells, where it tells anything. -/
def amountsOf (wtx : CWalletTxRecord) : Amounts :=
  match getAmounts env.amounts wallet wtx with
  | .ok amounts => amounts
  | .error _ => ⟨[], [], 0, wtx.strFromAccount⟩

/-- What is credited for a transaction to an account. -/
def received (strAccount : AccountName) (wtx : CWalletTxRecord) : Int :=
  if env.chain.credits nMinDepth wtx then
    amount ((amountsOf env wallet wtx).listReceived.filter fun r =>
      decide (wallet.accountOf r.1 = strAccount))
  else 0

/-- What an account pays for a transaction. -/
def paid (strAccount : AccountName) (wtx : CWalletTxRecord) : Int :=
  if (amountsOf env wallet wtx).strSentAccount = strAccount then
    amount (amountsOf env wallet wtx).listSent + (amountsOf env wallet wtx).nFee
  else 0

/-- The share of an account in a transaction. -/
def share (strAccount : AccountName) (wtx : CWalletTxRecord) : Int :=
  received env wallet nMinDepth strAccount wtx - paid env wallet strAccount wtx

/-- The transactions that `listaccounts` counts. -/
def counted : List CWalletTxRecord := wallet.txs.filter fun wtx => decide (0 ≤ env.chain.depth wtx)

variable {env wallet nMinDepth}

theorem amountsOf_eq {wtx : CWalletTxRecord} {amounts : Amounts}
    (h : getAmounts env.amounts wallet wtx = .ok amounts) : amountsOf env wallet wtx = amounts := by
  rw [amountsOf, h]

theorem getAccountAmounts_eq {wtx : CWalletTxRecord} {strAccount : AccountName}
    {amounts : AccountAmounts}
    (h : getAccountAmounts env.amounts wallet wtx strAccount = .ok amounts) :
    amounts.nReceived = amount ((amountsOf env wallet wtx).listReceived.filter fun r =>
        decide (wallet.accountOf r.1 = strAccount)) ∧
      amounts.nSent + amounts.nFee = paid env wallet strAccount wtx := by
  unfold getAccountAmounts at h
  obtain ⟨all, hall, h⟩ := except_bind_eq_ok.mp h
  cases h
  rw [paid, amountsOf_eq hall]
  dsimp only
  refine ⟨by simp only [creditedTo_eq], ?_⟩
  by_cases hsent : all.strSentAccount = strAccount
  · rw [if_pos hsent, if_pos (beq_iff_eq.mpr hsent.symm), if_pos (beq_iff_eq.mpr hsent.symm)]
  · have hne : ¬ (strAccount == all.strSentAccount) = true := fun h => hsent (beq_iff_eq.mp h).symm
    rw [if_neg hsent, if_neg hne, if_neg hne]
    rfl

theorem tallyAccount_eq {strAccount : AccountName} {nBalance n : Int} {wtx : CWalletTxRecord}
    (h : tallyAccount env wallet nMinDepth strAccount nBalance wtx = .ok n) :
    n = nBalance + if env.chain.isFinal wtx.tx && decide (0 ≤ env.chain.depth wtx) then
      share env wallet nMinDepth strAccount wtx else 0 := by
  unfold tallyAccount at h
  split at h
  · next hskip =>
    have hnot : ¬ (env.chain.isFinal wtx.tx && decide (0 ≤ env.chain.depth wtx)) = true := by
      simpa [or_iff_not_imp_left] using hskip
    rw [if_neg hnot, add_zero, Except.ok.inj h]
  · next hskip =>
    have hcounts : (env.chain.isFinal wtx.tx && decide (0 ≤ env.chain.depth wtx)) = true := by
      simpa using hskip
    obtain ⟨amounts, hamounts, h⟩ := except_bind_eq_ok.mp h
    obtain ⟨hreceived, hpaid⟩ := getAccountAmounts_eq hamounts
    have hn := Except.ok.inj h
    rw [if_pos hcounts, share, received, ← hpaid, ← hreceived, ← hn, ← add_sub_assoc]
    congr 1
    cases env.chain.credits nMinDepth wtx with
    | false => simp
    | true => by_cases hzero : amounts.nReceived = 0 <;> simp [hzero]

/-- The shares of the transactions that both tallies count, where there are no others. -/
theorem foldlM_tallyAccount {strAccount : AccountName} (txs : List CWalletTxRecord)
    {nBalance n : Int}
    (h : txs.foldlM (tallyAccount env wallet nMinDepth strAccount) nBalance = .ok n) :
    n = nBalance + ((txs.filter fun wtx =>
      env.chain.isFinal wtx.tx && decide (0 ≤ env.chain.depth wtx)).map
        (share env wallet nMinDepth strAccount)).sum := by
  rw [List.sum_map_filter_eq]
  exact foldlM_measure id h fun _ _ _ hstep => tallyAccount_eq hstep

theorem tallyAll_eq {t t' : Tally AccountName Int} {wtx : CWalletTxRecord}
    (h : tallyAll env wallet nMinDepth t wtx = .ok t') :
    (∀ strAccount, t'.get strAccount = t.get strAccount +
      if decide (0 ≤ env.chain.depth wtx) then share env wallet nMinDepth strAccount wtx else 0) ∧
    t'.total = t.total + if decide (0 ≤ env.chain.depth wtx) then
        (if env.chain.credits nMinDepth wtx then
          amount (amountsOf env wallet wtx).listReceived else 0) -
        amount (amountsOf env wallet wtx).listSent - (amountsOf env wallet wtx).nFee
      else 0 := by
  unfold tallyAll at h
  split at h
  · next hskip =>
    have hnot : ¬ decide (0 ≤ env.chain.depth wtx) = true := by simpa using hskip
    rw [Except.ok.inj h, if_neg hnot, add_zero]
    exact ⟨fun _ => by rw [if_neg hnot, add_zero], rfl⟩
  · next hskip =>
    have hcounts : decide (0 ≤ env.chain.depth wtx) = true := by simpa using hskip
    obtain ⟨amounts, hamounts, h⟩ := except_bind_eq_ok.mp h
    have hall := amountsOf_eq hamounts
    have hsent : (amounts.listSent.map fun s => -s.2).sum = -amount amounts.listSent := by
      rw [amount, List.sum_neg, List.map_map]
      rfl
    have ht := (Except.ok.inj h).symm
    rw [if_pos hcounts]
    simp only [if_pos hcounts, share, received, paid, hall]
    cases hcredits : env.chain.credits nMinDepth wtx with
    | false =>
      rw [hcredits] at ht
      subst ht
      simp only [Bool.false_eq_true, if_false]
      refine ⟨fun strAccount => ?_, ?_⟩
      · rw [Tally.get_addAll_const, Tally.get_add, hsent]
        split <;> ring
      · rw [Tally.total_addAll, Tally.total_add, hsent]
        ring
    | true =>
      rw [hcredits] at ht
      subst ht
      simp only [if_true]
      refine ⟨fun strAccount => ?_, ?_⟩
      · rw [Tally.get_addAll, Tally.get_addAll_const, Tally.get_add, hsent]
        unfold amount
        split <;> ring
      · rw [Tally.total_addAll, Tally.total_addAll, Tally.total_add, hsent]
        unfold amount
        ring

theorem foldlM_tallyAll (txs : List CWalletTxRecord) {t t' : Tally AccountName Int}
    (h : txs.foldlM (tallyAll env wallet nMinDepth) t = .ok t') :
    (∀ strAccount, t'.get strAccount = t.get strAccount +
      ((txs.filter fun wtx => decide (0 ≤ env.chain.depth wtx)).map
        (share env wallet nMinDepth strAccount)).sum) ∧
    t'.total = t.total + ((txs.filter fun wtx => decide (0 ≤ env.chain.depth wtx)).map fun wtx =>
      (if env.chain.credits nMinDepth wtx then amount (amountsOf env wallet wtx).listReceived
        else 0) - amount (amountsOf env wallet wtx).listSent - (amountsOf env wallet wtx).nFee).sum := by
  rw [List.sum_map_filter_eq]
  constructor
  · intro strAccount
    rw [List.sum_map_filter_eq]
    exact foldlM_measure (Tally.get · strAccount) h fun _ _ _ hstep => (tallyAll_eq hstep).1 strAccount
  · exact foldlM_measure Tally.total h fun _ _ _ hstep => (tallyAll_eq hstep).2

theorem ownAccounts_zero : (∀ strAccount, (ownAccounts env wallet).get strAccount = 0) ∧
    (ownAccounts env wallet).total = 0 := by
  unfold ownAccounts
  generalize wallet.mapAddressBook.toList = entries
  suffices hgen : ∀ t : Tally AccountName Int, (∀ strAccount, t.get strAccount = 0) →
      t.total = 0 → (∀ strAccount, Tally.get (entries.foldl (fun mapAccountBalances entry =>
        if env.amounts.isMineAddress entry.1 then mapAccountBalances.insert entry.2 0
        else mapAccountBalances) t) strAccount = 0) ∧
      Tally.total (entries.foldl (fun mapAccountBalances entry =>
        if env.amounts.isMineAddress entry.1 then mapAccountBalances.insert entry.2 0
        else mapAccountBalances) t) = 0 from
    hgen ∅ Tally.get_empty Tally.total_empty
  induction entries with
  | nil => exact fun t hget htotal => ⟨hget, htotal⟩
  | cons entry entries ih =>
    intro t hget htotal
    rw [List.foldl_cons]
    split
    · -- an amount that is zero is set to zero
      have hadd : t.insert entry.2 0 = t.add entry.2 0 := by
        rw [Tally.add, hget, add_zero]
      rw [hadd]
      refine ih _ (fun strAccount => ?_) (by rw [Tally.total_add, htotal, add_zero])
      rw [Tally.get_add, hget]
      simp
    · exact ih t hget htotal

end shares

/-! ## The balances -/

/-- What the entries of an account sum up to. -/
def entriesOf (db : AcentryRecords) (strAccount : AccountName) : Int :=
  ((db.entries.filter fun acentry => decide (acentry.strAccount = strAccount)).map
    CAccountingEntry.nCreditDebit).sum

/-- What all entries sum up to. -/
def allEntries (db : AcentryRecords) : Int := (db.entries.map CAccountingEntry.nCreditDebit).sum

section balances

variable {env : ListEnv} {nMinDepth : Int} {dbs : DbStatus} {ledger : Ledger}

theorem thrown_eq_ok {α : Type} {x : Except KeyPool.Thrown α} {a : α} (h : thrown x = .ok a) :
    x = .ok a := by
  rcases x with (_ | _) | a
  · cases h
  · cases h
  · exact congrArg Except.ok (Except.ok.inj h)

theorem getAccountBalance_eq {strAccount : AccountName} {n : Int}
    (h : getAccountBalance env nMinDepth dbs ledger strAccount = .ok n) :
    n = (((counted env ledger.toAccountWallet).filter fun wtx => env.chain.isFinal wtx.tx).map
        (share env ledger.toAccountWallet nMinDepth strAccount)).sum +
      if strAccount = allAccounts then allEntries ledger.acentries
      else entriesOf ledger.acentries strAccount := by
  unfold getAccountBalance at h
  obtain ⟨nBalance, htxs, h⟩ := except_bind_eq_ok.mp h
  obtain ⟨nCreditDebit, hentries, h⟩ := except_bind_eq_ok.mp h
  rw [← Except.ok.inj h, foldlM_tallyAccount _ htxs, zero_add, counted, List.filter_filter]
  congr 1
  unfold getAccountCreditDebit at hentries
  obtain ⟨listed, hlisted, hentries⟩ := except_bind_eq_ok.mp hentries
  rw [← Except.ok.inj hentries]
  split
  · next hall =>
    rw [hall] at hlisted
    rw [listed_all (thrown_eq_ok hlisted), allEntries]
  · next hone => rw [listed_eq ledger.sized hone (thrown_eq_ok hlisted), entriesOf]

theorem listaccounts_eq {t : Tally AccountName Int}
    (h : listaccounts env nMinDepth dbs ledger = .ok t) :
    (∀ strAccount, t.get strAccount = ((counted env ledger.toAccountWallet).map
        (share env ledger.toAccountWallet nMinDepth strAccount)).sum +
      entriesOf ledger.acentries strAccount) ∧
    t.total = ((counted env ledger.toAccountWallet).map fun wtx =>
        (if env.chain.credits nMinDepth wtx then
          amount (amountsOf env ledger.toAccountWallet wtx).listReceived else 0) -
        amount (amountsOf env ledger.toAccountWallet wtx).listSent -
        (amountsOf env ledger.toAccountWallet wtx).nFee).sum + allEntries ledger.acentries := by
  unfold listaccounts at h
  obtain ⟨t₁, htxs, h⟩ := except_bind_eq_ok.mp h
  obtain ⟨listed, hlisted, h⟩ := except_bind_eq_ok.mp h
  obtain ⟨hget, htotal⟩ := foldlM_tallyAll _ htxs
  obtain ⟨hown, hownTotal⟩ := @ownAccounts_zero env ledger.toAccountWallet
  rw [← Except.ok.inj h, listed_all (thrown_eq_ok hlisted)]
  refine ⟨fun strAccount => ?_, ?_⟩
  · rw [Tally.get_addAll, hget, hown, zero_add]
    rfl
  · rw [Tally.total_addAll, htotal, hownTotal, zero_add]
    rfl

end balances

/-! ## What a move does -/

/-- The amount of the entry under a number. -/
def entryAt (db : AcentryRecords) (strAccount : AccountName) (nEntryNo : Nat) : Int :=
  db.records[acentryKey strAccount nEntryNo]?.elim 0 CAccountingEntry.nCreditDebit

/-- By how much the writing of the `n`-th next entry misses its amount: the write fails, or the
number is taken by another entry of the account. -/
def misses (node : AccountsNode) (fWritten : Bool) (strAccount : AccountName) (n : Nat)
    (nCreditDebit : Int) : Int :=
  if fWritten then -entryAt node.ledger.acentries strAccount (node.entryNo n) else -nCreditDebit

/-- What the entries of some accounts sum up to. -/
def entriesWhere (db : AcentryRecords) (p : AccountName → Bool) : Int :=
  (db.entries.map fun acentry => if p acentry.strAccount then acentry.nCreditDebit else 0).sum

section entries

variable {db : AcentryRecords} {acentry : CAccountingEntry}

theorem entries_write (f : CAccountingEntry → Int) :
    ((db.write acentry).entries.map f).sum =
      (db.entries.map f).sum - db.records[acentry.key]?.elim 0 f + f acentry := by
  unfold AcentryRecords.entries
  rw [List.map_map, List.map_map]
  exact Map.sum_insert db.records acentry.key acentry (f ∘ Prod.snd)

theorem entriesOf_eq (db : AcentryRecords) (strAccount : AccountName) :
    entriesOf db strAccount = entriesWhere db fun name => decide (name = strAccount) := by
  rw [entriesOf, List.sum_map_filter_eq, entriesWhere]

theorem allEntries_eq (db : AcentryRecords) : allEntries db = entriesWhere db fun _ => true := by
  rw [allEntries, entriesWhere]
  rfl

/-- What is replaced is an entry of the same account. -/
theorem entriesWhere_write (hsized : db.Sized) (hname : acentry.strAccount.length < 256 ^ 8)
    (p : AccountName → Bool) : entriesWhere (db.write acentry) p =
      entriesWhere db p + if p acentry.strAccount then
        acentry.nCreditDebit - entryAt db acentry.strAccount acentry.nEntryNo else 0 := by
  rw [entriesWhere, entriesWhere, entries_write]
  have hold : db.records[acentry.key]?.elim 0 (fun other =>
      if p other.strAccount then other.nCreditDebit else 0) =
      if p acentry.strAccount then
        entryAt db acentry.strAccount acentry.nEntryNo else 0 := by
    unfold entryAt CAccountingEntry.key
    cases hother : db.records[acentryKey acentry.strAccount acentry.nEntryNo]? with
    | none => simp
    | some other =>
      have hkey : acentryKey other.strAccount other.nEntryNo =
          serializeBytes acentry.strAccount ++ leBytes 8 acentry.nEntryNo :=
        db.keyed _ other hother
      rw [Option.elim_some, Option.elim_some,
        AcentryRecords.account_of_key hname (hsized _ other hother) hkey]
  rw [hold]
  split <;> ring

end entries

section moves

variable {node : AccountsNode} {fWritten : Bool}
  {strAccount : { name : AccountName // name.length < 256 ^ 8 }} {nCreditDebit nNow : Int}
  {strOtherAccount : AccountName} {strComment : List UInt8}

theorem writeEntry_entriesWhere (p : AccountName → Bool) :
    entriesWhere (node.writeEntry fWritten strAccount nCreditDebit nNow strOtherAccount
        strComment).ledger.acentries p =
      entriesWhere node.ledger.acentries p + if p strAccount.val then
        nCreditDebit + misses node fWritten strAccount 1 nCreditDebit else 0 := by
  unfold AccountsNode.writeEntry misses
  cases fWritten with
  | true =>
    simp only [if_true]
    exact entriesWhere_write node.ledger.sized strAccount.property p
  | false => simp

theorem writeEntry_records {key : List UInt8}
    (hkey : acentryKey strAccount (node.entryNo 1) ≠ key) :
    (node.writeEntry fWritten strAccount nCreditDebit nNow strOtherAccount
      strComment).ledger.acentries.records[key]? = node.ledger.acentries.records[key]? := by
  unfold AccountsNode.writeEntry
  cases fWritten with
  | true => exact Map.getElem?_insert_of_ne _ _ hkey
  | false => rfl

theorem writeEntry_wallet : (node.writeEntry fWritten strAccount nCreditDebit nNow strOtherAccount
    strComment).ledger.toAccountWallet = node.ledger.toAccountWallet := by
  unfold AccountsNode.writeEntry
  cases fWritten <;> rfl

theorem writeEntry_entryNo (n : Nat) : (node.writeEntry fWritten strAccount nCreditDebit nNow
    strOtherAccount strComment).entryNo n = node.entryNo (n + 1) := by
  unfold AccountsNode.writeEntry AccountsNode.entryNo
  dsimp only
  rw [Nat.mod_add_mod, add_assoc, add_comm 1 n]

/-- Two entries of one move have different keys. -/
theorem entryNo_keys (node : AccountsNode)
    (strFrom strTo : { name : AccountName // name.length < 256 ^ 8 }) :
    acentryKey strFrom (node.entryNo 1) ≠ acentryKey strTo (node.entryNo 2) := by
  intro h
  have hnumbers := (prefixFree_serializeBytes _ _ strFrom.property strTo.property _ _ h).2
  have hlt : ∀ n, node.entryNo n < 256 ^ 8 := fun n => Nat.mod_lt _ (by decide)
  have hsame : node.entryNo 1 = node.entryNo 2 :=
    (prefixFree_leBytes 8).injective (hlt 1) (hlt 2) hnumbers
  unfold AccountsNode.entryNo at hsame
  omega

/-- What both entries of a move do. -/
theorem writeEntries_entriesWhere (db : MoveDb) (nNow : Int) (request : MoveRequest)
    (p : AccountName → Bool) : entriesWhere ((node.writeEntry db.debit request.strFrom (-request.nAmount)
        nNow request.strTo request.strComment).writeEntry db.credit request.strTo request.nAmount
        nNow request.strFrom request.strComment).ledger.acentries p =
      entriesWhere node.ledger.acentries p +
        (if p request.strFrom.val then
          -request.nAmount + misses node db.debit request.strFrom 1 (-request.nAmount) else 0) +
        if p request.strTo.val then
          request.nAmount + misses node db.credit request.strTo 2 request.nAmount else 0 := by
  have hsecond : misses (node.writeEntry db.debit request.strFrom (-request.nAmount) nNow
      request.strTo request.strComment) db.credit request.strTo 1 request.nAmount =
        misses node db.credit request.strTo 2 request.nAmount := by
    unfold misses entryAt
    rw [writeEntry_entryNo, writeEntry_records (entryNo_keys node _ _)]
  rw [writeEntry_entriesWhere, writeEntry_entriesWhere, hsecond]

end moves

theorem movecmd_wallet (db : MoveDb) (nNow : Int) (request : MoveRequest) (node : AccountsNode) :
    (movecmd db nNow request node).1.ledger.toAccountWallet = node.ledger.toAccountWallet := by
  unfold movecmd
  split
  · rfl
  split
  · rfl
  dsimp only
  split
  · rfl
  · rw [writeEntry_wallet, writeEntry_wallet]

/-! ## One ledger -/

/-- The shares of an account in transactions that are not final, which only `listaccounts` counts. -/
def notFinal (env : ListEnv) (wallet : AccountWallet) (nMinDepth : Int)
    (strAccount : AccountName) : Int :=
  (((counted env wallet).filter fun wtx => !env.chain.isFinal wtx.tx).map
    (share env wallet nMinDepth strAccount)).sum

/-- The entries of other accounts that are listed: all, for the name that stands for all accounts. -/
def otherEntries (db : AcentryRecords) (strAccount : AccountName) : Int :=
  if strAccount = allAccounts then
    ((db.entries.filter fun acentry => decide (acentry.strAccount ≠ allAccounts)).map
      CAccountingEntry.nCreditDebit).sum
  else 0

/-- The balances agree, add up, and everything received is credited once. -/
structure Consistent (env : ListEnv) (nMinDepth : Int) (ledger : Ledger)
    (balances : Tally AccountName Int) (balance : AccountName → Int) : Prop where
  same : ∀ strAccount, balances.get strAccount = balance strAccount
  total : balances.total =
    ((counted env ledger.toAccountWallet).map fun wtx =>
      if env.chain.credits nMinDepth wtx then
        amount (amountsOf env ledger.toAccountWallet wtx).listReceived else 0).sum -
    ((counted env ledger.toAccountWallet).map fun wtx =>
      amount (amountsOf env ledger.toAccountWallet wtx).listSent).sum -
    ((counted env ledger.toAccountWallet).map fun wtx =>
      (amountsOf env ledger.toAccountWallet wtx).nFee).sum + allEntries ledger.acentries
  credited : ∀ dest, ∃! strAccount, ledger.creditedTo strAccount dest = true

/-- What a move may change of a balance. -/
def movedTo (request : MoveRequest) (strAccount : AccountName) : Int :=
  (if request.strTo.val = strAccount then request.nAmount else 0) -
    if request.strFrom.val = strAccount then request.nAmount else 0

/-- A move changes what it is for, or nothing. -/
structure MoveRight (env : ListEnv) (nMinDepth : Int) (request : MoveRequest)
    (node node' : AccountsNode) (answer : MoveAnswer) : Prop where
  balances : answer = .moved → ∀ dbs dbs' t t',
    listaccounts env nMinDepth dbs node.ledger = .ok t →
    listaccounts env nMinDepth dbs' node'.ledger = .ok t' →
    ∀ strAccount, t'.get strAccount = t.get strAccount + movedTo request strAccount
  balance : answer = .moved → ∀ dbs dbs' strAccount n n',
    getAccountBalance env nMinDepth dbs node.ledger strAccount = .ok n →
    getAccountBalance env nMinDepth dbs' node'.ledger strAccount = .ok n' →
    n' = n + movedTo request strAccount
  failed : answer ≠ .moved → node'.ledger = node.ledger

/-- The command fails as a whole, or neither of its entries misses its amount; in a move from an
account to itself both may miss it by the same. -/
def KeepsAmount (db : MoveDb) (request : MoveRequest) (node : AccountsNode) : Prop :=
  request.strFrom.val = allAccounts ∨ request.strTo.val = allAccounts ∨ db.txnBegin = false ∨
    db.txnCommit = false ∨
    if request.strFrom.val = request.strTo.val then
      misses node db.debit request.strFrom 1 (-request.nAmount) +
        misses node db.credit request.strTo 2 request.nAmount = 0
    else misses node db.debit request.strFrom 1 (-request.nAmount) = 0 ∧
      misses node db.credit request.strTo 2 request.nAmount = 0

section result

variable {env : ListEnv} {nMinDepth : Int} {dbs : DbStatus}

theorem allEntries_split (db : AcentryRecords) :
    allEntries db = entriesOf db allAccounts + otherEntries db allAccounts := by
  unfold allEntries entriesOf otherEntries
  rw [if_pos rfl]
  simpa using (List.sum_map_filter_add_sum_map_filter_not
    (fun acentry : CAccountingEntry => acentry.strAccount = allAccounts)
    CAccountingEntry.nCreditDebit db.entries).symm

/-- The two balances of an account differ by what only one of them counts. -/
theorem balances_differ {ledger : Ledger} {t : Tally AccountName Int} {strAccount : AccountName}
    {n : Int} (ht : listaccounts env nMinDepth dbs ledger = .ok t)
    (hn : getAccountBalance env nMinDepth dbs ledger strAccount = .ok n) :
    t.get strAccount - n = notFinal env ledger.toAccountWallet nMinDepth strAccount -
      otherEntries ledger.acentries strAccount := by
  have hsplit := List.sum_map_filter_add_sum_map_filter_not
    (fun wtx : CWalletTxRecord => env.chain.isFinal wtx.tx = true)
    (share env ledger.toAccountWallet nMinDepth strAccount)
    (counted env ledger.toAccountWallet)
  have hnot : notFinal env ledger.toAccountWallet nMinDepth strAccount =
      (((counted env ledger.toAccountWallet).filter fun wtx =>
        decide (¬ env.chain.isFinal wtx.tx = true)).map
          (share env ledger.toAccountWallet nMinDepth strAccount)).sum := by
    simp [notFinal]
  rw [(listaccounts_eq ht).1, getAccountBalance_eq hn, hnot, ← hsplit]
  simp only [Bool.decide_eq_true]
  split
  · next hall =>
    rw [hall, allEntries_split]
    ring
  · next hone =>
    rw [otherEntries, if_neg hone]
    ring

theorem sum_amounts (txs : List CWalletTxRecord) (received sent fee : CWalletTxRecord → Int) :
    (txs.map fun wtx => received wtx - sent wtx - fee wtx).sum =
      (txs.map received).sum - (txs.map sent).sum - (txs.map fee).sum := by
  induction txs with
  | nil => rfl
  | cons wtx txs ih =>
    simp only [List.map_cons, List.sum_cons, ih]
    ring

/-- The sum over all accounts, and the one account of everything received, are right in any case. -/
theorem consistent_iff {ledger : Ledger} {t : Tally AccountName Int} {balance : AccountName → Int}
    (ht : listaccounts env nMinDepth dbs ledger = .ok t)
    (hbalance : ∀ strAccount,
      getAccountBalance env nMinDepth dbs ledger strAccount = .ok (balance strAccount)) :
    Consistent env nMinDepth ledger t balance ↔
      ∀ strAccount, notFinal env ledger.toAccountWallet nMinDepth strAccount =
        otherEntries ledger.acentries strAccount := by
  constructor
  · intro h strAccount
    have hdiffer := balances_differ ht (hbalance strAccount)
    rw [h.same strAccount, sub_self] at hdiffer
    exact (sub_eq_zero.mp hdiffer.symm)
  · refine fun h => ⟨fun strAccount => ?_, ?_, fun dest => ?_⟩
    · have hdiffer := balances_differ ht (hbalance strAccount)
      rw [h strAccount, sub_self] at hdiffer
      exact sub_eq_zero.mp hdiffer
    · rw [(listaccounts_eq ht).2, sum_amounts]
    · refine ⟨ledger.accountOf dest, ?_, fun other hother => ?_⟩
      · dsimp only
        rw [creditedTo_eq, decide_eq_true rfl]
      · dsimp only at hother
        rw [creditedTo_eq, decide_eq_true_eq] at hother
        exact hother.symm

/-- What is not in the accounting entries does not change. -/
theorem balances_change {ledger ledger' : Ledger} {dbs' : DbStatus} {t t' : Tally AccountName Int}
    (hwallet : ledger'.toAccountWallet = ledger.toAccountWallet)
    (ht : listaccounts env nMinDepth dbs ledger = .ok t)
    (ht' : listaccounts env nMinDepth dbs' ledger' = .ok t') (strAccount : AccountName) :
    t'.get strAccount - t.get strAccount =
      entriesOf ledger'.acentries strAccount - entriesOf ledger.acentries strAccount := by
  rw [(listaccounts_eq ht).1, (listaccounts_eq ht').1, hwallet]
  ring

theorem listaccounts_good {ledger ledger' : Ledger} {t : Tally AccountName Int}
    (hwallet : ledger'.toAccountWallet = ledger.toAccountWallet)
    (ht : listaccounts env nMinDepth dbs ledger = .ok t) :
    ∃ t', listaccounts env nMinDepth goodDbs ledger' = .ok t' := by
  unfold listaccounts at ht ⊢
  obtain ⟨t₁, htxs, -⟩ := except_bind_eq_ok.mp ht
  obtain ⟨listed, hlisted⟩ := listed_good ledger'.acentries allAccounts
  rw [hwallet, htxs, hlisted]
  exact ⟨_, rfl⟩

theorem balance_change {ledger ledger' : Ledger} {dbs' : DbStatus} {strAccount : AccountName}
    {n n' : Int} (hwallet : ledger'.toAccountWallet = ledger.toAccountWallet)
    (hn : getAccountBalance env nMinDepth dbs ledger strAccount = .ok n)
    (hn' : getAccountBalance env nMinDepth dbs' ledger' strAccount = .ok n') :
    n' - n = if strAccount = allAccounts then
        allEntries ledger'.acentries - allEntries ledger.acentries
      else entriesOf ledger'.acentries strAccount - entriesOf ledger.acentries strAccount := by
  rw [getAccountBalance_eq hn, getAccountBalance_eq hn', hwallet]
  split <;> ring

/-- A command that fails changes no entry; one that does not writes both entries. -/
theorem movecmd_cases (db : MoveDb) (nNow : Int) (request : MoveRequest) (node : AccountsNode) :
    ((movecmd db nNow request node).2 ≠ .moved ∧
        (movecmd db nNow request node).1.ledger = node.ledger ∧ KeepsAmount db request node) ∨
      ((movecmd db nNow request node).2 = .moved ∧
        request.strFrom.val ≠ allAccounts ∧ request.strTo.val ≠ allAccounts ∧
        (KeepsAmount db request node ↔ if request.strFrom.val = request.strTo.val then
            misses node db.debit request.strFrom 1 (-request.nAmount) +
              misses node db.credit request.strTo 2 request.nAmount = 0
          else misses node db.debit request.strFrom 1 (-request.nAmount) = 0 ∧
            misses node db.credit request.strTo 2 request.nAmount = 0) ∧
        ∀ p, entriesWhere (movecmd db nNow request node).1.ledger.acentries p =
          entriesWhere node.ledger.acentries p +
            (if p request.strFrom.val then
              -request.nAmount + misses node db.debit request.strFrom 1 (-request.nAmount) else 0) +
            if p request.strTo.val then
              request.nAmount + misses node db.credit request.strTo 2 request.nAmount else 0) := by
  unfold movecmd KeepsAmount
  split
  · next hname => exact .inl ⟨nofun, rfl, hname.imp id .inl⟩
  next hname =>
  rw [not_or] at hname
  split
  · next hbegin => exact .inl ⟨nofun, rfl, .inr (.inr (.inl (by simpa using hbegin)))⟩
  next hbegin =>
  dsimp only
  split
  · next hcommit =>
    exact .inl ⟨nofun, rfl, .inr (.inr (.inr (.inl (by simpa using hcommit))))⟩
  next hcommit =>
  have hbegin : db.txnBegin = true := by simpa using hbegin
  have hcommit : db.txnCommit = true := by simpa using hcommit
  refine .inr ⟨rfl, hname.1, hname.2, ?_, writeEntries_entriesWhere db nNow request⟩
  simp only [hname.1, hname.2, hbegin, hcommit, Bool.true_eq_false, false_or]

theorem moveRight_of_keeps {db : MoveDb} {nNow : Int} {request : MoveRequest} {node : AccountsNode}
    (h : KeepsAmount db request node) :
    MoveRight env nMinDepth request node (movecmd db nNow request node).1
      (movecmd db nNow request node).2 := by
  have hwallet := movecmd_wallet db nNow request node
  rcases movecmd_cases db nNow request node with
    ⟨hanswer, hledger, -⟩ | ⟨hanswer, hfrom, hto, hkeeps, hentries⟩
  · exact ⟨fun hmoved => absurd hmoved hanswer, fun hmoved => absurd hmoved hanswer,
      fun _ => hledger⟩
  have hmisses := hkeeps.mp h
  have hmoved : ∀ strAccount, entriesOf (movecmd db nNow request node).1.ledger.acentries
      strAccount = entriesOf node.ledger.acentries strAccount + movedTo request strAccount := by
    intro strAccount
    rw [entriesOf_eq, entriesOf_eq, hentries, movedTo]
    simp only [decide_eq_true_eq]
    split at hmisses
    · next hsame =>
      rw [← hsame] at hmisses ⊢
      split <;> linarith
    · rw [hmisses.1, hmisses.2]
      split <;> split <;> ring
  refine ⟨fun _ dbs dbs' t t' ht ht' strAccount => ?_, fun _ dbs dbs' strAccount n n' hn hn' => ?_,
    fun hother => absurd hanswer hother⟩
  · have hchange := balances_change hwallet ht ht' strAccount
    rw [hmoved] at hchange
    linarith
  · have hchange := balance_change hwallet hn hn'
    split at hchange
    · next hall =>
      -- all entries together are as before, and nothing is moved to or from all accounts
      have hnothing : movedTo request strAccount = 0 := by
        rw [movedTo, hall, if_neg hfrom, if_neg hto, sub_zero]
      rw [allEntries_eq, allEntries_eq, hentries, if_pos rfl, if_pos rfl] at hchange
      split at hmisses
      · linarith
      · linarith [hmisses.1, hmisses.2]
    · rw [hmoved] at hchange
      linarith

theorem keeps_of_moveRight {db : MoveDb} {nNow : Int} {request : MoveRequest} {node : AccountsNode}
    {t : Tally AccountName Int} (ht : listaccounts env nMinDepth dbs node.ledger = .ok t)
    (h : MoveRight env nMinDepth request node (movecmd db nNow request node).1
      (movecmd db nNow request node).2) : KeepsAmount db request node := by
  have hwallet := movecmd_wallet db nNow request node
  rcases movecmd_cases db nNow request node with
    ⟨-, -, hkeeps⟩ | ⟨hanswer, hfrom, hto, hkeeps, hentries⟩
  · exact hkeeps
  obtain ⟨t', ht'⟩ := listaccounts_good hwallet ht
  have hmoved : ∀ strAccount, movedTo request strAccount =
      (if request.strFrom.val = strAccount then
        -request.nAmount + misses node db.debit request.strFrom 1 (-request.nAmount) else 0) +
      if request.strTo.val = strAccount then
        request.nAmount + misses node db.credit request.strTo 2 request.nAmount else 0 := by
    intro strAccount
    have hchange := balances_change hwallet ht ht' strAccount
    rw [h.balances hanswer dbs goodDbs t t' ht ht' strAccount, entriesOf_eq, entriesOf_eq,
      hentries] at hchange
    simp only [decide_eq_true_eq] at hchange
    linarith
  have hat := hmoved request.strFrom
  have hat' := hmoved request.strTo
  refine hkeeps.mpr ?_
  split
  · next hsame =>
    rw [movedTo, ← hsame] at hat
    simp only [if_true] at hat
    rw [← hsame]
    linarith
  · next hne =>
    rw [movedTo, if_pos rfl, if_pos rfl, if_neg (Ne.symm hne), if_neg (Ne.symm hne)] at hat
    rw [movedTo, if_pos rfl, if_pos rfl, if_neg hne, if_neg hne] at hat'
    exact ⟨by linarith, by linarith⟩

end result

section samples

def emptyLedger : Ledger where
  mapWallet := ∅
  mapAddressBook := ∅
  acentries := .empty
  sized := AcentryRecords.sized_empty

/-- Five units from the default account to another one. -/
def moveFive : MoveRequest := ⟨⟨[], by decide⟩, ⟨[97], by decide⟩, 5, []⟩

theorem emptyLedger_listed (strAccount : AccountName) :
    listAccountCreditDebit goodDbs emptyLedger.acentries strAccount = .ok [] := by
  have hrange : ∀ key, emptyLedger.acentries.setRange key = [] := fun _ => rfl
  have hread : ∀ fAllAccounts, readEntries goodDbs fAllAccounts strAccount 0 [] = .ok [] :=
    fun _ => by
      unfold readEntries
      rfl
  unfold listAccountCreditDebit
  dsimp only
  rw [hrange]
  exact hread (strAccount == allAccounts)

theorem emptyLedger_balances : listaccounts listEnv 1 goodDbs emptyLedger = .ok ∅ := by
  rw [listaccounts, emptyLedger_listed]
  rfl

theorem emptyLedger_balance (strAccount : AccountName) :
    getAccountBalance listEnv 1 goodDbs emptyLedger strAccount = .ok 0 := by
  rw [getAccountBalance, getAccountCreditDebit, emptyLedger_listed]
  rfl

/-- A payment to the wallet whose lock time is the height of the best block. -/
def lockedRecord : CWalletTxRecord where
  tx := ⟨1, 0, [⟨⟨9, 0⟩, [], 0⟩], [⟨7, [0x51]⟩], 100⟩
  hashBlock := 0
  vMerkleBranch := []
  nIndex := -1
  vtxPrev := []
  mapValue := ∅
  vOrderForm := []
  fTimeReceivedIsTxTime := 0
  nTimeReceived := 0
  nTimeSmart := 0
  fFromMe := 0
  strFromAccount := []
  vfSpent := []
  nOrderPos := 0

/-- The payment is in the memory pool. -/
def lockedLedger : Ledger :=
  { emptyLedger with mapWallet := (∅ : Map Uint256 CWalletTxRecord).insert 1 lockedRecord }

/-- The best block has the height 100. -/
def lockedEnv : ListEnv :=
  { listEnv with chain := ⟨fun tx => tx.isFinal 100 1000000, fun _ => 0, fun _ => 0⟩ }

end samples

end Accounts

end NoLimitCoin
