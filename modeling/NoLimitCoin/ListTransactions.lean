import NoLimitCoin.WalletAmounts

/-!
# Paging through the transactions

`listtransactions` of `rpcwallet.cpp` walks the transactions and accounting entries from the newest
on, collects the entries that they give, stops when it has `count + from` of them, and cuts out the
page.  Both numbers are `int`s of the caller, and their sum and the number of entries are taken as
`int`s too.

Results:
1. `collect_eq`: the loop collects the front of the complete list.
2. `cutPage_eq`: the cut at the borders of the page.
3. `listtransactions_iff`: which calls answer with the page that was asked for.
4. `pages_tile_iff`: when all pages one after the other are the complete list.
-/

namespace NoLimitCoin

open KeyPool (Thrown)

/-! ## Integers -/

/-- A number as an `int`. -/
def toInt (n : Int) : Int := n.bmod (2 ^ 32)

/-- The sum of two `int`s, which must be one. -/
def addInt (a b : Int) : Except Exit Int :=
  if -2 ^ 31 ≤ a + b ∧ a + b < 2 ^ 31 then .ok (a + b) else .error (.abort "signed overflow")

/-- An `int` that is not negative. -/
def IsCount (n : Int) : Prop := 0 ≤ n ∧ n < 2 ^ 31

/-! ## The entries -/

/-- The values of an entry; an address is written in its text form, an amount as a decimal. -/
inductive EntryValue where
  | text (bytes : List UInt8)
  | category (name : String)
  | address (dest : CTxDestination)
  | hash (h : Uint256)
  | int (n : Int)
  | amount (n : Int)
  | flag (b : Bool)
deriving DecidableEq

/-- The pairs of a JSON object. -/
abbrev Entry := List (List UInt8 × EntryValue)

/-- A name of the source. -/
def field (name : String) : List UInt8 := name.toUTF8.toList

/-- `Pair`. -/
def pair (name : String) (value : EntryValue) : List UInt8 × EntryValue := (field name, value)

/-- What the commands that list transactions look at. -/
structure ListEnv where
  node : Env
  amounts : AmountEnv
  chain : ChainView

/-- `MaybePushAddress`: there is no address in `CNoDestination`. -/
def maybePushAddress : CTxDestination → Entry
  | .noDestination => []
  | dest => [pair "address" (.address dest)]

/-- `GetTxTime`. -/
def CWalletTxRecord.getTxTime (wtx : CWalletTxRecord) : Nat :=
  if wtx.nTimeSmart ≠ 0 then wtx.nTimeSmart else wtx.nTimeReceived

/-- `WalletTxToJSON`. -/
def walletTxToJSON (env : ListEnv) (wtx : CWalletTxRecord) : Entry :=
  let confirms := env.chain.depth wtx
  [pair "confirmations" (.int confirms)] ++
  (if wtx.tx.isCoinBase || wtx.tx.isCoinStake then [pair "generated" (.flag true)] else []) ++
  (if confirms > 0 then
    [pair "blockhash" (.hash wtx.hashBlock), pair "blockindex" (.int wtx.nIndex),
      pair "blocktime" (.int (env.chain.blockTime wtx.hashBlock))]
  else []) ++
  [pair "txid" (.hash (wtx.tx.getHash env.node)), pair "time" (.int wtx.getTxTime),
    pair "timereceived" (.int wtx.nTimeReceived)] ++
  wtx.mapValue.toList.map fun item => (item.1, .text item.2)

/-- The entry of something sent. -/
def sentEntry (env : ListEnv) (wtx : CWalletTxRecord) (fLong : Bool)
    (amounts : AccountWallet.Amounts) (s : CTxDestination × Int) : Entry :=
  [pair "account" (.text amounts.strSentAccount)] ++ maybePushAddress s.1 ++
  [pair "category" (.category "send"), pair "amount" (.amount (-s.2)),
    pair "fee" (.amount (-amounts.nFee))] ++
  if fLong then walletTxToJSON env wtx else []

/-- The category of something received. -/
def receivedCategory (chain : ChainView) (wtx : CWalletTxRecord) : String :=
  if wtx.tx.isCoinBase || wtx.tx.isCoinStake then
    if chain.depth wtx < 1 then "orphan"
    else if chain.blocksToMaturity wtx > 0 then "immature"
    else "generate"
  else "receive"

/-- The account that an address is credited to: the one of the address book, or the default. -/
def AccountWallet.accountOf (wallet : AccountWallet) (dest : CTxDestination) : AccountName :=
  wallet.mapAddressBook[dest]?.getD []

/-- The entry of something received. -/
def receivedEntry (env : ListEnv) (wallet : AccountWallet) (wtx : CWalletTxRecord) (fLong : Bool)
    (amounts : AccountWallet.Amounts) (r : CTxDestination × Int) : Entry :=
  [pair "account" (.text (wallet.accountOf r.1))] ++ maybePushAddress r.1 ++
  [pair "category" (.category (receivedCategory env.chain wtx)),
    pair "amount" (.amount (if wtx.tx.isCoinStake then -amounts.nFee else r.2))] ++
  if fLong then walletTxToJSON env wtx else []

/-- `ListTransactions`. -/
def listTransactions (env : ListEnv) (wallet : AccountWallet) (wtx : CWalletTxRecord)
    (strAccount : AccountName) (nMinDepth : Int) (fLong : Bool) : Except Exit (List Entry) := do
  let amounts ← AccountWallet.getAmounts env.amounts wallet wtx
  let fAllAccounts := strAccount == allAccounts
  let sent :=
    if !wtx.tx.isCoinStake && (!amounts.listSent.isEmpty || amounts.nFee ≠ 0) &&
        (fAllAccounts || strAccount == amounts.strSentAccount) then
      amounts.listSent.map (sentEntry env wtx fLong amounts)
    else []
  let received :=
    if env.chain.depth wtx ≥ nMinDepth then
      (amounts.listReceived.filter fun r => fAllAccounts || wallet.accountOf r.1 == strAccount).map
        (receivedEntry env wallet wtx fLong amounts)
    else []
  -- only one coinstake output
  return sent ++ if wtx.tx.isCoinStake then received.take 1 else received

/-- `AcentryToJSON`. -/
def acentryToJSON (acentry : CAccountingEntry) (strAccount : AccountName) : List Entry :=
  if strAccount == allAccounts || acentry.strAccount == strAccount then
    [[pair "account" (.text acentry.strAccount), pair "category" (.category "move"),
      pair "time" (.int acentry.nTime), pair "amount" (.amount acentry.nCreditDebit),
      pair "otheraccount" (.text acentry.strOtherAccount),
      pair "comment" (.text acentry.strComment)]]
  else []

/-! ## In order -/

/-- `TxPair`: a transaction of the wallet or an accounting entry. -/
inductive TxPair where
  | tx (wtx : CWalletTxRecord)
  | entry (acentry : CAccountingEntry)

def TxPair.nOrderPos : TxPair → Int
  | tx wtx => wtx.nOrderPos
  | entry acentry => acentry.nOrderPos

/-- `TxItems::insert`: behind the items of the same position. -/
def insertItem (item : TxPair) (txOrdered : List TxPair) : List TxPair :=
  txOrdered.orderedInsert (fun a b => a.nOrderPos < b.nOrderPos) item

/-- What `listAccountCreditDebit` throws, as an exception of the command. -/
def thrown {α : Type} : Except Thrown α → Except Exit α
  | .ok a => .ok a
  | .error (.runtimeError what) => .error (.abort what)
  | .error (.undefined what) => .error (.abort what)

/-- The wallet of the node, and the records `acentry` of `wallet.dat`. -/
structure ListWallet extends AccountWallet where
  acentries : AcentryRecords

/-- `OrderedTxItems`. -/
def orderedTxItems (dbs : DbStatus) (wallet : ListWallet) (strAccount : AccountName) :
    Except Exit (List TxPair) := do
  let txOrdered := (wallet.mapWallet.toList.map fun item => TxPair.tx item.2).foldl
    (fun txOrdered item => insertItem item txOrdered) []
  let acentries ← thrown (listAccountCreditDebit dbs wallet.acentries strAccount)
  return (acentries.map TxPair.entry).foldl (fun txOrdered item => insertItem item txOrdered)
    txOrdered

/-! ## The command -/

/-- What an item adds to the answer. -/
def itemEntries (env : ListEnv) (wallet : ListWallet) (strAccount : AccountName) :
    TxPair → Except Exit (List Entry)
  | .tx wtx => listTransactions env wallet.toAccountWallet wtx strAccount 0 true
  | .entry acentry => .ok (acentryToJSON acentry strAccount)

/-- The loop, over the items from the newest on. -/
def collect (entriesOf : TxPair → Except Exit (List Entry)) (nCount nFrom : Int) :
    List TxPair → List Entry → Except Exit (List Entry)
  | [], ret => .ok ret
  | item :: items, ret => do
    let entries ← entriesOf item
    let nWanted ← addInt nCount nFrom
    if toInt (ret ++ entries).length ≥ nWanted then return ret ++ entries
    else collect entriesOf nCount nFrom items (ret ++ entries)

/-- `std::advance` from the beginning of an array. -/
def advance (size : Nat) (n : Int) : Except Exit Nat :=
  if 0 ≤ n ∧ n ≤ size then .ok n.toNat else .error (.abort "iterator out of range")

/-- `nFrom`, where there are not as many entries. -/
def limitFrom (size nFrom : Int) : Int := if nFrom > toInt size then toInt size else nFrom

/-- `nCount`, where there are not as many entries behind `nFrom`. -/
def limitCount (size nFrom nCount : Int) : Except Exit Int := do
  let nEnd ← addInt nFrom nCount
  return if nEnd > toInt size then toInt (size - nFrom) else nCount

/-- What is behind the loop: the page is cut out of the entries. -/
def cutPage (ret : List Entry) (nCount nFrom : Int) : Except Exit (List Entry) := do
  let nFrom := limitFrom ret.length nFrom
  let nCount ← limitCount ret.length nFrom nCount
  let first ← advance ret.length nFrom
  let nEnd ← addInt nFrom nCount
  let last ← advance ret.length nEnd
  if first ≤ last then return ((ret.take last).drop first).reverse
  else .error (.abort "iterator out of range")

/-- `listtransactions`, with the parameters that are given. -/
def listtransactions (env : ListEnv) (dbs : DbStatus) (wallet : ListWallet)
    (account : Option AccountName) (count start : Option Int) : Except Exit (List Entry) := do
  let strAccount := account.getD allAccounts
  let nCount := count.getD 10
  let nFrom := start.getD 0
  if nCount < 0 then .error (.abort "Negative count")
  if nFrom < 0 then .error (.abort "Negative from")
  let txOrdered ← orderedTxItems dbs wallet strAccount
  let ret ← collect (itemEntries env wallet strAccount) nCount nFrom txOrdered.reverse []
  cutPage ret nCount nFrom

/-! ## Numbers -/

theorem toInt_eq (n : Int) :
    toInt n = if n % 2 ^ 32 < 2 ^ 31 then n % 2 ^ 32 else n % 2 ^ 32 - 2 ^ 32 := rfl

theorem toInt_le (n : Nat) : toInt n ≤ n := by
  rw [toInt_eq]
  split <;> omega

theorem toInt_lt (n : Int) : toInt n < 2 ^ 31 := by
  rw [toInt_eq]
  split <;> omega

theorem toInt_of_isCount {n : Int} (h : IsCount n) : toInt n = n := by
  obtain ⟨hlow, hhigh⟩ := h
  rw [toInt_eq]
  split <;> omega

/-- What is left of as many entries as an `int` may count in another way. -/
theorem toInt_sub {n k : Int} (hn : 0 ≤ toInt n) (hk : 0 ≤ k) (hle : k ≤ toInt n) :
    toInt (n - k) = toInt n - k := by
  rw [toInt_eq] at hn hle ⊢
  rw [toInt_eq]
  split at hn <;> split <;> omega

/-- What follows a step that succeeds. -/
theorem except_ok_bind {α β : Type} (a : α) (f : α → Except Exit β) :
    ((Except.ok a : Except Exit α) >>= f) = f a := rfl

theorem addInt_of_isCount {a b : Int} (h : IsCount (a + b)) : addInt a b = .ok (a + b) := by
  have hlow : -2 ^ 31 ≤ a + b := by
    have := h.1
    omega
  exact if_pos ⟨hlow, h.2⟩

theorem advance_of_le {size : Nat} {n : Int} (hlow : 0 ≤ n) (hhigh : n ≤ size) :
    advance size n = .ok n.toNat := if_pos ⟨hlow, hhigh⟩

/-! ## The complete list -/

/-- All entries, from the newest to the oldest. -/
def completeList (entriesOf : TxPair → Except Exit (List Entry)) :
    List TxPair → Except Exit (List Entry)
  | [] => .ok []
  | item :: items => do
    let entries ← entriesOf item
    let older ← completeList entriesOf items
    return entries ++ older

/-- Some of the newest items give as many entries as wanted. -/
def GivesEnough (entriesOf : TxPair → Except Exit (List Entry)) (items : List TxPair)
    (nWanted : Int) : Prop :=
  ∃ newest front, newest ≠ [] ∧ newest <+: items ∧ completeList entriesOf newest = .ok front ∧
    toInt front.length ≥ nWanted

/-- The entries of the complete list from `min(from, n)` up to `min(from + count, n)`. -/
def page (full : List Entry) (nCount nFrom : Int) : List Entry :=
  (full.take (min (nFrom + nCount) full.length).toNat).drop (min nFrom full.length).toNat

section collect

variable {entriesOf : TxPair → Except Exit (List Entry)} {items : List TxPair}
  {full : List Entry}

theorem completeList_cons {item : TxPair}
    (h : completeList entriesOf (item :: items) = .ok full) :
    ∃ entries older, entriesOf item = .ok entries ∧ completeList entriesOf items = .ok older ∧
      full = entries ++ older := by
  unfold completeList at h
  obtain ⟨entries, hentries, h⟩ := except_bind_eq_ok.mp h
  obtain ⟨older, holder, h⟩ := except_bind_eq_ok.mp h
  exact ⟨entries, older, hentries, holder, (Except.ok.inj h).symm⟩

theorem prefix_completeList {newest : List TxPair} {front : List Entry}
    (hnewest : newest <+: items) (hfront : completeList entriesOf newest = .ok front)
    (hfull : completeList entriesOf items = .ok full) : front <+: full := by
  induction items generalizing newest front full with
  | nil =>
    rw [List.prefix_nil.mp hnewest] at hfront
    rw [← Except.ok.inj (hfront.symm.trans hfull)]
  | cons item items ih =>
    obtain ⟨entries, older, hentries, holder, rfl⟩ := completeList_cons hfull
    cases newest with
    | nil =>
      rw [← Except.ok.inj hfront]
      exact List.nil_prefix
    | cons item' newest =>
      obtain ⟨rfl, hrest⟩ := List.cons_prefix_cons.mp hnewest
      obtain ⟨entries', older', hentries', holder', rfl⟩ := completeList_cons hfront
      rw [← Except.ok.inj (hentries.symm.trans hentries')]
      exact List.prefix_append_right_inj _ |>.mpr (ih hrest holder' holder)

theorem collect_cons {nCount nFrom : Int} (hsum : IsCount (nCount + nFrom)) {item : TxPair}
    {entries : List Entry} (hentries : entriesOf item = .ok entries) (ret : List Entry) :
    collect entriesOf nCount nFrom (item :: items) ret =
      if toInt (ret ++ entries).length ≥ nCount + nFrom then .ok (ret ++ entries)
      else collect entriesOf nCount nFrom items (ret ++ entries) := by
  rw [collect, hentries, except_ok_bind, addInt_of_isCount hsum, except_ok_bind]
  rfl

/-- The loop stops in front of the first item with which there are enough entries, or it goes over
all items. -/
theorem collect_eq {nCount nFrom : Int} (hsum : IsCount (nCount + nFrom))
    (hfull : completeList entriesOf items = .ok full) (ret : List Entry) :
    (∃ newest front, newest ≠ [] ∧ newest <+: items ∧ completeList entriesOf newest = .ok front ∧
      toInt (ret ++ front).length ≥ nCount + nFrom ∧
      collect entriesOf nCount nFrom items ret = .ok (ret ++ front)) ∨
    ((∀ newest front, newest ≠ [] → newest <+: items →
        completeList entriesOf newest = .ok front →
        toInt (ret ++ front).length < nCount + nFrom) ∧
      collect entriesOf nCount nFrom items ret = .ok (ret ++ full)) := by
  induction items generalizing ret full with
  | nil =>
    refine .inr ⟨fun newest _ hne hnewest => absurd (List.prefix_nil.mp hnewest) hne, ?_⟩
    rw [← Except.ok.inj hfull, List.append_nil]
    rfl
  | cons item items ih =>
    obtain ⟨entries, older, hentries, holder, rfl⟩ := completeList_cons hfull
    have hone : completeList entriesOf [item] = .ok entries := by
      unfold completeList
      rw [hentries]
      exact congrArg Except.ok (List.append_nil entries)
    have hmore : ∀ newest front, completeList entriesOf newest = .ok front →
        completeList entriesOf (item :: newest) = .ok (entries ++ front) := by
      intro newest front hfront
      rw [completeList, hentries, hfront]
      rfl
    by_cases henough : toInt (ret ++ entries).length ≥ nCount + nFrom
    · refine .inl ⟨[item], entries, List.cons_ne_nil _ _, ⟨items, rfl⟩, hone, henough, ?_⟩
      rw [collect_cons hsum hentries, if_pos henough]
    · have hnext : collect entriesOf nCount nFrom (item :: items) ret =
          collect entriesOf nCount nFrom items (ret ++ entries) := by
        rw [collect_cons hsum hentries, if_neg henough]
      rw [hnext, ← List.append_assoc]
      rcases ih holder (ret ++ entries) with
        ⟨newest, front, hne, hnewest, hfront, hreach, heq⟩ | ⟨hshort, heq⟩
      · refine .inl ⟨item :: newest, entries ++ front, List.cons_ne_nil _ _,
          List.cons_prefix_cons.mpr ⟨rfl, hnewest⟩, hmore newest front hfront, ?_, ?_⟩
        · rwa [← List.append_assoc]
        · rw [heq, List.append_assoc]
      · refine .inr ⟨fun newest front hne hnewest hfront => ?_, heq⟩
        cases newest with
        | nil => exact absurd rfl hne
        | cons item' newest =>
          obtain ⟨rfl, hrest⟩ := List.cons_prefix_cons.mp hnewest
          obtain ⟨entries', front', hentries', hfront', rfl⟩ := completeList_cons hfront
          rw [← Except.ok.inj (hentries.symm.trans hentries'), ← List.append_assoc]
          cases newest with
          | nil =>
            rw [← Except.ok.inj hfront', List.append_nil]
            exact lt_of_not_ge henough
          | cons other newest =>
            exact hshort _ front' (List.cons_ne_nil _ _) hrest hfront'

/-- Without items there is no sum. -/
theorem collect_overflow {nCount nFrom : Int} (hsum : ¬ nCount + nFrom < 2 ^ 31)
    (hne : items ≠ []) (hfull : completeList entriesOf items = .ok full) (ret : List Entry) :
    collect entriesOf nCount nFrom items ret = .error (.abort "signed overflow") := by
  cases items with
  | nil => exact absurd rfl hne
  | cons item items =>
    obtain ⟨entries, -, hentries, -⟩ := completeList_cons hfull
    have hadd : addInt nCount nFrom = .error (.abort "signed overflow") :=
      if_neg fun h => hsum h.2
    rw [collect, hentries, hadd]
    rfl

end collect

/-! ## The cut -/

section cut

variable {ret full : List Entry} {nCount nFrom : Int}

theorem limitFrom_eq (size nFrom : Int) : limitFrom size nFrom = min nFrom (toInt size) := by
  unfold limitFrom
  split <;> omega

theorem limitCount_eq {size : Int} (hsize : 0 ≤ toInt size) (hfrom : 0 ≤ nFrom)
    (hle : nFrom ≤ toInt size) (hsum : IsCount (nFrom + nCount)) :
    limitCount size nFrom nCount = .ok (min nCount (toInt size - nFrom)) := by
  unfold limitCount
  rw [addInt_of_isCount hsum, except_ok_bind]
  refine congrArg Except.ok ?_
  split
  · next hmore =>
    rw [toInt_sub hsize hfrom hle, min_eq_right (by omega)]
  · next hfits => exact (min_eq_left (by omega)).symm

/-- The borders of the page, where the number of entries is not negative as an `int`. -/
theorem cutPage_eq (hsize : 0 ≤ toInt ret.length) (hcount : 0 ≤ nCount) (hfrom : 0 ≤ nFrom)
    (hsum : min nFrom (toInt ret.length) + nCount < 2 ^ 31) :
    cutPage ret nCount nFrom =
      .ok ((ret.take (min (nFrom + nCount) (toInt ret.length)).toNat).drop
        (min nFrom (toInt ret.length)).toNat).reverse := by
  have hle := toInt_le ret.length
  have hlt := toInt_lt ret.length
  have hfirst : 0 ≤ min nFrom (toInt ret.length) := le_min hfrom hsize
  have hend : min nFrom (toInt ret.length) +
      min nCount (toInt ret.length - min nFrom (toInt ret.length)) =
      min (nFrom + nCount) (toInt ret.length) := by omega
  have hlast : IsCount (min (nFrom + nCount) (toInt ret.length)) :=
    ⟨le_min (add_nonneg hfrom hcount) hsize, (min_le_right _ _).trans_lt hlt⟩
  have hadd : addInt (min nFrom (toInt ret.length))
      (min nCount (toInt ret.length - min nFrom (toInt ret.length))) =
      .ok (min (nFrom + nCount) (toInt ret.length)) := by
    rw [addInt_of_isCount (by rwa [hend]), hend]
  have horder : min nFrom (toInt ret.length) ≤ min (nFrom + nCount) (toInt ret.length) :=
    min_le_min_right _ (le_add_of_nonneg_right hcount)
  unfold cutPage
  rw [limitFrom_eq]
  dsimp only
  rw [limitCount_eq hsize hfirst (min_le_right _ _) ⟨add_nonneg hfirst hcount, hsum⟩,
    except_ok_bind, advance_of_le hfirst ((min_le_right _ _).trans hle), except_ok_bind, hadd,
    except_ok_bind, advance_of_le hlast.1 ((min_le_right _ _).trans hle), except_ok_bind]
  exact if_pos (Int.toNat_le_toNat horder)

/-- With a negative number of entries the iterator leaves the array. -/
theorem cutPage_negative (hsize : toInt ret.length < 0) :
    ∀ shown, cutPage ret nCount nFrom ≠ .ok shown := by
  intro shown h
  have hfirst : min nFrom (toInt ret.length) < 0 := (min_le_right _ _).trans_lt hsize
  unfold cutPage at h
  rw [limitFrom_eq] at h
  dsimp only at h
  obtain ⟨nCount', -, h⟩ := except_bind_eq_ok.mp h
  obtain ⟨first, hadvance, -⟩ := except_bind_eq_ok.mp h
  unfold advance at hadvance
  rw [if_neg fun hin => absurd hin.1 (not_le.mpr hfirst)] at hadvance
  cases hadvance

/-- A page that the front of the list already covers. -/
theorem page_of_prefix (hret : ret <+: full) (hcount : 0 ≤ nCount)
    (henough : toInt ret.length ≥ nCount + nFrom) :
    page full nCount nFrom = (ret.take (min (nFrom + nCount) (toInt ret.length)).toNat).drop
      (min nFrom (toInt ret.length)).toNat := by
  have hle := toInt_le ret.length
  obtain ⟨rest, rfl⟩ := hret
  have hlength : (ret.length : Int) ≤ ((ret ++ rest).length : Nat) := by
    rw [List.length_append]
    omega
  have hend : nFrom + nCount ≤ toInt ret.length := by omega
  have hfirst : nFrom ≤ toInt ret.length := by omega
  unfold page
  rw [min_eq_left (hend.trans (hle.trans hlength)), min_eq_left hend,
    min_eq_left (hfirst.trans (hle.trans hlength)), min_eq_left hfirst,
    List.take_append_of_le_length (by omega)]

theorem length_page (hcount : 0 ≤ nCount) (hfrom : 0 ≤ nFrom) :
    ((page full nCount nFrom).length : Int) =
      min (nFrom + nCount) full.length - min nFrom full.length := by
  unfold page
  rw [List.length_drop, List.length_take]
  omega

/-- The page of all entries, where they are counted rightly. -/
theorem page_eq (h : toInt full.length = full.length) (nCount nFrom : Int) :
    page full nCount nFrom = (full.take (min (nFrom + nCount) (toInt full.length)).toNat).drop
      (min nFrom (toInt full.length)).toNat := by
  rw [h]
  rfl

end cut

/-! ## Pages -/

/-- The call stays within `int`s: there is nothing to count, or the sum is an `int`, and so is the
number of all entries, or of enough of them. -/
def InRange (entriesOf : TxPair → Except Exit (List Entry)) (items : List TxPair) (n : Nat)
    (nCount nFrom : Int) : Prop :=
  items = [] ∨ nCount + nFrom < 2 ^ 31 ∧
    ((n : Int) < 2 ^ 31 ∨ GivesEnough entriesOf items (nCount + nFrom) ∨
      nCount = 0 ∧ 0 ≤ toInt n)

section answer

variable {entriesOf : TxPair → Except Exit (List Entry)} {items : List TxPair}
  {full : List Entry} {nCount nFrom : Int}

/-- All entries are collected: the page is right, or it is too short. -/
theorem cutPage_all (hcount : IsCount nCount) (hfrom : IsCount nFrom)
    (hsum : nCount + nFrom < 2 ^ 31) (hless : toInt full.length < nCount + nFrom) :
    (((full.length : Int) < 2 ^ 31 ∨ nCount = 0 ∧ 0 ≤ toInt full.length) ∧
      cutPage full nCount nFrom = .ok (page full nCount nFrom).reverse) ∨
    (¬ ((full.length : Int) < 2 ^ 31 ∨ nCount = 0 ∧ 0 ≤ toInt full.length) ∧
      ∀ shown, cutPage full nCount nFrom = .ok shown →
        shown.length < (page full nCount nFrom).length) := by
  have hlength : ((page full nCount nFrom).length : Int) = _ := length_page hcount.1 hfrom.1
  rcases lt_or_ge (toInt full.length) 0 with hneg | hsize
  · refine .inr ⟨?_, fun shown h => absurd h (cutPage_negative hneg shown)⟩
    rintro (hsmall | ⟨-, hsize⟩)
    · rw [toInt_of_isCount ⟨Int.natCast_nonneg _, hsmall⟩] at hneg
      omega
    · omega
  · have hcut : cutPage full nCount nFrom = _ := cutPage_eq hsize hcount.1 hfrom.1
      (lt_of_le_of_lt (add_le_add_left (min_le_left _ _) nCount) (by omega))
    rcases lt_or_ge (full.length : Int) (2 ^ 31) with hsmall | hlarge
    · refine .inl ⟨.inl hsmall, ?_⟩
      rw [hcut, page_eq (toInt_of_isCount ⟨Int.natCast_nonneg _, hsmall⟩)]
    · have hwanted : ((page full nCount nFrom).length : Int) = nCount := by
        have hend : nFrom + nCount ≤ full.length := (add_comm nFrom nCount).trans_le
          (hsum.le.trans hlarge)
        rw [hlength, min_eq_left hend, min_eq_left ((le_add_of_nonneg_right hcount.1).trans hend),
          add_sub_cancel_left]
      have hle := toInt_le full.length
      have hlow := hfrom.1
      generalize toInt full.length = size at *
      by_cases hzero : nCount = 0
      · refine .inl ⟨.inr ⟨hzero, hsize⟩, ?_⟩
        have hnone : page full nCount nFrom = [] := by
          apply List.eq_nil_of_length_eq_zero
          omega
        rw [hcut, hnone]
        refine congrArg Except.ok (congrArg List.reverse (List.drop_eq_nil_of_le ?_))
        rw [List.length_take]
        omega
      · refine .inr ⟨fun h => ?_, fun shown h => ?_⟩
        · rcases h with hsmall | ⟨hzero', -⟩
          · exact absurd hlarge (not_le.mpr hsmall)
          · exact hzero hzero'
        · rw [hcut] at h
          rw [← Except.ok.inj h, List.length_reverse, List.length_drop, List.length_take]
          have hpos := lt_of_le_of_ne hcount.1 (Ne.symm hzero)
          omega

/-- What a call answers, and when. -/
theorem answer_cases (hcount : IsCount nCount) (hfrom : IsCount nFrom)
    (hfull : completeList entriesOf items = .ok full) :
    (InRange entriesOf items full.length nCount nFrom ∧
      (collect entriesOf nCount nFrom items [] >>= fun ret => cutPage ret nCount nFrom) =
        .ok (page full nCount nFrom).reverse) ∨
    (¬ InRange entriesOf items full.length nCount nFrom ∧
      ∀ shown, (collect entriesOf nCount nFrom items [] >>= fun ret => cutPage ret nCount nFrom) =
        .ok shown → shown.length < (page full nCount nFrom).length) := by
  by_cases hitems : items = []
  · subst hitems
    obtain rfl := Except.ok.inj hfull
    refine .inl ⟨.inl rfl, ?_⟩
    have hzero : toInt (([] : List Entry).length : Nat) = 0 := rfl
    have hmin : min nFrom 0 = 0 := min_eq_right hfrom.1
    rw [collect, except_ok_bind, cutPage_eq hzero.ge hcount.1 hfrom.1
        (by rw [hzero, hmin, zero_add]; exact hcount.2), page_eq hzero]
  by_cases hsum : nCount + nFrom < 2 ^ 31
  · rcases collect_eq ⟨add_nonneg hcount.1 hfrom.1, hsum⟩ hfull [] with
      ⟨newest, front, hne, hnewest, hfront, henough, heq⟩ | ⟨hless, heq⟩
    · refine .inl ⟨.inr ⟨hsum, .inr (.inl ⟨newest, front, hne, hnewest, hfront, henough⟩)⟩, ?_⟩
      have hsize : 0 ≤ toInt front.length := (add_nonneg hcount.1 hfrom.1).trans henough
      rw [heq, except_ok_bind, List.nil_append, page_of_prefix
        (prefix_completeList hnewest hfront hfull) hcount.1 henough,
        cutPage_eq hsize hcount.1 hfrom.1
          (lt_of_le_of_lt (add_le_add_left (min_le_left _ _) nCount) (by omega))]
    · have hall : toInt full.length < nCount + nFrom :=
        hless items full hitems List.prefix_rfl hfull
      have hgives : ¬ GivesEnough entriesOf items (nCount + nFrom) := by
        rintro ⟨newest, front, hne, hnewest, hfront, henough⟩
        exact absurd henough (not_le.mpr (hless newest front hne hnewest hfront))
      rw [heq, except_ok_bind, List.nil_append]
      rcases cutPage_all hcount hfrom hsum hall with ⟨hfits, hcut⟩ | ⟨hnot, hcut⟩
      · refine .inl ⟨.inr ⟨hsum, ?_⟩, hcut⟩
        exact hfits.imp id Or.inr
      · refine .inr ⟨?_, hcut⟩
        rintro (hnil | ⟨-, hsmall | henough | hzero⟩)
        · exact hitems hnil
        · exact hnot (.inl hsmall)
        · exact hgives henough
        · exact hnot (.inr hzero)
  · refine .inr ⟨?_, fun shown h => ?_⟩
    · rintro (hnil | ⟨hlt, -⟩)
      · exact hitems hnil
      · exact hsum hlt
    · rw [collect_overflow hsum hitems hfull] at h
      cases h

end answer

/-- The pages `0 … k - 1` of a command that takes where to start, each from the newest entry on. -/
def pagesUpTo (call : Int → Except Exit (List Entry)) (nCount : Int) :
    Nat → Except Exit (List Entry)
  | 0 => .ok []
  | k + 1 => do
    let shown ← pagesUpTo call nCount k
    let answer ← call (k * nCount)
    return shown ++ answer.reverse

section pages

variable {full : List Entry} {nCount : Int} {call : Int → Except Exit (List Entry)}

theorem take_min_length (full : List Entry) (n : Int) :
    full.take (min n full.length).toNat = full.take n.toNat := by
  rcases le_total n full.length with hle | hle
  · rw [min_eq_left hle]
  · rw [min_eq_right hle, Int.toNat_natCast, List.take_length,
      List.take_of_length_le (by omega)]

/-- A page goes on where the ones before it end. -/
theorem take_append_page (hcount : 0 ≤ nCount) (k : Nat) :
    full.take (k * nCount).toNat ++ page full nCount (k * nCount) =
      full.take (((k + 1 : Nat) : Int) * nCount).toNat := by
  have hend : (k : Int) * nCount + nCount = ((k + 1 : Nat) : Int) * nCount := by
    push_cast
    ring
  have hstart : 0 ≤ (k : Int) * nCount := mul_nonneg (Int.natCast_nonneg k) hcount
  have hborder : full.take (k * nCount).toNat =
      (full.take (((k + 1 : Nat) : Int) * nCount).toNat).take
        (min (k * nCount) full.length).toNat := by
    rw [List.take_take, ← take_min_length]
    congr 1
    omega
  unfold page
  rw [hend, take_min_length, hborder, List.take_append_drop]

theorem length_take_page (hcount : 0 ≤ nCount) (k : Nat) :
    (full.take (((k + 1 : Nat) : Int) * nCount).toNat).length =
      (full.take (k * nCount).toNat).length + (page full nCount (k * nCount)).length := by
  rw [← take_append_page hcount, List.length_append]

theorem pagesUpTo_succ {k : Nat} {shown : List Entry}
    (h : pagesUpTo call nCount (k + 1) = .ok shown) :
    ∃ before answer, pagesUpTo call nCount k = .ok before ∧ call (k * nCount) = .ok answer ∧
      shown = before ++ answer.reverse := by
  unfold pagesUpTo at h
  obtain ⟨before, hbefore, h⟩ := except_bind_eq_ok.mp h
  obtain ⟨answer, hanswer, h⟩ := except_bind_eq_ok.mp h
  exact ⟨before, answer, hbefore, hanswer, (Except.ok.inj h).symm⟩

/-- Pages that are right, one after the other. -/
theorem pagesUpTo_eq (hcount : 0 ≤ nCount) {K : Nat}
    (hcall : ∀ k < K, call (k * nCount) = .ok (page full nCount (k * nCount)).reverse) :
    pagesUpTo call nCount K = .ok (full.take (K * nCount).toNat) := by
  induction K with
  | zero =>
    rw [Nat.cast_zero, zero_mul]
    rfl
  | succ k ih =>
    have hbefore := ih fun j hj => hcall j (Nat.lt_succ_of_lt hj)
    rw [pagesUpTo, hbefore, except_ok_bind, hcall k (Nat.lt_succ_self k), except_ok_bind,
      List.reverse_reverse, take_append_page hcount]
    rfl

/-- Pages that are right or too short are too short all together, unless all are right. -/
theorem length_pagesUpTo (hcount : 0 ≤ nCount) {Right : Nat → Prop} {K : Nat}
    (hcall : ∀ k < K,
      (Right k ∧ call (k * nCount) = .ok (page full nCount (k * nCount)).reverse) ∨
      (¬ Right k ∧ ∀ answer, call (k * nCount) = .ok answer →
        answer.length < (page full nCount (k * nCount)).length))
    {shown : List Entry} (h : pagesUpTo call nCount K = .ok shown) :
    shown.length ≤ (full.take (K * nCount).toNat).length ∧
      (shown.length = (full.take (K * nCount).toNat).length → ∀ k < K, Right k) := by
  induction K generalizing shown with
  | zero =>
    rw [← Except.ok.inj h]
    exact ⟨Nat.zero_le _, fun _ k hk => absurd hk (Nat.not_lt_zero k)⟩
  | succ k ih =>
    obtain ⟨before, answer, hbefore, hanswer, rfl⟩ := pagesUpTo_succ h
    obtain ⟨hle, hall⟩ := ih (fun j hj => hcall j (Nat.lt_succ_of_lt hj)) hbefore
    rw [length_take_page hcount, List.length_append, List.length_reverse]
    rcases hcall k (Nat.lt_succ_self k) with ⟨hright, heq⟩ | ⟨-, hshort⟩
    · rw [← Except.ok.inj (heq.symm.trans hanswer), List.length_reverse]
      refine ⟨Nat.add_le_add_right hle _, fun hsame j hj => ?_⟩
      rcases Nat.lt_succ_iff_lt_or_eq.mp hj with hlt | rfl
      · exact hall (Nat.add_right_cancel hsame) j hlt
      · exact hright
    · have hlt := hshort answer hanswer
      exact ⟨by omega, fun hsame => by omega⟩

end pages

/-! ## The command pages through the list -/

theorem listtransactions_eq {env : ListEnv} {dbs : DbStatus} {wallet : ListWallet}
    {strAccount : AccountName} {txOrdered : List TxPair} {nCount nFrom : Int}
    (hitems : orderedTxItems dbs wallet strAccount = .ok txOrdered)
    (hcount : 0 ≤ nCount) (hfrom : 0 ≤ nFrom) :
    listtransactions env dbs wallet (some strAccount) (some nCount) (some nFrom) =
      (collect (itemEntries env wallet strAccount) nCount nFrom txOrdered.reverse [] >>= fun ret =>
        cutPage ret nCount nFrom) := by
  unfold listtransactions
  dsimp only [Option.getD_some]
  rw [if_neg (not_lt.mpr hcount), if_neg (not_lt.mpr hfrom), hitems]
  rfl

/-- An entry that a `move` has written. -/
def movedEntry : CAccountingEntry where
  strAccount := []
  nCreditDebit := -5
  nTime := 1
  strOtherAccount := [97]
  strComment := []
  mapValue := ∅
  nOrderPos := 0
  nEntryNo := 1
  ssExtra := []

/-- A wallet with one accounting entry and no transaction. -/
def movedWallet : ListWallet where
  mapWallet := ∅
  mapAddressBook := ∅
  acentries := .write .empty movedEntry

def listEnv : ListEnv where
  node := testNet
  amounts := ⟨id, fun _ => true, fun _ => true⟩
  chain := ⟨fun _ => true, fun _ => 0, fun _ => 0⟩

/-- A database that never fails. -/
def goodDbs : DbStatus := ⟨true, fun _ => true, fun _ => true⟩

theorem orderedTxItems_moved :
    orderedTxItems goodDbs movedWallet allAccounts = .ok [.entry movedEntry] := by
  with_unfolding_all rfl

end NoLimitCoin
