import NoLimitCoin.Wallet

/-!
# Order positions of the wallet

`ReorderTransactions` of `walletdb.cpp` gives a position to every transaction of the wallet and to
every accounting entry that has none.  It walks in time order; an item without a position is
inserted after what it has passed, and an item with one moves by the number of positions inserted
at or below it.

Results:
1. `mem_listAccountCreditDebit`: the entries that are listed for the account `""`.
2. `Numbered.step`: what one item does to the positions.
3. `reorderTransactions_numbers`: the positions after a reordering that succeeds.
-/

namespace NoLimitCoin

open KeyPool (Thrown)

/-! ## Records -/

/-- A transaction of the wallet with the time at which it came and its position. -/
structure OrderedTx extends CWalletTx where
  nTimeReceived : Nat
  nOrderPos : Int

structure CAccountingEntry where
  strAccount : List UInt8
  nCreditDebit : Int
  nTime : Int
  strOtherAccount : List UInt8
  strComment : List UInt8
  mapValue : Map (List UInt8) (List UInt8)
  nOrderPos : Int
  nEntryNo : Nat
  ssExtra : List UInt8

/-- The key of a record `acentry`, after its type. -/
def acentryKey (strAccount : List UInt8) (nEntryNo : Nat) : List UInt8 :=
  serializeBytes strAccount ++ leBytes 8 nEntryNo

def CAccountingEntry.key (acentry : CAccountingEntry) : List UInt8 :=
  acentryKey acentry.strAccount acentry.nEntryNo

/-- The records `acentry` of `wallet.dat`, which a cursor visits in the order of their keys.  The
account and the number of an entry are read from its key. -/
structure AcentryRecords where
  records : Map (List UInt8) CAccountingEntry
  keyed : ∀ (key : List UInt8) (acentry : CAccountingEntry), records[key]? = some acentry →
    acentry.key = key

/-- No accounting entries. -/
def AcentryRecords.empty : AcentryRecords where
  records := ∅
  keyed _ _ h := by
    rw [Map.getElem?_empty] at h
    cases h

/-- `WriteAccountingEntry`. -/
def AcentryRecords.write (db : AcentryRecords) (acentry : CAccountingEntry) : AcentryRecords where
  records := db.records.insert acentry.key acentry
  keyed key acentry' h := by
    rw [Map.getElem?_insert] at h
    split at h
    · next heq =>
      rw [← Option.some.inj h]
      exact heq
    · exact db.keyed key acentry' h

/-- Whether the accesses to `wallet.dat` succeed. -/
structure DbStatus where
  getCursor : Bool
  /-- The read of each record. -/
  readAtCursor : Nat → Bool
  /-- The write for each item. -/
  write : Nat → Bool

/-- The loop of `ListAccountCreditDebit`; behind the last record the cursor finds nothing, or a
record of another type. -/
def readEntries (dbs : DbStatus) (fAllAccounts : Bool) (strAccount : List UInt8) :
    Nat → List CAccountingEntry → Except Thrown (List CAccountingEntry)
  | n, acentries =>
    if !dbs.readAtCursor n then
      .error (.runtimeError "CWalletDB::ListAccountCreditDebit() : error scanning DB")
    else
      match acentries with
      | [] => .ok []
      | acentry :: acentries =>
        if !fAllAccounts && acentry.strAccount ≠ strAccount then .ok []
        else do
          let entries ← readEntries dbs fAllAccounts strAccount (n + 1) acentries
          return acentry :: entries

/-- The records from a key on. -/
def AcentryRecords.setRange (db : AcentryRecords) (key : List UInt8) : List CAccountingEntry :=
  (db.records.toList.dropWhile fun record => (compare record.1 key).isLT).map (·.2)

/-- `ListAccountCreditDebit`. -/
def listAccountCreditDebit (dbs : DbStatus) (db : AcentryRecords) (strAccount : List UInt8) :
    Except Thrown (List CAccountingEntry) :=
  let fAllAccounts := strAccount == "*".toUTF8.toList
  if !dbs.getCursor then
    .error (.runtimeError "CWalletDB::ListAccountCreditDebit() : cannot create DB cursor")
  else readEntries dbs fAllAccounts strAccount 0
    (db.setRange (acentryKey (if fAllAccounts then [] else strAccount) 0))

/-! ## Reordering -/

/-- The part of the wallet that `ReorderTransactions` changes. -/
structure OrderWallet where
  mapWallet : Map Uint256 OrderedTx
  nOrderPosNext : Int
  /-- The records `tx` of `wallet.dat`. -/
  diskTxs : Map Uint256 OrderedTx
  acentries : AcentryRecords

/-- `TxPair`: a transaction of `mapWallet`, or an accounting entry. -/
inductive OrderItem where
  | tx (hash : Uint256) (wtx : OrderedTx)
  | entry (acentry : CAccountingEntry)

namespace OrderItem

/-- The key under which an item is sorted. -/
def time : OrderItem → Int
  | tx _ wtx => wtx.nTimeReceived
  | entry acentry => acentry.nTime

def nOrderPos : OrderItem → Int
  | tx _ wtx => wtx.nOrderPos
  | entry acentry => acentry.nOrderPos

def setPos (nOrderPos : Int) : OrderItem → OrderItem
  | tx hash wtx => tx hash { wtx with nOrderPos := nOrderPos }
  | entry acentry => entry { acentry with nOrderPos := nOrderPos }

end OrderItem

inductive DBErrors where
  | loadOk
  | loadFail
deriving Repr, DecidableEq

namespace OrderWallet

/-- The item in memory: the entries are in a list that is thrown away. -/
def store (wallet : OrderWallet) : OrderItem → OrderWallet
  | .tx hash wtx => { wallet with mapWallet := wallet.mapWallet.insert hash wtx }
  | .entry _ => wallet

/-- `WriteTx` and `WriteAccountingEntry`. -/
def write (env : Env) (wallet : OrderWallet) : OrderItem → OrderWallet
  | .tx _ wtx => { wallet with diskTxs := wallet.diskTxs.insert (wtx.tx.getHash env) wtx }
  | .entry acentry => { wallet with acentries := wallet.acentries.write acentry }

end OrderWallet

/-- The wallet in the loop, and the positions that have been inserted. -/
structure Reordering where
  wallet : OrderWallet
  nOrderPosOffsets : List Int

/-- An item in the loop of `ReorderTransactions`: whether the loop goes on. -/
def reorderItem (env : Env) (fWritten : Bool) (item : OrderItem) (s : Reordering) :
    Reordering × Bool :=
  if item.nOrderPos = -1 then
    let nOrderPos := s.wallet.nOrderPosNext
    let wallet := { s.wallet with nOrderPosNext := nOrderPos + 1 }.store (item.setPos nOrderPos)
    let nOrderPosOffsets := s.nOrderPosOffsets ++ [nOrderPos]
    match item with
    | .tx _ _ => (⟨wallet, nOrderPosOffsets⟩, true)
    | .entry _ =>
      if fWritten then (⟨wallet.write env (item.setPos nOrderPos), nOrderPosOffsets⟩, true)
      else (⟨wallet, nOrderPosOffsets⟩, false)
  else
    let nOrderPosOff := s.nOrderPosOffsets.countP fun nOffsetStart => item.nOrderPos ≥ nOffsetStart
    let nOrderPos := item.nOrderPos + nOrderPosOff
    let nOrderPosNext := max s.wallet.nOrderPosNext (nOrderPos + 1)
    let wallet := { s.wallet with nOrderPosNext := nOrderPosNext }.store (item.setPos nOrderPos)
    if nOrderPosOff = 0 then (⟨wallet, s.nOrderPosOffsets⟩, true)
    else if fWritten then
      (⟨wallet.write env (item.setPos nOrderPos), s.nOrderPosOffsets⟩, true)
    else (⟨wallet, s.nOrderPosOffsets⟩, false)

/-- The loop of `ReorderTransactions`. -/
def reorderLoop (env : Env) (dbs : DbStatus) : Nat → List OrderItem → Reordering →
    OrderWallet × DBErrors
  | _, [], s => (s.wallet, .loadOk)
  | n, item :: items, s =>
    let next := reorderItem env (dbs.write n) item s
    if next.2 then reorderLoop env dbs (n + 1) items next.1 else (next.1.wallet, .loadFail)

/-- `multimap::insert`: behind the items of the same time. -/
def insertByTime (item : OrderItem) : List OrderItem → List OrderItem
  | [] => [item]
  | other :: items =>
    if item.time < other.time then item :: other :: items else other :: insertByTime item items

/-- `txByTime`. -/
def txByTime (wallet : OrderWallet) (acentries : List CAccountingEntry) : List OrderItem :=
  (wallet.mapWallet.toList.map (fun entry => OrderItem.tx entry.1 entry.2) ++
    acentries.map OrderItem.entry).foldl (fun items item => insertByTime item items) []

/-- `ReorderTransactions`. -/
def reorderTransactions (env : Env) (dbs : DbStatus) (wallet : OrderWallet) :
    Except Thrown (OrderWallet × DBErrors) := do
  let acentries ← listAccountCreditDebit dbs wallet.acentries []
  return reorderLoop env dbs 0 (txByTime wallet acentries)
    ⟨{ wallet with nOrderPosNext := 0 }, []⟩

/-! ## What is listed -/

theorem readEntries_eq {dbs : DbStatus} {fAllAccounts : Bool} {strAccount : List UInt8} {n : Nat}
    {acentries listed : List CAccountingEntry}
    (h : readEntries dbs fAllAccounts strAccount n acentries = .ok listed) :
    listed = acentries.takeWhile fun acentry =>
      fAllAccounts || decide (acentry.strAccount = strAccount) := by
  induction acentries generalizing n listed with
  | nil =>
    unfold readEntries at h
    split at h
    · cases h
    · cases h
      rfl
  | cons acentry acentries ih =>
    unfold readEntries at h
    split at h
    · cases h
    · dsimp only at h
      split at h
      · next hother =>
        cases h
        have hstop : (fAllAccounts || decide (acentry.strAccount = strAccount)) = false := by
          simpa using hother
        rw [List.takeWhile_cons, hstop]
        rfl
      · next hother =>
        have hgoes : (fAllAccounts || decide (acentry.strAccount = strAccount)) = true := by
          cases fAllAccounts with
          | true => rfl
          | false => simpa using hother
        rw [List.takeWhile_cons, if_pos hgoes]
        cases hrest : readEntries dbs fAllAccounts strAccount (n + 1) acentries with
        | error e =>
          rw [hrest] at h
          cases h
        | ok entries =>
          rw [hrest] at h
          cases h
          rw [← ih hrest]

/-- Of a list in which what is taken comes before what is not, `takeWhile` takes all. -/
theorem mem_takeWhile_of_pairwise {α : Type} {r : α → α → Prop} {P : α → Bool} {l : List α}
    (hl : l.Pairwise r) (hdown : ∀ a b, a ∈ l → b ∈ l → r a b → P b = true → P a = true) {a : α}
    (ha : a ∈ l) (hP : P a = true) : a ∈ l.takeWhile P := by
  induction l with
  | nil => cases ha
  | cons b l ih =>
    rw [List.pairwise_cons] at hl
    have hb : P b = true := by
      cases ha with
      | head => exact hP
      | tail _ ha =>
        exact hdown b a List.mem_cons_self (List.mem_cons_of_mem _ ha) (hl.1 a ha) hP
    rw [List.takeWhile_cons, if_pos hb]
    cases ha with
    | head => exact List.mem_cons_self
    | tail _ ha =>
      exact List.mem_cons_of_mem _ (ih hl.2 (fun c d hc hd => hdown c d
        (List.mem_cons_of_mem _ hc) (List.mem_cons_of_mem _ hd)) ha)

/-- The keys of the account `""` begin with a zero, those of the others do not. -/
theorem acentryKey_head (strAccount : List UInt8) (nEntryNo : Nat) :
    ∃ b rest, acentryKey strAccount nEntryNo = b :: rest ∧ (b = 0 ↔ strAccount = []) ∧
      (strAccount = [] → rest = leBytes 8 nEntryNo) := by
  unfold acentryKey serializeBytes compactSize
  cases strAccount with
  | nil => exact ⟨0, _, rfl, by simp, fun _ => rfl⟩
  | cons c strAccount =>
    have hne : c :: strAccount ≠ [] := List.cons_ne_nil _ _
    split
    · next hsize =>
      refine ⟨_, _, rfl, ⟨fun h => absurd (congrArg UInt8.toNat h) ?_, fun h => absurd h hne⟩,
        fun h => absurd h hne⟩
      rw [UInt8.toNat_ofNat', Nat.mod_mod, Nat.mod_eq_of_lt (hsize.trans (by decide)),
        List.length_cons]
      exact Nat.succ_ne_zero _
    split
    · exact ⟨253, _, rfl, ⟨fun h => absurd h (by decide), fun h => absurd h hne⟩,
        fun h => absurd h hne⟩
    split
    · exact ⟨254, _, rfl, ⟨fun h => absurd h (by decide), fun h => absurd h hne⟩,
        fun h => absurd h hne⟩
    · exact ⟨255, _, rfl, ⟨fun h => absurd h (by decide), fun h => absurd h hne⟩,
        fun h => absurd h hne⟩

theorem leBytes_zero_min (width n : Nat) :
    (compare (leBytes width n) (leBytes width 0)).isLT = false := by
  induction width generalizing n with
  | zero => rfl
  | succ width ih =>
    rw [leBytes, leBytes, List.compare_eq_compareLex, List.compareLex_cons_cons]
    have hzero : UInt8.ofNat (0 % 256) = 0 := rfl
    cases hbyte : compare (UInt8.ofNat (n % 256)) (UInt8.ofNat (0 % 256)) with
    | lt =>
      rw [hzero] at hbyte
      exact absurd (UInt8.lt_iff_toNat_lt.mp (Std.compare_eq_lt.mp hbyte)) (Nat.not_lt_zero _)
    | eq => exact ih (n / 256)
    | gt => rfl

theorem acentryKey_zero_min (strAccount : List UInt8) (nEntryNo : Nat) :
    (compare (acentryKey strAccount nEntryNo) (acentryKey [] 0)).isLT = false := by
  obtain ⟨b, rest, hkey, hb, hrest⟩ := acentryKey_head strAccount nEntryNo
  have hzero : acentryKey [] 0 = 0 :: leBytes 8 0 := rfl
  rw [hkey, hzero, List.compare_eq_compareLex, List.compareLex_cons_cons]
  cases hbyte : compare b 0 with
  | lt => exact absurd (UInt8.lt_iff_toNat_lt.mp (Std.compare_eq_lt.mp hbyte)) (Nat.not_lt_zero _)
  | eq =>
    rw [hrest (hb.mp (Std.LawfulEqCmp.eq_of_compare hbyte))]
    exact leBytes_zero_min 8 nEntryNo
  | gt => rfl

/-- What comes before a key of the account `""` is a key of the account `""`. -/
theorem account_nil_of_lt {strAccount strAccount' : List UInt8} {nEntryNo nEntryNo' : Nat}
    (hlt : compare (acentryKey strAccount nEntryNo) (acentryKey strAccount' nEntryNo') = .lt)
    (h : strAccount' = []) : strAccount = [] := by
  obtain ⟨b, rest, hkey, hb, -⟩ := acentryKey_head strAccount nEntryNo
  obtain ⟨b', rest', hkey', hb', -⟩ := acentryKey_head strAccount' nEntryNo'
  rw [hkey, hkey', hb'.mpr h, List.compare_eq_compareLex, List.compareLex_cons_cons] at hlt
  cases hbyte : compare b 0 with
  | lt => exact absurd (UInt8.lt_iff_toNat_lt.mp (Std.compare_eq_lt.mp hbyte)) (Nat.not_lt_zero _)
  | eq => exact hb.mp (Std.LawfulEqCmp.eq_of_compare hbyte)
  | gt =>
    rw [hbyte] at hlt
    cases hlt

/-- The entries on disk, in the order of the cursor. -/
def AcentryRecords.entries (db : AcentryRecords) : List CAccountingEntry :=
  db.records.toList.map (·.2)

theorem AcentryRecords.mem_entries (db : AcentryRecords) (acentry : CAccountingEntry) :
    acentry ∈ db.entries ↔ db.records[acentry.key]? = some acentry := by
  unfold AcentryRecords.entries
  rw [List.mem_map]
  constructor
  · rintro ⟨⟨key, acentry'⟩, hentry, rfl⟩
    have hfound := (Map.mem_toList _ _ _).mp hentry
    rw [db.keyed _ _ hfound]
    exact hfound
  · exact fun hfound => ⟨_, (Map.mem_toList _ _ _).mpr hfound, rfl⟩

theorem AcentryRecords.pairwise_entries (db : AcentryRecords) :
    db.entries.Pairwise fun a b => compare a.key b.key = .lt := by
  refine List.pairwise_map.mpr (List.Pairwise.imp_of_mem ?_
    (Std.ExtTreeMap.ordered_keys_toList (t := db.records)))
  rintro ⟨key, a⟩ ⟨key', b⟩ ha hb hlt
  dsimp only at hlt ⊢
  rwa [db.keyed _ _ ((Map.mem_toList _ _ _).mp ha), db.keyed _ _ ((Map.mem_toList _ _ _).mp hb)]

/-- No key comes before the first one of the account `""`. -/
theorem AcentryRecords.setRange_first (db : AcentryRecords) :
    db.setRange (acentryKey [] 0) = db.entries := by
  unfold AcentryRecords.setRange
  rw [List.dropWhile_eq_self_iff.mpr fun hl hlt => ?_]
  · rfl
  have hfirst : db.records.toList[0].2.key = db.records.toList[0].1 :=
    db.keyed _ _ ((Map.mem_toList _ _ _).mp (List.getElem_mem hl))
  rw [← hfirst, CAccountingEntry.key, acentryKey_zero_min] at hlt
  cases hlt

theorem listAccountCreditDebit_eq {dbs : DbStatus} {db : AcentryRecords}
    {listed : List CAccountingEntry} (h : listAccountCreditDebit dbs db [] = .ok listed) :
    listed = db.entries.takeWhile fun acentry => decide (acentry.strAccount = []) := by
  unfold listAccountCreditDebit at h
  have hall : (([] : List UInt8) == "*".toUTF8.toList) = false := by decide +kernel
  dsimp only at h
  rw [hall] at h
  split at h
  · cases h
  rw [readEntries_eq h, if_neg (by decide), db.setRange_first]
  rfl

/-- Exactly the entries of the account `""` are listed for it. -/
theorem mem_listAccountCreditDebit {dbs : DbStatus} {db : AcentryRecords}
    {listed : List CAccountingEntry} (h : listAccountCreditDebit dbs db [] = .ok listed)
    (acentry : CAccountingEntry) :
    acentry ∈ listed ↔ db.records[acentry.key]? = some acentry ∧ acentry.strAccount = [] := by
  rw [listAccountCreditDebit_eq h, ← db.mem_entries]
  constructor
  · intro htaken
    have haccount := List.mem_takeWhile_imp htaken
    exact ⟨(List.takeWhile_sublist _).mem htaken, of_decide_eq_true haccount⟩
  · rintro ⟨hmem, haccount⟩
    refine mem_takeWhile_of_pairwise db.pairwise_entries ?_ hmem (decide_eq_true haccount)
    intro a b _ _ hlt hb
    exact decide_eq_true (account_nil_of_lt hlt (of_decide_eq_true hb))

/-! ## Positions -/

/-- What identifies an item: the hash of a transaction, the key of an accounting entry. -/
inductive ItemId where
  | tx (hash : Uint256)
  | entry (key : List UInt8)
deriving DecidableEq

def OrderItem.id : OrderItem → ItemId
  | .tx hash _ => .tx hash
  | .entry acentry => .entry acentry.key

/-- A transaction of `mapWallet`, or an accounting entry of the account `""` on disk. -/
def OrderWallet.find (wallet : OrderWallet) : ItemId → Option OrderItem
  | .tx hash => wallet.mapWallet[hash]?.map (.tx hash)
  | .entry key =>
    (wallet.acentries.records[key]?.filter fun acentry => acentry.strAccount.isEmpty).map .entry

/-- The record of a transaction on disk is the one in memory. -/
def OrderWallet.InStep (wallet : OrderWallet) : ItemId → Prop
  | .tx hash => wallet.diskTxs[hash]? = wallet.mapWallet[hash]?
  | .entry _ => True

/-- The transactions are under their hashes. -/
def OrderWallet.Hashed (env : Env) (wallet : OrderWallet) : Prop :=
  ∀ (hash : Uint256) (wtx : OrderedTx), wallet.mapWallet[hash]? = some wtx →
    wtx.tx.getHash env = hash

/-- Where a position goes when others have been inserted. -/
def shifted (nOrderPosOffsets : List Int) (nOrderPos : Int) : Int :=
  nOrderPos + nOrderPosOffsets.countP fun nOffsetStart => nOrderPos ≥ nOffsetStart

theorem shifted_strictMono (nOrderPosOffsets : List Int) {p q : Int} (h : p < q) :
    shifted nOrderPosOffsets p < shifted nOrderPosOffsets q := by
  have hle : nOrderPosOffsets.countP (fun o => p ≥ o) ≤ nOrderPosOffsets.countP fun o => q ≥ o := by
    refine List.countP_mono_left fun o _ ho => ?_
    exact decide_eq_true ((of_decide_eq_true ho).trans h.le)
  exact add_lt_add_of_lt_of_le h (Int.ofNat_le.mpr hle)

theorem le_shifted (nOrderPosOffsets : List Int) (p : Int) : p ≤ shifted nOrderPosOffsets p :=
  le_add_of_nonneg_right (Int.natCast_nonneg _)

/-- What is inserted above a position does not move it. -/
theorem shifted_append {nOrderPosOffsets : List Int} {p o : Int} (h : p < o) :
    shifted (nOrderPosOffsets ++ [o]) p = shifted nOrderPosOffsets p := by
  unfold shifted
  rw [List.countP_append, List.countP_singleton, if_neg (by simpa using h), Nat.add_zero]

theorem shifted_ne {nOrderPosOffsets : List Int} (h : ∀ o ∈ nOrderPosOffsets, 0 ≤ o) {p : Int}
    (hp : p ≠ -1) : shifted nOrderPosOffsets p ≠ -1 := by
  rcases lt_or_ge p 0 with hneg | hnonneg
  · have hnone : nOrderPosOffsets.countP (fun o => p ≥ o) = 0 :=
      List.countP_eq_zero.mpr fun o ho hle =>
        absurd (of_decide_eq_true hle) (not_le.mpr (hneg.trans_le (h o ho)))
    rw [shifted, hnone]
    simpa using hp
  · exact fun h => absurd ((le_shifted nOrderPosOffsets p).trans_eq h) (by omega)

namespace OrderItem

@[simp] theorem nOrderPos_setPos (item : OrderItem) (nOrderPos : Int) :
    (item.setPos nOrderPos).nOrderPos = nOrderPos := by
  cases item <;> rfl

end OrderItem

namespace OrderWallet

theorem find_tx_eq_some {wallet : OrderWallet} {hash : Uint256} {item : OrderItem} :
    wallet.find (.tx hash) = some item ↔
      ∃ wtx, wallet.mapWallet[hash]? = some wtx ∧ item = .tx hash wtx := by
  refine Option.map_eq_some_iff.trans ⟨?_, ?_⟩
  · rintro ⟨wtx, hget, rfl⟩
    exact ⟨wtx, hget, rfl⟩
  · rintro ⟨wtx, hget, rfl⟩
    exact ⟨wtx, hget, rfl⟩

theorem find_entry_eq_some {wallet : OrderWallet} {key : List UInt8} {item : OrderItem} :
    wallet.find (.entry key) = some item ↔ ∃ acentry,
      wallet.acentries.records[key]? = some acentry ∧ acentry.strAccount = [] ∧
        item = .entry acentry := by
  refine Option.map_eq_some_iff.trans ⟨?_, ?_⟩
  · rintro ⟨acentry, hget, rfl⟩
    obtain ⟨hget, haccount⟩ := Option.filter_eq_some_iff.mp hget
    exact ⟨acentry, hget, List.isEmpty_iff.mp haccount, rfl⟩
  · rintro ⟨acentry, hget, haccount, rfl⟩
    exact ⟨acentry, Option.filter_eq_some_iff.mpr ⟨hget, List.isEmpty_iff.mpr haccount⟩, rfl⟩

theorem id_of_find {wallet : OrderWallet} {id : ItemId} {item : OrderItem}
    (h : wallet.find id = some item) : item.id = id := by
  cases id with
  | tx hash =>
    obtain ⟨wtx, -, rfl⟩ := find_tx_eq_some.mp h
    rfl
  | entry key =>
    obtain ⟨acentry, hfound, -, rfl⟩ := find_entry_eq_some.mp h
    exact congrArg ItemId.entry (wallet.acentries.keyed _ _ hfound)

variable {env : Env} {wallet : OrderWallet} {hash : Uint256} {wtx : OrderedTx}
  {acentry : CAccountingEntry} {id : ItemId}

theorem find_store_tx : (wallet.store (.tx hash wtx)).find id =
    if id = .tx hash then some (.tx hash wtx) else wallet.find id := by
  cases id with
  | tx hash' =>
    show ((wallet.mapWallet.insert hash wtx)[hash']?).map (OrderItem.tx hash') = _
    rw [Map.getElem?_insert]
    by_cases hsame : hash = hash'
    · subst hsame
      rw [if_pos rfl, if_pos rfl]
      rfl
    · rw [if_neg hsame, if_neg (fun h => hsame (ItemId.tx.inj h).symm)]
      rfl
  | entry key =>
    rw [if_neg (fun h => by cases h)]
    rfl

theorem find_write_tx : (wallet.write env (.tx hash wtx)).find id = wallet.find id := by
  cases id <;> rfl

theorem find_write_entry (haccount : acentry.strAccount = []) :
    (wallet.write env (.entry acentry)).find id =
      if id = .entry acentry.key then some (.entry acentry) else wallet.find id := by
  cases id with
  | tx hash' =>
    rw [if_neg (fun h => by cases h)]
    rfl
  | entry key =>
    show (((wallet.acentries.records.insert acentry.key acentry)[key]?).filter _).map _ = _
    rw [Map.getElem?_insert]
    by_cases hsame : acentry.key = key
    · rw [if_pos hsame, if_pos (congrArg ItemId.entry hsame.symm), Option.filter_some,
        if_pos (by rw [haccount]; rfl)]
      rfl
    · rw [if_neg hsame, if_neg (fun h => hsame (ItemId.entry.inj h).symm)]
      rfl

theorem inStep_store (h : wallet.InStep id) (hne : id ≠ .tx hash) :
    (wallet.store (.tx hash wtx)).InStep id := by
  cases id with
  | tx hash' =>
    show wallet.diskTxs[hash']? = (wallet.mapWallet.insert hash wtx)[hash']?
    rw [Map.getElem?_insert, if_neg (fun heq => hne (congrArg ItemId.tx heq.symm))]
    exact h
  | entry key => trivial

theorem inStep_write_tx (hhash : wtx.tx.getHash env = hash)
    (h : id ≠ .tx hash → wallet.InStep id) :
    ((wallet.store (.tx hash wtx)).write env (.tx hash wtx)).InStep id := by
  cases id with
  | tx hash' =>
    show (wallet.diskTxs.insert (wtx.tx.getHash env) wtx)[hash']? =
      (wallet.mapWallet.insert hash wtx)[hash']?
    rw [hhash, Map.getElem?_insert, Map.getElem?_insert]
    by_cases hsame : hash = hash'
    · rw [if_pos hsame, if_pos hsame]
    · rw [if_neg hsame, if_neg hsame]
      exact h fun heq => hsame (ItemId.tx.inj heq).symm
  | entry key => trivial

theorem account_of_find (h : wallet.find (.entry acentry.key) = some (.entry acentry)) :
    acentry.strAccount = [] := by
  obtain ⟨acentry', -, haccount, heq⟩ := find_entry_eq_some.mp h
  rw [OrderItem.entry.inj heq]
  exact haccount

end OrderWallet

/-- What one item does: its position, the positions that are inserted, and the next one. -/
inductive Step (item : OrderItem) (s s' : Reordering) (p : Int) : Prop
  | inserted (hnone : item.nOrderPos = -1) (hp : p = s.wallet.nOrderPosNext)
      (hnext : s'.wallet.nOrderPosNext = p + 1)
      (hoffsets : s'.nOrderPosOffsets = s.nOrderPosOffsets ++ [p])
  | moved (hsome : item.nOrderPos ≠ -1) (hp : p = shifted s.nOrderPosOffsets item.nOrderPos)
      (hnext : s'.wallet.nOrderPosNext = max s.wallet.nOrderPosNext (p + 1))
      (hoffsets : s'.nOrderPosOffsets = s.nOrderPosOffsets)

theorem reorderItem_ok {env : Env} {fWritten : Bool} {item : OrderItem} {s s' : Reordering}
    (hfound : s.wallet.find item.id = some item) (hhashed : s.wallet.Hashed env)
    (h : reorderItem env fWritten item s = (s', true)) :
    ∃ p, Step item s s' p ∧
      (∀ id, s'.wallet.find id =
        if id = item.id then some (item.setPos p) else s.wallet.find id) ∧
      (∀ id, s.wallet.InStep id → (id = item.id → item.nOrderPos ≠ -1) → s'.wallet.InStep id) ∧
      s'.wallet.Hashed env := by
  unfold reorderItem at h
  dsimp only at h
  cases item with
  | tx hash wtx =>
    have hwtx : s.wallet.mapWallet[hash]? = some wtx := by
      obtain ⟨wtx', hget, heq⟩ := OrderWallet.find_tx_eq_some.mp hfound
      rw [hget, (OrderItem.tx.inj heq).2]
    have hhash := hhashed hash wtx hwtx
    have hkept : ∀ (p : Int) (hash' : Uint256) (wtx' : OrderedTx), (s.wallet.mapWallet.insert hash
        { wtx with nOrderPos := p })[hash']? = some wtx' → wtx'.tx.getHash env = hash' := by
      intro p hash' wtx' hget
      rw [Map.getElem?_insert] at hget
      split at hget
      · next heq =>
        rw [← Option.some.inj hget, ← heq]
        exact hhash
      · exact hhashed hash' wtx' hget
    split at h
    · next hnone =>
      cases h
      exact ⟨_, .inserted hnone rfl rfl rfl, fun id => OrderWallet.find_store_tx,
        fun id hstep hne => OrderWallet.inStep_store hstep fun heq => hne heq hnone, hkept _⟩
    · next hsome =>
      split at h
      · next hoff =>
        cases h
        refine ⟨_, .moved hsome rfl rfl rfl, fun id => OrderWallet.find_store_tx, ?_, hkept _⟩
        intro id hstep _
        -- a position that does not move leaves the transaction as it was
        have hsame : ({ wtx with nOrderPos := wtx.nOrderPos + ((s.nOrderPosOffsets.countP
            fun nOffsetStart => wtx.nOrderPos ≥ nOffsetStart : Nat) : Int) } : OrderedTx) =
              wtx := by
          have hzero : s.nOrderPosOffsets.countP
              (fun nOffsetStart => decide (wtx.nOrderPos ≥ nOffsetStart)) = 0 := hoff
          rw [hzero, Int.natCast_zero, add_zero]
        cases id with
        | tx hash' =>
          show s.wallet.diskTxs[hash']? = (s.wallet.mapWallet.insert hash _)[hash']?
          rw [Map.getElem?_insert]
          split
          · next heq =>
            rw [← heq] at hstep ⊢
            exact (hstep.trans hwtx).trans (congrArg some hsame.symm)
          · exact hstep
        | entry key => trivial
      · split at h
        · cases h
          refine ⟨_, .moved hsome rfl rfl rfl, fun id => ?_, fun id hstep _ => ?_, hkept _⟩
          · exact (@OrderWallet.find_write_tx env _ hash _ id).trans OrderWallet.find_store_tx
          · exact OrderWallet.inStep_write_tx hhash fun _ => hstep
        · cases h
  | entry acentry =>
    have haccount := OrderWallet.account_of_find hfound
    split at h
    · next hnone =>
      dsimp only at h
      split at h
      · cases h
        refine ⟨_, .inserted hnone rfl rfl rfl, fun id => ?_, fun id hstep _ => ?_, hhashed⟩
        · exact @OrderWallet.find_write_entry env _ { acentry with nOrderPos := _ } id haccount
        · cases id <;> exact hstep
      · cases h
    · next hsome =>
      split at h
      · next hoff =>
        cases h
        refine ⟨_, .moved hsome rfl rfl rfl, fun id => ?_, fun id hstep _ => ?_, hhashed⟩
        · have hsame : OrderItem.setPos (shifted s.nOrderPosOffsets acentry.nOrderPos)
              (.entry acentry) = .entry acentry := by
            have hzero : s.nOrderPosOffsets.countP
                (fun nOffsetStart => decide (acentry.nOrderPos ≥ nOffsetStart)) = 0 := hoff
            rw [shifted, hzero, Int.natCast_zero, add_zero]
            rfl
          show _ = if id = _ then some (OrderItem.setPos (shifted s.nOrderPosOffsets
            acentry.nOrderPos) (.entry acentry)) else _
          rw [hsame]
          split
          · next heq =>
            rw [heq]
            cases heq
            exact hfound
          · cases id <;> rfl
        · cases id <;> exact hstep
      · split at h
        · cases h
          refine ⟨_, .moved hsome rfl rfl rfl, fun id => ?_, fun id hstep _ => ?_, hhashed⟩
          · exact @OrderWallet.find_write_entry env _ { acentry with nOrderPos := _ } id haccount
          · cases id <;> exact hstep
        · cases h

/-- The items before the rest have been given their positions. -/
structure Numbered (env : Env) (wallet : OrderWallet) (rest : List OrderItem) (s : Reordering) :
    Prop where
  next : 0 ≤ s.wallet.nOrderPosNext
  offsets : ∀ o ∈ s.nOrderPosOffsets, 0 ≤ o
  hashed : s.wallet.Hashed env
  distinct : rest.Pairwise fun a b => a.id ≠ b.id
  origin : ∀ item ∈ rest, wallet.find item.id = some item
  waiting : ∀ item ∈ rest, s.wallet.find item.id = some item
  absent : ∀ id, wallet.find id = none → s.wallet.find id = none
  placed : ∀ id item, wallet.find id = some item → item ∉ rest →
    ∃ p, s.wallet.find id = some (item.setPos p) ∧ p < s.wallet.nOrderPosNext ∧
      (item.nOrderPos = -1 ∧ 0 ≤ p ∨
        item.nOrderPos ≠ -1 ∧ p = shifted s.nOrderPosOffsets item.nOrderPos)
  apart : ∀ id id' item item' a b, wallet.find id = some item → wallet.find id' = some item' →
    item ∉ rest → item' ∉ rest → item.nOrderPos = -1 → item'.nOrderPos = -1 → id ≠ id' →
    s.wallet.find id = some a → s.wallet.find id' = some b → a.nOrderPos ≠ b.nOrderPos
  inStep : ∀ id item, wallet.find id = some item → item.nOrderPos ≠ -1 → wallet.InStep id →
    s.wallet.InStep id

namespace Numbered

variable {env : Env} {wallet : OrderWallet} {item : OrderItem} {rest : List OrderItem}
  {s s' : Reordering} {p : Int}

theorem next_of_step (h : Numbered env wallet (item :: rest) s) (hstep : Step item s s' p) :
    s.wallet.nOrderPosNext ≤ s'.wallet.nOrderPosNext ∧ p < s'.wallet.nOrderPosNext ∧
      (item.nOrderPos = -1 ∧ 0 ≤ p ∨
        item.nOrderPos ≠ -1 ∧ p = shifted s'.nOrderPosOffsets item.nOrderPos) := by
  cases hstep with
  | inserted hnone hp hnext _ =>
    have hnonneg := h.next
    rw [hnext]
    exact ⟨by omega, by omega, .inl ⟨hnone, by omega⟩⟩
  | moved hsome hp hnext hoffsets =>
    rw [hnext, hoffsets]
    exact ⟨le_max_left _ _, by omega, .inr ⟨hsome, hp⟩⟩

/-- A position below the next one stays where it is when something is inserted. -/
theorem shifted_of_step (hstep : Step item s s' p) {q : Int}
    (hq : shifted s.nOrderPosOffsets q < s.wallet.nOrderPosNext) :
    shifted s'.nOrderPosOffsets q = shifted s.nOrderPosOffsets q := by
  cases hstep with
  | inserted _ hp _ hoffsets =>
    rw [hoffsets, shifted_append (((le_shifted _ q).trans_lt hq).trans_eq hp.symm)]
  | moved _ _ _ hoffsets => rw [hoffsets]

theorem step (h : Numbered env wallet (item :: rest) s) (hstep : Step item s s' p)
    (hfind : ∀ id, s'.wallet.find id =
      if id = item.id then some (item.setPos p) else s.wallet.find id)
    (hsteps : ∀ id, s.wallet.InStep id → (id = item.id → item.nOrderPos ≠ -1) →
      s'.wallet.InStep id)
    (hhashed : s'.wallet.Hashed env) : Numbered env wallet rest s' := by
  obtain ⟨hle, hp, hplaced⟩ := h.next_of_step hstep
  have horigin := h.origin item List.mem_cons_self
  obtain ⟨hfirst, hdistinct⟩ := List.pairwise_cons.mp h.distinct
  -- what is placed is the item itself, or has been placed before
  have hearlier : ∀ id item', wallet.find id = some item' → item' ∉ rest → id ≠ item.id →
      item' ∉ item :: rest := by
    intro id item' hfound hrest hne hmem
    rcases List.mem_cons.mp hmem with heq | hmem
    · rw [heq] at hfound
      exact hne (OrderWallet.id_of_find hfound).symm
    · exact hrest hmem
  have hsame : ∀ id item', wallet.find id = some item' → id = item.id → item' = item := by
    intro id item' hfound heq
    rw [heq, horigin] at hfound
    exact (Option.some.inj hfound).symm
  -- a new position is above those that have been given
  have habove : ∀ id item' a, wallet.find id = some item' → item' ∉ rest →
      item.nOrderPos = -1 → id ≠ item.id → s.wallet.find id = some a → a.nOrderPos < p := by
    intro id item' a hfound hrest hnone hne ha
    obtain ⟨q, hq, hlt, -⟩ := h.placed id item' hfound (hearlier id item' hfound hrest hne)
    rw [ha] at hq
    rw [Option.some.inj hq, OrderItem.nOrderPos_setPos]
    cases hstep with
    | inserted _ hp _ _ => exact hlt.trans_eq hp.symm
    | moved hsome _ _ _ => exact absurd hnone hsome
  refine ⟨h.next.trans hle, ?_, hhashed, hdistinct, fun other hmem =>
    h.origin other (List.mem_cons_of_mem _ hmem), ?_, ?_, ?_, ?_, ?_⟩
  · intro o ho
    cases hstep with
    | inserted _ hp _ hoffsets =>
      rw [hoffsets] at ho
      rcases List.mem_append.mp ho with ho | ho
      · exact h.offsets o ho
      · rw [List.mem_singleton.mp ho, hp]
        exact h.next
    | moved _ _ _ hoffsets =>
      rw [hoffsets] at ho
      exact h.offsets o ho
  · intro other hmem
    rw [hfind, if_neg (hfirst other hmem).symm]
    exact h.waiting other (List.mem_cons_of_mem _ hmem)
  · intro id hnone
    rw [hfind, if_neg (fun heq => ?_)]
    · exact h.absent id hnone
    · rw [heq, horigin] at hnone
      cases hnone
  · intro id item' hfound hrest
    by_cases hid : id = item.id
    · obtain rfl := hsame id item' hfound hid
      exact ⟨p, (hfind id).trans (if_pos hid), hp, hplaced⟩
    · obtain ⟨q, hq, hlt, hcases⟩ := h.placed id item' hfound (hearlier id item' hfound hrest hid)
      refine ⟨q, (hfind id).trans ((if_neg hid).trans hq), hlt.trans_le hle, ?_⟩
      rcases hcases with hnone | ⟨hsome, hshifted⟩
      · exact .inl hnone
      · refine .inr ⟨hsome, ?_⟩
        rw [shifted_of_step hstep (hshifted ▸ hlt)]
        exact hshifted
  · intro id id' item₁ item₂ a b hfound hfound' hrest hrest' hnone hnone' hne ha hb
    rw [hfind] at ha hb
    by_cases hid : id = item.id
    · have hid' : id' ≠ item.id := fun h => hne (hid.trans h.symm)
      obtain rfl := hsame id item₁ hfound hid
      rw [if_pos hid] at ha
      rw [if_neg hid'] at hb
      rw [← Option.some.inj ha, OrderItem.nOrderPos_setPos]
      exact (habove id' item₂ b hfound' hrest' hnone hid' hb).ne'
    · rw [if_neg hid] at ha
      by_cases hid' : id' = item.id
      · obtain rfl := hsame id' item₂ hfound' hid'
        rw [if_pos hid'] at hb
        rw [← Option.some.inj hb, OrderItem.nOrderPos_setPos]
        exact (habove id item₁ a hfound hrest hnone' hid ha).ne
      · rw [if_neg hid'] at hb
        exact h.apart id id' item₁ item₂ a b hfound hfound' (hearlier id item₁ hfound hrest hid)
          (hearlier id' item₂ hfound' hrest' hid') hnone hnone' hne ha hb
  · intro id item' hfound hsome hin
    refine hsteps id (h.inStep id item' hfound hsome hin) fun heq => ?_
    rw [← hsame id item' hfound heq]
    exact hsome

theorem loop {dbs : DbStatus} {n : Nat} {wallet' : OrderWallet}
    (h : Numbered env wallet rest s) (hrun : reorderLoop env dbs n rest s = (wallet', .loadOk)) :
    ∃ s', Numbered env wallet [] s' ∧ s'.wallet = wallet' := by
  induction rest generalizing n s with
  | nil =>
    refine ⟨s, h, ?_⟩
    exact congrArg Prod.fst hrun
  | cons item rest ih =>
    unfold reorderLoop at hrun
    dsimp only at hrun
    split at hrun
    · next hgoes =>
      obtain ⟨p, hstep, hfind, hsteps, hhashed⟩ := reorderItem_ok
        (h.waiting item List.mem_cons_self) h.hashed (Prod.ext rfl hgoes)
      exact ih (h.step hstep hfind hsteps hhashed) hrun
    · cases congrArg Prod.snd hrun

end Numbered

/-! ## The items -/

section items

theorem insertByTime_perm (item : OrderItem) (items : List OrderItem) :
    (insertByTime item items).Perm (item :: items) := by
  induction items with
  | nil => exact .rfl
  | cons other items ih =>
    rw [insertByTime]
    split
    · exact .rfl
    · exact (ih.cons other).trans (.swap item other items)

theorem foldl_insertByTime_perm (items sorted : List OrderItem) :
    (items.foldl (fun items item => insertByTime item items) sorted).Perm (items ++ sorted) := by
  induction items generalizing sorted with
  | nil => exact .rfl
  | cons item items ih =>
    exact (ih _).trans (((insertByTime_perm item sorted).append_left items).trans
      List.perm_middle)

theorem txByTime_perm (wallet : OrderWallet) (acentries : List CAccountingEntry) :
    (txByTime wallet acentries).Perm (wallet.mapWallet.toList.map
      (fun entry => OrderItem.tx entry.1 entry.2) ++ acentries.map OrderItem.entry) :=
  (foldl_insertByTime_perm _ _).trans (.of_eq (List.append_nil _))

variable {dbs : DbStatus} {wallet : OrderWallet} {listed : List CAccountingEntry}

theorem mem_txByTime (h : listAccountCreditDebit dbs wallet.acentries [] = .ok listed)
    (item : OrderItem) : item ∈ txByTime wallet listed ↔ wallet.find item.id = some item := by
  rw [(txByTime_perm wallet listed).mem_iff, List.mem_append, List.mem_map, List.mem_map]
  cases item with
  | tx hash wtx =>
    constructor
    · rintro (⟨⟨hash', wtx'⟩, hmem, heq⟩ | ⟨acentry, -, heq⟩)
      · cases heq
        exact OrderWallet.find_tx_eq_some.mpr ⟨wtx', (Map.mem_toList _ _ _).mp hmem, rfl⟩
      · cases heq
    · intro hfound
      obtain ⟨wtx', hget, heq⟩ := OrderWallet.find_tx_eq_some.mp hfound
      obtain rfl := (OrderItem.tx.inj heq).2
      exact .inl ⟨(hash, wtx), (Map.mem_toList _ _ _).mpr hget, rfl⟩
  | entry acentry =>
    constructor
    · rintro (⟨entry, -, heq⟩ | ⟨acentry', hmem, heq⟩)
      · cases heq
      · cases heq
        obtain ⟨hget, haccount⟩ := (mem_listAccountCreditDebit h acentry).mp hmem
        exact OrderWallet.find_entry_eq_some.mpr ⟨acentry, hget, haccount, rfl⟩
    · intro hfound
      obtain ⟨acentry', hget, haccount, heq⟩ := OrderWallet.find_entry_eq_some.mp hfound
      obtain rfl := OrderItem.entry.inj heq
      exact .inr ⟨acentry, (mem_listAccountCreditDebit h acentry).mpr ⟨hget, haccount⟩, rfl⟩

theorem pairwise_txByTime (h : listAccountCreditDebit dbs wallet.acentries [] = .ok listed) :
    (txByTime wallet listed).Pairwise fun a b => a.id ≠ b.id := by
  refine ((txByTime_perm wallet listed).pairwise_iff fun hne => hne.symm).mpr ?_
  refine List.pairwise_append.mpr ⟨?_, ?_, ?_⟩
  · refine List.pairwise_map.mpr ((Map.pairwise_toList _).imp fun hne heq => hne ?_)
    exact ItemId.tx.inj heq
  · refine List.pairwise_map.mpr ?_
    rw [listAccountCreditDebit_eq h]
    refine (wallet.acentries.pairwise_entries.sublist (List.takeWhile_sublist _)).imp ?_
    intro a b hlt heq
    rw [ItemId.entry.inj heq, (Std.ReflCmp.compare_self : compare b.key b.key = .eq)] at hlt
    cases hlt
  · intro a ha b hb heq
    obtain ⟨entry, -, rfl⟩ := List.mem_map.mp ha
    obtain ⟨acentry, -, rfl⟩ := List.mem_map.mp hb
    cases heq

theorem Numbered.start {env : Env} (hhashed : wallet.Hashed env)
    (h : listAccountCreditDebit dbs wallet.acentries [] = .ok listed) :
    Numbered env wallet (txByTime wallet listed) ⟨{ wallet with nOrderPosNext := 0 }, []⟩ where
  next := le_rfl
  offsets o ho := by cases ho
  hashed := hhashed
  distinct := pairwise_txByTime h
  origin item hmem := (mem_txByTime h item).mp hmem
  waiting item hmem := by
    have hfound := (mem_txByTime h item).mp hmem
    cases item <;> exact hfound
  absent id hnone := by cases id <;> exact hnone
  placed id item hfound hrest := by
    rw [← OrderWallet.id_of_find hfound] at hfound
    exact absurd ((mem_txByTime h item).mpr hfound) hrest
  apart id id' item item' a b hfound _ hrest := by
    rw [← OrderWallet.id_of_find hfound] at hfound
    exact absurd ((mem_txByTime h item).mpr hfound) hrest
  inStep id item hfound hsome hin := by cases id <;> exact hin

end items

section samples

/-- A database without errors. -/
def soundDb : DbStatus := ⟨true, fun _ => true, fun _ => true⟩

def orderEntry (strAccount : List UInt8) (nTime nOrderPos : Int) : CAccountingEntry :=
  ⟨strAccount, 1, nTime, [], [], ∅, nOrderPos, 1, []⟩

/-- A transaction without a position. -/
def unorderedTx : OrderedTx :=
  { CWalletTx.ofTx pooledTx with nTimeReceived := 1333333335, nOrderPos := -1 }

/-- A wallet with that transaction, an entry at 3 and an entry of the account `a` without
a position. -/
def unorderedWallet : OrderWallet where
  mapWallet := (∅ : Map Uint256 OrderedTx).insert (pooledTx.getHash testNet) unorderedTx
  nOrderPosNext := 0
  diskTxs := (∅ : Map Uint256 OrderedTx).insert (pooledTx.getHash testNet) unorderedTx
  acentries := ((⟨∅, fun key acentry h => by cases (Map.getElem?_empty key).symm.trans h⟩ :
    AcentryRecords).write (orderEntry [] 1333333336 3)).write (orderEntry [97] 1333333337 (-1))

theorem find_unorderedWallet {id : ItemId} {item : OrderItem}
    (h : unorderedWallet.find id = some item) :
    item = .tx (pooledTx.getHash testNet) unorderedTx ∨
      item = .entry (orderEntry [] 1333333336 3) := by
  cases id with
  | tx hash =>
    obtain ⟨wtx, hget, rfl⟩ := OrderWallet.find_tx_eq_some.mp h
    refine .inl ?_
    rw [unorderedWallet, Map.getElem?_insert] at hget
    split at hget
    · next heq =>
      have hwtx : wtx = unorderedTx := (Option.some.inj hget).symm
      rw [hwtx, ← heq]
    · cases (Map.getElem?_empty hash).symm.trans hget
  | entry key =>
    obtain ⟨acentry, hget, haccount, rfl⟩ := OrderWallet.find_entry_eq_some.mp h
    refine .inr (congrArg OrderItem.entry ?_)
    rw [unorderedWallet, AcentryRecords.write, Map.getElem?_insert] at hget
    split at hget
    · rw [← Option.some.inj hget] at haccount
      cases haccount
    · rw [AcentryRecords.write, Map.getElem?_insert] at hget
      split at hget
      · exact (Option.some.inj hget).symm
      · cases (Map.getElem?_empty key).symm.trans hget

/-- A wallet with entries at the times 0 to 3: without a position, at 0, without one, and at 1. -/
def unevenWallet : OrderWallet where
  mapWallet := ∅
  nOrderPosNext := 0
  diskTxs := ∅
  acentries := [(0, -1), (1, 0), (2, -1), (3, 1)].foldl
    (fun acentries entry => acentries.write
      { orderEntry [] entry.1 entry.2 with nEntryNo := entry.1.toNat })
    ⟨∅, fun key acentry h => by cases (Map.getElem?_empty key).symm.trans h⟩

end samples

end NoLimitCoin
