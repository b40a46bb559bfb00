import NoLimitCoin.KeyPoolRuns
import NoLimitCoin.MerkleBranch
import NoLimitCoin.OrphanTxRuns

/-!
# Payments of the wallet

`CommitTransaction` of `wallet.cpp` records a payment before it offers it to the memory pool: the
key of its change leaves the key pool, the transaction enters `mapWallet`, and the coins that it
spends are marked.

Results:
1. `recordTransaction_records`: what has been recorded.
2. `commitTransaction_records`: a payment that the memory pool refuses stays recorded.
-/

namespace NoLimitCoin

open Prog
open KeyPool (CPubKey Thrown)

/-! ## Wallet transactions -/

/-- A transaction of the wallet; `vfSpent` tells which of its outputs are spent. -/
structure CWalletTx extends CMerkleTx where
  fFromMe : Bool
  vfSpent : List Bool

namespace CWalletTx

/-- `CWalletTx(pwallet, txIn)`. -/
def ofTx (tx : CTransaction) : CWalletTx := ⟨.ofTx tx, false, []⟩

/-- `IsSpent`. -/
def isSpent (wtx : CWalletTx) (nOut : Nat) : Except Thrown Bool :=
  if wtx.tx.vout.length ≤ nOut then
    .error (.runtimeError "CWalletTx::IsSpent() : nOut out of range")
  else .ok (wtx.vfSpent[nOut]?.getD false)

/-- `vfSpent.resize(vout.size())`. -/
def resizeSpent (wtx : CWalletTx) : List Bool :=
  wtx.vfSpent.take wtx.tx.vout.length ++
    List.replicate (wtx.tx.vout.length - wtx.vfSpent.length) false

/-- `MarkSpent`. -/
def markSpent (wtx : CWalletTx) (nOut : Nat) : Except Thrown CWalletTx :=
  if wtx.tx.vout.length ≤ nOut then
    .error (.runtimeError "CWalletTx::MarkSpent() : nOut out of range")
  else .ok { wtx with vfSpent := wtx.resizeSpent.set nOut true }

/-- `MarkUnspent`. -/
def markUnspent (wtx : CWalletTx) (nOut : Nat) : Except Thrown CWalletTx :=
  if wtx.tx.vout.length ≤ nOut then
    .error (.runtimeError "CWalletTx::MarkUnspent() : nOut out of range")
  else .ok { wtx with vfSpent := wtx.resizeSpent.set nOut false }

/-- `UpdateSpent`: whether a flag has changed, and the flags. -/
def updateSpent : (vfNewSpent vfSpent : List Bool) → Bool × List Bool
  | fNew :: vfNewSpent, fOld :: vfSpent =>
    let (fReturn, flags) := updateSpent vfNewSpent vfSpent
    ((fNew && !fOld) || fReturn, (fNew || fOld) :: flags)
  | _, vfSpent => (false, vfSpent)

/-- What `AddToWallet` takes over from `wtxIn` for a transaction that is there: `fUpdated`, and the
transaction. -/
def merge (wtx wtxIn : CWalletTx) : Bool × CWalletTx :=
  let fBlock := decide (wtxIn.hashBlock ≠ 0 ∧ wtxIn.hashBlock ≠ wtx.hashBlock)
  let fBranch := decide (wtxIn.nIndex ≠ -1 ∧
    (wtxIn.vMerkleBranch ≠ wtx.vMerkleBranch ∨ wtxIn.nIndex ≠ wtx.nIndex))
  let fMe := wtxIn.fFromMe && !wtx.fFromMe
  let spent := updateSpent wtxIn.vfSpent wtx.vfSpent
  (fBlock || fBranch || fMe || spent.1,
    { wtx with
      hashBlock := if fBlock then wtxIn.hashBlock else wtx.hashBlock
      vMerkleBranch := if fBranch then wtxIn.vMerkleBranch else wtx.vMerkleBranch
      nIndex := if fBranch then wtxIn.nIndex else wtx.nIndex
      fFromMe := if fMe then wtxIn.fFromMe else wtx.fFromMe
      vfSpent := spent.2 })

end CWalletTx

/-! ## The wallet -/

/-- What the wallet asks about scripts and the node, and how it has been built. -/
structure WalletEnv where
  /-- `IsMine` of an output. -/
  isMine : CTxOut → Bool
  /-- `IsTrusted`, which asks for the depth of the transaction. -/
  isTrusted : CWalletTx → Bool
  /-- `(IsCoinBase() || IsCoinStake()) && GetBlocksToMaturity() > 0`. -/
  isImmature : CWalletTx → Bool
  /-- The script that `SetDestination` makes of the address of a public key. -/
  scriptOfKey : CPubKey → CScript
  /-- `-keypool`. -/
  nKeypool : Nat
  /-- Whether it has been built with `QT_GUI`. -/
  qtGui : Bool
  /-- `GetAdjustedTime`. -/
  nAdjustedTime : Nat

/-- The part of `CWallet` that a payment changes; `disk` has the transactions of `wallet.dat`. -/
structure CWallet where
  mapWallet : Map Uint256 CWalletTx
  disk : Map Uint256 CWalletTx
  keys : KeyPool.CWallet

abbrev WalletM := EStateM Thrown CWallet

namespace CWallet

/-- `GetCredit` of an output. -/
def getCredit (wenv : WalletEnv) (txout : CTxOut) : Except Thrown Int :=
  if !moneyRange txout.nValue then
    .error (.runtimeError "CWallet::GetCredit() : value out of range")
  else .ok (if wenv.isMine txout then txout.nValue else 0)

/-- `GetAvailableCredit`. -/
def getAvailableCredit (wenv : WalletEnv) (wtx : CWalletTx) : Except Thrown Int :=
  if wenv.isImmature wtx then .ok 0
  else wtx.tx.vout.zipIdx.foldlM (fun nCredit (txout, i) => do
    if ← wtx.isSpent i then pure nCredit
    else do
      let nCredit := nCredit + (← getCredit wenv txout)
      if moneyRange nCredit then pure nCredit
      else throw (.runtimeError "CWalletTx::GetAvailableCredit() : value out of range")) 0

/-- `GetBalance`. -/
def getBalance (wenv : WalletEnv) (wallet : CWallet) : Except Thrown Int :=
  wallet.mapWallet.toList.foldlM (fun nTotal (_, wtx) =>
    if wenv.isTrusted wtx then (nTotal + ·) <$> getAvailableCredit wenv wtx else pure nTotal) 0

def get : WalletM CWallet := fun wallet => .ok wallet wallet

def modify (f : CWallet → CWallet) : WalletM Unit := fun wallet => .ok () (f wallet)

def insertTx (wallet : CWallet) (hash : Uint256) (wtx : CWalletTx) : CWallet :=
  { wallet with mapWallet := wallet.mapWallet.insert hash wtx }

/-- Store the transaction `hash`. -/
def put (hash : Uint256) (wtx : CWalletTx) : WalletM Unit :=
  modify fun wallet => wallet.insertTx hash wtx

/-- Call a function of the key pool. -/
def onKeys {α : Type} (x : KeyPool.WalletM α) : WalletM α := fun wallet =>
  match x wallet.keys with
  | .ok a keys => .ok a { wallet with keys := keys }
  | .error e keys => .error e { wallet with keys := keys }

/-- One write to `wallet.dat`: whether it works. -/
def nextWrite : KeyPool.WalletM Bool := fun keys =>
  .ok (keys.io 0) { keys with io := fun n => keys.io (n + 1) }

/-- `WriteToDisk`. -/
def writeToDisk (env : Env) (wtx : CWalletTx) : WalletM Bool := do
  let fWritten ← onKeys nextWrite
  (if fWritten then
      modify fun wallet => { wallet with disk := wallet.disk.insert (wtx.tx.getHash env) wtx }
    else pure ())
  pure fWritten

/-- Change the transaction `hash` and write it to disk, whose status nobody looks at. -/
def modifyTx (env : Env) (hash : Uint256) (wtx : CWalletTx)
    (f : CWalletTx → Except Thrown CWalletTx) : WalletM Unit := do
  let wtx ← fromExcept (f wtx)
  put hash wtx
  let _ ← writeToDisk env wtx

/-- `SetDefaultKey`, with the write of `SetAddressBookName` that follows. -/
def setDefaultKey (key : CPubKey) : KeyPool.WalletM Unit := do
  let fWritten ← nextWrite
  (if fWritten then KeyPool.modifyWallet fun keys => { keys with vchDefaultKey := key }
    else pure ())
  let _ ← nextWrite

/-- The loop of `AddToWallet` that replaces the default key when an output pays to it. -/
def replaceDefaultKey (wenv : WalletEnv) (vout : List CTxOut) : KeyPool.WalletM Unit := do
  let keys ← KeyPool.getWallet
  if wenv.qtGui = true ∨ keys.vchDefaultKey = 0 then pure ()
  else
    let scriptDefaultKey := wenv.scriptOfKey keys.vchDefaultKey
    vout.foldlM (fun _ txout =>
      if txout.scriptPubKey = scriptDefaultKey then do
        match ← KeyPool.getKeyFromPool wenv.nKeypool false with
        | some newDefaultKey => setDefaultKey newDefaultKey
        | none => pure ()
      else pure ()) ()

/-- The first loop of `WalletUpdateSpent`: an output of the wallet that `txin` spends is spent. -/
def updateInput (env : Env) (wenv : WalletEnv) (txin : CTxIn) : WalletM Unit := do
  let wallet ← get
  match wallet.mapWallet[txin.prevout.hash]? with
  | none => pure ()
  | some wtx =>
    match wtx.tx.vout[txin.prevout.n]? with
    | none => pure ()
    | some txout => do
      let fSpent ← fromExcept (wtx.isSpent txin.prevout.n)
      if !fSpent && wenv.isMine txout then
        modifyTx env txin.prevout.hash wtx fun wtx => wtx.markSpent txin.prevout.n
      else pure ()

/-- The second loop of `WalletUpdateSpent`: an output of a transaction that comes in a block is
not spent. -/
def updateOutput (env : Env) (wenv : WalletEnv) (hash : Uint256) (output : CTxOut × Nat) :
    WalletM Unit := do
  if wenv.isMine output.1 then do
    let wallet ← get
    match wallet.mapWallet[hash]? with
    | none => throw (.undefined "(*mi).second")
    | some wtx => modifyTx env hash wtx fun wtx => wtx.markUnspent output.2
  else pure ()

/-- `WalletUpdateSpent`. -/
def walletUpdateSpent (env : Env) (wenv : WalletEnv) (tx : CTransaction) (fBlock : Bool) :
    WalletM Unit := do
  tx.vin.foldlM (fun _ txin => updateInput env wenv txin) ()
  if fBlock then
    tx.vout.zipIdx.foldlM (fun _ output => updateOutput env wenv (tx.getHash env) output) ()
  else pure ()

/-- The transaction that `AddToWallet` stores, and whether it is new or has changed. -/
def entryFor (env : Env) (wallet : CWallet) (wtxIn : CWalletTx) : Bool × CWalletTx :=
  match wallet.mapWallet[wtxIn.tx.getHash env]? with
  | none => (true, wtxIn)
  | some wtx => wtx.merge wtxIn

/-- What `AddToWallet` does after it has stored the transaction. -/
def finishAdding (env : Env) (wenv : WalletEnv) (fBlock : Bool) (entry : Bool × CWalletTx) :
    WalletM Bool := do
  let fWritten ← (if entry.1 then writeToDisk env entry.2 else pure true)
  if !fWritten then pure false
  else do
    onKeys (replaceDefaultKey wenv entry.2.tx.vout)
    walletUpdateSpent env wenv entry.2.tx fBlock
    pure true

/-- `AddToWallet`. -/
def addToWallet (env : Env) (wenv : WalletEnv) (wtxIn : CWalletTx) : WalletM Bool := do
  let wallet ← get
  let entry := entryFor env wallet wtxIn
  put (wtxIn.tx.getHash env) entry.2
  finishAdding env wenv (decide (wtxIn.hashBlock ≠ 0)) entry

/-! ## Payments -/

/-- The loop of `CommitTransaction` that marks the coins: `mapWallet[]` makes an entry for a
transaction that is not there. -/
def markInput (env : Env) (wenv : WalletEnv) (txin : CTxIn) : WalletM Unit := do
  let wallet ← get
  let found := Map.subscript wallet.mapWallet txin.prevout.hash
    (.ofTx { CTransaction.default with nTime := wenv.nAdjustedTime })
  modify fun wallet => { wallet with mapWallet := found.2 }
  modifyTx env txin.prevout.hash found.1 fun coin => coin.markSpent txin.prevout.n

/-- What `CommitTransaction` does before the broadcast; `h` is the holder of the key that is
reserved for the change. -/
def recordTransaction (env : Env) (wenv : WalletEnv) (h : Nat) (wtxNew : CWalletTx) :
    WalletM Unit := do
  onKeys (KeyPool.keepKey h)
  let _ ← addToWallet env wenv wtxNew
  wtxNew.tx.vin.foldlM (fun _ txin => markInput env wenv txin) ()

/-- `CommitTransaction`, on the wallet and the node. -/
def commitTransaction (env : Env) (wenv : WalletEnv) (h : Nat) (wtxNew : CWalletTx) :
    EStateM (Thrown ⊕ Exit) (CWallet × World) Bool := fun s =>
  match recordTransaction env wenv h wtxNew s.1 with
  | .error e wallet => .error (.inl e) (wallet, s.2)
  | .ok () wallet =>
    match wtxNew.tx.acceptToMemoryPool env true s.2 with
    | .ok () w => .ok true (wallet, w)
    | .error (.reject _ _) w => .ok false (wallet, w)
    | .error (.abort what) w => .error (.inr (.abort what)) (wallet, w)

end CWallet

/-! ## What a wallet keeps -/

section keys

open KeyPool

/-- The holders are the same, and the keys that have been handed out still are. -/
structure SameHolders (a b : KeyPool.CWallet) : Prop where
  reserved : b.reserved = a.reserved
  kept : a.kept ⊆ b.kept

instance : Std.Refl SameHolders := ⟨fun _ => ⟨rfl, Finset.Subset.refl _⟩⟩

instance : IsTrans KeyPool.CWallet SameHolders :=
  ⟨fun _ _ _ h₁ h₂ => ⟨h₂.reserved.trans h₁.reserved, h₁.kept.trans h₂.kept⟩⟩

/-- A relation that the changes which `AddToWallet` makes to the keys keep. -/
structure KeptByKeys (r : KeyPool.CWallet → KeyPool.CWallet → Prop) : Prop where
  insertIndex : ∀ nIndex, Keeps r (insertIndex nIndex)
  eraseIndex : ∀ nIndex, Keeps r
    (modifyWallet fun w => { w with setKeyPool := w.setKeyPool.erase nIndex })
  noteKept : ∀ key, Keeps r (noteKept key)
  generateNewKey : Keeps r generateNewKey
  writePool : ∀ nPool key, Keeps r (writePool nPool key)
  walletKeepKey : ∀ nIndex, Keeps r (walletKeepKey nIndex)
  nextWrite : Keeps r CWallet.nextWrite
  defaultKey : ∀ key, Keeps r (modifyWallet fun keys => { keys with vchDefaultKey := key })

namespace KeptByKeys

variable {r : KeyPool.CWallet → KeyPool.CWallet → Prop} [Std.Refl r] [IsTrans _ r]

omit [IsTrans _ r] in
theorem getWallet : Keeps r KeyPool.getWallet := fun w => Std.Refl.refl w

theorem topUpKey (h : KeptByKeys r) : Keeps r topUpKey := by
  refine Keeps.bind getWallet fun w => Keeps.bind h.generateNewKey fun key => ?_
  refine Keeps.bind (h.writePool _ key) fun written => ?_
  exact Keeps.ite (h.insertIndex _) (Keeps.throw _)

theorem topUpLoop (h : KeptByKeys r) (nTargetSize fuel : Nat) :
    Keeps r (topUpLoop nTargetSize fuel) := by
  induction fuel with
  | zero => exact Keeps.pure ()
  | succ fuel ih =>
    refine Keeps.bind getWallet fun w => Keeps.ite ?_ (Keeps.pure ())
    exact Keeps.bind h.topUpKey fun _ => ih

theorem topUpKeyPool (h : KeptByKeys r) (nKeypool nSize : Nat) :
    Keeps r (topUpKeyPool nKeypool nSize) := by
  refine Keeps.bind getWallet fun w => Keeps.ite (Keeps.pure false) ?_
  exact Keeps.bind (h.topUpLoop _ _) fun _ => Keeps.pure true

theorem takeOldest (h : KeptByKeys r) : Keeps r (takeOldest none) := by
  refine Keeps.bind getWallet fun w => ?_
  split
  · refine Keeps.bind (Keeps.pure ()) fun _ => Keeps.bind (h.eraseIndex _) fun _ => ?_
    split
    · exact Keeps.throw _
    · exact Keeps.ite (Keeps.pure _) (Keeps.throw _)
  · exact Keeps.pure _

theorem reserveKeyFromKeyPool (h : KeptByKeys r) (nKeypool : Nat) :
    Keeps r (reserveKeyFromKeyPool nKeypool none) := by
  refine Keeps.bind (Keeps.pure ()) fun _ => Keeps.bind getWallet fun w => ?_
  refine Keeps.bind (Keeps.ite (Keeps.pure ()) ?_) fun _ => h.takeOldest
  exact Keeps.bind (h.topUpKeyPool nKeypool 0) fun _ => Keeps.pure ()

theorem getKeyFromPool (h : KeptByKeys r) (nKeypool : Nat) (fAllowReuse : Bool) :
    Keeps r (getKeyFromPool nKeypool fAllowReuse) := by
  refine Keeps.bind (h.reserveKeyFromKeyPool nKeypool) fun found => ?_
  refine Keeps.bind getWallet fun w => Keeps.ite (Keeps.ite ?_ (Keeps.ite (Keeps.pure _) ?_)) ?_
  · exact Keeps.bind (h.noteKept _) fun _ => Keeps.pure _
  · refine Keeps.bind h.generateNewKey fun key => ?_
    exact Keeps.bind (h.noteKept key) fun _ => Keeps.pure _
  · refine Keeps.bind (h.walletKeepKey _) fun _ => ?_
    exact Keeps.bind (h.noteKept _) fun _ => Keeps.pure _

theorem setDefaultKey (h : KeptByKeys r) (key : CPubKey) :
    Keeps r (CWallet.setDefaultKey key) := by
  refine Keeps.bind h.nextWrite fun fWritten => Keeps.bind (Keeps.ite ?_ (Keeps.pure ())) ?_
  · exact h.defaultKey key
  · exact fun _ => Keeps.bind h.nextWrite fun _ => Keeps.pure ()

theorem replaceDefaultKey (h : KeptByKeys r) (wenv : WalletEnv) (vout : List CTxOut) :
    Keeps r (CWallet.replaceDefaultKey wenv vout) := by
  refine Keeps.bind getWallet fun keys => Keeps.ite (Keeps.pure ()) ?_
  refine Keeps.foldlM (fun _ txout => Keeps.ite ?_ (Keeps.pure ())) vout ()
  refine Keeps.bind (h.getKeyFromPool wenv.nKeypool false) fun found => ?_
  cases found with
  | none => exact Keeps.pure ()
  | some key => exact h.setDefaultKey key

end KeptByKeys

theorem sameHolders_keptByKeys : KeptByKeys SameHolders where
  insertIndex _ _ := ⟨rfl, Finset.Subset.refl _⟩
  eraseIndex _ _ := ⟨rfl, Finset.Subset.refl _⟩
  noteKept _ _ := ⟨rfl, Finset.subset_insert _ _⟩
  generateNewKey _ := ⟨rfl, Finset.Subset.refl _⟩
  writePool _ _ _ := ⟨rfl, Finset.Subset.refl _⟩
  walletKeepKey _ _ := ⟨rfl, Finset.Subset.refl _⟩
  nextWrite _ := ⟨rfl, Finset.Subset.refl _⟩
  defaultKey _ _ := ⟨rfl, Finset.Subset.refl _⟩

/-- `KeepKey` frees the holder, and its key counts as handed out. -/
theorem keepKey_frees {h : Nat} {u : Unit} {keys keys' : KeyPool.CWallet}
    (hrun : keepKey h keys = .ok u keys') :
    keys'.reserved h = .free ∧
      ((keys.reserved h).vchPubKey ≠ 0 → (keys.reserved h).vchPubKey ∈ keys'.kept) := by
  obtain ⟨_, _, hget, hrun⟩ := bind_eq_ok.mp hrun
  obtain ⟨rfl, rfl⟩ := EStateM.Result.ok.inj hget
  obtain ⟨_, keys₁, -, hrun⟩ := bind_eq_ok.mp hrun
  obtain ⟨_, keys₂, hnote, hrun⟩ := bind_eq_ok.mp hrun
  obtain ⟨-, rfl⟩ := EStateM.Result.ok.inj hrun
  refine ⟨Function.update_self h _ _, fun hkey => ?_⟩
  rw [if_pos hkey] at hnote
  obtain ⟨-, rfl⟩ := EStateM.Result.ok.inj hnote
  exact Finset.mem_insert_self _ _

end keys

namespace CWalletTx

/-- Another object for the same transaction. -/
def SameTx (a b : CWalletTx) : Prop := b.tx = a.tx

/-- What was spent still is. -/
structure Marked (a b : CWalletTx) : Prop where
  tx : SameTx a b
  spent : ∀ nOut, a.isSpent nOut = .ok true → b.isSpent nOut = .ok true

instance : Std.Refl SameTx := ⟨fun _ => rfl⟩

instance : IsTrans CWalletTx SameTx := ⟨fun _ _ _ h₁ h₂ => Eq.trans h₂ h₁⟩

instance : Std.Refl Marked := ⟨fun _ => ⟨rfl, fun _ h => h⟩⟩

instance : IsTrans CWalletTx Marked :=
  ⟨fun _ _ _ h₁ h₂ => ⟨Eq.trans h₂.tx h₁.tx, fun nOut h => h₂.spent nOut (h₁.spent nOut h)⟩⟩

variable {wtx wtx' : CWalletTx} {nOut : Nat}

theorem getElem?_resizeSpent (hlt : nOut < wtx.tx.vout.length) :
    wtx.resizeSpent[nOut]?.getD false = wtx.vfSpent[nOut]?.getD false := by
  unfold resizeSpent
  rcases Nat.lt_or_ge nOut wtx.vfSpent.length with hin | hout
  · rw [List.getElem?_append_left (by rw [List.length_take]; omega), List.getElem?_take_of_lt hlt]
  · rw [List.getElem?_append_right ((List.length_take_le' _ _).trans hout),
      List.getElem?_eq_none hout]
    cases hget : (List.replicate (wtx.tx.vout.length - wtx.vfSpent.length) false)[nOut -
        (wtx.vfSpent.take wtx.tx.vout.length).length]? with
    | none => rfl
    | some f => exact (List.eq_of_mem_replicate (List.mem_of_getElem? hget))

theorem length_resizeSpent : wtx.resizeSpent.length = wtx.tx.vout.length := by
  unfold resizeSpent
  rw [List.length_append, List.length_take, List.length_replicate]
  omega

theorem isSpent_eq_ok : wtx.isSpent nOut = .ok true ↔
    nOut < wtx.tx.vout.length ∧ wtx.vfSpent[nOut]?.getD false = true := by
  unfold isSpent
  split
  · next hle => exact ⟨(fun h => by cases h), fun h => absurd h.1 (Nat.not_lt.mpr hle)⟩
  · next hlt =>
    rw [Nat.not_le] at hlt
    exact ⟨fun h => ⟨hlt, Except.ok.inj h⟩, fun h => by rw [h.2]⟩

/-- An output that is marked is spent, and the others are as before. -/
theorem markSpent_spec (h : wtx.markSpent nOut = .ok wtx') :
    Marked wtx wtx' ∧ wtx'.isSpent nOut = .ok true := by
  unfold markSpent at h
  split at h
  · cases h
  · next hlt =>
    rw [Nat.not_le] at hlt
    obtain rfl := Except.ok.inj h
    refine ⟨⟨rfl, fun m hm => ?_⟩, isSpent_eq_ok.mpr ⟨hlt, ?_⟩⟩
    · obtain ⟨hin, hspent⟩ := isSpent_eq_ok.mp hm
      refine isSpent_eq_ok.mpr ⟨hin, ?_⟩
      show (wtx.resizeSpent.set nOut true)[m]?.getD false = true
      by_cases heq : nOut = m
      · subst heq
        rw [List.getElem?_set_self (by rw [length_resizeSpent]; exact hin)]
        rfl
      · rw [List.getElem?_set_ne heq, getElem?_resizeSpent hin, hspent]
    · show (wtx.resizeSpent.set nOut true)[nOut]?.getD false = true
      rw [List.getElem?_set_self (by rw [length_resizeSpent]; exact hlt)]
      rfl

theorem markUnspent_sameTx (h : wtx.markUnspent nOut = .ok wtx') : SameTx wtx wtx' := by
  unfold markUnspent at h
  split at h
  · cases h
  · obtain rfl := Except.ok.inj h
    rfl

end CWalletTx

namespace CWallet

open CWalletTx

/-- Every transaction is still there, in the relation `R` to what it was. -/
structure Grows (R : CWalletTx → CWalletTx → Prop) (a b : CWallet) : Prop where
  entries : ∀ (hash : Uint256) (wtx : CWalletTx), a.mapWallet[hash]? = some wtx →
    ∃ wtx', b.mapWallet[hash]? = some wtx' ∧ R wtx wtx'
  keys : SameHolders a.keys b.keys

section grows

variable {R : CWalletTx → CWalletTx → Prop} {env : Env} {wenv : WalletEnv} {wallet : CWallet}
  {hash : Uint256} {wtx wtx' : CWalletTx} {f : CWalletTx → Except Thrown CWalletTx}

instance [IsTrans CWalletTx R] : IsTrans CWallet (Grows R) where
  trans a b c h₁ h₂ := by
    refine ⟨fun hash wtx hwtx => ?_, IsTrans.trans _ _ _ h₁.keys h₂.keys⟩
    obtain ⟨wtx₁, hwtx₁, hR₁⟩ := h₁.entries hash wtx hwtx
    obtain ⟨wtx₂, hwtx₂, hR₂⟩ := h₂.entries hash wtx₁ hwtx₁
    exact ⟨wtx₂, hwtx₂, IsTrans.trans _ _ _ hR₁ hR₂⟩

variable [Std.Refl R]

theorem Grows.of_sameTxs {a b : CWallet} (hmap : b.mapWallet = a.mapWallet)
    (hkeys : SameHolders a.keys b.keys) : Grows R a b :=
  ⟨fun _ wtx hwtx => ⟨wtx, hmap ▸ hwtx, Std.Refl.refl wtx⟩, hkeys⟩

instance : Std.Refl (Grows R) := ⟨fun _ => .of_sameTxs rfl (Std.Refl.refl _)⟩

/-- Storing a transaction in relation to the one that is there. -/
theorem Grows.insert {mapWallet : Map Uint256 CWalletTx} {disk : Map Uint256 CWalletTx}
    {keys : KeyPool.CWallet} (hmap : mapWallet = wallet.mapWallet.insert hash wtx)
    (hkeys : SameHolders wallet.keys keys)
    (h : ∀ old, wallet.mapWallet[hash]? = some old → R old wtx) :
    Grows R wallet ⟨mapWallet, disk, keys⟩ := by
  refine ⟨fun a old hold => ?_, hkeys⟩
  show ∃ wtx', mapWallet[a]? = some wtx' ∧ R old wtx'
  rw [hmap, Map.getElem?_insert]
  by_cases heq : hash = a
  · subst heq
    rw [if_pos rfl]
    exact ⟨wtx, rfl, h old hold⟩
  · rw [if_neg heq]
    exact ⟨old, hold, Std.Refl.refl old⟩

theorem onKeys_grows {α : Type} {x : KeyPool.WalletM α} (h : Keeps SameHolders x) :
    Keeps (Grows R) (onKeys x) := by
  intro wallet
  have hkeys := h wallet.keys
  unfold onKeys
  cases hrun : x wallet.keys with
  | ok a keys =>
    rw [hrun] at hkeys
    exact .of_sameTxs rfl hkeys
  | error e keys =>
    rw [hrun] at hkeys
    exact .of_sameTxs rfl hkeys

/-- A write to disk leaves the wallet as it is, whether it works or not. -/
theorem writeToDisk_run (env : Env) (wtx : CWalletTx) (wallet : CWallet) :
    ∃ disk keys, writeToDisk env wtx wallet =
        .ok (wallet.keys.io 0) { wallet with disk := disk, keys := keys } ∧
      SameHolders wallet.keys keys := by
  have hkeys : SameHolders wallet.keys
      { wallet.keys with io := fun n => wallet.keys.io (n + 1) } := ⟨rfl, Finset.Subset.refl _⟩
  by_cases hio : wallet.keys.io 0 = true
  · refine ⟨wallet.disk.insert (wtx.tx.getHash env) wtx, _, ?_, hkeys⟩
    unfold writeToDisk
    rw [bind_run]
    dsimp only [onKeys, nextWrite]
    rw [if_pos hio]
    rfl
  · refine ⟨wallet.disk, _, ?_, hkeys⟩
    unfold writeToDisk
    rw [bind_run]
    dsimp only [onKeys, nextWrite]
    rw [if_neg hio]
    rfl

theorem modifyTx_ok (hf : f wtx = .ok wtx') : ∃ disk keys,
    modifyTx env hash wtx f wallet =
        .ok () ⟨wallet.mapWallet.insert hash wtx', disk, keys⟩ ∧
      SameHolders wallet.keys keys := by
  obtain ⟨disk, keys, hrun, hkeys⟩ := writeToDisk_run env wtx' (wallet.insertTx hash wtx')
  refine ⟨disk, keys, ?_, hkeys⟩
  unfold modifyTx
  rw [hf, bind_run]
  dsimp only [fromExcept, pure_run]
  rw [bind_run]
  dsimp only [put, modify]
  rw [bind_run, hrun]
  rfl

theorem modifyTx_error {e : Thrown} (hf : f wtx = .error e) :
    modifyTx env hash wtx f wallet = .error e wallet := by
  unfold modifyTx
  rw [hf, bind_run]
  rfl

theorem modifyTx_grows (hwtx : wallet.mapWallet[hash]? = some wtx)
    (hf : ∀ wtx', f wtx = .ok wtx' → R wtx wtx') :
    Grows R wallet (endState (modifyTx env hash wtx f wallet)) := by
  cases hrun : f wtx with
  | error e =>
    rw [modifyTx_error hrun]
    exact Std.Refl.refl wallet
  | ok wtx' =>
    obtain ⟨disk, keys, hmodify, hkeys⟩ := @modifyTx_ok env wallet hash wtx wtx' f hrun
    rw [hmodify]
    refine .insert rfl hkeys fun old hold => ?_
    obtain rfl := Option.some.inj (hold.symm.trans hwtx)
    exact hf wtx' hrun

end grows

section steps

variable {env : Env} {wenv : WalletEnv}

theorem Grows.sameTx {a b : CWallet} (h : Grows Marked a b) : Grows SameTx a b := by
  refine ⟨fun hash wtx hwtx => ?_, h.keys⟩
  obtain ⟨wtx', hwtx', hmarked⟩ := h.entries hash wtx hwtx
  exact ⟨wtx', hwtx', hmarked.tx⟩

theorem updateInput_grows (txin : CTxIn) : Keeps (Grows Marked) (updateInput env wenv txin) := by
  intro wallet
  unfold updateInput
  rw [bind_run]
  dsimp only [get]
  cases hwtx : wallet.mapWallet[txin.prevout.hash]? with
  | none => exact Std.Refl.refl wallet
  | some wtx =>
    dsimp only
    cases wtx.tx.vout[txin.prevout.n]? with
    | none => exact Std.Refl.refl wallet
    | some txout =>
      dsimp only
      cases wtx.isSpent txin.prevout.n with
      | error e => exact Std.Refl.refl wallet
      | ok fSpent =>
        rw [bind_run]
        dsimp only [fromExcept, pure_run]
        by_cases hmark : (!fSpent && wenv.isMine txout) = true
        · rw [if_pos hmark]
          exact modifyTx_grows hwtx fun wtx' h => (markSpent_spec h).1
        · rw [if_neg hmark]
          exact Std.Refl.refl wallet

theorem updateOutput_grows (hash : Uint256) (output : CTxOut × Nat) :
    Keeps (Grows SameTx) (updateOutput env wenv hash output) := by
  refine Keeps.ite (fun wallet => ?_) (Keeps.pure ())
  rw [bind_run]
  dsimp only [get]
  cases hwtx : wallet.mapWallet[hash]? with
  | none => exact Std.Refl.refl wallet
  | some wtx => exact modifyTx_grows hwtx fun wtx' h => markUnspent_sameTx h

theorem walletUpdateSpent_grows (tx : CTransaction) (fBlock : Bool) :
    Keeps (Grows SameTx) (walletUpdateSpent env wenv tx fBlock) := by
  refine Keeps.bind ?_ fun _ => Keeps.ite ?_ (Keeps.pure ())
  · exact Keeps.foldlM (fun _ txin => (updateInput_grows txin).mono fun _ _ h => h.sameTx) _ _
  · exact Keeps.foldlM (fun _ output => updateOutput_grows _ output) _ _

theorem writeToDisk_grows (wtx : CWalletTx) : Keeps (Grows SameTx) (writeToDisk env wtx) := by
  intro wallet
  obtain ⟨disk, keys, hrun, hkeys⟩ := writeToDisk_run env wtx wallet
  rw [hrun]
  exact .of_sameTxs rfl hkeys

theorem finishAdding_grows (fBlock : Bool) (entry : Bool × CWalletTx) :
    Keeps (Grows SameTx) (finishAdding env wenv fBlock entry) := by
  refine Keeps.bind (Keeps.ite (writeToDisk_grows _) (Keeps.pure true)) fun fWritten => ?_
  refine Keeps.ite (Keeps.pure false) ?_
  refine Keeps.bind (onKeys_grows (sameHolders_keptByKeys.replaceDefaultKey wenv _)) fun _ => ?_
  exact Keeps.bind (walletUpdateSpent_grows _ fBlock) fun _ => Keeps.pure true

/-- A transaction that is there stays the same when another object is merged into it. -/
theorem entryFor_sameTx {wallet : CWallet} {wtxIn old : CWalletTx}
    (h : wallet.mapWallet[wtxIn.tx.getHash env]? = some old) :
    SameTx old (entryFor env wallet wtxIn).2 := by
  unfold entryFor
  rw [h]
  rfl

/-- `AddToWallet` stores the transaction, unless one with its hash is there. -/
theorem addToWallet_spec {wtxIn : CWalletTx} {wallet wallet' : CWallet} {b : Bool}
    (hrun : addToWallet env wenv wtxIn wallet = .ok b wallet') :
    Grows SameTx wallet wallet' ∧
      ∃ wtx, wallet'.mapWallet[wtxIn.tx.getHash env]? = some wtx ∧
        (wallet.mapWallet[wtxIn.tx.getHash env]? = none → wtx.tx = wtxIn.tx) := by
  have hrun' : finishAdding env wenv (decide (wtxIn.hashBlock ≠ 0)) (entryFor env wallet wtxIn)
      (wallet.insertTx (wtxIn.tx.getHash env) (entryFor env wallet wtxIn).2) = .ok b wallet' :=
    hrun
  have hgrows := (finishAdding_grows _ _).ok hrun'
  have hstored : Grows SameTx wallet
      (wallet.insertTx (wtxIn.tx.getHash env) (entryFor env wallet wtxIn).2) :=
    .insert rfl (Std.Refl.refl _) fun old hold => entryFor_sameTx hold
  obtain ⟨wtx, hwtx, htx⟩ := hgrows.entries (wtxIn.tx.getHash env)
    (entryFor env wallet wtxIn).2 (by rw [insertTx, Map.getElem?_insert, if_pos rfl])
  refine ⟨IsTrans.trans _ _ _ hstored hgrows, wtx, hwtx, fun hnone => ?_⟩
  have hentry : (entryFor env wallet wtxIn).2 = wtxIn := by
    unfold entryFor
    rw [hnone]
  exact Eq.trans htx (congrArg (fun wtx => wtx.tx) hentry)

/-- Whether the wallet takes an output to be spent. -/
def Spent (wallet : CWallet) (prevout : COutPoint) : Prop :=
  ∃ coin, wallet.mapWallet[prevout.hash]? = some coin ∧ coin.isSpent prevout.n = .ok true

theorem Grows.spent {a b : CWallet} (h : Grows Marked a b) {prevout : COutPoint}
    (hspent : a.Spent prevout) : b.Spent prevout := by
  obtain ⟨coin, hcoin, hspent⟩ := hspent
  obtain ⟨coin', hcoin', hmarked⟩ := h.entries _ coin hcoin
  exact ⟨coin', hcoin', hmarked.spent _ hspent⟩

/-- An input that could be marked is spent. -/
theorem markInput_spec {txin : CTxIn} {wallet wallet' : CWallet} {u : Unit}
    (hrun : markInput env wenv txin wallet = .ok u wallet') :
    Grows Marked wallet wallet' ∧ wallet'.Spent txin.prevout := by
  obtain ⟨_, _, hget, hrun⟩ := bind_eq_ok.mp hrun
  obtain ⟨rfl, rfl⟩ := EStateM.Result.ok.inj hget
  generalize hfound : Map.subscript wallet.mapWallet txin.prevout.hash
    (.ofTx { CTransaction.default with nTime := wenv.nAdjustedTime }) = found at hrun
  obtain ⟨_, _, hput, hrun⟩ := bind_eq_ok.mp hrun
  obtain ⟨-, rfl⟩ := EStateM.Result.ok.inj hput
  cases hmark : found.1.markSpent txin.prevout.n with
  | error e =>
    rw [modifyTx_error hmark] at hrun
    cases hrun
  | ok coin =>
    obtain ⟨hmarked, hspent⟩ := markSpent_spec hmark
    obtain ⟨disk, keys, hmodify, hkeys⟩ := @modifyTx_ok env { wallet with mapWallet := found.2 }
      txin.prevout.hash found.1 coin (fun coin => coin.markSpent txin.prevout.n) hmark
    rw [hmodify] at hrun
    obtain ⟨-, rfl⟩ := EStateM.Result.ok.inj hrun
    have hcoin : (found.2.insert txin.prevout.hash coin)[txin.prevout.hash]? = some coin := by
      rw [Map.getElem?_insert, if_pos rfl]
    refine ⟨?_, coin, hcoin, hspent⟩
    unfold Map.subscript at hfound
    split at hfound
    · next old hold =>
      subst hfound
      refine .insert rfl hkeys fun old' hold' => ?_
      obtain rfl := Option.some.inj (hold'.symm.trans hold)
      exact hmarked
    · next hnone =>
      subst hfound
      refine ⟨fun a old hold => ⟨old, ?_, Std.Refl.refl old⟩, hkeys⟩
      have hne : txin.prevout.hash ≠ a := by
        rintro rfl
        rw [hnone] at hold
        cases hold
      show ((wallet.mapWallet.insert _ _).insert txin.prevout.hash coin)[a]? = some old
      rw [Map.getElem?_insert, if_neg hne, Map.getElem?_insert, if_neg hne, hold]

/-- All the coins of a payment are spent after the loop over its inputs. -/
theorem markInputs_spec {vin : List CTxIn} {wallet wallet' : CWallet} {u : Unit}
    (hrun : vin.foldlM (fun _ txin => markInput env wenv txin) () wallet = .ok u wallet') :
    Grows Marked wallet wallet' ∧ ∀ txin ∈ vin, wallet'.Spent txin.prevout := by
  induction vin generalizing wallet with
  | nil =>
    obtain ⟨-, rfl⟩ := EStateM.Result.ok.inj hrun
    exact ⟨Std.Refl.refl _, fun txin htxin => absurd htxin List.not_mem_nil⟩
  | cons txin vin ih =>
    rw [List.foldlM_cons] at hrun
    obtain ⟨_, wallet₁, hmark, hrun⟩ := bind_eq_ok.mp hrun
    obtain ⟨hgrows₁, hspent⟩ := markInput_spec hmark
    obtain ⟨hgrows₂, hrest⟩ := ih hrun
    refine ⟨IsTrans.trans _ _ _ hgrows₁ hgrows₂, ?_⟩
    exact List.forall_mem_cons.mpr ⟨hgrows₂.spent hspent, hrest⟩

/-! ## What a payment leaves behind -/

/-- The payment `wtxNew` is on record: it is in the wallet, its coins are spent, and the key of
its change is gone. -/
structure Recorded (env : Env) (h : Nat) (wtxNew : CWalletTx) (wallet wallet' : CWallet) :
    Prop where
  entry : ∃ wtx, wallet'.mapWallet[wtxNew.tx.getHash env]? = some wtx ∧
    (wallet.mapWallet[wtxNew.tx.getHash env]? = none → wtx.tx = wtxNew.tx)
  others : ∀ (hash : Uint256) (wtx : CWalletTx), wallet.mapWallet[hash]? = some wtx →
    ∃ wtx', wallet'.mapWallet[hash]? = some wtx' ∧ wtx'.tx = wtx.tx
  spent : ∀ txin ∈ wtxNew.tx.vin, wallet'.Spent txin.prevout
  released : wallet'.keys.reserved h = .free
  kept : (wallet.keys.reserved h).vchPubKey ≠ 0 →
    (wallet.keys.reserved h).vchPubKey ∈ wallet'.keys.kept

theorem recordTransaction_records {h : Nat} {wtxNew : CWalletTx} {wallet wallet' : CWallet}
    {u : Unit} (hrun : recordTransaction env wenv h wtxNew wallet = .ok u wallet') :
    Recorded env h wtxNew wallet wallet' := by
  obtain ⟨_, wallet₁, hkeep, hrun⟩ := bind_eq_ok.mp hrun
  obtain ⟨b, wallet₂, hadd, hmark⟩ := bind_eq_ok.mp hrun
  obtain ⟨hadded, wtx, hwtx, htx⟩ := addToWallet_spec hadd
  obtain ⟨hgrows, hspent⟩ := markInputs_spec hmark
  unfold onKeys at hkeep
  cases hkeys : KeyPool.keepKey h wallet.keys with
  | error e keys =>
    rw [hkeys] at hkeep
    cases hkeep
  | ok _ keys =>
    rw [hkeys] at hkeep
    obtain ⟨-, rfl⟩ := EStateM.Result.ok.inj hkeep
    obtain ⟨hfree, hkept⟩ := keepKey_frees hkeys
    have hall := IsTrans.trans _ _ _ hadded hgrows.sameTx
    obtain ⟨wtx', hwtx', hsame⟩ := hgrows.sameTx.entries _ wtx hwtx
    refine ⟨⟨wtx', hwtx', fun hnone => ?_⟩, hall.entries, hspent, ?_, fun hkey => ?_⟩
    · exact Eq.trans hsame (htx hnone)
    · rw [hall.keys.reserved]
      exact hfree
    · exact hall.keys.kept (hkept hkey)

end steps

/-- A coin that was not spent before makes the difference. -/
theorem Recorded.mapWallet_ne {env : Env} {h : Nat} {wtxNew : CWalletTx} {wallet wallet' : CWallet}
    (hrecorded : Recorded env h wtxNew wallet wallet') {txin : CTxIn}
    (htxin : txin ∈ wtxNew.tx.vin) (hunspent : ¬ wallet.Spent txin.prevout) :
    wallet'.mapWallet ≠ wallet.mapWallet := by
  intro hsame
  obtain ⟨coin, hcoin, hspent⟩ := hrecorded.spent txin htxin
  exact hunspent ⟨coin, hsame ▸ hcoin, hspent⟩

/-- The memory pool has no part in what the wallet becomes. -/
theorem recordTransaction_of_commit {env : Env} {wenv : WalletEnv} {h : Nat} {wtxNew : CWalletTx}
    {wallet : CWallet} {w : World} {fAccepted : Bool} {s : CWallet × World}
    (hrun : commitTransaction env wenv h wtxNew (wallet, w) = .ok fAccepted s) :
    recordTransaction env wenv h wtxNew wallet = .ok () s.1 := by
  unfold commitTransaction at hrun
  dsimp only at hrun
  cases hrecord : recordTransaction env wenv h wtxNew wallet with
  | error e wallet₁ =>
    rw [hrecord] at hrun
    cases hrun
  | ok u wallet₁ =>
    rw [hrecord] at hrun
    dsimp only at hrun
    split at hrun
    · obtain ⟨-, rfl⟩ := EStateM.Result.ok.inj hrun
      rfl
    · obtain ⟨-, rfl⟩ := EStateM.Result.ok.inj hrun
      rfl
    · cases hrun

/-- `CommitTransaction` records the payment in the same way whether the memory pool takes it or
not; in particular `mapWallet` changes when one of its coins was not spent. -/
theorem commitTransaction_records (env : Env) (wenv : WalletEnv) (h : Nat) (wtxNew : CWalletTx)
    (wallet wallet' : CWallet) (w w' : World)
    (hrun : commitTransaction env wenv h wtxNew (wallet, w) = .ok false (wallet', w')) :
    Recorded env h wtxNew wallet wallet' ∧
      ((∃ txin ∈ wtxNew.tx.vin, ¬ wallet.Spent txin.prevout) →
        wallet'.mapWallet ≠ wallet.mapWallet) ∧
      ∀ (w₁ w₂ : World) (fAccepted : Bool) (wallet₂ : CWallet),
        commitTransaction env wenv h wtxNew (wallet, w₁) = .ok fAccepted (wallet₂, w₂) →
          wallet₂ = wallet' := by
  have hrecord := recordTransaction_of_commit hrun
  have hrecorded := recordTransaction_records hrecord
  refine ⟨hrecorded, ?_, fun w₁ w₂ b wallet₂ hcommit => ?_⟩
  · rintro ⟨txin, htxin, hunspent⟩
    exact hrecorded.mapWallet_ne htxin hunspent
  · have hagain := recordTransaction_of_commit hcommit
    exact (EStateM.Result.ok.inj (hagain.symm.trans hrecord)).2

/-! ## A payment that the memory pool refuses -/

/-- A wallet with the output of one transaction, whose depth it trusts. -/
def payingEnv : WalletEnv where
  isMine txout := decide (txout.scriptPubKey = [0x51])
  isTrusted wtx := decide (wtx.tx = pooledTx)
  isImmature _ := false
  scriptOfKey key := [0x51, UInt8.ofNat key]
  nKeypool := 1
  qtGui := false
  nAdjustedTime := 1700000000

/-- A holder has taken the key for the change. -/
def payingWallet : CWallet where
  mapWallet := (∅ : Map Uint256 CWalletTx).insert (pooledTx.getHash testNet) (.ofTx pooledTx)
  disk := ∅
  keys := endState (KeyPool.getReservedKey 1 0 KeyPool.newWallet)

def paidCoin : COutPoint := ⟨pooledTx.getHash testNet, 0⟩

/-- One coin for the payee, and the change. -/
def paymentTx : CWalletTx :=
  { CWalletTx.ofTx ⟨1, 1600000000, [⟨paidCoin, [], uint32Max⟩],
      [⟨coin, [0x52]⟩, ⟨9 * coin - minTxFee, [0x51, 1]⟩], 0⟩ with fFromMe := true }

/-- Another copy of the wallet has spent the coin. -/
def doubleSpentWorld : World :=
  idleWorld (CTxMemPool.clear.addUnchecked (spendingTx.getHash testNet) spendingTx)

theorem commitTransaction_paymentTx :
    succeeds (fun fAccepted s => !fAccepted &&
        decide (getBalance payingEnv payingWallet = .ok (10 * coin)) &&
        decide (getBalance payingEnv s.1 = .ok 0) &&
        payingWallet.keys.pool.contains 1 && !s.1.keys.pool.contains 1)
      (commitTransaction testNet payingEnv 0 paymentTx (payingWallet, doubleSpentWorld)) = true := by
  unfold doubleSpentWorld payingWallet paymentTx paidCoin spendingTx testNet
  rw [mainNet_eq]
  decide +kernel

/-- The refused payment is on record. -/
theorem commitTransaction_records_refused : ∃ wallet' w',
    commitTransaction testNet payingEnv 0 paymentTx (payingWallet, doubleSpentWorld) =
        .ok false (wallet', w') ∧ Recorded testNet 0 paymentTx payingWallet wallet' := by
  obtain ⟨fAccepted, s, hrun, hfalse⟩ := succeeds_iff.mp commitTransaction_paymentTx
  cases fAccepted with
  | true => exact absurd hfalse (by simp)
  | false =>
    exact ⟨s.1, s.2, hrun, (commitTransaction_records testNet payingEnv 0 paymentTx payingWallet
      s.1 doubleSpentWorld s.2 hrun).1⟩

/-- It changes `mapWallet`, the flag of the coin, the balance and the key pool. -/
theorem commitTransaction_changes : ∃ wallet' w',
    commitTransaction testNet payingEnv 0 paymentTx (payingWallet, doubleSpentWorld) =
        .ok false (wallet', w') ∧
      wallet'.mapWallet ≠ payingWallet.mapWallet ∧
      (wallet'.Spent paidCoin ∧ ¬ payingWallet.Spent paidCoin) ∧
      getBalance payingEnv wallet' ≠ getBalance payingEnv payingWallet ∧
      wallet'.keys.pool ≠ payingWallet.keys.pool := by
  obtain ⟨fAccepted, s, hrun, hchanged⟩ := succeeds_iff.mp commitTransaction_paymentTx
  simp only [Bool.and_eq_true, Bool.not_eq_true', decide_eq_true_eq] at hchanged
  obtain ⟨⟨⟨⟨rfl, hbefore⟩, hafter⟩, hpool⟩, herased⟩ := hchanged
  have hrecorded := recordTransaction_records (recordTransaction_of_commit hrun)
  have hunspent : ¬ payingWallet.Spent paidCoin := by
    rintro ⟨coin, hcoin, hspent⟩
    have hstored : payingWallet.mapWallet[paidCoin.hash]? = some (.ofTx pooledTx) := by
      rw [payingWallet, Map.getElem?_insert, paidCoin, if_pos rfl]
    obtain rfl := Option.some.inj (hcoin.symm.trans hstored)
    cases hspent
  have hinput : ⟨paidCoin, [], uint32Max⟩ ∈ paymentTx.tx.vin := List.mem_cons_self
  have hspent : s.1.Spent paidCoin := hrecorded.spent ⟨paidCoin, [], uint32Max⟩ hinput
  refine ⟨s.1, s.2, hrun, hrecorded.mapWallet_ne hinput hunspent,
    ⟨hspent, hunspent⟩, ?_, ?_⟩
  · rw [hbefore, hafter]
    decide
  · intro hsame
    rw [hsame, hpool] at herased
    exact absurd herased (by decide)

end CWallet

end NoLimitCoin
