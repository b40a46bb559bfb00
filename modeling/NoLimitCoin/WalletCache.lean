import NoLimitCoin.Wallet

/-!
# Cached amounts of wallet transactions

A `CWalletTx` keeps its debit, its credit, its available credit and its change.  The caches are
cleared where the transaction itself changes; the debit depends on the other transactions of the
wallet as well.

Results:
1. `compute_congr`: what an amount depends on.
2. `Op.exec_keeps`: an operation keeps the caches right, unless it brings or takes the coin that
   a cached debit is about.
3. `runs_amountsFresh`: the amounts in every state of a run.
-/

namespace NoLimitCoin

open Prog
open KeyPool (Thrown)

namespace WalletCache

/-! ## Amounts -/

/-- The four amounts that are cached. -/
inductive Amount where
  | debit
  | credit
  | availableCredit
  | change
deriving DecidableEq

/-- A transaction of the wallet with its caches. -/
structure CachedTx where
  wtx : CWalletTx
  cached : Amount → Option Int

/-- `mapWallet`. -/
abbrev CachedWallet := Map Uint256 CachedTx

abbrev CacheM := EStateM Thrown CachedWallet

/-- Whose outputs are whose, and whether there is a `wallet.dat`. -/
structure CacheEnv where
  /-- `IsMine` of an output. -/
  isMine : CTxOut → Bool
  /-- `IsChange` of an output. -/
  isChange : CTxOut → Bool
  fFileBacked : Bool

/-- `CWallet::GetDebit` of an input. -/
def debitIn (cenv : CacheEnv) (wallet : CachedWallet) (txin : CTxIn) : Int :=
  match wallet[txin.prevout.hash]? with
  | none => 0
  | some prev =>
    match prev.wtx.tx.vout[txin.prevout.n]? with
    | none => 0
    | some txout => if cenv.isMine txout then txout.nValue else 0

/-- A value of an output that counts, or none. -/
def valueOf (what : String) (counts : CTxOut → Bool) (txout : CTxOut) : Except Thrown Int :=
  if !moneyRange txout.nValue then .error (.runtimeError what)
  else .ok (if counts txout then txout.nValue else 0)

/-- `CWallet::GetCredit` of an output. -/
def creditOut (cenv : CacheEnv) : CTxOut → Except Thrown Int :=
  valueOf "CWallet::GetCredit() : value out of range" cenv.isMine

/-- `CWallet::GetChange` of an output. -/
def changeOut (cenv : CacheEnv) : CTxOut → Except Thrown Int :=
  valueOf "CWallet::GetChange() : value out of range" cenv.isChange

/-- Add an amount to a sum that has to stay in range. -/
def addInRange (what : String) (nTotal nValue : Int) : Except Thrown Int :=
  if moneyRange (nTotal + nValue) then .ok (nTotal + nValue) else .error (.runtimeError what)

/-- `CWallet::GetDebit` of a transaction. -/
def debitOf (cenv : CacheEnv) (wallet : CachedWallet) (tx : CTransaction) : Except Thrown Int :=
  tx.vin.foldlM (fun nDebit txin =>
    addInRange "CWallet::GetDebit() : value out of range" nDebit (debitIn cenv wallet txin)) 0

/-- `CWallet::GetCredit` of a transaction. -/
def creditOf (cenv : CacheEnv) (tx : CTransaction) : Except Thrown Int :=
  tx.vout.foldlM (fun nCredit txout => do
    addInRange "CWallet::GetCredit() : value out of range" nCredit (← creditOut cenv txout)) 0

/-- `CWallet::GetChange` of a transaction. -/
def changeOf (cenv : CacheEnv) (tx : CTransaction) : Except Thrown Int :=
  tx.vout.foldlM (fun nChange txout => do
    addInRange "CWallet::GetChange() : value out of range" nChange (← changeOut cenv txout)) 0

/-- The loop of `CWalletTx::GetAvailableCredit`. -/
def availableCreditOf (cenv : CacheEnv) (wtx : CWalletTx) : Except Thrown Int :=
  wtx.tx.vout.zipIdx.foldlM (fun nCredit output => do
    if ← wtx.isSpent output.2 then pure nCredit
    else do
      let nValue ← creditOut cenv output.1
      addInRange "CWalletTx::GetAvailableCredit() : value out of range" nCredit nValue) 0

/-- The amount without its cache. -/
def compute (cenv : CacheEnv) (wallet : CachedWallet) (wtx : CWalletTx) : Amount → Except Thrown Int
  | .debit => debitOf cenv wallet wtx.tx
  | .credit => creditOf cenv wtx.tx
  | .availableCredit => availableCreditOf cenv wtx
  | .change => changeOf cenv wtx.tx

/-- What the query returns before it looks at its cache. -/
def skipped (fImmature : Bool) (wtx : CWalletTx) : Amount → Bool
  | .debit => wtx.tx.vin.isEmpty
  | .credit => fImmature
  | .availableCredit => fImmature
  | .change => false

/-- The transaction `hash` of `mapWallet`. -/
def find (hash : Uint256) : CacheM CachedTx := fun wallet =>
  match wallet[hash]? with
  | some cached => .ok cached wallet
  | none => .error (.undefined "(*mi).second") wallet

def put (hash : Uint256) (cached : CachedTx) : CacheM Unit := fun wallet =>
  .ok () (wallet.insert hash cached)

def get : CacheM CachedWallet := fun wallet => .ok wallet wallet

def CachedTx.setCache (cached : CachedTx) (amount : Amount) (nValue : Option Int) : CachedTx :=
  { cached with cached := Function.update cached.cached amount nValue }

/-- A query; `fImmature` is whether the transaction is a coinbase or a coinstake that has not
matured yet. -/
def getAmount (cenv : CacheEnv) (amount : Amount) (fImmature : Bool) (hash : Uint256) :
    CacheM Int := do
  let cached ← find hash
  if skipped fImmature cached.wtx amount then pure 0
  else
    match cached.cached amount with
    | some nValue => pure nValue
    | none => do
      let wallet ← get
      let nValue ← fromExcept (compute cenv wallet cached.wtx amount)
      put hash (cached.setCache amount (some nValue))
      pure nValue

/-- `CWalletTx::GetDebit`. -/
def getDebit (cenv : CacheEnv) : Uint256 → CacheM Int := getAmount cenv .debit false

/-- `CWalletTx::GetCredit`. -/
def getCredit (cenv : CacheEnv) : Bool → Uint256 → CacheM Int := getAmount cenv .credit

/-- `CWalletTx::GetAvailableCredit`. -/
def getAvailableCredit (cenv : CacheEnv) : Bool → Uint256 → CacheM Int :=
  getAmount cenv .availableCredit

/-- `CWalletTx::GetChange`. -/
def getChange (cenv : CacheEnv) : Uint256 → CacheM Int := getAmount cenv .change false

/-- `CWalletTx::IsFromMe`. -/
def isFromMe (cenv : CacheEnv) (hash : Uint256) : CacheM Bool :=
  (fun nDebit => decide (nDebit > 0)) <$> getDebit cenv hash

/-! ## Changes -/

/-- `CWalletTx::MarkDirty`. -/
def CachedTx.markDirty (cached : CachedTx) : CachedTx := ⟨cached.wtx, fun _ => none⟩

/-- `CWallet::MarkDirty`. -/
def markDirty (wallet : CachedWallet) : CachedWallet := wallet.map fun _ cached => cached.markDirty

/-- `MarkSpent` and `MarkUnspent`: `mark` sets the flag, and `fSpent` is what it becomes. -/
def CachedTx.mark (mark : CWalletTx → Nat → Except Thrown CWalletTx) (fSpent : Bool)
    (cached : CachedTx) (nOut : Nat) : Except Thrown CachedTx := do
  let wtx ← mark cached.wtx nOut
  if cached.wtx.resizeSpent[nOut]?.getD false = fSpent then return { cached with wtx := wtx }
  else return { cached with wtx := wtx }.setCache .availableCredit none

/-- `CWalletTx::MarkSpent`. -/
def CachedTx.markSpent (cached : CachedTx) (nOut : Nat) : Except Thrown CachedTx :=
  cached.mark CWalletTx.markSpent true nOut

/-- `CWalletTx::MarkUnspent`. -/
def CachedTx.markUnspent (cached : CachedTx) (nOut : Nat) : Except Thrown CachedTx :=
  cached.mark CWalletTx.markUnspent false nOut

/-- `CWalletTx::UpdateSpent`. -/
def CachedTx.updateSpent (cached : CachedTx) (vfNewSpent : List Bool) : CachedTx :=
  let updated := CWalletTx.updateSpent vfNewSpent cached.wtx.vfSpent
  let wtx := { cached.wtx with vfSpent := updated.2 }
  if updated.1 then { cached with wtx := wtx }.setCache .availableCredit none
  else { cached with wtx := wtx }

/-- Change the transaction `hash`. -/
def modifyTx (hash : Uint256) (f : CachedTx → Except Thrown CachedTx) : CacheM Unit := do
  let cached ← find hash
  let cached ← fromExcept (f cached)
  put hash cached

/-- The first loop of `WalletUpdateSpent`; its debug print asks for the credit. -/
def updateInput (cenv : CacheEnv) (isImmature : CWalletTx → Bool) (txin : CTxIn) :
    CacheM Unit := do
  let wallet ← get
  match wallet[txin.prevout.hash]? with
  | none => pure ()
  | some cached =>
    match cached.wtx.tx.vout[txin.prevout.n]? with
    | none => pure ()
    | some txout => do
      let fSpent ← fromExcept (cached.wtx.isSpent txin.prevout.n)
      if !fSpent && cenv.isMine txout then do
        let _ ← getCredit cenv (isImmature cached.wtx) txin.prevout.hash
        modifyTx txin.prevout.hash fun cached => cached.markSpent txin.prevout.n
      else pure ()

/-- The second loop of `WalletUpdateSpent`. -/
def updateOutput (cenv : CacheEnv) (hash : Uint256) (output : CTxOut × Nat) : CacheM Unit :=
  if cenv.isMine output.1 then modifyTx hash fun cached => cached.markUnspent output.2
  else pure ()

/-- `WalletUpdateSpent`. -/
def walletUpdateSpent (env : Env) (cenv : CacheEnv) (isImmature : CWalletTx → Bool)
    (tx : CTransaction) (fBlock : Bool) : CacheM Unit := do
  tx.vin.foldlM (fun _ txin => updateInput cenv isImmature txin) ()
  if fBlock then
    tx.vout.zipIdx.foldlM (fun _ output => updateOutput cenv (tx.getHash env) output) ()
  else pure ()

/-- Whether `AddToWallet` has inserted or updated a transaction, and which. -/
def entryFor (env : Env) (wallet : CachedWallet) (wtxIn : CWalletTx) : Bool × CWalletTx :=
  match wallet[wtxIn.tx.getHash env]? with
  | none => (true, wtxIn)
  | some cached => cached.wtx.merge wtxIn

/-- `AddToWallet`, where no output pays to the default key; `BindWallet` clears the caches. -/
def addToWallet (env : Env) (cenv : CacheEnv) (isImmature : CWalletTx → Bool) (fWritten : Bool)
    (wtxIn : CWalletTx) : CacheM Bool := do
  let wallet ← get
  let entry := entryFor env wallet wtxIn
  put (wtxIn.tx.getHash env) ⟨entry.2, fun _ => none⟩
  if entry.1 && !fWritten then pure false
  else do
    walletUpdateSpent env cenv isImmature entry.2.tx (decide (wtxIn.hashBlock ≠ 0))
    pure true

/-- `EraseFromWallet`. -/
def eraseFromWallet (cenv : CacheEnv) (hash : Uint256) : CacheM Bool :=
  if !cenv.fFileBacked then pure false
  else do
    fun wallet => .ok () (wallet.erase hash)
    pure true

/-! ## Runs -/

inductive Op where
  | addToWallet (isImmature : CWalletTx → Bool) (fWritten : Bool) (wtxIn : CWalletTx)
  | markSpent (hash : Uint256) (nOut : Nat)
  | markUnspent (hash : Uint256) (nOut : Nat)
  | updateSpent (hash : Uint256) (vfNewSpent : List Bool)
  | bindWallet (hash : Uint256)
  | eraseFromWallet (hash : Uint256)
  | query (amount : Amount) (fImmature : Bool) (hash : Uint256)

def Op.exec (env : Env) (cenv : CacheEnv) : Op → CacheM Unit
  | .addToWallet isImmature fWritten wtxIn => do
    let _ ← WalletCache.addToWallet env cenv isImmature fWritten wtxIn
  | .markSpent hash nOut => modifyTx hash fun cached => cached.markSpent nOut
  | .markUnspent hash nOut => modifyTx hash fun cached => cached.markUnspent nOut
  | .updateSpent hash vfNewSpent => modifyTx hash fun cached => .ok (cached.updateSpent vfNewSpent)
  | .bindWallet hash => modifyTx hash fun cached => .ok cached.markDirty
  | .eraseFromWallet hash => do
    let _ ← WalletCache.eraseFromWallet cenv hash
  | .query amount fImmature hash => do
    let _ ← getAmount cenv amount fImmature hash

/-- The states that a wallet without caches gets to by operations that meet a condition. -/
inductive Runs (env : Env) (cenv : CacheEnv) (ok : CachedWallet → Op → Prop) : CachedWallet → Prop
  | start (wallet : CachedWallet) : Runs env cenv ok (markDirty wallet)
  | op {wallet : CachedWallet} {op : Op} (h : Runs env cenv ok wallet) (hok : ok wallet op) :
      Runs env cenv ok (endState (op.exec env cenv wallet))

/-! ## What an amount depends on -/

section amounts

variable {cenv : CacheEnv} {wallet wallet' : CachedWallet} {wtx wtx' : CWalletTx}

theorem foldlM_congr {α β : Type} {f g : β → α → Except Thrown β} {l : List α}
    (h : ∀ a ∈ l, ∀ b, f b a = g b a) (b : β) : l.foldlM f b = l.foldlM g b := by
  induction l generalizing b with
  | nil => rfl
  | cons a l ih =>
    rw [List.forall_mem_cons] at h
    rw [List.foldlM_cons, List.foldlM_cons, h.1]
    congr 1
    funext b'
    exact ih h.2 b'

theorem debitOf_congr {tx : CTransaction}
    (h : ∀ txin ∈ tx.vin, debitIn cenv wallet' txin = debitIn cenv wallet txin) :
    debitOf cenv wallet' tx = debitOf cenv wallet tx :=
  foldlM_congr (fun txin hmem nDebit => by rw [h txin hmem]) 0

theorem isSpent_congr (htx : wtx'.tx = wtx.tx)
    (h : ∀ i, i < wtx.tx.vout.length → wtx'.vfSpent[i]?.getD false = wtx.vfSpent[i]?.getD false)
    (i : Nat) : wtx'.isSpent i = wtx.isSpent i := by
  unfold CWalletTx.isSpent
  rw [htx]
  split
  · rfl
  · next hlt => rw [h i (Nat.not_le.mp hlt)]

theorem availableCreditOf_congr (htx : wtx'.tx = wtx.tx)
    (h : ∀ i, i < wtx.tx.vout.length → wtx'.vfSpent[i]?.getD false = wtx.vfSpent[i]?.getD false) :
    availableCreditOf cenv wtx' = availableCreditOf cenv wtx := by
  unfold availableCreditOf
  rw [htx]
  exact foldlM_congr (fun output _ nCredit => by rw [isSpent_congr htx h]) 0

/-- The debit alone depends on the rest of the wallet, and the available credit alone on flags. -/
theorem compute_congr {amount : Amount} (htx : wtx'.tx = wtx.tx)
    (hdebit : amount = .debit →
      ∀ txin ∈ wtx.tx.vin, debitIn cenv wallet' txin = debitIn cenv wallet txin)
    (hspent : amount = .availableCredit → ∀ i, i < wtx.tx.vout.length →
      wtx'.vfSpent[i]?.getD false = wtx.vfSpent[i]?.getD false) :
    compute cenv wallet' wtx' amount = compute cenv wallet wtx amount := by
  cases amount with
  | debit =>
    show debitOf cenv wallet' wtx'.tx = _
    rw [htx]
    exact debitOf_congr (hdebit rfl)
  | credit =>
    show creditOf cenv wtx'.tx = _
    rw [htx]
    rfl
  | availableCredit => exact availableCreditOf_congr htx (hspent rfl)
  | change =>
    show changeOf cenv wtx'.tx = _
    rw [htx]
    rfl

/-- An input is worth the same where the transactions are the same. -/
theorem debitIn_congr {txin : CTxIn} (h : wallet'[txin.prevout.hash]?.map (·.wtx.tx) =
    wallet[txin.prevout.hash]?.map (·.wtx.tx)) :
    debitIn cenv wallet' txin = debitIn cenv wallet txin := by
  unfold debitIn
  cases hold : wallet[txin.prevout.hash]? with
  | none =>
    rw [hold] at h
    rw [Option.map_eq_none_iff.mp h]
  | some prev =>
    rw [hold] at h
    obtain ⟨prev', hnew, htx⟩ := Option.map_eq_some_iff.mp h
    rw [hnew]
    dsimp only
    rw [htx]

end amounts

/-! ## What is kept -/

/-- The caches have what would be computed. -/
def Fresh (cenv : CacheEnv) (wallet : CachedWallet) (cached : CachedTx) : Prop :=
  ∀ amount nValue, cached.cached amount = some nValue →
    compute cenv wallet cached.wtx amount = .ok nValue

def Consistent (cenv : CacheEnv) (wallet : CachedWallet) : Prop :=
  ∀ (hash : Uint256) (cached : CachedTx), wallet[hash]? = some cached → Fresh cenv wallet cached

/-- A wallet with right caches stays one. -/
def Stays (cenv : CacheEnv) (wallet wallet' : CachedWallet) : Prop :=
  Consistent cenv wallet → Consistent cenv wallet'

section keeps

variable {cenv : CacheEnv} {wallet : CachedWallet} {hash : Uint256} {cached cached' : CachedTx}

instance : Std.Refl (Stays cenv) := ⟨fun _ h => h⟩

instance : IsTrans CachedWallet (Stays cenv) := ⟨fun _ _ _ h h' hw => h' (h hw)⟩

theorem setCache_self (cached : CachedTx) (amount : Amount) (nValue : Option Int) :
    (cached.setCache amount nValue).cached amount = nValue := Function.update_self _ _ _

theorem setCache_of_ne (cached : CachedTx) {amount amount' : Amount} (nValue : Option Int)
    (h : amount' ≠ amount) :
    (cached.setCache amount nValue).cached amount' = cached.cached amount' :=
  Function.update_of_ne h _ _

/-- An entry gets other caches and flags. -/
theorem Consistent.update (h : Consistent cenv wallet) (hget : wallet[hash]? = some cached)
    (htx : cached'.wtx.tx = cached.wtx.tx) (hfresh : Fresh cenv wallet cached') :
    Consistent cenv (wallet.insert hash cached') := by
  have hsame : ∀ txin, debitIn cenv (wallet.insert hash cached') txin =
      debitIn cenv wallet txin := by
    intro txin
    refine debitIn_congr ?_
    rw [Map.getElem?_insert]
    split
    · next heq =>
      rw [← heq, hget, Option.map_some, Option.map_some, htx]
    · rfl
  intro hash' other hother amount nValue hvalue
  rw [compute_congr rfl (fun _ txin _ => hsame txin) fun _ _ _ => rfl]
  rw [Map.getElem?_insert] at hother
  split at hother
  · rw [← Option.some.inj hother] at hvalue ⊢
    exact hfresh amount nValue hvalue
  · exact h hash' other hother amount nValue hvalue

theorem find_some (h : wallet[hash]? = some cached) : find hash wallet = .ok cached wallet := by
  unfold find
  rw [h]

theorem find_none (h : wallet[hash]? = none) :
    find hash wallet = .error (.undefined "(*mi).second") wallet := by
  unfold find
  rw [h]

theorem modifyTx_keeps {f : CachedTx → Except Thrown CachedTx}
    (hf : ∀ cached cached', f cached = .ok cached' → cached'.wtx.tx = cached.wtx.tx ∧
      ∀ wallet, Fresh cenv wallet cached → Fresh cenv wallet cached') (hash : Uint256) :
    Keeps (Stays cenv) (modifyTx hash f) := by
  intro wallet hwallet
  unfold modifyTx
  rw [bind_run]
  cases hget : wallet[hash]? with
  | none =>
    rw [find_none hget]
    exact hwallet
  | some cached =>
    rw [find_some hget]
    dsimp only
    rw [bind_run]
    cases hnew : f cached with
    | error e => exact hwallet
    | ok cached' =>
      obtain ⟨htx, hfresh⟩ := hf cached cached' hnew
      exact hwallet.update hget htx (hfresh wallet (hwallet hash cached hget))

theorem getAmount_keeps (amount : Amount) (fImmature : Bool) (hash : Uint256) :
    Keeps (Stays cenv) (getAmount cenv amount fImmature hash) := by
  intro wallet hwallet
  unfold getAmount
  rw [bind_run]
  cases hget : wallet[hash]? with
  | none =>
    rw [find_none hget]
    exact hwallet
  | some cached =>
    rw [find_some hget]
    dsimp only
    split
    · exact hwallet
    · cases hcached : cached.cached amount with
      | some nValue => exact hwallet
      | none =>
        dsimp only
        rw [bind_run]
        show Consistent cenv (endState ((fromExcept (compute cenv wallet cached.wtx amount) >>=
          fun nValue => put hash (cached.setCache amount (some nValue)) >>= fun _ =>
            pure nValue) wallet))
        rw [bind_run]
        cases hvalue : compute cenv wallet cached.wtx amount with
        | error e => exact hwallet
        | ok nValue =>
          refine hwallet.update hget rfl fun amount' nValue' h => ?_
          by_cases heq : amount' = amount
          · subst heq
            rw [setCache_self] at h
            rw [← Option.some.inj h]
            exact hvalue
          · rw [setCache_of_ne _ _ heq] at h
            exact hwallet hash cached hget amount' nValue' h

/-- Flags that are read the same way keep all caches, others all but the available credit. -/
theorem Fresh.of_flags (htx : cached'.wtx.tx = cached.wtx.tx)
    (hcached : ∀ amount nValue, cached'.cached amount = some nValue →
      cached.cached amount = some nValue)
    (hflags : cached'.cached .availableCredit ≠ none → ∀ i, i < cached.wtx.tx.vout.length →
      cached'.wtx.vfSpent[i]?.getD false = cached.wtx.vfSpent[i]?.getD false)
    (h : Fresh cenv wallet cached) : Fresh cenv wallet cached' := by
  intro amount nValue hvalue
  rw [compute_congr htx (fun _ _ _ => rfl) fun heq => ?_]
  · exact h amount nValue (hcached amount nValue hvalue)
  · subst heq
    exact hflags (by rw [hvalue]; exact Option.some_ne_none _)

theorem setCache_none {amount amount' : Amount} {nValue : Int}
    (h : (cached.setCache amount none).cached amount' = some nValue) :
    cached.cached amount' = some nValue := by
  by_cases heq : amount' = amount
  · subst heq
    rw [setCache_self] at h
    cases h
  · rwa [setCache_of_ne _ _ heq] at h

theorem mark_fresh {mark : CWalletTx → Nat → Except Thrown CWalletTx} {fSpent : Bool} {nOut : Nat}
    (hmark : ∀ wtx wtx', mark wtx nOut = .ok wtx' →
      wtx' = { wtx with vfSpent := wtx.resizeSpent.set nOut fSpent })
    (h : cached.mark mark fSpent nOut = .ok cached') :
    cached'.wtx.tx = cached.wtx.tx ∧
      ∀ wallet, Fresh cenv wallet cached → Fresh cenv wallet cached' := by
  unfold CachedTx.mark at h
  cases hwtx : mark cached.wtx nOut with
  | error e =>
    rw [hwtx] at h
    cases h
  | ok wtx =>
    rw [hwtx] at h
    obtain rfl := hmark _ _ hwtx
    dsimp only [bind, Except.bind] at h
    split at h
    · next hsame =>
      cases h
      refine ⟨rfl, fun wallet => Fresh.of_flags rfl (fun _ _ h => h) fun _ i hi => ?_⟩
      show (cached.wtx.resizeSpent.set nOut fSpent)[i]?.getD false = _
      rw [← CWalletTx.getElem?_resizeSpent hi, List.getElem?_set]
      split
      · next heq =>
        subst heq
        rw [CWalletTx.length_resizeSpent, if_pos hi]
        exact hsame.symm
      · rfl
    · cases h
      refine ⟨rfl, fun wallet => Fresh.of_flags rfl (fun _ _ h => setCache_none h) fun hne => ?_⟩
      exact absurd (setCache_self _ _ _) hne

theorem markSpent_fresh {nOut : Nat} (h : cached.markSpent nOut = .ok cached') :
    cached'.wtx.tx = cached.wtx.tx ∧
      ∀ wallet, Fresh cenv wallet cached → Fresh cenv wallet cached' := by
  refine mark_fresh (fun wtx wtx' hmark => ?_) h
  unfold CWalletTx.markSpent at hmark
  split at hmark
  · cases hmark
  · exact (Except.ok.inj hmark).symm

theorem markUnspent_fresh {nOut : Nat} (h : cached.markUnspent nOut = .ok cached') :
    cached'.wtx.tx = cached.wtx.tx ∧
      ∀ wallet, Fresh cenv wallet cached → Fresh cenv wallet cached' := by
  refine mark_fresh (fun wtx wtx' hmark => ?_) h
  unfold CWalletTx.markUnspent at hmark
  split at hmark
  · cases hmark
  · exact (Except.ok.inj hmark).symm

theorem updateSpent_of_false {vfNewSpent vfSpent : List Bool}
    (h : (CWalletTx.updateSpent vfNewSpent vfSpent).1 = false) :
    (CWalletTx.updateSpent vfNewSpent vfSpent).2 = vfSpent := by
  induction vfNewSpent generalizing vfSpent with
  | nil => rfl
  | cons fNew vfNewSpent ih =>
    cases vfSpent with
    | nil => rfl
    | cons fOld vfSpent =>
      obtain ⟨hnew, hrest⟩ := Bool.or_eq_false_iff.mp h
      show (fNew || fOld) :: (CWalletTx.updateSpent vfNewSpent vfSpent).2 = _
      rw [ih hrest]
      congr 1
      cases fNew with
      | false => rfl
      | true => simpa using hnew.symm

theorem updateSpent_fresh (vfNewSpent : List Bool) :
    (cached.updateSpent vfNewSpent).wtx.tx = cached.wtx.tx ∧
      ∀ wallet, Fresh cenv wallet cached → Fresh cenv wallet (cached.updateSpent vfNewSpent) := by
  unfold CachedTx.updateSpent
  dsimp only
  split
  · refine ⟨rfl, fun wallet => Fresh.of_flags rfl (fun _ _ h => setCache_none h) fun hne => ?_⟩
    exact absurd (setCache_self _ _ _) hne
  · next hsame =>
    refine ⟨rfl, fun wallet => Fresh.of_flags rfl (fun _ _ h => h) fun _ i _ => ?_⟩
    rw [updateSpent_of_false (Bool.not_eq_true _ ▸ hsame)]

theorem walletUpdateSpent_keeps (env : Env) (isImmature : CWalletTx → Bool) (tx : CTransaction)
    (fBlock : Bool) : Keeps (Stays cenv) (walletUpdateSpent env cenv isImmature tx fBlock) := by
  refine Keeps.bind (Keeps.foldlM (fun _ txin => ?_) _ _) fun _ =>
    Keeps.ite (Keeps.foldlM (fun _ output => ?_) _ _) (Keeps.pure ())
  · refine Keeps.bind (fun _ h => h) fun wallet => ?_
    split
    · exact Keeps.pure ()
    · split
      · exact Keeps.pure ()
      · refine Keeps.bind (Keeps.fromExcept _) fun fSpent => Keeps.ite ?_ (Keeps.pure ())
        exact Keeps.bind (getAmount_keeps _ _ _) fun _ =>
          modifyTx_keeps (fun _ _ h => markSpent_fresh h) _
  · exact Keeps.ite (modifyTx_keeps (fun _ _ h => markUnspent_fresh h) _) (Keeps.pure ())

end keeps

/-! ## Coins that come and go -/

/-- No cached debit of another transaction is about an own output of `hash` that is worth
something; `vout` are the outputs of `hash`. -/
def Uncounted (cenv : CacheEnv) (wallet : CachedWallet) (hash : Uint256) (vout : List CTxOut) :
    Prop :=
  ∀ (hash' : Uint256) (cached : CachedTx), wallet[hash']? = some cached → hash' ≠ hash →
    cached.cached .debit ≠ none → ∀ txin ∈ cached.wtx.tx.vin, txin.prevout.hash = hash →
      ∀ txout, vout[txin.prevout.n]? = some txout → cenv.isMine txout = true → txout.nValue = 0

/-- A transaction that is inserted or erased is not what a cached debit is about. -/
def Harmless (env : Env) (cenv : CacheEnv) (wallet : CachedWallet) : Op → Prop
  | .addToWallet _ _ wtxIn => wallet[wtxIn.tx.getHash env]? = none →
      Uncounted cenv wallet (wtxIn.tx.getHash env) wtxIn.tx.vout
  | .eraseFromWallet hash => ∀ cached : CachedTx, wallet[hash]? = some cached →
      Uncounted cenv wallet hash cached.wtx.tx.vout
  | _ => True

section runs

variable {env : Env} {cenv : CacheEnv} {wallet wallet' : CachedWallet} {hash : Uint256}

/-- An input that spends nothing of `hash` that counts is worth nothing. -/
theorem debitIn_of_vout {txin : CTxIn} {prev : CachedTx}
    (hprev : wallet[txin.prevout.hash]? = some prev)
    (h : ∀ txout, prev.wtx.tx.vout[txin.prevout.n]? = some txout → cenv.isMine txout = true →
      txout.nValue = 0) : debitIn cenv wallet txin = 0 := by
  unfold debitIn
  rw [hprev]
  dsimp only
  cases hout : prev.wtx.tx.vout[txin.prevout.n]? with
  | none => rfl
  | some txout =>
    dsimp only
    split
    · next hmine => exact h txout hout hmine
    · rfl

theorem debitIn_of_none {txin : CTxIn} (h : wallet[txin.prevout.hash]? = none) :
    debitIn cenv wallet txin = 0 := by
  unfold debitIn
  rw [h]

/-- Entries keep right caches when the inputs of their cached debits are worth the same. -/
theorem Consistent.of_debitIn (h : Consistent cenv wallet)
    (hentry : ∀ (hash : Uint256) (cached : CachedTx), wallet'[hash]? = some cached →
      (cached.cached = fun _ => none) ∨ wallet[hash]? = some cached ∧
        (cached.cached .debit ≠ none → ∀ txin ∈ cached.wtx.tx.vin,
          debitIn cenv wallet' txin = debitIn cenv wallet txin)) : Consistent cenv wallet' := by
  intro hash cached hget amount nValue hvalue
  rcases hentry hash cached hget with hnone | ⟨hold, hsame⟩
  · rw [hnone] at hvalue
    cases hvalue
  · rw [compute_congr rfl (fun heq => hsame ?_) fun _ _ _ => rfl]
    · exact h hash cached hold amount nValue hvalue
    · rw [← heq, hvalue]
      exact Option.some_ne_none _

theorem consistent_insert (h : Consistent cenv wallet) (wtx : CWalletTx)
    (hnew : wallet[hash]? = none) (hok : Uncounted cenv wallet hash wtx.tx.vout) :
    Consistent cenv (wallet.insert hash ⟨wtx, fun _ => none⟩) := by
  refine h.of_debitIn fun hash' cached hget => ?_
  rw [Map.getElem?_insert] at hget
  split at hget
  · rw [← Option.some.inj hget]
    exact .inl rfl
  · next hne =>
    refine .inr ⟨hget, fun hcached txin hmem => ?_⟩
    by_cases hspends : txin.prevout.hash = hash
    · have hold : wallet[txin.prevout.hash]? = none := by
        rw [hspends]
        exact hnew
      rw [debitIn_of_none hold]
      have hprev : (wallet.insert hash ⟨wtx, fun _ => none⟩)[txin.prevout.hash]? =
          some (⟨wtx, fun _ => none⟩ : CachedTx) := by
        rw [Map.getElem?_insert, if_pos hspends.symm]
      exact debitIn_of_vout hprev fun txout hout hmine =>
        hok hash' cached hget (Ne.symm hne) hcached txin hmem hspends txout hout hmine
    · refine debitIn_congr ?_
      rw [Map.getElem?_insert, if_neg (Ne.symm hspends)]

theorem consistent_erase (h : Consistent cenv wallet)
    (hok : ∀ cached : CachedTx, wallet[hash]? = some cached →
      Uncounted cenv wallet hash cached.wtx.tx.vout) : Consistent cenv (wallet.erase hash) := by
  refine h.of_debitIn fun hash' cached hget => ?_
  rw [Map.getElem?_erase] at hget
  split at hget
  · cases hget
  · next hne =>
    refine .inr ⟨hget, fun hcached txin hmem => ?_⟩
    by_cases hspends : txin.prevout.hash = hash
    · rw [debitIn_of_none (by rw [Map.getElem?_erase, if_pos hspends.symm])]
      cases hprev : wallet[hash]? with
      | none => exact (debitIn_of_none (hspends ▸ hprev)).symm
      | some prev =>
        refine (debitIn_of_vout (hspends ▸ hprev) fun txout hout hmine => ?_).symm
        exact hok prev hprev hash' cached hget (Ne.symm hne) hcached txin hmem hspends txout hout
          hmine
    · refine debitIn_congr ?_
      rw [Map.getElem?_erase, if_neg (Ne.symm hspends)]

theorem addToWallet_keeps (isImmature : CWalletTx → Bool) (fWritten : Bool) (wtxIn : CWalletTx)
    (h : Consistent cenv wallet)
    (hok : Harmless env cenv wallet (.addToWallet isImmature fWritten wtxIn)) :
    Consistent cenv (endState (addToWallet env cenv isImmature fWritten wtxIn wallet)) := by
  have hput : Consistent cenv (wallet.insert (wtxIn.tx.getHash env)
      ⟨(entryFor env wallet wtxIn).2, fun _ => none⟩) := by
    unfold entryFor
    cases hget : wallet[wtxIn.tx.getHash env]? with
    | none => exact consistent_insert h wtxIn hget (hok hget)
    | some cached =>
      exact h.update hget rfl fun amount nValue hvalue => by cases hvalue
  have hrest : Keeps (Stays cenv) (if (entryFor env wallet wtxIn).1 && !fWritten then pure false
      else do
        walletUpdateSpent env cenv isImmature (entryFor env wallet wtxIn).2.tx
          (decide (wtxIn.hashBlock ≠ 0))
        pure true : CacheM Bool) :=
    Keeps.ite (Keeps.pure false)
      (Keeps.bind (walletUpdateSpent_keeps _ _ _ _) fun _ => Keeps.pure true)
  exact hrest _ hput

theorem Op.exec_keeps (op : Op) (h : Consistent cenv wallet) (hok : Harmless env cenv wallet op) :
    Consistent cenv (endState (op.exec env cenv wallet)) := by
  have hdone : ∀ {α : Type} (x : CacheM α), Consistent cenv (endState (x wallet)) →
      Consistent cenv (endState ((x >>= fun _ => pure ()) wallet)) := by
    intro α x hx
    rw [bind_run]
    cases hrun : x wallet with
    | ok a s =>
      rw [hrun] at hx
      exact hx
    | error e s =>
      rw [hrun] at hx
      exact hx
  cases op with
  | addToWallet isImmature fWritten wtxIn =>
    exact hdone _ (addToWallet_keeps isImmature fWritten wtxIn h hok)
  | markSpent hash nOut => exact modifyTx_keeps (fun _ _ h => markSpent_fresh h) hash wallet h
  | markUnspent hash nOut => exact modifyTx_keeps (fun _ _ h => markUnspent_fresh h) hash wallet h
  | updateSpent hash vfNewSpent =>
    refine modifyTx_keeps (fun _ _ h => ?_) hash wallet h
    rw [← Except.ok.inj h]
    exact updateSpent_fresh vfNewSpent
  | bindWallet hash =>
    refine modifyTx_keeps (fun _ _ h => ?_) hash wallet h
    rw [← Except.ok.inj h]
    exact ⟨rfl, fun _ _ _ _ hvalue => by cases hvalue⟩
  | eraseFromWallet hash =>
    refine hdone _ ?_
    unfold WalletCache.eraseFromWallet
    split
    · exact h
    · exact consistent_erase h hok
  | query amount fImmature hash => exact hdone _ (getAmount_keeps amount fImmature hash wallet h)

theorem consistent_markDirty (wallet : CachedWallet) : Consistent cenv (markDirty wallet) := by
  intro hash cached hget amount nValue hvalue
  rw [markDirty, Std.ExtTreeMap.getElem?_map] at hget
  obtain ⟨dirty, -, rfl⟩ := Option.map_eq_some_iff.mp hget
  cases hvalue

theorem Runs.consistent (h : Runs env cenv (Harmless env cenv) wallet) :
    Consistent cenv wallet := by
  induction h with
  | start wallet => exact consistent_markDirty wallet
  | op h hok ih => exact Op.exec_keeps _ ih hok

end runs

/-! ## The amounts in a run -/

/-- What a query returns or throws. -/
def value {α : Type} : EStateM.Result Thrown CachedWallet α → Except Thrown α
  | .ok a _ => .ok a
  | .error e _ => .error e

/-- Every query returns what it returns when all caches have been cleared first. -/
def AmountsFresh (cenv : CacheEnv) (wallet : CachedWallet) : Prop :=
  ∀ amount fImmature hash, value (getAmount cenv amount fImmature hash wallet) =
    value (getAmount cenv amount fImmature hash (markDirty wallet))

/-- What a query returns when it gets to its cache. -/
theorem value_getAmount {cenv : CacheEnv} {wallet : CachedWallet} {amount : Amount}
    {fImmature : Bool} {hash : Uint256} {cached : CachedTx} (hget : wallet[hash]? = some cached)
    (hgoes : skipped fImmature cached.wtx amount = false) :
    value (getAmount cenv amount fImmature hash wallet) =
      match cached.cached amount with
      | some nValue => .ok nValue
      | none => compute cenv wallet cached.wtx amount := by
  unfold getAmount
  rw [bind_run, find_some hget]
  dsimp only
  rw [hgoes, if_neg (by decide)]
  cases cached.cached amount with
  | some nValue => rfl
  | none =>
    show value ((fromExcept (compute cenv wallet cached.wtx amount) >>=
      fun nValue => put hash (cached.setCache amount (some nValue)) >>= fun _ =>
        pure nValue) wallet) = _
    rw [bind_run]
    cases compute cenv wallet cached.wtx amount <;> rfl

theorem Consistent.amountsFresh {cenv : CacheEnv} {wallet : CachedWallet}
    (h : Consistent cenv wallet) : AmountsFresh cenv wallet := by
  intro amount fImmature hash
  have hdirty : ∀ hash' : Uint256, (markDirty wallet)[hash']? =
      wallet[hash']?.map CachedTx.markDirty := fun _ => Std.ExtTreeMap.getElem?_map
  cases hget : wallet[hash]? with
  | none =>
    have hnone : (markDirty wallet)[hash]? = none := by rw [hdirty, hget, Option.map_none]
    unfold getAmount
    rw [bind_run, bind_run, find_none hget, find_none hnone]
    rfl
  | some cached =>
    have hcleared : (markDirty wallet)[hash]? = some cached.markDirty := by
      rw [hdirty, hget, Option.map_some]
    cases hskip : skipped fImmature cached.wtx amount with
    | true =>
      unfold getAmount
      rw [bind_run, bind_run, find_some hget, find_some hcleared]
      dsimp only
      have hskipped : skipped fImmature cached.markDirty.wtx amount = true := hskip
      rw [if_pos hskip, if_pos hskipped]
      rfl
    | false =>
      have hsame : compute cenv (markDirty wallet) cached.wtx amount =
          compute cenv wallet cached.wtx amount := by
        refine compute_congr rfl (fun _ txin _ => debitIn_congr ?_) fun _ _ _ => rfl
        rw [hdirty, Option.map_map]
        rfl
      rw [value_getAmount hget hskip, value_getAmount hcleared hskip]
      show _ = compute cenv (markDirty wallet) cached.wtx amount
      rw [hsame]
      cases hcached : cached.cached amount with
      | none => rfl
      | some nValue => exact (h hash cached hget amount nValue hcached).symm

section samples

/-- Every output is the wallet's. -/
def ownAll : CacheEnv := ⟨fun _ => true, fun _ => false, true⟩

/-- A transaction that spends an output of `pooledTx` is added, its debit is asked for, and
`pooledTx` itself is added. -/
def childFirst : List Op :=
  [.addToWallet (fun _ => false) true (.ofTx spendingTx),
    .query .debit false (spendingTx.getHash testNet),
    .addToWallet (fun _ => false) true (.ofTx pooledTx)]

def runOps (env : Env) (cenv : CacheEnv) (wallet : CachedWallet) (ops : List Op) : CachedWallet :=
  ops.foldl (fun wallet op => endState (op.exec env cenv wallet)) wallet

theorem runs_runOps {env : Env} {cenv : CacheEnv} {wallet : CachedWallet}
    (h : Runs env cenv (fun _ _ => True) wallet) (ops : List Op) :
    Runs env cenv (fun _ _ => True) (runOps env cenv wallet ops) := by
  induction ops generalizing wallet with
  | nil => exact h
  | cons op ops ih => exact ih (.op h trivial)

theorem harmless_empty (env : Env) (cenv : CacheEnv) (op : Op) :
    Harmless env cenv (markDirty ∅) op := by
  have hempty : ∀ (hash : Uint256) (cached : CachedTx), (markDirty ∅)[hash]? ≠ some cached := by
    intro hash cached hget
    rw [markDirty, Std.ExtTreeMap.getElem?_map, Map.getElem?_empty] at hget
    cases hget
  cases op with
  | addToWallet => exact fun _ hash cached hget => absurd hget (hempty hash cached)
  | eraseFromWallet => exact fun _ _ hash cached hget => absurd hget (hempty hash cached)
  | markSpent => trivial
  | markUnspent => trivial
  | updateSpent => trivial
  | bindWallet => trivial
  | query => trivial

/-- A wallet with one transaction. -/
def parentOnly : CachedWallet :=
  endState ((Op.addToWallet (fun _ => false) true (.ofTx pooledTx)).exec testNet ownAll
    (markDirty ∅))

end samples

end WalletCache

end NoLimitCoin
