import NoLimitCoin.WalletRepair

/-!
# Marking the spent coins of the wallet again

`ReacceptWalletTransactions` goes through the wallet: it marks the own outputs that the index of
transactions has a spender for, and offers what is in no block to the memory pool.  When it has
marked something it scans the chain, and starts again when the scan has found transactions.

Results:
1. `reacceptTx_spec`: one transaction of the wallet.
2. `scanForWalletTransactions_spec`: a scan adds transactions and takes no mark.
3. `reacceptWalletTransactions_ends`: every turn but the last adds a transaction of the chain.
4. `wallet_repair`: what is right after either repair.
-/

namespace NoLimitCoin

open Prog
open KeyPool (Thrown)

namespace CWallet

open CWalletTx

/-! ## The code -/

/-- What `ReacceptWalletTransactions` uses beside the wallet, the index and the memory pool. -/
structure ReacceptEnv where
  /-- `vtxPrev` of a wallet transaction. -/
  vtxPrev : Uint256 → List CMerkleTx
  /-- `GetCredit`, which may have a cached value, for the message that a coin was found. -/
  getCredit : CWalletTx → Except Thrown Int
  /-- The main chain from `pindexGenesisBlock` on: the time of a block in the index, and the
  transactions that are read from the disk, with what `SetMerkleBranch` finds for them. -/
  chain : List (Nat × List CMerkleTx)
  nTimeFirstKey : Int

abbrev ReacceptM := EStateM (Thrown ⊕ Exit) (CWallet × World)

def onWallet {α : Type} (x : WalletM α) : ReacceptM α := fun s =>
  match x s.1 with
  | .ok a wallet => .ok a (wallet, s.2)
  | .error e wallet => .error (.inl e) (wallet, s.2)

/-- Call `AcceptWalletTransaction`, whose answer nobody looks at. -/
def offer (env : Env) (wtx : SupportedTx) : ReacceptM Unit := fun s =>
  match wtx.acceptWalletTransaction env true s.2 with
  | .ok () w => .ok () (s.1, w)
  | .error (.reject _ _) w => .ok () (s.1, w)
  | .error (.abort what) w => .error (.inr (.abort what)) (s.1, w)

/-- `fKind && IsSpent(nOut)`. -/
def spentIf (fKind : Bool) (wtx : CWalletTx) (nOut : Nat) : Except Thrown Bool :=
  if fKind then wtx.isSpent nOut else .ok false

/-- Whether the loop goes past the transaction: one output stands for all of them. -/
def goesPast (wtx : CWalletTx) : Except Thrown Bool := do
  if ← spentIf wtx.tx.isCoinBase wtx 0 then pure true
  else spentIf wtx.tx.isCoinStake wtx 1

section code

variable (env : Env) (wenv : WalletEnv) (renv : ReacceptEnv) (txdb : TxDB)

/-- The loop over the slots of the index.  The state is what the transaction adds to `vMissingTx`,
and the transaction. -/
def reacceptSlot (hash : Uint256) (s : List CDiskTxPos × CWalletTx) (slot : CDiskTxPos × Nat) :
    WalletM (List CDiskTxPos × CWalletTx) := do
  let fSpent ← fromExcept (s.2.isSpent slot.2)
  if fSpent then pure s
  else if !slot.1.isNull && (s.2.tx.vout[slot.2]?).any wenv.isMine then do
    let wtx ← fromExcept (s.2.markSpent slot.2)
    put hash wtx
    pure (s.1 ++ [slot.1], wtx)
  else pure s

/-- A transaction that is in the index; `fUpdated` is that something has been found. -/
def reacceptIndexed (txindex : CTxIndex) (hash : Uint256) (wtx : CWalletTx) :
    WalletM (List CDiskTxPos) := do
  if txindex.vSpent.length ≠ wtx.tx.vout.length then pure []
  else do
    let s ← txindex.vSpent.zipIdx.foldlM (reacceptSlot wenv hash) ([], wtx)
    if s.1.isEmpty then pure []
    else do
      let _ ← fromExcept (renv.getCredit s.2)
      let _ ← writeToDisk env s.2
      pure s.1

/-- The loop over `mapWallet`. -/
def reacceptTx (vMissingTx : List CDiskTxPos) (hash : Uint256) : ReacceptM (List CDiskTxPos) := do
  let wallet ← onWallet get
  match wallet.mapWallet[hash]? with
  | none => pure vMissingTx
  | some wtx => do
    let fPast ← onWallet (fromExcept (goesPast wtx))
    if fPast then pure vMissingTx
    else
      match txdb.readTxIndex (wtx.tx.getHash env) with
      | some txindex => do
        let found ← onWallet (reacceptIndexed env wenv renv txindex hash wtx)
        pure (vMissingTx ++ found)
      | none =>
        if wtx.tx.isCoinBase || wtx.tx.isCoinStake then pure vMissingTx
        else do
          offer env ⟨wtx.toCMerkleTx, renv.vtxPrev hash⟩
          pure vMissingTx

/-- `ScanForWalletTransactions`, a transaction of a block. -/
def scanTx (fUpdate : Bool) (ret : Nat) (mtx : CMerkleTx) : WalletM Nat := do
  let fAdded ← addToWalletIfInvolvingMe env wenv mtx fUpdate
  pure (if fAdded then ret + 1 else ret)

/-- The transactions of the blocks that a scan reads: not of those from before the first key. -/
def ReacceptEnv.scanned : List CMerkleTx :=
  (renv.chain.filter fun block =>
    !(renv.nTimeFirstKey ≠ 0 && (block.1 : Int) < renv.nTimeFirstKey - 7200)).flatMap (·.2)

/-- `ScanForWalletTransactions` from the first block on. -/
def scanForWalletTransactions (fUpdate : Bool) : WalletM Nat :=
  renv.scanned.foldlM (scanTx env wenv fUpdate) 0

/-- `ReacceptWalletTransactions`: `none` where the fuel is too little. -/
def reacceptWalletTransactions : (fuel : Nat) → ReacceptM (Option Unit)
  | 0 => pure none
  | fuel + 1 => do
    let wallet ← onWallet get
    let vMissingTx ← (wallet.mapWallet.toList.map (·.1)).foldlM
      (reacceptTx env wenv renv txdb) []
    if vMissingTx.isEmpty then pure (some ())
    else do
      let ret ← onWallet (scanForWalletTransactions env wenv renv false)
      if ret = 0 then pure (some ()) else reacceptWalletTransactions fuel

end code

/-! ## One transaction -/

/-- The output that stands for all of them is marked. -/
def GoesPast (wtx : CWalletTx) : Prop :=
  (wtx.tx.isCoinBase = true ∧ wtx.isSpent 0 = .ok true) ∨
    (wtx.tx.isCoinStake = true ∧ wtx.isSpent 1 = .ok true)

theorem spentIf_eq_true {fKind : Bool} {wtx : CWalletTx} {nOut : Nat}
    (h : spentIf fKind wtx nOut = .ok true) : fKind = true ∧ wtx.isSpent nOut = .ok true := by
  cases fKind with
  | true => exact ⟨rfl, h⟩
  | false => cases h

theorem goesPast_of_eq {wtx : CWalletTx} (h : goesPast wtx = .ok true) : GoesPast wtx := by
  rw [goesPast] at h
  cases hbase : spentIf wtx.tx.isCoinBase wtx 0 with
  | error e =>
    rw [hbase] at h
    cases h
  | ok fBase =>
    rw [hbase] at h
    cases fBase with
    | true => exact .inl (spentIf_eq_true hbase)
    | false => exact .inr (spentIf_eq_true h)

theorem GoesPast.marked {wtx wtx' : CWalletTx} (h : GoesPast wtx) (hmarked : Marked wtx wtx') :
    GoesPast wtx' := by
  have htx : wtx'.tx = wtx.tx := hmarked.tx
  rcases h with ⟨hkind, hspent⟩ | ⟨hkind, hspent⟩
  · exact .inl ⟨htx ▸ hkind, hmarked.spent 0 hspent⟩
  · exact .inr ⟨htx ▸ hkind, hmarked.spent 1 hspent⟩

/-- The own outputs that the index has a spender for are marked.  An index that does not have a slot
for every output does not count. -/
def CoinsMarked (wenv : WalletEnv) (txindex : CTxIndex) (wtx : CWalletTx) : Prop :=
  txindex.vSpent.length = wtx.tx.vout.length → ∀ (n : Nat) txout, wtx.tx.vout[n]? = some txout →
    wenv.isMine txout = true → txindex.isSpent n = true → wtx.isSpent n = .ok true

section tx

variable {env : Env} {wenv : WalletEnv} {renv : ReacceptEnv} {txdb : TxDB} {txindex : CTxIndex}
  {hash : Uint256} {wallet wallet' : CWallet} {wtx : CWalletTx}
  {s : List CDiskTxPos × CWalletTx} {slot : CDiskTxPos × Nat} {slots : List (CDiskTxPos × Nat)}

/-- The slot has a spender, and its output is the wallet's own. -/
def Missing (wenv : WalletEnv) (wtx : CWalletTx) (slot : CDiskTxPos × Nat) : Prop :=
  slot.1.isNull = false ∧ ∃ txout, wtx.tx.vout[slot.2]? = some txout ∧ wenv.isMine txout = true

theorem reacceptSlot_run (hlt : slot.2 < s.2.tx.vout.length)
    (hwtx : wallet.mapWallet[hash]? = some s.2) :
    ∃ s' wallet', reacceptSlot wenv hash s slot wallet = .ok s' wallet' ∧
      Replaces hash s'.2 wallet wallet' ∧ Marked s.2 s'.2 ∧
      (Missing wenv s.2 slot → s'.2.isSpent slot.2 = .ok true) := by
  rw [reacceptSlot, isSpent_of_lt hlt, bind_run]
  dsimp only [fromExcept, pure_run]
  have hstays : Replaces hash s.2 wallet wallet := ⟨hwtx, fun _ _ => rfl⟩
  cases hflag : s.2.flag slot.2 with
  | true =>
    refine ⟨s, wallet, rfl, hstays, Std.Refl.refl _, fun _ => ?_⟩
    rw [isSpent_of_lt hlt, hflag]
  | false =>
    rw [if_neg Bool.false_ne_true]
    by_cases hfound : (!slot.1.isNull && (s.2.tx.vout[slot.2]?).any wenv.isMine) = true
    · rw [if_pos hfound, markSpent_marks s.2 slot.2 hlt]
      obtain ⟨hmarked, hspent⟩ := markSpent_spec (markSpent_marks s.2 slot.2 hlt)
      exact ⟨(s.1 ++ [slot.1], _), _, rfl, replaces_insert hash _ wallet _ _, hmarked,
        fun _ => hspent⟩
    · rw [if_neg hfound]
      refine ⟨s, wallet, rfl, hstays, Std.Refl.refl _, fun hmissing => absurd ?_ hfound⟩
      obtain ⟨hnull, txout, hout, hmine⟩ := hmissing
      rw [hnull, hout]
      exact hmine

theorem reacceptSlots_run (hlt : ∀ slot ∈ slots, slot.2 < s.2.tx.vout.length)
    (hwtx : wallet.mapWallet[hash]? = some s.2) :
    ∃ s' wallet', slots.foldlM (reacceptSlot wenv hash) s wallet = .ok s' wallet' ∧
      Replaces hash s'.2 wallet wallet' ∧ Marked s.2 s'.2 ∧
      ∀ slot ∈ slots, Missing wenv s.2 slot → s'.2.isSpent slot.2 = .ok true := by
  induction slots generalizing s wallet with
  | nil =>
    exact ⟨s, wallet, rfl, ⟨hwtx, fun _ _ => rfl⟩, Std.Refl.refl _,
      fun _ hmem => absurd hmem List.not_mem_nil⟩
  | cons slot slots ih =>
    rw [List.forall_mem_cons] at hlt
    obtain ⟨s₁, wallet₁, hfirst, hreplaces₁, hmarked₁, hspent₁⟩ :=
      @reacceptSlot_run wenv hash wallet s slot hlt.1 hwtx
    have htx : s₁.2.tx = s.2.tx := hmarked₁.tx
    rw [← htx] at hlt
    obtain ⟨s', wallet', hrest, hreplaces', hmarked', hspent'⟩ := ih hlt.2 hreplaces₁.entry
    refine ⟨s', wallet', ?_, hreplaces₁.trans hreplaces', IsTrans.trans _ _ _ hmarked₁ hmarked',
      ?_⟩
    · rw [List.foldlM_cons, bind_run, hfirst]
      exact hrest
    · rw [List.forall_mem_cons]
      refine ⟨fun hmissing => hmarked'.spent _ (hspent₁ hmissing), fun other hmem hmissing => ?_⟩
      refine hspent' other hmem ?_
      rw [Missing, htx]
      exact hmissing

/-- What the index says about an output is in the slots. -/
theorem missing_of_isSpent {n : Nat} {txout : CTxOut} (hout : wtx.tx.vout[n]? = some txout)
    (hmine : wenv.isMine txout = true) (hspent : txindex.isSpent n = true) :
    ∃ pos, (pos, n) ∈ txindex.vSpent.zipIdx ∧ Missing wenv wtx (pos, n) := by
  unfold CTxIndex.isSpent at hspent
  obtain ⟨pos, hpos, hnull⟩ := (Option.any_eq_true _ _).mp hspent
  refine ⟨pos, List.mem_zipIdx_iff_getElem?.mpr hpos, ?_, txout, hout, hmine⟩
  rwa [Bool.not_eq_true'] at hnull

theorem reacceptIndexed_spec {found : List CDiskTxPos}
    (hrun : reacceptIndexed env wenv renv txindex hash wtx wallet = .ok found wallet')
    (hwtx : wallet.mapWallet[hash]? = some wtx) :
    ∃ wtx', Replaces hash wtx' wallet wallet' ∧ Marked wtx wtx' ∧
      CoinsMarked wenv txindex wtx' := by
  unfold reacceptIndexed at hrun
  split at hrun
  · next hlength =>
    obtain ⟨-, rfl⟩ := EStateM.Result.ok.inj hrun
    exact ⟨wtx, ⟨hwtx, fun _ _ => rfl⟩, Std.Refl.refl _, fun heq => absurd heq hlength⟩
  · next hlength =>
    rw [ne_eq, not_not] at hlength
    have hlt : ∀ slot ∈ txindex.vSpent.zipIdx, slot.2 < wtx.tx.vout.length := fun slot hmem =>
      hlength ▸ (List.getElem?_eq_some_iff.mp (List.mem_zipIdx_iff_getElem?.mp hmem)).1
    obtain ⟨s', wallet₁, hslots, hreplaces, hmarked, hspent⟩ :=
      @reacceptSlots_run wenv hash wallet ([], wtx) _ hlt hwtx
    refine ⟨s'.2, ?_, hmarked, fun _ n txout hout hmine hindex => ?_⟩
    · obtain ⟨s₁, wallet₂, hslots', hrest⟩ := bind_eq_ok.mp hrun
      obtain ⟨rfl, rfl⟩ := EStateM.Result.ok.inj (hslots.symm.trans hslots')
      split at hrest
      · obtain ⟨-, rfl⟩ := EStateM.Result.ok.inj hrest
        exact hreplaces
      · obtain ⟨nCredit, wallet₂, hcredit, hstore⟩ := bind_eq_ok.mp hrest
        obtain ⟨-, rfl⟩ := fromExcept_eq_ok.mp hcredit
        obtain ⟨fWritten, wallet₃, hwrite, hend⟩ := bind_eq_ok.mp hstore
        obtain ⟨disk, keys, hwritten, -⟩ := writeToDisk_run env s'.2 wallet₂
        obtain ⟨-, rfl⟩ := EStateM.Result.ok.inj (hwritten.symm.trans hwrite)
        obtain ⟨-, rfl⟩ := EStateM.Result.ok.inj hend
        exact ⟨hreplaces.entry, hreplaces.others⟩
    · have htx : s'.2.tx = wtx.tx := hmarked.tx
      rw [htx] at hout
      obtain ⟨pos, hmem, hmissing⟩ := missing_of_isSpent hout hmine hindex
      exact hspent _ hmem hmissing

end tx

/-! ## Writes that work -/

/-- Every write to `wallet.dat` works. -/
def WritesWork (keys : KeyPool.CWallet) : Prop := ∀ n, keys.io n = true

/-- Where every write works, every later one does. -/
def WorkOn (a b : KeyPool.CWallet) : Prop := WritesWork a → WritesWork b

instance : Std.Refl WorkOn := ⟨fun _ h => h⟩

instance : IsTrans KeyPool.CWallet WorkOn := ⟨fun _ _ _ h₁ h₂ h => h₂ (h₁ h)⟩

theorem workOn_keptByKeys : KeptByKeys WorkOn where
  insertIndex _ _ h := h
  eraseIndex _ _ h := h
  noteKept _ _ h := h
  generateNewKey _ h := h
  writePool _ _ _ h n := h (n + 1)
  walletKeepKey _ _ h n := h (n + 1)
  nextWrite _ h n := h (n + 1)
  defaultKey _ _ h := h

/-- The same for the wallet. -/
def WalletWorksOn (a b : CWallet) : Prop := WorkOn a.keys b.keys

instance : Std.Refl WalletWorksOn := ⟨fun _ h => h⟩

instance : IsTrans CWallet WalletWorksOn := ⟨fun _ _ _ h₁ h₂ h => h₂ (h₁ h)⟩

section works

variable {env : Env} {wenv : WalletEnv} {renv : ReacceptEnv}

theorem get_works : Keeps WalletWorksOn get := fun _ h => h

theorem put_works (hash : Uint256) (wtx : CWalletTx) : Keeps WalletWorksOn (put hash wtx) :=
  fun _ h => h

theorem onKeys_works {α : Type} {x : KeyPool.WalletM α} (hx : Keeps WorkOn x) :
    Keeps WalletWorksOn (onKeys x) := by
  intro wallet
  have hkeys := hx wallet.keys
  unfold onKeys
  cases hrun : x wallet.keys with
  | ok a keys =>
    rw [hrun] at hkeys
    exact hkeys
  | error e keys =>
    rw [hrun] at hkeys
    exact hkeys

theorem writeToDisk_works (wtx : CWalletTx) : Keeps WalletWorksOn (writeToDisk env wtx) := by
  refine Keeps.bind (onKeys_works workOn_keptByKeys.nextWrite) fun fWritten => ?_
  exact Keeps.bind (Keeps.ite (fun _ h => h) (Keeps.pure _)) fun _ => Keeps.pure _

theorem modifyTx_works (hash : Uint256) (wtx : CWalletTx)
    (f : CWalletTx → Except Thrown CWalletTx) : Keeps WalletWorksOn (modifyTx env hash wtx f) := by
  refine Keeps.bind (Keeps.fromExcept _) fun wtx' => Keeps.bind (put_works hash wtx') fun _ => ?_
  exact Keeps.bind (writeToDisk_works wtx') fun _ => Keeps.pure _

theorem updateInput_works (txin : CTxIn) : Keeps WalletWorksOn (updateInput env wenv txin) := by
  refine Keeps.bind get_works fun wallet => ?_
  split
  · exact Keeps.pure _
  · split
    · exact Keeps.pure _
    · refine Keeps.bind (Keeps.fromExcept _) fun fSpent => ?_
      exact Keeps.ite (modifyTx_works _ _ _) (Keeps.pure _)

theorem updateOutput_works (hash : Uint256) (output : CTxOut × Nat) :
    Keeps WalletWorksOn (updateOutput env wenv hash output) := by
  refine Keeps.ite (Keeps.bind get_works fun wallet => ?_) (Keeps.pure _)
  split
  · exact Keeps.throw _
  · exact modifyTx_works _ _ _

theorem walletUpdateSpent_works (tx : CTransaction) (fBlock : Bool) :
    Keeps WalletWorksOn (walletUpdateSpent env wenv tx fBlock) := by
  refine Keeps.bind (Keeps.foldlM (fun _ txin => updateInput_works txin) _ _) fun _ => ?_
  exact Keeps.ite (Keeps.foldlM (fun _ output => updateOutput_works _ output) _ _) (Keeps.pure _)

theorem finishAdding_works (fBlock : Bool) (entry : Bool × CWalletTx) :
    Keeps WalletWorksOn (finishAdding env wenv fBlock entry) := by
  refine Keeps.bind (Keeps.ite (writeToDisk_works _) (Keeps.pure _)) fun fWritten => ?_
  refine Keeps.ite (Keeps.pure _) ?_
  refine Keeps.bind (onKeys_works (workOn_keptByKeys.replaceDefaultKey wenv _)) fun _ => ?_
  exact Keeps.bind (walletUpdateSpent_works _ fBlock) fun _ => Keeps.pure _

theorem addToWalletIfInvolvingMe_works (mtx : CMerkleTx) (fUpdate : Bool) :
    Keeps WalletWorksOn (addToWalletIfInvolvingMe env wenv mtx fUpdate) := by
  refine Keeps.bind get_works fun wallet => Keeps.ite (Keeps.pure _) ?_
  refine Keeps.bind (Keeps.fromExcept _) fun fInvolves => Keeps.ite ?_ ?_
  · refine Keeps.bind get_works fun wallet => Keeps.bind (put_works _ _) fun _ => ?_
    exact finishAdding_works _ _
  · exact Keeps.bind (walletUpdateSpent_works _ _) fun _ => Keeps.pure _

theorem scanForWalletTransactions_works (fUpdate : Bool) :
    Keeps WalletWorksOn (scanForWalletTransactions env wenv renv fUpdate) := by
  refine Keeps.foldlM (fun ret mtx => ?_) _ _
  exact Keeps.bind (addToWalletIfInvolvingMe_works mtx fUpdate) fun _ => Keeps.pure _

theorem reacceptSlot_works (hash : Uint256) (s : List CDiskTxPos × CWalletTx)
    (slot : CDiskTxPos × Nat) : Keeps WalletWorksOn (reacceptSlot wenv hash s slot) := by
  refine Keeps.bind (Keeps.fromExcept _) fun fSpent => Keeps.ite (Keeps.pure _) ?_
  refine Keeps.ite ?_ (Keeps.pure _)
  refine Keeps.bind (Keeps.fromExcept _) fun wtx => ?_
  exact Keeps.bind (put_works hash wtx) fun _ => Keeps.pure _

theorem reacceptIndexed_works (txindex : CTxIndex) (hash : Uint256) (wtx : CWalletTx) :
    Keeps WalletWorksOn (reacceptIndexed env wenv renv txindex hash wtx) := by
  refine Keeps.ite (Keeps.pure _) ?_
  refine Keeps.bind (Keeps.foldlM (fun s slot => reacceptSlot_works hash s slot) _ _) fun s => ?_
  refine Keeps.ite (Keeps.pure _) ?_
  refine Keeps.bind (Keeps.fromExcept _) fun _ => ?_
  exact Keeps.bind (writeToDisk_works _) fun _ => Keeps.pure _

end works

/-! ## The scan -/

/-- The wallet has the same transactions, and what was spent still is. -/
abbrev Advances : CWallet → CWallet → Prop := Evolves fun _ _ => False

/-- The transactions are still there, and what was spent still is. -/
def Kept (a b : CWallet) : Prop :=
  ∀ (hash : Uint256) wtx, a.mapWallet[hash]? = some wtx →
    ∃ wtx', b.mapWallet[hash]? = some wtx' ∧ Marked wtx wtx'

instance : Std.Refl Kept := ⟨fun _ _ wtx hwtx => ⟨wtx, hwtx, Std.Refl.refl wtx⟩⟩

instance : IsTrans CWallet Kept where
  trans a b c hab hbc hash wtx hwtx := by
    obtain ⟨wtx₁, hwtx₁, hmarked₁⟩ := hab hash wtx hwtx
    obtain ⟨wtx₂, hwtx₂, hmarked₂⟩ := hbc hash wtx₁ hwtx₁
    exact ⟨wtx₂, hwtx₂, IsTrans.trans _ _ _ hmarked₁ hmarked₂⟩

theorem Evolves.marked {P : Uint256 → Nat → Prop} {a b : CWallet} {hash : Uint256}
    {wtx : CWalletTx} (h : Evolves P a b) (hP : ∀ n, ¬ P hash n)
    (hwtx : a.mapWallet[hash]? = some wtx) :
    ∃ wtx', b.mapWallet[hash]? = some wtx' ∧ Marked wtx wtx' := by
  rcases h hash with ⟨hnone, -⟩ | ⟨old, wtx', hold, hnew, htx, hspent⟩
  · cases hnone.symm.trans hwtx
  · obtain rfl := Option.some.inj (hwtx.symm.trans hold)
    exact ⟨wtx', hnew, htx, fun n => hspent n (hP n)⟩

theorem Evolves.kept {a b : CWallet} (h : Advances a b) : Kept a b := fun _ _ hwtx =>
  h.marked (fun _ hfalse => hfalse) hwtx

section scan

variable {env : Env} {wenv : WalletEnv} {renv : ReacceptEnv} {wallet wallet' : CWallet}
  {mtx : CMerkleTx} {mtxs : List CMerkleTx} {wtxIn : CWalletTx} {fAdded : Bool} {ret ret' : Nat}

/-- A transaction that the wallet does not have is stored before it is written. -/
theorem addToWallet_new (hnone : wallet.mapWallet[wtxIn.tx.getHash env]? = none)
    (hrun : addToWallet env wenv wtxIn wallet = .ok fAdded wallet') :
    Kept wallet wallet' ∧ wallet'.mapWallet.contains (wtxIn.tx.getHash env) = true ∧
      (WritesWork wallet.keys → fAdded = true) := by
  have hentry : entryFor env wallet wtxIn = (true, wtxIn) := by
    unfold entryFor
    rw [hnone]
  rw [addToWallet_run, hentry] at hrun
  have hevolves := (finishAdding_evolves _ (true, wtxIn)).ok hrun
  refine ⟨fun hash wtx hwtx => ?_, ?_, fun hworks => ?_⟩
  · have hne : wtxIn.tx.getHash env ≠ hash := by
      rintro rfl
      cases hnone.symm.trans hwtx
    refine hevolves.marked (fun n hP => hne hP.1.symm) ?_
    rw [getElem?_insertTx, if_neg hne]
    exact hwtx
  · have hstored : (wallet.insertTx (wtxIn.tx.getHash env) wtxIn).mapWallet[
        wtxIn.tx.getHash env]? = some wtxIn := by
      rw [getElem?_insertTx, if_pos rfl]
    obtain ⟨wtx, hwtx, -⟩ := hevolves.exists hstored
    exact (Map.contains_iff _ _).mpr ⟨wtx, hwtx⟩
  · obtain ⟨fWritten, wallet₁, hwrite, hrest⟩ := bind_eq_ok.mp hrun
    obtain ⟨disk, keys, hwritten, -⟩ := writeToDisk_run env wtxIn
      (wallet.insertTx (wtxIn.tx.getHash env) wtxIn)
    obtain ⟨hfirst, -⟩ := EStateM.Result.ok.inj (hwrite.symm.trans hwritten)
    have hio : fWritten = true := hfirst.trans (hworks 0)
    rw [hio] at hrest
    obtain ⟨_, wallet₂, -, hrest⟩ := bind_eq_ok.mp hrest
    obtain ⟨_, wallet₃, -, hend⟩ := bind_eq_ok.mp hrest
    exact (EStateM.Result.ok.inj hend).1.symm

/-- What a scan does to the wallet.  Where it says that it has found nothing, and the writes work,
there is no new transaction. -/
structure Scanned (env : Env) (mtxs : List CMerkleTx) (fAdded : Prop) (wallet wallet' : CWallet) :
    Prop where
  kept : Kept wallet wallet'
  added : fAdded → ∃ mtx ∈ mtxs, wallet.mapWallet.contains (mtx.tx.getHash env) = false ∧
    wallet'.mapWallet.contains (mtx.tx.getHash env) = true
  nothing : WritesWork wallet.keys → ¬ fAdded → Advances wallet wallet'

theorem addToWalletIfInvolvingMe_spec
    (hrun : addToWalletIfInvolvingMe env wenv mtx false wallet = .ok fAdded wallet') :
    Scanned env [mtx] (fAdded = true) wallet wallet' := by
  obtain ⟨_, _, hget, hrun⟩ := bind_eq_ok.mp hrun
  obtain ⟨rfl, rfl⟩ := EStateM.Result.ok.inj hget
  cases hexisted : wallet.mapWallet.contains (mtx.tx.getHash env) with
  | true =>
    rw [hexisted] at hrun
    obtain ⟨rfl, rfl⟩ := EStateM.Result.ok.inj hrun
    exact ⟨Std.Refl.refl _, fun h => absurd h Bool.false_ne_true, fun _ _ => Std.Refl.refl _⟩
  | false =>
    rw [hexisted] at hrun
    obtain ⟨fInvolves, wallet₁, hinvolves, hrest⟩ := bind_eq_ok.mp hrun
    obtain ⟨-, rfl⟩ := fromExcept_eq_ok.mp hinvolves
    cases fInvolves with
    | true =>
      have hadd : addToWallet env wenv (ofMerkleTx mtx) wallet₁ = .ok fAdded wallet' := hrest
      have hnone : wallet₁.mapWallet[(ofMerkleTx mtx).tx.getHash env]? = none :=
        (Map.contains_eq_false_iff _ _).mp hexisted
      obtain ⟨hkept, hthere, hworks⟩ := addToWallet_new hnone hadd
      exact ⟨hkept, fun _ => ⟨mtx, List.mem_singleton_self mtx, hexisted, hthere⟩,
        fun hwrites hnot => absurd (hworks hwrites) hnot⟩
    | false =>
      have hupdated : (walletUpdateSpent env wenv mtx.tx false >>= fun _ => pure false) wallet₁ =
          .ok fAdded wallet' := hrest
      obtain ⟨_, wallet₂, hupdate, hend⟩ := bind_eq_ok.mp hupdated
      obtain ⟨rfl, rfl⟩ := EStateM.Result.ok.inj hend
      have hadvances : Advances wallet₁ wallet₂ :=
        (walletUpdateSpent_evolves fun h => absurd h Bool.false_ne_true).ok hupdate
      exact ⟨hadvances.kept, fun h => absurd h Bool.false_ne_true, fun _ _ => hadvances⟩

theorem scanTxs_spec (hrun : mtxs.foldlM (scanTx env wenv false) ret wallet = .ok ret' wallet') :
    ret ≤ ret' ∧ Scanned env mtxs (ret < ret') wallet wallet' := by
  induction mtxs generalizing ret wallet with
  | nil =>
    obtain ⟨rfl, rfl⟩ := EStateM.Result.ok.inj hrun
    exact ⟨le_refl _, Std.Refl.refl _, fun h => absurd h (lt_irrefl _), fun _ _ => Std.Refl.refl _⟩
  | cons mtx mtxs ih =>
    rw [List.foldlM_cons] at hrun
    obtain ⟨ret₁, wallet₁, hfirst, hrest⟩ := bind_eq_ok.mp hrun
    obtain ⟨fAdded, wallet₂, hadd, hcount⟩ := bind_eq_ok.mp hfirst
    obtain ⟨hret, rfl⟩ := EStateM.Result.ok.inj hcount
    obtain ⟨hle, hscanned⟩ := ih hrest
    have hone := addToWalletIfInvolvingMe_spec hadd
    have hkept : Kept wallet wallet' := IsTrans.trans _ _ _ hone.kept hscanned.kept
    cases fAdded with
    | true =>
      obtain ⟨found, hmem, hnew, hthere⟩ := hone.added rfl
      obtain rfl := List.mem_singleton.mp hmem
      have hlt : ret < ret' := by
        rw [← hret] at hle
        exact hle
      refine ⟨hlt.le, hkept, fun _ => ⟨found, List.mem_cons_self, hnew, ?_⟩,
        fun _ hnot => absurd hlt hnot⟩
      obtain ⟨wtx, hwtx⟩ := (Map.contains_iff _ _).mp hthere
      obtain ⟨wtx', hwtx', -⟩ := hscanned.kept _ wtx hwtx
      exact (Map.contains_iff _ _).mpr ⟨wtx', hwtx'⟩
    | false =>
      obtain rfl : ret = ret₁ := hret
      refine ⟨hle, hkept, fun hlt => ?_, fun hworks hnot => ?_⟩
      · obtain ⟨found, hmem, hnew, hthere⟩ := hscanned.added hlt
        refine ⟨found, List.mem_cons_of_mem _ hmem, ?_, hthere⟩
        by_contra hold
        rw [Bool.not_eq_false] at hold
        obtain ⟨wtx, hwtx⟩ := (Map.contains_iff _ _).mp hold
        obtain ⟨wtx', hwtx', -⟩ := hone.kept _ wtx hwtx
        cases ((Map.contains_eq_false_iff _ _).mp hnew).symm.trans hwtx'
      · have hworks₁ := (addToWalletIfInvolvingMe_works mtx false).ok hadd hworks
        exact IsTrans.trans _ _ _ (hone.nothing hworks Bool.false_ne_true)
          (hscanned.nothing hworks₁ hnot)

end scan

/-! ## One turn of the loop -/

theorem onWallet_eq_ok {α : Type} {x : WalletM α} {a : α} {s s' : CWallet × World} :
    onWallet x s = .ok a s' ↔ x s.1 = .ok a s'.1 ∧ s'.2 = s.2 := by
  unfold onWallet
  cases x s.1 with
  | ok b wallet => simp [Prod.ext_iff, eq_comm, and_assoc]
  | error e wallet => simp

theorem offer_wallet {env : Env} {wtx : SupportedTx} {u : Unit} {s s' : CWallet × World}
    (hrun : offer env wtx s = .ok u s') : s'.1 = s.1 := by
  unfold offer at hrun
  split at hrun
  · rw [← (EStateM.Result.ok.inj hrun).2]
  · rw [← (EStateM.Result.ok.inj hrun).2]
  · cases hrun

section turn

variable (env : Env) (wenv : WalletEnv) (txdb : TxDB)

/-- The transaction `hash` has its own coins marked, if it is in the index. -/
def Settled (wallet : CWallet) (hash : Uint256) : Prop :=
  ∃ wtx, wallet.mapWallet[hash]? = some wtx ∧
    ∀ txindex, txdb.readTxIndex (wtx.tx.getHash env) = some txindex → CoinsMarked wenv txindex wtx

variable {env wenv txdb} {renv : ReacceptEnv} {hash : Uint256} {hashes : List Uint256}
  {s s' : CWallet × World} {found found' : List CDiskTxPos}

theorem CoinsMarked.marked {txindex : CTxIndex} {wtx wtx' : CWalletTx}
    (h : CoinsMarked wenv txindex wtx) (hmarked : Marked wtx wtx') :
    CoinsMarked wenv txindex wtx' := by
  have htx : wtx'.tx = wtx.tx := hmarked.tx
  intro hlength n txout hout hmine hindex
  rw [htx] at hlength hout
  exact hmarked.spent n (h hlength n txout hout hmine hindex)

theorem Settled.kept {a b : CWallet} (h : Settled env wenv txdb a hash) (hkept : Kept a b) :
    Settled env wenv txdb b hash := by
  obtain ⟨wtx, hwtx, hcoins⟩ := h
  obtain ⟨wtx', hwtx', hmarked⟩ := hkept hash wtx hwtx
  have htx : wtx'.tx = wtx.tx := hmarked.tx
  refine ⟨wtx', hwtx', fun txindex hread => ?_⟩
  rw [htx] at hread
  exact (hcoins txindex hread).marked hmarked

/-- What the loop does to the transactions `hashes`. -/
structure Visited (env : Env) (wenv : WalletEnv) (txdb : TxDB) (hashes : List Uint256)
    (wallet wallet' : CWallet) : Prop where
  works : WalletWorksOn wallet wallet'
  advances : Advances wallet wallet'
  others : ∀ other, other ∉ hashes → wallet'.mapWallet[other]? = wallet.mapWallet[other]?
  settled : ∀ hash ∈ hashes, ∀ wtx, wallet.mapWallet[hash]? = some wtx →
    GoesPast wtx ∨ Settled env wenv txdb wallet' hash

theorem Visited.nothing {wallet : CWallet}
    (h : ∀ wtx, wallet.mapWallet[hash]? = some wtx →
      GoesPast wtx ∨ Settled env wenv txdb wallet hash) :
    Visited env wenv txdb [hash] wallet wallet := by
  refine ⟨Std.Refl.refl _, Std.Refl.refl _, fun _ _ => rfl, fun other hmem => ?_⟩
  obtain rfl := List.mem_singleton.mp hmem
  exact h

theorem reacceptTx_spec
    (hrun : reacceptTx env wenv renv txdb found hash s = .ok found' s') :
    Visited env wenv txdb [hash] s.1 s'.1 := by
  obtain ⟨wallet, s₁, hget, hrun⟩ := bind_eq_ok.mp hrun
  obtain ⟨rfl, rfl⟩ := EStateM.Result.ok.inj hget
  cases hwtx : s.1.mapWallet[hash]? with
  | none =>
    rw [hwtx] at hrun
    obtain ⟨-, rfl⟩ := EStateM.Result.ok.inj hrun
    refine .nothing fun wtx hsome => ?_
    cases hwtx.symm.trans hsome
  | some wtx =>
    rw [hwtx] at hrun
    obtain ⟨fPast, s₂, hasked, hrest⟩ := bind_eq_ok.mp hrun
    obtain ⟨hlifted, hsame⟩ := onWallet_eq_ok.mp hasked
    obtain ⟨hpast, hwallet⟩ := fromExcept_eq_ok.mp hlifted
    obtain rfl : s = s₂ := Prod.ext hwallet.symm hsame.symm
    cases fPast with
    | true =>
      obtain ⟨-, rfl⟩ := EStateM.Result.ok.inj hrest
      refine .nothing fun wtx' hsome => .inl ?_
      obtain rfl := Option.some.inj (hwtx.symm.trans hsome)
      exact goesPast_of_eq hpast
    | false =>
      rw [if_neg Bool.false_ne_true] at hrest
      cases hread : txdb.readTxIndex (wtx.tx.getHash env) with
      | some txindex =>
        rw [hread] at hrest
        obtain ⟨new, s₃, hindexed, hend⟩ := bind_eq_ok.mp hrest
        obtain ⟨-, rfl⟩ := EStateM.Result.ok.inj hend
        obtain ⟨hindexed, -⟩ := onWallet_eq_ok.mp hindexed
        obtain ⟨wtx', hreplaces, hmarked, hcoins⟩ := reacceptIndexed_spec hindexed hwtx
        have htx : wtx'.tx = wtx.tx := hmarked.tx
        refine ⟨(reacceptIndexed_works txindex hash wtx).ok hindexed, fun other => ?_,
          fun other hnot => hreplaces.others other fun heq =>
            hnot (List.mem_singleton.mpr heq.symm),
          fun other hmem _ _ => .inr ?_⟩
        · by_cases heq : hash = other
          · subst heq
            exact .inr ⟨wtx, wtx', hwtx, hreplaces.entry, htx, fun n _ => hmarked.spent n⟩
          · rw [hreplaces.others other heq]
            exact (Std.Refl.refl s.1 : Advances s.1 s.1) other
        · obtain rfl := List.mem_singleton.mp hmem
          refine ⟨wtx', hreplaces.entry, fun txindex' hread' => ?_⟩
          rw [htx] at hread'
          obtain rfl := Option.some.inj (hread.symm.trans hread')
          exact hcoins
      | none =>
        rw [hread] at hrest
        have hsame : s'.1 = s.1 := by
          dsimp only at hrest
          split at hrest
          · obtain ⟨-, rfl⟩ := EStateM.Result.ok.inj hrest
            rfl
          · obtain ⟨_, s₃, hoffer, hend⟩ := bind_eq_ok.mp hrest
            obtain ⟨-, rfl⟩ := EStateM.Result.ok.inj hend
            exact offer_wallet hoffer
        rw [hsame]
        refine .nothing fun wtx' hsome => .inr ⟨wtx', hsome, fun txindex hread' => ?_⟩
        obtain rfl := Option.some.inj (hwtx.symm.trans hsome)
        cases hread.symm.trans hread'

/-- The transactions are visited one after the other, each in the state that it had before. -/
theorem reacceptTxs_spec (hnodup : hashes.Nodup)
    (hrun : hashes.foldlM (reacceptTx env wenv renv txdb) found s = .ok found' s') :
    Visited env wenv txdb hashes s.1 s'.1 := by
  induction hashes generalizing found s with
  | nil =>
    obtain ⟨-, rfl⟩ := EStateM.Result.ok.inj hrun
    exact ⟨Std.Refl.refl _, Std.Refl.refl _, fun _ _ => rfl,
      fun _ hmem => absurd hmem List.not_mem_nil⟩
  | cons hash hashes ih =>
    rw [List.nodup_cons] at hnodup
    rw [List.foldlM_cons] at hrun
    obtain ⟨found₁, s₁, hfirst, hrest⟩ := bind_eq_ok.mp hrun
    have hone := reacceptTx_spec hfirst
    have hall := ih hnodup.2 hrest
    refine ⟨IsTrans.trans _ _ _ hone.works hall.works,
      IsTrans.trans _ _ _ hone.advances hall.advances, fun other hnot => ?_, ?_⟩
    · rw [List.mem_cons, not_or] at hnot
      rw [hall.others other hnot.2,
        hone.others other fun hmem => hnot.1 (List.mem_singleton.mp hmem)]
    · rw [List.forall_mem_cons]
      refine ⟨fun wtx hwtx => ?_, fun other hmem wtx hwtx => ?_⟩
      · exact (hone.settled hash (List.mem_singleton_self hash) wtx hwtx).imp_right
          fun hsettled => hsettled.kept hall.advances.kept
      · refine hall.settled other hmem wtx ?_
        rw [hone.others other fun heq => hnodup.1 (List.mem_singleton.mp heq ▸ hmem)]
        exact hwtx

end turn

/-! ## The loop -/

section loop

variable {env : Env} {wenv : WalletEnv} {txdb : TxDB} {renv : ReacceptEnv} {fuel : Nat}
  {s s' : CWallet × World} {answer : Option Unit}

theorem scanForWalletTransactions_spec {wallet wallet' : CWallet} {ret : Nat}
    (hrun : scanForWalletTransactions env wenv renv false wallet = .ok ret wallet') :
    Scanned env renv.scanned (0 < ret) wallet wallet' := (scanTxs_spec hrun).2

/-- A turn of `while (fRepeat)`: it is the last one, or a scan has found transactions. -/
theorem reacceptWalletTransactions_succ
    (hrun : reacceptWalletTransactions env wenv renv txdb (fuel + 1) s = .ok answer s') :
    ∃ s₁ : CWallet × World, WalletWorksOn s.1 s₁.1 ∧ Advances s.1 s₁.1 ∧
      (∀ hash wtx, s.1.mapWallet[hash]? = some wtx →
        GoesPast wtx ∨ Settled env wenv txdb s₁.1 hash) ∧
      (answer = some () ∧ Kept s₁.1 s'.1 ∧ (WritesWork s₁.1.keys → Advances s₁.1 s'.1) ∨
        ∃ s₂ : CWallet × World, WalletWorksOn s₁.1 s₂.1 ∧
          Scanned env renv.scanned True s₁.1 s₂.1 ∧
          reacceptWalletTransactions env wenv renv txdb fuel s₂ = .ok answer s') := by
  unfold reacceptWalletTransactions at hrun
  obtain ⟨wallet, s₀, hget, hrun⟩ := bind_eq_ok.mp hrun
  obtain ⟨rfl, rfl⟩ := EStateM.Result.ok.inj hget
  obtain ⟨vMissingTx, s₁, hvisit, hrest⟩ := bind_eq_ok.mp hrun
  have hnodup : (s.1.mapWallet.toList.map (·.1)).Nodup :=
    List.pairwise_map.mpr (Map.pairwise_toList s.1.mapWallet)
  have hvisited := reacceptTxs_spec hnodup hvisit
  refine ⟨s₁, hvisited.works, hvisited.advances, fun hash wtx hwtx => ?_, ?_⟩
  · have hmem : (hash, wtx) ∈ s.1.mapWallet.toList := (Map.mem_toList _ _ _).mpr hwtx
    exact hvisited.settled hash (List.mem_map.mpr ⟨_, hmem, rfl⟩) wtx hwtx
  · split at hrest
    · obtain ⟨rfl, rfl⟩ := EStateM.Result.ok.inj hrest
      exact .inl ⟨rfl, Std.Refl.refl _, fun _ => Std.Refl.refl _⟩
    · obtain ⟨ret, s₂, hscan, hend⟩ := bind_eq_ok.mp hrest
      obtain ⟨hscan, -⟩ := onWallet_eq_ok.mp hscan
      have hscanned := scanForWalletTransactions_spec hscan
      split at hend
      · next hzero =>
        obtain ⟨rfl, rfl⟩ := EStateM.Result.ok.inj hend
        refine .inl ⟨rfl, hscanned.kept, fun hworks => hscanned.nothing hworks ?_⟩
        exact Nat.not_lt.mpr hzero.le
      · next hsome =>
        have hfound : 0 < ret := Nat.pos_of_ne_zero hsome
        exact .inr ⟨s₂, (scanForWalletTransactions_works false).ok hscan,
          ⟨hscanned.kept, fun _ => hscanned.added hfound, fun _ hnot => absurd trivial hnot⟩, hend⟩

/-- The transactions of the chain that the wallet does not have. -/
def unknown (env : Env) (mtxs : List CMerkleTx) (wallet : CWallet) : Finset Uint256 :=
  (mtxs.map fun mtx => mtx.tx.getHash env).toFinset.filter fun hash =>
    wallet.mapWallet.contains hash = false

theorem unknown_subset {mtxs : List CMerkleTx} {wallet wallet' : CWallet}
    (h : Kept wallet wallet') : unknown env mtxs wallet' ⊆ unknown env mtxs wallet := by
  intro hash hmem
  obtain ⟨hlisted, hnew⟩ := Finset.mem_filter.mp hmem
  refine Finset.mem_filter.mpr ⟨hlisted, ?_⟩
  by_contra hold
  rw [Bool.not_eq_false] at hold
  obtain ⟨wtx, hwtx⟩ := (Map.contains_iff _ _).mp hold
  obtain ⟨wtx', hwtx', -⟩ := h hash wtx hwtx
  cases ((Map.contains_eq_false_iff _ _).mp hnew).symm.trans hwtx'

theorem Scanned.unknown_lt {mtxs : List CMerkleTx} {wallet wallet' : CWallet}
    (h : Scanned env mtxs True wallet wallet') :
    (unknown env mtxs wallet').card < (unknown env mtxs wallet).card := by
  obtain ⟨mtx, hmem, hnew, hthere⟩ := h.added trivial
  refine Finset.card_lt_card ((Finset.ssubset_iff_of_subset (unknown_subset h.kept)).mpr
    ⟨mtx.tx.getHash env, ?_, fun hstill => ?_⟩)
  · exact Finset.mem_filter.mpr
      ⟨List.mem_toFinset.mpr (List.mem_map.mpr ⟨mtx, hmem, rfl⟩), hnew⟩
  · cases hthere.symm.trans (Finset.mem_filter.mp hstill).2

/-- Every turn but the last finds a transaction of the chain that the wallet does not have. -/
theorem reacceptWalletTransactions_ends
    (hfuel : (unknown env renv.scanned s.1).card < fuel) :
    reacceptWalletTransactions env wenv renv txdb fuel s ≠ .ok none s' := by
  induction fuel generalizing s with
  | zero => exact absurd hfuel (Nat.not_lt_zero _)
  | succ fuel ih =>
    intro hrun
    obtain ⟨s₁, -, hadvances, -, ⟨hanswer, -⟩ | ⟨s₂, -, hscanned, hrest⟩⟩ :=
      reacceptWalletTransactions_succ hrun
    · cases hanswer
    · refine ih ?_ hrest
      have hle := Finset.card_le_card
        (@unknown_subset env renv.scanned _ _ hadvances.kept)
      exact lt_of_lt_of_le hscanned.unknown_lt (hle.trans (Nat.le_of_lt_succ hfuel))

/-- What the repair leaves behind.  A transaction that was in the wallet is settled unless the loop
goes past it; so are the transactions that a scan has added, if they can be written. -/
structure Reaccepted (env : Env) (wenv : WalletEnv) (txdb : TxDB) (wallet wallet' : CWallet) :
    Prop where
  kept : Kept wallet wallet'
  old : ∀ hash wtx, wallet.mapWallet[hash]? = some wtx → ¬ GoesPast wtx →
    Settled env wenv txdb wallet' hash
  all : WritesWork wallet.keys → ∀ hash wtx, wallet'.mapWallet[hash]? = some wtx →
    ¬ GoesPast wtx → Settled env wenv txdb wallet' hash

theorem reacceptWalletTransactions_spec
    (hrun : reacceptWalletTransactions env wenv renv txdb fuel s = .ok (some ()) s') :
    Reaccepted env wenv txdb s.1 s'.1 := by
  induction fuel generalizing s with
  | zero => cases (EStateM.Result.ok.inj hrun).1
  | succ fuel ih =>
    obtain ⟨s₁, hworks, hadvances, hsettled, hlast | ⟨s₂, hworks₂, hscanned, hrest⟩⟩ :=
      reacceptWalletTransactions_succ hrun
    · obtain ⟨-, hkept, hnothing⟩ := hlast
      refine ⟨IsTrans.trans _ _ _ hadvances.kept hkept, fun hash wtx hwtx hnot => ?_,
        fun hwrites hash wtx' hwtx' hnot => ?_⟩
      · exact ((hsettled hash wtx hwtx).resolve_left hnot).kept hkept
      · -- there is nothing new, and a transaction that is not gone past now was not before
        have hall : Advances s.1 s'.1 :=
          IsTrans.trans _ _ _ hadvances (hnothing (hworks hwrites))
        obtain ⟨wtx, hwtx, htx, hspent⟩ := hall.entry hwtx'
        have hmarked : Marked wtx wtx' := ⟨htx, fun n => hspent n fun hfalse => hfalse⟩
        have hsettles := (hsettled hash wtx hwtx).resolve_left fun hpast =>
          hnot (hpast.marked hmarked)
        exact hsettles.kept hkept
    · have hlater := ih hrest
      have hkept : Kept s₁.1 s'.1 := IsTrans.trans _ _ _ hscanned.kept hlater.kept
      refine ⟨IsTrans.trans _ _ _ hadvances.kept hkept, fun hash wtx hwtx hnot => ?_,
        fun hwrites => hlater.all (hworks₂ (hworks hwrites))⟩
      exact ((hsettled hash wtx hwtx).resolve_left hnot).kept hkept

end loop

/-! ## The two repairs -/

/-- An index with a slot for each output of some transactions. -/
def indexWith (entries : List (CTransaction × List CDiskTxPos)) : TxDB :=
  ⟨entries.foldl (fun pdb entry =>
    pdb.insert (.tx (entry.1.getHash testNet)) (.txindex ⟨⟨1, 0, 100⟩, entry.2⟩)) ∅, none⟩

def walletWith (keys : KeyPool.CWallet) (wtxs : List CWalletTx) : CWallet :=
  ⟨wtxs.foldl (fun mapWallet wtx => mapWallet.insert (wtx.tx.getHash testNet) wtx) ∅, ∅, keys⟩

/-- Where a spender is on disk. -/
def spenderPos : CDiskTxPos := ⟨2, 0, 100⟩

/-- A coin stake with two outputs. -/
def stakeTx : CTransaction :=
  ⟨1, 1600000000, [⟨⟨5, 0⟩, [], uint32Max⟩], [⟨0, []⟩, ⟨coin, [0x51]⟩, ⟨coin, [0x51]⟩], 0⟩

def stakeIndex : TxDB := indexWith
  [(stakeTx, [.null, spenderPos, spenderPos]), (pooledTx, [spenderPos])]

/-- The chain has a transaction that the wallet does not have. -/
def stakeEnv : ReacceptEnv where
  vtxPrev _ := []
  getCredit _ := .ok 0
  chain := [(1600000000, [.ofTx pooledTx])]
  nTimeFirstKey := 0

/-- The flag of an output in the wallet. -/
def flagIn (wallet : CWallet) (tx : CTransaction) (n : Nat) : Option (Except Thrown Bool) :=
  (wallet.mapWallet[tx.getHash testNet]?).map fun wtx => wtx.isSpent n

/-- The coin stake is marked, the scan finds the other transaction, and the next turn marks it. -/
theorem stakeEnv_run : succeeds (fun answer s => decide (answer = some ()) &&
      decide (flagIn s.1 stakeTx 2 = some (.ok true)) &&
      decide (flagIn s.1 pooledTx 0 = some (.ok true)))
    (reacceptWalletTransactions testNet payingEnv stakeEnv stakeIndex 2
      (walletWith KeyPool.newWallet [.ofTx stakeTx], idleWorld .clear)) = true := by
  unfold flagIn stakeIndex indexWith walletWith testNet
  rw [mainNet_eq]
  decide +kernel

end CWallet

end NoLimitCoin
