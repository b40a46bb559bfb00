import NoLimitCoin.CreateTransaction

/-!
# Spent coins of the wallet

The wallet marks an output of its own as spent when it gets to know a transaction that spends it:
`WalletUpdateSpent` and `CommitTransaction` mark the coins of a transaction, `DisableTransaction`
takes the marks of a disconnected coin stake back.  A transaction that comes in a block has its
own outputs unmarked.

Results:
1. `Evolves`: what the flags may become in a step.
2. `next_coinsSpent`: a step that takes no mark from a coin that is spent.
3. `runs_coinsSpent`: such a run, and what `AvailableCoins` offers after it.
4. `confirmation_unspends`: a first confirmation takes marks.
-/

namespace NoLimitCoin

open Prog
open KeyPool (Thrown)

namespace CWallet

open CWalletTx

/-! ## What the node tells the wallet -/

/-- `GetDebit` of an input. -/
def debitOf (wenv : WalletEnv) (wallet : CWallet) (txin : CTxIn) : Int :=
  match (wallet.mapWallet[txin.prevout.hash]?).bind fun prev => prev.tx.vout[txin.prevout.n]? with
  | none => 0
  | some txout => if wenv.isMine txout then txout.nValue else 0

/-- `GetDebit` of a transaction. -/
def getDebit (wenv : WalletEnv) (wallet : CWallet) (tx : CTransaction) : Except Thrown Int :=
  tx.vin.foldlM (fun nDebit txin =>
    if moneyRange (nDebit + debitOf wenv wallet txin) then .ok (nDebit + debitOf wenv wallet txin)
    else .error (.runtimeError "CWallet::GetDebit() : value out of range")) 0

/-- `IsFromMe`. -/
def isFromMe (wenv : WalletEnv) (wallet : CWallet) (tx : CTransaction) : Except Thrown Bool :=
  (fun nDebit => decide (nDebit > 0)) <$> getDebit wenv wallet tx

/-- The wallet transaction that is made of a transaction and what `SetMerkleBranch` has found. -/
def ofMerkleTx (mtx : CMerkleTx) : CWalletTx := ⟨mtx, false, []⟩

/-- `fExisted || IsMine(tx) || IsFromMe(tx)`. -/
def involves (wenv : WalletEnv) (wallet : CWallet) (fExisted : Bool) (tx : CTransaction) :
    Except Thrown Bool :=
  if fExisted || tx.vout.any wenv.isMine then .ok true else isFromMe wenv wallet tx

/-- `AddToWalletIfInvolvingMe`. -/
def addToWalletIfInvolvingMe (env : Env) (wenv : WalletEnv) (mtx : CMerkleTx) (fUpdate : Bool) :
    WalletM Bool := do
  let wallet ← get
  let fExisted := wallet.mapWallet.contains (mtx.tx.getHash env)
  if fExisted && !fUpdate then pure false
  else do
    let fInvolves ← fromExcept (involves wenv wallet fExisted mtx.tx)
    if fInvolves then addToWallet env wenv (ofMerkleTx mtx)
    else do
      walletUpdateSpent env wenv mtx.tx false
      pure false

/-- The loop of `DisableTransaction`. -/
def disableInput (env : Env) (wenv : WalletEnv) (txin : CTxIn) : WalletM Unit := do
  let wallet ← get
  match wallet.mapWallet[txin.prevout.hash]? with
  | none => pure ()
  | some prev =>
    match prev.tx.vout[txin.prevout.n]? with
    | none => pure ()
    | some txout =>
      if wenv.isMine txout then
        modifyTx env txin.prevout.hash prev fun prev => prev.markUnspent txin.prevout.n
      else pure ()

/-- `DisableTransaction`. -/
def disableTransaction (env : Env) (wenv : WalletEnv) (tx : CTransaction) : WalletM Unit := do
  let wallet ← get
  let fFromMe ← (if tx.isCoinStake then fromExcept (isFromMe wenv wallet tx) else pure false)
  if fFromMe then tx.vin.foldlM (fun _ txin => disableInput env wenv txin) () else pure ()

/-! ## Flags -/

/-- The wallet has the same transactions, and what was spent still is, but for the outputs `P`. -/
def Evolves (P : Uint256 → Nat → Prop) (a b : CWallet) : Prop :=
  ∀ hash, (a.mapWallet[hash]? = none ∧ b.mapWallet[hash]? = none) ∨
    ∃ wtx wtx', a.mapWallet[hash]? = some wtx ∧ b.mapWallet[hash]? = some wtx' ∧
      wtx'.tx = wtx.tx ∧
      ∀ n, ¬ P hash n → wtx.isSpent n = .ok true → wtx'.isSpent n = .ok true

namespace Evolves

variable {P Q : Uint256 → Nat → Prop} {a b c : CWallet} {hash : Uint256} {wtx wtx' : CWalletTx}

theorem of_sameMap (h : b.mapWallet = a.mapWallet) : Evolves P a b := by
  intro hash
  rw [h]
  cases hget : a.mapWallet[hash]? with
  | none => exact .inl ⟨rfl, rfl⟩
  | some wtx => exact .inr ⟨wtx, wtx, rfl, rfl, rfl, fun _ _ h => h⟩

instance : Std.Refl (Evolves P) := ⟨fun _ => of_sameMap rfl⟩

instance : IsTrans CWallet (Evolves P) where
  trans a b c hab hbc hash := by
    rcases hab hash with ⟨ha, hb⟩ | ⟨wtx, wtx₁, ha, hb, htx, hspent⟩
    · rcases hbc hash with ⟨-, hc⟩ | ⟨wtx₁, _, hb', -⟩
      · exact .inl ⟨ha, hc⟩
      · cases hb.symm.trans hb'
    · rcases hbc hash with ⟨hb', -⟩ | ⟨wtx₁', wtx₂, hb', hc, htx', hspent'⟩
      · cases hb.symm.trans hb'
      · obtain rfl := Option.some.inj (hb.symm.trans hb')
        exact .inr ⟨wtx, wtx₂, ha, hc, htx'.trans htx,
          fun n hn h => hspent' n hn (hspent n hn h)⟩

theorem mono (h : Evolves P a b) (hPQ : ∀ hash n, P hash n → Q hash n) : Evolves Q a b := by
  intro hash
  rcases h hash with hnone | ⟨wtx, wtx', ha, hb, htx, hspent⟩
  · exact .inl hnone
  · exact .inr ⟨wtx, wtx', ha, hb, htx, fun n hn => hspent n fun hP => hn (hPQ hash n hP)⟩

theorem entry (h : Evolves P a b) (hb : b.mapWallet[hash]? = some wtx') :
    ∃ wtx, a.mapWallet[hash]? = some wtx ∧ wtx'.tx = wtx.tx ∧
      ∀ n, ¬ P hash n → wtx.isSpent n = .ok true → wtx'.isSpent n = .ok true := by
  rcases h hash with ⟨-, hnone⟩ | ⟨wtx, wtx₁, ha, hb', htx, hspent⟩
  · cases hnone.symm.trans hb
  · obtain rfl := Option.some.inj (hb'.symm.trans hb)
    exact ⟨wtx, ha, htx, hspent⟩

/-- Another object for a transaction of the wallet. -/
theorem insert {disk : Map Uint256 CWalletTx} {keys : KeyPool.CWallet}
    (ha : a.mapWallet[hash]? = some wtx) (htx : wtx'.tx = wtx.tx)
    (hspent : ∀ n, ¬ P hash n → wtx.isSpent n = .ok true → wtx'.isSpent n = .ok true) :
    Evolves P a ⟨a.mapWallet.insert hash wtx', disk, keys⟩ := by
  intro other
  show (_ ∧ (a.mapWallet.insert hash wtx')[other]? = none) ∨ ∃ wtx₁ wtx₂, _ ∧
    (a.mapWallet.insert hash wtx')[other]? = some wtx₂ ∧ _
  rw [Map.getElem?_insert]
  by_cases heq : hash = other
  · subst heq
    rw [if_pos rfl]
    exact .inr ⟨wtx, wtx', ha, rfl, htx, hspent⟩
  · rw [if_neg heq]
    cases hget : a.mapWallet[other]? with
    | none => exact .inl ⟨rfl, rfl⟩
    | some wtx => exact .inr ⟨wtx, wtx, rfl, rfl, rfl, fun _ _ h => h⟩

end Evolves

section steps

variable {env : Env} {wenv : WalletEnv} {P : Uint256 → Nat → Prop} {wallet wallet' : CWallet}
  {hash : Uint256} {wtx : CWalletTx} {f : CWalletTx → Except Thrown CWalletTx} {txin : CTxIn}

theorem modifyTx_evolves (hwtx : wallet.mapWallet[hash]? = some wtx)
    (hf : ∀ wtx', f wtx = .ok wtx' → wtx'.tx = wtx.tx ∧
      ∀ n, ¬ P hash n → wtx.isSpent n = .ok true → wtx'.isSpent n = .ok true) :
    Evolves P wallet (endState (modifyTx env hash wtx f wallet)) := by
  cases hrun : f wtx with
  | error e =>
    rw [modifyTx_error hrun]
    exact Std.Refl.refl wallet
  | ok wtx' =>
    obtain ⟨disk, keys, hmodify, -⟩ := @modifyTx_ok env wallet hash wtx wtx' f hrun
    rw [hmodify]
    exact .insert hwtx (hf wtx' hrun).1 (hf wtx' hrun).2

theorem markUnspent_spec {wtx wtx' : CWalletTx} {nOut : Nat} (h : wtx.markUnspent nOut = .ok wtx') :
    wtx'.tx = wtx.tx ∧ ∀ n, n ≠ nOut → wtx.isSpent n = .ok true → wtx'.isSpent n = .ok true := by
  refine ⟨markUnspent_sameTx h, fun n hne hspent => ?_⟩
  unfold markUnspent at h
  split at h
  · cases h
  · obtain rfl := Except.ok.inj h
    obtain ⟨hin, hflag⟩ := isSpent_eq_ok.mp hspent
    refine isSpent_eq_ok.mpr ⟨hin, ?_⟩
    show (wtx.resizeSpent.set nOut false)[n]?.getD false = true
    rw [List.getElem?_set_ne (Ne.symm hne), getElem?_resizeSpent hin, hflag]

theorem onKeys_evolves {α : Type} (x : KeyPool.WalletM α) : Keeps (Evolves P) (onKeys x) := by
  intro wallet
  unfold onKeys
  cases x wallet.keys with
  | ok a keys => exact .of_sameMap rfl
  | error e keys => exact .of_sameMap rfl

theorem writeToDisk_evolves (wtx : CWalletTx) : Keeps (Evolves P) (writeToDisk env wtx) := by
  intro wallet
  obtain ⟨disk, keys, hrun, -⟩ := writeToDisk_run env wtx wallet
  rw [hrun]
  exact .of_sameMap rfl

/-- An input of a transaction that the wallet gets to know: what is spent stays spent. -/
theorem updateInput_evolves (txin : CTxIn) : Keeps (Evolves P) (updateInput env wenv txin) := by
  intro wallet
  unfold updateInput
  rw [bind_run]
  dsimp only [get]
  cases hwtx : wallet.mapWallet[txin.prevout.hash]? with
  | none => exact Std.Refl.refl wallet
  | some wtx =>
    dsimp only
    cases wtx.tx.vout[txin.prevout.n]? with
    | none => exact Std.Refl.refl wallet
    | some txout =>
      dsimp only
      cases wtx.isSpent txin.prevout.n with
      | error e => exact Std.Refl.refl wallet
      | ok fSpent =>
        rw [bind_run]
        dsimp only [fromExcept, pure_run]
        by_cases hmark : (!fSpent && wenv.isMine txout) = true
        · rw [if_pos hmark]
          refine modifyTx_evolves hwtx fun wtx' h => ?_
          obtain ⟨hmarked, -⟩ := markSpent_spec h
          exact ⟨hmarked.tx, fun n _ => hmarked.spent n⟩
        · rw [if_neg hmark]
          exact Std.Refl.refl wallet

/-- The output that an input spends is marked, if the wallet has it for its own. -/
def OwnSpent (wenv : WalletEnv) (wallet : CWallet) (prevout : COutPoint) : Prop :=
  ∀ coin txout, wallet.mapWallet[prevout.hash]? = some coin →
    coin.tx.vout[prevout.n]? = some txout → wenv.isMine txout = true →
    coin.isSpent prevout.n = .ok true

theorem Evolves.ownSpent {a b : CWallet} {prevout : COutPoint} (h : Evolves P a b)
    (hP : ¬ P prevout.hash prevout.n) (hspent : OwnSpent wenv a prevout) :
    OwnSpent wenv b prevout := by
  intro coin' txout hcoin' hout hmine
  obtain ⟨coin, hcoin, htx, hkept⟩ := h.entry hcoin'
  exact hkept _ hP (hspent coin txout hcoin (htx ▸ hout) hmine)

theorem updateInput_ownSpent {u : Unit} (hrun : updateInput env wenv txin wallet = .ok u wallet') :
    OwnSpent wenv wallet' txin.prevout := by
  intro coin' txout' hcoin' hout' hmine'
  unfold updateInput at hrun
  rw [bind_run] at hrun
  dsimp only [get] at hrun
  cases hwtx : wallet.mapWallet[txin.prevout.hash]? with
  | none =>
    rw [hwtx] at hrun
    obtain ⟨-, rfl⟩ := EStateM.Result.ok.inj hrun
    cases hwtx.symm.trans hcoin'
  | some wtx =>
    rw [hwtx] at hrun
    dsimp only at hrun
    cases hout : wtx.tx.vout[txin.prevout.n]? with
    | none =>
      rw [hout] at hrun
      obtain ⟨-, rfl⟩ := EStateM.Result.ok.inj hrun
      obtain rfl := Option.some.inj (hwtx.symm.trans hcoin')
      cases hout.symm.trans hout'
    | some txout =>
      -- the flag decides, then whether the output is the wallet's own
      rw [hout] at hrun
      dsimp only at hrun
      cases hspent : wtx.isSpent txin.prevout.n with
      | error e =>
        rw [hspent] at hrun
        cases hrun
      | ok fSpent =>
        rw [hspent, bind_run] at hrun
        dsimp only [fromExcept, pure_run] at hrun
        by_cases hmark : (!fSpent && wenv.isMine txout) = true
        · rw [if_pos hmark] at hrun
          cases hf : wtx.markSpent txin.prevout.n with
          | error e =>
            rw [modifyTx_error hf] at hrun
            cases hrun
          | ok wtx₁ =>
            obtain ⟨disk, keys, hmodify, -⟩ := @modifyTx_ok env wallet txin.prevout.hash wtx wtx₁
              (fun wtx => wtx.markSpent txin.prevout.n) hf
            rw [hmodify] at hrun
            obtain ⟨-, rfl⟩ := EStateM.Result.ok.inj hrun
            have hstored : (wallet.mapWallet.insert txin.prevout.hash wtx₁)[txin.prevout.hash]? =
                some wtx₁ := by rw [Map.getElem?_insert, if_pos rfl]
            obtain rfl := Option.some.inj (hstored.symm.trans hcoin')
            exact (markSpent_spec hf).2
        · rw [if_neg hmark] at hrun
          obtain ⟨-, rfl⟩ := EStateM.Result.ok.inj hrun
          obtain rfl := Option.some.inj (hwtx.symm.trans hcoin')
          obtain rfl := Option.some.inj (hout.symm.trans hout')
          cases fSpent with
          | true => exact hspent
          | false =>
            rw [hmine'] at hmark
            exact absurd rfl hmark

/-- After the loop over the inputs each of them is marked. -/
theorem updateInputs_ownSpent {vin : List CTxIn} {u : Unit}
    (hrun : vin.foldlM (fun _ txin => updateInput env wenv txin) () wallet = .ok u wallet') :
    ∀ txin ∈ vin, OwnSpent wenv wallet' txin.prevout := by
  induction vin generalizing wallet with
  | nil => exact fun txin hmem => absurd hmem List.not_mem_nil
  | cons txin vin ih =>
    rw [List.foldlM_cons] at hrun
    obtain ⟨_, wallet₁, hfirst, hrest⟩ := bind_eq_ok.mp hrun
    have hkept : Evolves (fun _ _ => False) wallet₁ wallet' :=
      (Keeps.foldlM (fun _ txin => updateInput_evolves txin) vin _).ok hrest
    refine List.forall_mem_cons.mpr ⟨?_, ih hrest⟩
    exact hkept.ownSpent (fun h => h) (updateInput_ownSpent hfirst)

/-- An output of a transaction that comes in a block. -/
theorem updateOutput_evolves {output : CTxOut × Nat}
    (hP : wenv.isMine output.1 = true → P hash output.2) :
    Keeps (Evolves P) (updateOutput env wenv hash output) := by
  intro wallet
  unfold updateOutput
  by_cases hmine : wenv.isMine output.1 = true
  · rw [if_pos hmine, bind_run]
    dsimp only [get]
    cases hwtx : wallet.mapWallet[hash]? with
    | none => exact Std.Refl.refl wallet
    | some wtx =>
      refine modifyTx_evolves hwtx fun wtx' h => ?_
      obtain ⟨htx, hspent⟩ := markUnspent_spec h
      exact ⟨htx, fun n hn => hspent n fun heq => hn (heq ▸ hP hmine)⟩
  · rw [if_neg hmine]
    exact Std.Refl.refl wallet

/-- `WalletUpdateSpent` unmarks at most own outputs of the transaction. -/
theorem walletUpdateSpent_evolves {tx : CTransaction} {fBlock : Bool}
    (hP : fBlock = true → ∀ output ∈ tx.vout.zipIdx, wenv.isMine output.1 = true →
      P (tx.getHash env) output.2) :
    Keeps (Evolves P) (walletUpdateSpent env wenv tx fBlock) := by
  refine Keeps.bind (Keeps.foldlM (fun _ txin => updateInput_evolves txin) _ _) fun _ => ?_
  cases fBlock with
  | false => exact Keeps.pure ()
  | true =>
    show Keeps (Evolves P) (tx.vout.zipIdx.foldlM (fun _ output =>
      updateOutput env wenv (tx.getHash env) output) ())
    have hall := hP rfl
    generalize tx.vout.zipIdx = outputs at hall
    induction outputs with
    | nil => exact Keeps.pure ()
    | cons output outputs ih =>
      obtain ⟨hfirst, hrest⟩ := List.forall_mem_cons.mp hall
      exact Keeps.bind (updateOutput_evolves hfirst) fun _ => ih hrest

theorem walletUpdateSpent_ownSpent {tx : CTransaction} {fBlock : Bool} {u : Unit}
    (hrun : walletUpdateSpent env wenv tx fBlock wallet = .ok u wallet')
    (hacyclic : ∀ txin ∈ tx.vin, txin.prevout.hash ≠ tx.getHash env) :
    ∀ txin ∈ tx.vin, OwnSpent wenv wallet' txin.prevout := by
  obtain ⟨_, wallet₁, hinputs, hrest⟩ := bind_eq_ok.mp hrun
  intro txin hmem
  have hspent := updateInputs_ownSpent hinputs txin hmem
  cases fBlock with
  | false =>
    obtain ⟨-, rfl⟩ := EStateM.Result.ok.inj hrest
    exact hspent
  | true =>
    -- only outputs of `tx` lose their mark, and `tx` spends none of them
    have hrest' : tx.vout.zipIdx.foldlM (fun _ output =>
        updateOutput env wenv (tx.getHash env) output) () wallet₁ = .ok u wallet' := hrest
    have hloop : Keeps (Evolves fun hash _ => hash = tx.getHash env) (tx.vout.zipIdx.foldlM
        (fun _ output => updateOutput env wenv (tx.getHash env) output) ()) :=
      Keeps.foldlM (fun _ output => @updateOutput_evolves env wenv
        (fun hash _ => hash = tx.getHash env) (tx.getHash env) output fun _ => rfl) _ _
    exact (hloop.ok hrest').ownSpent (hacyclic txin hmem) hspent

end steps

/-! ## One transaction -/

/-- The transactions that stand are in the wallet, and their coins are marked. -/
structure CoinsSpent (env : Env) (wenv : WalletEnv) (standing : Finset Uint256)
    (wallet : CWallet) : Prop where
  keyed : ∀ (hash : Uint256) (wtx : CWalletTx), wallet.mapWallet[hash]? = some wtx →
    wtx.tx.getHash env = hash
  known : ∀ hash ∈ standing, ∃ wtx, wallet.mapWallet[hash]? = some wtx
  spent : ∀ hash ∈ standing, ∀ wtx, wallet.mapWallet[hash]? = some wtx →
    ∀ txin ∈ wtx.tx.vin, OwnSpent wenv wallet txin.prevout

/-- No transaction of the wallet that stands spends an own output of `tx`, whose hash is `hash`. -/
def Unspent (wenv : WalletEnv) (standing : Finset Uint256) (wallet : CWallet) (hash : Uint256)
    (tx : CTransaction) : Prop :=
  ∀ other ∈ standing, ∀ wtx, wallet.mapWallet[other]? = some wtx → ∀ txin ∈ wtx.tx.vin,
    txin.prevout.hash = hash → ∀ txout, tx.vout[txin.prevout.n]? = some txout →
      wenv.isMine txout = false

/-- What is added spends no output of its own and, if it is new or comes in a block, has no own
output that a transaction spends which stands. -/
structure Undisturbed (env : Env) (wenv : WalletEnv) (standing : Finset Uint256)
    (wallet : CWallet) (wtxIn : CWalletTx) : Prop where
  acyclic : ∀ txin ∈ (entryFor env wallet wtxIn).2.tx.vin,
    txin.prevout.hash ≠ wtxIn.tx.getHash env
  unspent : wallet.mapWallet[wtxIn.tx.getHash env]? = none ∨ wtxIn.hashBlock ≠ 0 →
    Unspent wenv standing wallet (wtxIn.tx.getHash env) (entryFor env wallet wtxIn).2.tx

theorem Undisturbed.of_sameMap {env : Env} {wenv : WalletEnv} {standing : Finset Uint256}
    {wallet wallet' : CWallet} {wtxIn : CWalletTx}
    (h : Undisturbed env wenv standing wallet wtxIn)
    (hsame : wallet'.mapWallet = wallet.mapWallet) :
    Undisturbed env wenv standing wallet' wtxIn := by
  cases wallet
  cases wallet'
  cases hsame
  exact ⟨h.acyclic, h.unspent⟩

section add

variable {env : Env} {wenv : WalletEnv} {standing : Finset Uint256} {wallet wallet' : CWallet}
  {wtxIn : CWalletTx} {hash : Uint256} {P : Uint256 → Nat → Prop}

theorem CoinsSpent.mono {standing' : Finset Uint256} (hinv : CoinsSpent env wenv standing wallet)
    (hsubset : standing' ⊆ standing) : CoinsSpent env wenv standing' wallet :=
  ⟨hinv.keyed, fun hash hmem => hinv.known hash (hsubset hmem),
    fun hash hmem => hinv.spent hash (hsubset hmem)⟩

/-- A transaction whose coins are marked may stand. -/
theorem CoinsSpent.insert {wtx : CWalletTx} (hinv : CoinsSpent env wenv standing wallet)
    (hwtx : wallet.mapWallet[hash]? = some wtx)
    (hspent : ∀ txin ∈ wtx.tx.vin, OwnSpent wenv wallet txin.prevout) :
    CoinsSpent env wenv (insert hash standing) wallet := by
  refine ⟨hinv.keyed, fun other hmem => ?_, fun other hmem wtx' hwtx' => ?_⟩
  · rcases Finset.mem_insert.mp hmem with rfl | hmem
    · exact ⟨wtx, hwtx⟩
    · exact hinv.known other hmem
  · rcases Finset.mem_insert.mp hmem with rfl | hmem
    · obtain rfl := Option.some.inj (hwtx.symm.trans hwtx')
      exact hspent
    · exact hinv.spent other hmem wtx' hwtx'

theorem Evolves.exists {a b : CWallet} (h : Evolves P a b) {wtx : CWalletTx}
    (ha : a.mapWallet[hash]? = some wtx) :
    ∃ wtx', b.mapWallet[hash]? = some wtx' ∧ wtx'.tx = wtx.tx := by
  rcases h hash with ⟨hnone, -⟩ | ⟨wtx₁, wtx', ha', hb, htx, -⟩
  · cases hnone.symm.trans ha
  · obtain rfl := Option.some.inj (ha'.symm.trans ha)
    exact ⟨wtx', hb, htx⟩

/-- A step that unmarks nothing that is spent by a transaction which stands. -/
theorem CoinsSpent.evolves (hinv : CoinsSpent env wenv standing wallet)
    (h : Evolves P wallet wallet') (hP : ∀ hash ∈ standing, ∀ wtx,
      wallet.mapWallet[hash]? = some wtx → ∀ txin ∈ wtx.tx.vin,
        ¬ P txin.prevout.hash txin.prevout.n) :
    CoinsSpent env wenv standing wallet' := by
  refine ⟨fun hash wtx' hwtx' => ?_, fun hash hmem => ?_, fun hash hmem wtx' hwtx' txin hin => ?_⟩
  · obtain ⟨wtx, hwtx, htx, -⟩ := h.entry hwtx'
    rw [htx]
    exact hinv.keyed hash wtx hwtx
  · obtain ⟨wtx, hwtx⟩ := hinv.known hash hmem
    obtain ⟨wtx', hwtx', -⟩ := h.exists hwtx
    exact ⟨wtx', hwtx'⟩
  · obtain ⟨wtx, hwtx, htx, -⟩ := h.entry hwtx'
    rw [htx] at hin
    exact h.ownSpent (hP hash hmem wtx hwtx txin hin) (hinv.spent hash hmem wtx hwtx txin hin)

theorem updateSpent_keeps {vfNewSpent vfSpent : List Bool} {n : Nat}
    (h : vfSpent[n]?.getD false = true) :
    (updateSpent vfNewSpent vfSpent).2[n]?.getD false = true := by
  induction vfNewSpent generalizing vfSpent n with
  | nil => exact h
  | cons fNew vfNewSpent ih =>
    cases vfSpent with
    | nil => exact h
    | cons fOld vfSpent =>
      cases n with
      | zero =>
        have hold : fOld = true := h
        show (fNew || fOld) = true
        rw [hold, Bool.or_true]
      | succ n => exact @ih vfSpent n h

theorem merge_keeps {wtx : CWalletTx} {n : Nat} (h : wtx.isSpent n = .ok true) :
    (wtx.merge wtxIn).2.isSpent n = .ok true := by
  obtain ⟨hin, hflag⟩ := isSpent_eq_ok.mp h
  exact isSpent_eq_ok.mpr ⟨hin, updateSpent_keeps hflag⟩

theorem entryFor_old {old : CWalletTx} (hold : wallet.mapWallet[wtxIn.tx.getHash env]? = some old) :
    (entryFor env wallet wtxIn).2 = (old.merge wtxIn).2 := by
  unfold entryFor
  rw [hold]

theorem hash_entryFor (hinv : CoinsSpent env wenv standing wallet) :
    (entryFor env wallet wtxIn).2.tx.getHash env = wtxIn.tx.getHash env := by
  unfold entryFor
  split
  · rfl
  · next old hold => exact hinv.keyed _ old hold

theorem finishAdding_evolves (fBlock : Bool) (entry : Bool × CWalletTx) :
    Keeps (Evolves fun other _ => other = entry.2.tx.getHash env ∧ fBlock = true)
      (finishAdding env wenv fBlock entry) := by
  unfold finishAdding
  refine Keeps.bind (Keeps.ite (writeToDisk_evolves _) (Keeps.pure _)) fun fWritten => ?_
  refine Keeps.ite (Keeps.pure _) ?_
  refine Keeps.bind (onKeys_evolves _) fun _ => Keeps.bind ?_ fun _ => Keeps.pure _
  exact walletUpdateSpent_evolves fun hblock _ _ _ => ⟨rfl, hblock⟩

theorem finishAdding_ownSpent {fBlock : Bool} {entry : Bool × CWalletTx}
    (hrun : finishAdding env wenv fBlock entry wallet = .ok true wallet')
    (hacyclic : ∀ txin ∈ entry.2.tx.vin, txin.prevout.hash ≠ entry.2.tx.getHash env) :
    ∀ txin ∈ entry.2.tx.vin, OwnSpent wenv wallet' txin.prevout := by
  obtain ⟨fWritten, wallet₁, -, hrun⟩ := bind_eq_ok.mp hrun
  cases fWritten with
  | false => cases (EStateM.Result.ok.inj hrun).1
  | true =>
    obtain ⟨_, wallet₂, -, hrun⟩ := bind_eq_ok.mp hrun
    obtain ⟨_, wallet₃, hupdate, hrun⟩ := bind_eq_ok.mp hrun
    obtain ⟨-, rfl⟩ := EStateM.Result.ok.inj hrun
    exact walletUpdateSpent_ownSpent hupdate hacyclic

theorem getElem?_insertTx (wtx : CWalletTx) (other : Uint256) :
    (wallet.insertTx hash wtx).mapWallet[other]? =
      if hash = other then some wtx else wallet.mapWallet[other]? := Map.getElem?_insert ..

/-- What is added undisturbed, and then evolves without a mark taken from another transaction,
keeps the coins of the transactions that stand marked. -/
theorem CoinsSpent.added (hinv : CoinsSpent env wenv standing wallet)
    (hadd : Undisturbed env wenv standing wallet wtxIn)
    (hevolves : Evolves (fun other _ => other = wtxIn.tx.getHash env ∧
      decide (wtxIn.hashBlock ≠ 0) = true)
      (wallet.insertTx (wtxIn.tx.getHash env) (entryFor env wallet wtxIn).2) wallet') :
    CoinsSpent env wenv standing wallet' := by
  refine ⟨fun hash wtx' hwtx' => ?_, fun hash hmem => ?_, fun hash hmem wtx' hwtx' txin hin => ?_⟩
  · obtain ⟨wtx, hwtx, htx, -⟩ := hevolves.entry hwtx'
    rw [getElem?_insertTx] at hwtx
    rw [htx]
    split at hwtx
    · next heq =>
      rw [← Option.some.inj hwtx, ← heq]
      exact hash_entryFor hinv
    · exact hinv.keyed hash wtx hwtx
  · obtain ⟨wtx, hwtx⟩ := hinv.known hash hmem
    have hstored : ∃ wtx₁, (wallet.insertTx (wtxIn.tx.getHash env)
        (entryFor env wallet wtxIn).2).mapWallet[hash]? = some wtx₁ := by
      rw [getElem?_insertTx]
      split
      · exact ⟨_, rfl⟩
      · exact ⟨wtx, hwtx⟩
    obtain ⟨wtx₁, hwtx₁⟩ := hstored
    obtain ⟨wtx', hwtx', -⟩ := hevolves.exists hwtx₁
    exact ⟨wtx', hwtx'⟩
  · -- the transaction that stands was in the wallet before
    obtain ⟨spender, hspender⟩ := hinv.known hash hmem
    have hsame : wtx'.tx = spender.tx := by
      obtain ⟨wtx, hwtx, htx, -⟩ := hevolves.entry hwtx'
      rw [htx]
      rw [getElem?_insertTx] at hwtx
      split at hwtx
      · next heq =>
        subst heq
        rw [← Option.some.inj hwtx, entryFor_old hspender]
        rfl
      · rw [Option.some.inj (hwtx.symm.trans hspender)]
    rw [hsame] at hin
    have hbefore := hinv.spent hash hmem spender hspender txin hin
    intro coin' txout hcoin' hout hmine
    obtain ⟨coin, hcoin, hcoinTx, hkept⟩ := hevolves.entry hcoin'
    rw [hcoinTx] at hout
    rw [getElem?_insertTx] at hcoin
    split at hcoin
    · -- an output of what is added
      next heq =>
      obtain rfl := Option.some.inj hcoin
      -- new or in a block, it has no such output; else the merge keeps the flag
      by_cases hfresh : wallet.mapWallet[wtxIn.tx.getHash env]? = none ∨ wtxIn.hashBlock ≠ 0
      · have hnot := hadd.unspent hfresh hash hmem spender hspender txin hin heq.symm txout hout
        rw [hnot] at hmine
        cases hmine
      · obtain ⟨hexists, hblock⟩ := not_or.mp hfresh
        obtain ⟨old, hold⟩ := Option.ne_none_iff_exists'.mp hexists
        rw [entryFor_old hold] at hout hkept
        refine hkept _ (fun hP => hblock (of_decide_eq_true hP.2)) (merge_keeps ?_)
        exact hbefore old txout (heq ▸ hold) hout hmine
    · next hother =>
      exact hkept _ (fun hP => hother hP.1.symm) (hbefore coin txout hcoin hout hmine)

theorem addToWallet_run :
    addToWallet env wenv wtxIn wallet = finishAdding env wenv (decide (wtxIn.hashBlock ≠ 0))
      (entryFor env wallet wtxIn)
      (wallet.insertTx (wtxIn.tx.getHash env) (entryFor env wallet wtxIn).2) := rfl

theorem addToWallet_evolves (hinv : CoinsSpent env wenv standing wallet) :
    Evolves (fun other _ => other = wtxIn.tx.getHash env ∧ decide (wtxIn.hashBlock ≠ 0) = true)
      (wallet.insertTx (wtxIn.tx.getHash env) (entryFor env wallet wtxIn).2)
      (endState (addToWallet env wenv wtxIn wallet)) := by
  rw [addToWallet_run, ← hash_entryFor hinv]
  exact finishAdding_evolves _ _ _

/-- Whatever `AddToWallet` runs into, the coins of the transactions that stand stay marked. -/
theorem addToWallet_coinsSpent (hinv : CoinsSpent env wenv standing wallet)
    (hadd : Undisturbed env wenv standing wallet wtxIn) :
    CoinsSpent env wenv standing (endState (addToWallet env wenv wtxIn wallet)) :=
  hinv.added hadd (addToWallet_evolves hinv)

/-- A transaction that `AddToWallet` has added may stand. -/
theorem addToWallet_stands (hinv : CoinsSpent env wenv standing wallet)
    (hadd : Undisturbed env wenv standing wallet wtxIn)
    (hrun : addToWallet env wenv wtxIn wallet = .ok true wallet') :
    CoinsSpent env wenv (insert (wtxIn.tx.getHash env) standing) wallet' := by
  have hkept := addToWallet_coinsSpent hinv hadd
  have hevolves := @addToWallet_evolves env wenv standing wallet wtxIn hinv
  rw [hrun] at hkept hevolves
  have hstored : (wallet.insertTx (wtxIn.tx.getHash env)
      (entryFor env wallet wtxIn).2).mapWallet[wtxIn.tx.getHash env]? =
        some (entryFor env wallet wtxIn).2 := by rw [getElem?_insertTx, if_pos rfl]
  obtain ⟨wtx, hwtx, htx⟩ := hevolves.exists hstored
  refine hkept.insert hwtx ?_
  rw [htx]
  refine finishAdding_ownSpent hrun ?_
  rw [hash_entryFor hinv]
  exact hadd.acyclic

theorem walletUpdateSpent_coinsSpent (hinv : CoinsSpent env wenv standing wallet)
    (tx : CTransaction) :
    CoinsSpent env wenv standing (endState (walletUpdateSpent env wenv tx false wallet)) := by
  have hevolves : Evolves (fun _ _ => False) wallet
      (endState (walletUpdateSpent env wenv tx false wallet)) :=
    @walletUpdateSpent_evolves env wenv (fun _ _ => False) tx false (fun h => by cases h) wallet
  exact hinv.evolves hevolves fun _ _ _ _ _ _ h => h

end add

/-! ## What the node does -/

section node

variable {env : Env} {wenv : WalletEnv} {standing : Finset Uint256} {wallet wallet' : CWallet}

theorem addToWalletIfInvolvingMe_coinsSpent {mtx : CMerkleTx} (fUpdate : Bool)
    (hinv : CoinsSpent env wenv standing wallet)
    (hadd : Undisturbed env wenv standing wallet (ofMerkleTx mtx)) :
    CoinsSpent env wenv standing
      (endState (addToWalletIfInvolvingMe env wenv mtx fUpdate wallet)) := by
  unfold addToWalletIfInvolvingMe
  rw [bind_run]
  dsimp only [get]
  split
  · exact hinv
  · cases involves wenv wallet (wallet.mapWallet.contains (mtx.tx.getHash env)) mtx.tx with
    | error e => exact hinv
    | ok fInvolves =>
      rw [bind_run]
      dsimp only [fromExcept, pure_run]
      cases fInvolves with
      | true => exact addToWallet_coinsSpent hinv hadd
      | false =>
        have hkept := walletUpdateSpent_coinsSpent hinv mtx.tx
        show CoinsSpent env wenv standing (endState ((walletUpdateSpent env wenv mtx.tx false >>=
          fun _ => pure false) wallet))
        rw [bind_run]
        cases hrun : walletUpdateSpent env wenv mtx.tx false wallet with
        | ok u wallet₁ =>
          rw [hrun] at hkept
          exact hkept
        | error e wallet₁ =>
          rw [hrun] at hkept
          exact hkept

theorem addToWalletIfInvolvingMe_stands {mtx : CMerkleTx} {fUpdate : Bool}
    (hinv : CoinsSpent env wenv standing wallet)
    (hadd : Undisturbed env wenv standing wallet (ofMerkleTx mtx))
    (hrun : addToWalletIfInvolvingMe env wenv mtx fUpdate wallet = .ok true wallet') :
    CoinsSpent env wenv (insert (mtx.tx.getHash env) standing) wallet' := by
  obtain ⟨_, _, hget, hrun⟩ := bind_eq_ok.mp hrun
  obtain ⟨rfl, rfl⟩ := EStateM.Result.ok.inj hget
  split at hrun
  · cases (pure_eq_ok.mp hrun).1
  · obtain ⟨fInvolves, wallet₁, hinvolves, hrun⟩ := bind_eq_ok.mp hrun
    obtain ⟨-, rfl⟩ := fromExcept_eq_ok.mp hinvolves
    cases fInvolves with
    | true =>
      have hadded : addToWallet env wenv (ofMerkleTx mtx) wallet₁ = .ok true wallet' := hrun
      have hstands := addToWallet_stands hinv hadd hadded
      exact hstands
    | false =>
      have hupdated : (walletUpdateSpent env wenv mtx.tx false >>= fun _ => pure false) wallet₁ =
          .ok true wallet' := hrun
      obtain ⟨_, wallet₂, -, hrun⟩ := bind_eq_ok.mp hupdated
      cases (pure_eq_ok.mp hrun).1

theorem markInput_evolves {txin : CTxIn} {P : Uint256 → Nat → Prop} {coin : CWalletTx}
    (hcoin : wallet.mapWallet[txin.prevout.hash]? = some coin) :
    Evolves P wallet (endState (markInput env wenv txin wallet)) := by
  have hfound : Map.subscript wallet.mapWallet txin.prevout.hash
      (.ofTx { CTransaction.default with nTime := wenv.nAdjustedTime }) =
        (coin, wallet.mapWallet) := by
    unfold Map.subscript
    rw [hcoin]
  have hmark : markInput env wenv txin wallet =
      modifyTx env txin.prevout.hash coin (fun coin => coin.markSpent txin.prevout.n) wallet := by
    unfold markInput
    rw [bind_run]
    dsimp only [get]
    rw [hfound]
    rfl
  rw [hmark]
  refine modifyTx_evolves hcoin fun coin' h => ?_
  obtain ⟨hmarked, -⟩ := markSpent_spec h
  exact ⟨hmarked.tx, fun n _ => hmarked.spent n⟩

theorem markInputs_evolves {vin : List CTxIn} {P : Uint256 → Nat → Prop}
    (hcoins : ∀ txin ∈ vin, ∃ coin, wallet.mapWallet[txin.prevout.hash]? = some coin) :
    Evolves P wallet
      (endState (vin.foldlM (fun _ txin => markInput env wenv txin) () wallet)) := by
  induction vin generalizing wallet with
  | nil => exact Std.Refl.refl wallet
  | cons txin vin ih =>
    obtain ⟨⟨coin, hcoin⟩, hrest⟩ := List.forall_mem_cons.mp hcoins
    have hfirst := @markInput_evolves env wenv wallet txin P coin hcoin
    rw [List.foldlM_cons, bind_run]
    cases hrun : markInput env wenv txin wallet with
    | error e wallet₁ =>
      rw [hrun] at hfirst
      exact hfirst
    | ok u wallet₁ =>
      rw [hrun] at hfirst
      refine IsTrans.trans _ _ _ hfirst (ih fun txin' hmem => ?_)
      obtain ⟨coin', hcoin'⟩ := hrest txin' hmem
      obtain ⟨coin₁, hcoin₁, -⟩ := hfirst.exists hcoin'
      exact ⟨coin₁, hcoin₁⟩

/-- A payment is made of coins of the wallet, and one hash means one transaction. -/
structure Payable (env : Env) (wallet : CWallet) (wtxNew : CWalletTx) : Prop where
  coins : ∀ txin ∈ wtxNew.tx.vin, ∃ coin, wallet.mapWallet[txin.prevout.hash]? = some coin
  same : ∀ old, wallet.mapWallet[wtxNew.tx.getHash env]? = some old → old.tx = wtxNew.tx

theorem keepKey_sameMap (h : Nat) :
    (endState (onKeys (KeyPool.keepKey h) wallet)).mapWallet = wallet.mapWallet := by
  unfold onKeys
  cases KeyPool.keepKey h wallet.keys with
  | ok u keys => rfl
  | error e keys => rfl

/-- The transactions of the wallet are still there after `AddToWallet`. -/
theorem addToWallet_exists {wtxIn wtx : CWalletTx} {hash : Uint256}
    (hinv : CoinsSpent env wenv standing wallet) (hwtx : wallet.mapWallet[hash]? = some wtx) :
    ∃ wtx', (endState (addToWallet env wenv wtxIn wallet)).mapWallet[hash]? = some wtx' := by
  have hstored : ∃ wtx₁, (wallet.insertTx (wtxIn.tx.getHash env)
      (entryFor env wallet wtxIn).2).mapWallet[hash]? = some wtx₁ := by
    rw [getElem?_insertTx]
    split
    · exact ⟨_, rfl⟩
    · exact ⟨wtx, hwtx⟩
  obtain ⟨wtx₁, hwtx₁⟩ := hstored
  obtain ⟨wtx', hwtx', -⟩ := (@addToWallet_evolves env wenv standing wallet wtxIn hinv).exists hwtx₁
  exact ⟨wtx', hwtx'⟩

theorem recordTransaction_run (h : Nat) (wtxNew : CWalletTx) :
    recordTransaction env wenv h wtxNew = (do
      onKeys (KeyPool.keepKey h)
      let _ ← addToWallet env wenv wtxNew
      wtxNew.tx.vin.foldlM (fun _ txin => markInput env wenv txin) ()) := rfl

theorem CoinsSpent.of_sameMap (hinv : CoinsSpent env wenv standing wallet)
    (hsame : wallet'.mapWallet = wallet.mapWallet) : CoinsSpent env wenv standing wallet' :=
  @CoinsSpent.evolves env wenv standing wallet wallet' (fun _ _ => False) hinv (.of_sameMap hsame)
    fun _ _ _ _ _ _ h => h

/-- Whatever `CommitTransaction` runs into. -/
theorem recordTransaction_coinsSpent {h : Nat} {wtxNew : CWalletTx}
    (hinv : CoinsSpent env wenv standing wallet)
    (hadd : Undisturbed env wenv standing wallet wtxNew) (hpay : Payable env wallet wtxNew) :
    CoinsSpent env wenv standing (endState (recordTransaction env wenv h wtxNew wallet)) := by
  have hsame := @keepKey_sameMap wallet h
  rw [recordTransaction_run, bind_run]
  cases hkeep : onKeys (KeyPool.keepKey h) wallet with
  | error e wallet₁ =>
    rw [hkeep] at hsame
    exact hinv.of_sameMap hsame
  | ok u wallet₁ =>
    rw [hkeep] at hsame
    have hinv₁ : CoinsSpent env wenv standing wallet₁ := hinv.of_sameMap hsame
    have hkept := addToWallet_coinsSpent hinv₁ (hadd.of_sameMap hsame)
    have hexists := @addToWallet_exists env wenv standing wallet₁ wtxNew
    dsimp only
    rw [bind_run]
    cases hrun : addToWallet env wenv wtxNew wallet₁ with
    | error e wallet₂ =>
      rw [hrun] at hkept
      exact hkept
    | ok b wallet₂ =>
      rw [hrun] at hkept
      -- the coins are still there, so no entry is made for one of them
      have hmarks : Evolves (fun _ _ => False) wallet₂ (endState (wtxNew.tx.vin.foldlM
          (fun _ txin => markInput env wenv txin) () wallet₂)) := by
        refine markInputs_evolves fun txin hmem => ?_
        obtain ⟨coin, hcoin⟩ := hpay.coins txin hmem
        obtain ⟨coin', hcoin'⟩ := hexists hinv₁ (hsame ▸ hcoin)
        rw [hrun] at hcoin'
        exact ⟨coin', hcoin'⟩
      exact hkept.evolves hmarks fun _ _ _ _ _ _ h => h

/-- A payment that has been recorded may stand. -/
theorem recordTransaction_stands {h : Nat} {wtxNew : CWalletTx} {u : Unit}
    (hinv : CoinsSpent env wenv standing wallet)
    (hadd : Undisturbed env wenv standing wallet wtxNew) (hpay : Payable env wallet wtxNew)
    (hrun : recordTransaction env wenv h wtxNew wallet = .ok u wallet') :
    CoinsSpent env wenv (insert (wtxNew.tx.getHash env) standing) wallet' := by
  have hkept := @recordTransaction_coinsSpent env wenv standing wallet h wtxNew hinv hadd hpay
  rw [hrun] at hkept
  have hrecorded := recordTransaction_records hrun
  obtain ⟨wtx, hwtx, hnew⟩ := hrecorded.entry
  have htx : wtx.tx = wtxNew.tx := by
    cases hold : wallet.mapWallet[wtxNew.tx.getHash env]? with
    | none => exact hnew hold
    | some old =>
      obtain ⟨wtx', hwtx', hsame⟩ := hrecorded.others _ old hold
      obtain rfl := Option.some.inj (hwtx.symm.trans hwtx')
      exact hsame.trans (hpay.same old hold)
  refine hkept.insert hwtx fun txin hmem => ?_
  rw [htx] at hmem
  obtain ⟨coin, hcoin, hspent⟩ := hrecorded.spent txin hmem
  intro coin' txout hcoin' _ _
  obtain rfl := Option.some.inj (hcoin.symm.trans hcoin')
  exact hspent

theorem disableInput_evolves (txin : CTxIn) :
    Keeps (Evolves fun hash n => txin.prevout = ⟨hash, n⟩) (disableInput env wenv txin) := by
  intro wallet
  unfold disableInput
  rw [bind_run]
  dsimp only [get]
  cases hprev : wallet.mapWallet[txin.prevout.hash]? with
  | none => exact Std.Refl.refl wallet
  | some prev =>
    dsimp only
    cases prev.tx.vout[txin.prevout.n]? with
    | none => exact Std.Refl.refl wallet
    | some txout =>
      dsimp only
      split
      · refine modifyTx_evolves hprev fun prev' h => ?_
        obtain ⟨htx, hspent⟩ := markUnspent_spec h
        refine ⟨htx, fun n hn => hspent n fun heq => hn ?_⟩
        rw [heq]
      · exact Std.Refl.refl wallet

/-- `DisableTransaction` unmarks at most the coins of the transaction. -/
theorem disableTransaction_evolves (tx : CTransaction) :
    Keeps (Evolves fun hash n => tx.isCoinStake = true ∧ ∃ txin ∈ tx.vin, txin.prevout = ⟨hash, n⟩)
      (disableTransaction env wenv tx) := by
  intro wallet
  unfold disableTransaction
  rw [bind_run]
  dsimp only [get]
  cases hstake : tx.isCoinStake with
  | false => exact Std.Refl.refl wallet
  | true =>
    rw [if_pos rfl, bind_run]
    cases isFromMe wenv wallet tx with
    | error e => exact Std.Refl.refl wallet
    | ok fFromMe =>
      dsimp only [fromExcept, pure_run]
      cases fFromMe with
      | false => exact Std.Refl.refl wallet
      | true =>
        have hloop : ∀ vin : List CTxIn, vin ⊆ tx.vin →
            Keeps (Evolves fun hash n => true = true ∧ ∃ txin ∈ tx.vin, txin.prevout = ⟨hash, n⟩)
              (vin.foldlM (fun _ txin => disableInput env wenv txin) ()) := by
          intro vin
          induction vin with
          | nil => exact fun _ => Keeps.pure ()
          | cons txin vin ih =>
            intro hsubset
            obtain ⟨hmem, hrest⟩ := List.cons_subset.mp hsubset
            rw [List.foldlM_cons]
            refine Keeps.bind ?_ fun _ => ih hrest
            exact (disableInput_evolves txin).mono fun _ _ h =>
              h.mono fun hash n heq => ⟨rfl, txin, hmem, heq⟩
        exact hloop tx.vin (List.Subset.refl _) wallet

/-- No other transaction of the wallet that stands spends a coin of `tx`. -/
def Alone (env : Env) (standing : Finset Uint256) (wallet : CWallet) (tx : CTransaction) : Prop :=
  ∀ other ∈ standing, other ≠ tx.getHash env → ∀ wtx, wallet.mapWallet[other]? = some wtx →
    ∀ txin ∈ wtx.tx.vin, ∀ txin' ∈ tx.vin, txin'.prevout ≠ txin.prevout

/-- A coin stake that is disconnected stands no more. -/
theorem disableTransaction_coinsSpent {tx : CTransaction}
    (hinv : CoinsSpent env wenv standing wallet)
    (halone : tx.isCoinStake = true → Alone env standing wallet tx) :
    CoinsSpent env wenv (if tx.isCoinStake then standing.erase (tx.getHash env) else standing)
      (endState (disableTransaction env wenv tx wallet)) := by
  have hevolves := @disableTransaction_evolves env wenv tx wallet
  split
  · next hstake =>
    refine (hinv.mono (Finset.erase_subset _ _)).evolves hevolves
      fun other hmem wtx hwtx txin hin => ?_
    obtain ⟨hne, hstands⟩ := Finset.mem_erase.mp hmem
    rintro ⟨-, txin', hin', heq⟩
    exact halone hstake other hstands hne wtx hwtx txin hin txin' hin' heq
  · next hstake =>
    exact hinv.evolves hevolves fun _ _ _ _ _ _ h => hstake h.1

end node

/-! ## Runs -/

/-- A wallet, and which of the transactions it has added stand in the best chain or in the memory
pool. -/
structure Ledger where
  wallet : CWallet
  standing : Finset Uint256

/-- What may happen to a wallet. -/
inductive WalletEvent where
  /-- `AddToWalletIfInvolvingMe`, of a transaction of a block or of the memory pool. -/
  | sync (mtx : CMerkleTx) (fUpdate : Bool)
  /-- `CommitTransaction`, as far as the wallet is concerned. -/
  | commit (h : Nat) (wtxNew : CWalletTx)
  /-- `SyncWithWallets` of a transaction whose block is disconnected. -/
  | disconnect (tx : CTransaction)
  /-- The transaction has left the memory pool; the wallet is not told. -/
  | leave (hash : Uint256)

namespace WalletEvent

variable (env : Env) (wenv : WalletEnv)

/-- The step; a call that throws leaves the wallet as it has made it. -/
def next (s : Ledger) : WalletEvent → Ledger
  | sync mtx fUpdate =>
    match addToWalletIfInvolvingMe env wenv mtx fUpdate s.wallet with
    | .ok true wallet => ⟨wallet, insert (mtx.tx.getHash env) s.standing⟩
    | r => ⟨endState r, s.standing⟩
  | commit h wtxNew =>
    match recordTransaction env wenv h wtxNew s.wallet with
    | .ok () wallet => ⟨wallet, insert (wtxNew.tx.getHash env) s.standing⟩
    | r => ⟨endState r, s.standing⟩
  | disconnect tx =>
    ⟨endState (disableTransaction env wenv tx s.wallet),
      if tx.isCoinStake then s.standing.erase (tx.getHash env) else s.standing⟩
  | leave hash => ⟨s.wallet, s.standing.erase hash⟩

/-- The event takes no mark from a coin that a transaction spends which stands. -/
def Fair (s : Ledger) : WalletEvent → Prop
  | sync mtx _ => Undisturbed env wenv s.standing s.wallet (ofMerkleTx mtx)
  | commit _ wtxNew =>
    Undisturbed env wenv s.standing s.wallet wtxNew ∧ Payable env s.wallet wtxNew
  | disconnect tx => tx.isCoinStake = true → Alone env s.standing s.wallet tx
  | leave _ => True

/-- The run of a list of events. -/
def run (s : Ledger) (events : List WalletEvent) : Ledger :=
  events.foldl (next env wenv) s

/-- Every event of the run is fair. -/
def FairRun : Ledger → List WalletEvent → Prop
  | _, [] => True
  | s, e :: events => e.Fair env wenv s ∧ FairRun (next env wenv s e) events

/-- The wallet of a new data directory. -/
def start (keys : KeyPool.CWallet) : Ledger := ⟨⟨∅, ∅, keys⟩, ∅⟩

variable {env wenv} {s : Ledger}

theorem next_coinsSpent (e : WalletEvent) (hinv : CoinsSpent env wenv s.standing s.wallet)
    (hfair : e.Fair env wenv s) :
    CoinsSpent env wenv (next env wenv s e).standing (next env wenv s e).wallet := by
  cases e with
  | sync mtx fUpdate =>
    have hkept := addToWalletIfInvolvingMe_coinsSpent fUpdate hinv hfair
    unfold next
    dsimp only
    split
    · next wallet hrun => exact addToWalletIfInvolvingMe_stands hinv hfair hrun
    · exact hkept
  | commit h wtxNew =>
    have hkept := @recordTransaction_coinsSpent env wenv s.standing s.wallet h wtxNew hinv
      hfair.1 hfair.2
    unfold next
    dsimp only
    split
    · next wallet hrun => exact recordTransaction_stands hinv hfair.1 hfair.2 hrun
    · exact hkept
  | disconnect tx => exact disableTransaction_coinsSpent hinv hfair
  | leave hash => exact hinv.mono (Finset.erase_subset _ _)

theorem run_coinsSpent (events : List WalletEvent)
    (hinv : CoinsSpent env wenv s.standing s.wallet) (hfair : FairRun env wenv s events) :
    CoinsSpent env wenv (run env wenv s events).standing (run env wenv s events).wallet := by
  induction events generalizing s with
  | nil => exact hinv
  | cons e events ih => exact ih (next_coinsSpent e hinv hfair.1) hfair.2

theorem start_coinsSpent (keys : KeyPool.CWallet) :
    CoinsSpent env wenv (start keys).standing (start keys).wallet := by
  have hnone : ∀ hash, (start keys).wallet.mapWallet[hash]? = none := fun hash =>
    Std.ExtTreeMap.getElem?_empty
  refine ⟨fun hash wtx hwtx => ?_, fun hash hmem => ?_, fun hash hmem => ?_⟩
  · cases (hnone hash).symm.trans hwtx
  · exact absurd hmem (Finset.notMem_empty hash)
  · exact absurd hmem (Finset.notMem_empty hash)

end WalletEvent

open WalletEvent

/-- `CommitTransaction` does to the wallet what the event `commit` does. -/
theorem commitTransaction_wallet (env : Env) (wenv : WalletEnv) (h : Nat) (wtxNew : CWalletTx)
    (wallet : CWallet) (w : World) :
    (endState (commitTransaction env wenv h wtxNew (wallet, w))).1 =
      endState (recordTransaction env wenv h wtxNew wallet) := by
  unfold commitTransaction
  dsimp only
  cases recordTransaction env wenv h wtxNew wallet with
  | error e wallet' => rfl
  | ok u wallet' =>
    dsimp only
    split
    · rfl
    · rfl
    · rfl

/-- A spent output is not offered. -/
theorem not_offered {env : Env} {wenv : WalletEnv} {standing : Finset Uint256} {wallet : CWallet}
    {prevout : COutPoint} {coin : CWalletTx} (hinv : CoinsSpent env wenv standing wallet)
    (hcoin : wallet.mapWallet[prevout.hash]? = some coin)
    (hspent : coin.isSpent prevout.n = .ok true) (penv : PaymentEnv)
    (coinControl : Option CCoinControl) :
    ∀ output ∈ availableCoins penv wallet.mapWallet coinControl,
      output.coin ≠ (coin.tx, prevout.n) := by
  intro output hmem heq
  obtain ⟨⟨hash, wtx⟩, hentry, hout⟩ := List.mem_flatMap.mp hmem
  have hwtx := Std.ExtTreeMap.mem_toList_iff_getElem?_eq_some.mp hentry
  obtain ⟨-, _, i, hi, -, hunspent, -⟩ := mem_coinsOf hout
  obtain ⟨htx, hn⟩ := Prod.mk.inj (hi.symm.trans heq)
  have hsame : hash = prevout.hash := by
    rw [← hinv.keyed hash wtx hwtx, ← hinv.keyed prevout.hash coin hcoin]
    exact congrArg (CTransaction.getHash env) htx
  rw [hsame] at hwtx
  obtain rfl := Option.some.inj (hwtx.symm.trans hcoin)
  rw [← hn] at hspent
  cases hunspent.symm.trans hspent

/-- A coin of the wallet and a payment of it, both in the memory pool. -/
def knownEvents : List WalletEvent :=
  [.sync (.ofTx pooledTx) true, .sync (.ofTx spendingTx) true]

/-- The wallet when it knows the coin. -/
def coinKnown : Ledger :=
  next testNet payingEnv (start KeyPool.newWallet) (.sync (.ofTx pooledTx) true)

/-- The transaction of an entry. -/
def txAt (s : Ledger) (hash : Uint256) : Option CTransaction :=
  (s.wallet.mapWallet[hash]?).map fun wtx => wtx.tx

/-- One transaction stands, and it has nothing to do with what is added. -/
theorem Undisturbed.of_single {env : Env} {wenv : WalletEnv} {s : Ledger} {hash : Uint256}
    {tx : CTransaction} {wtxIn : CWalletTx} (hstanding : s.standing = {hash})
    (hentry : txAt s hash = some tx)
    (hother : ∀ txin ∈ tx.vin, txin.prevout.hash ≠ wtxIn.tx.getHash env)
    (hacyclic : ∀ txin ∈ (entryFor env s.wallet wtxIn).2.tx.vin,
      txin.prevout.hash ≠ wtxIn.tx.getHash env) :
    Undisturbed env wenv s.standing s.wallet wtxIn := by
  refine ⟨hacyclic, fun _ other hmem wtx hwtx txin hin hhash => ?_⟩
  rw [hstanding, Finset.mem_singleton] at hmem
  unfold txAt at hentry
  rw [← hmem, hwtx] at hentry
  have htx : wtx.tx = tx := Option.some.inj hentry
  rw [htx] at hin
  exact absurd hhash (hother txin hin)

theorem knownEvents_fair : FairRun testNet payingEnv (start KeyPool.newWallet) knownEvents := by
  have hfirst : Undisturbed testNet payingEnv ∅ (start KeyPool.newWallet).wallet
      (ofMerkleTx (.ofTx pooledTx)) :=
    ⟨by decide +kernel, fun _ other hmem => absurd hmem (Finset.notMem_empty other)⟩
  have hsecond : Undisturbed testNet payingEnv coinKnown.standing coinKnown.wallet
      (ofMerkleTx (.ofTx spendingTx)) :=
    @Undisturbed.of_single testNet payingEnv coinKnown (pooledTx.getHash testNet) pooledTx _
      (by decide +kernel) (by decide +kernel) (by decide +kernel) (by decide +kernel)
  exact ⟨hfirst, hsecond, trivial⟩

/-- Whether the wallet of `s` takes an output of its transaction `hash` to be spent. -/
def flagAt (s : Ledger) (hash : Uint256) (n : Nat) : Option (Except Thrown Bool) :=
  (s.wallet.mapWallet[hash]?).map fun wtx => wtx.isSpent n

/-- Payments out of the wallet of `payingEnv`. -/
def offeringEnv : PaymentEnv :=
  { payingEnv with
    isFinal := fun _ => true
    depth := fun _ => 1
    isFromMe := fun _ => false
    hash160 := fun vch => vch
    nMinimumInputValue := 0
    nTransactionFee := 0
    fSplitBlock := false }

/-- The coin gets its first confirmation after the payment. -/
def confirmedEvents : List WalletEvent :=
  knownEvents ++ [.sync { CMerkleTx.ofTx pooledTx with hashBlock := 7 } true]

/-- A payment to someone else, who pays it back. -/
def paidBackTx : CTransaction :=
  ⟨1, 1600000000, [⟨⟨paymentTx.tx.getHash testNet, 0⟩, [], uint32Max⟩], [⟨cent, [0x51]⟩], 0⟩

def paidBackEvents : List WalletEvent :=
  [.sync (.ofTx pooledTx) true, .sync (.ofTx paymentTx.tx) true, .sync (.ofTx paidBackTx) true]

/-- The second write to `wallet.dat` fails. -/
def fullDisk : KeyPool.CWallet := { KeyPool.newWallet with io := fun n => decide (n = 0) }

end CWallet

end NoLimitCoin
