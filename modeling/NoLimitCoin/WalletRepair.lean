import NoLimitCoin.SupportingTransactions
import NoLimitCoin.WalletSpends

/-!
# Repair of the wallet

`FixSpentCoins` compares the flags of the wallet with the index of transactions, and sets them where
they differ.  What the memory pool spends is not in the index.

Results:
1. `fixOutput_check`, `fixOutput_repair`: one output, in the two modes.
2. `fixSpentCoins_check`, `fixSpentCoins_repair`: the counts are the same, and after the repair no
   own output differs.
3. `fixSpentCoins_same`: a wallet without differences stays as it is.
-/

namespace NoLimitCoin

open Prog
open KeyPool (Thrown)

/-- The index has a transaction that spends the output. -/
def CTxIndex.isSpent (txindex : CTxIndex) (n : Nat) : Bool :=
  (txindex.vSpent[n]?).any fun pos => !pos.isNull

namespace CWallet

/-! ## The code -/

section code

variable (env : Env) (wenv : WalletEnv)

/-- A mismatch is counted, and repaired by `mark`.  The state of the loop is the number of mismatches,
the balance in question and the transaction. -/
def mismatchFound (fCheckOnly : Bool) (hash : Uint256)
    (mark : CWalletTx → Nat → Except Thrown CWalletTx) (s : (Nat × Int) × CWalletTx)
    (output : CTxOut × Nat) : WalletM ((Nat × Int) × CWalletTx) := do
  let count := (s.1.1 + 1, s.1.2 + output.1.nValue)
  if fCheckOnly then pure (count, s.2)
  else do
    let wtx ← fromExcept (mark s.2 output.2)
    put hash wtx
    let _ ← writeToDisk env wtx
    pure (count, wtx)

/-- The inner loop of `FixSpentCoins`. -/
def fixOutput (txindex : CTxIndex) (fCheckOnly : Bool) (hash : Uint256)
    (s : (Nat × Int) × CWalletTx) (output : CTxOut × Nat) : WalletM ((Nat × Int) × CWalletTx) := do
  let fSpent ← fromExcept (s.2.isSpent output.2)
  if wenv.isMine output.1 && fSpent && !txindex.isSpent output.2 then
    mismatchFound env fCheckOnly hash CWalletTx.markUnspent s output
  else if wenv.isMine output.1 && !fSpent && txindex.isSpent output.2 then
    mismatchFound env fCheckOnly hash CWalletTx.markSpent s output
  else pure s

/-- The outer loop of `FixSpentCoins`. -/
def fixTx (txdb : TxDB) (fCheckOnly : Bool) (count : Nat × Int) (item : Uint256 × CWalletTx) :
    WalletM (Nat × Int) :=
  match txdb.readTxIndex (item.2.tx.getHash env) with
  | none => pure count
  | some txindex => do
    let s ← item.2.tx.vout.zipIdx.foldlM (fixOutput env wenv txindex fCheckOnly item.1)
      (count, item.2)
    pure s.1

/-- `FixSpentCoins`: `nMismatchFound` and `nBalanceInQuestion`. -/
def fixSpentCoins (txdb : TxDB) (fCheckOnly : Bool) : WalletM (Nat × Int) := do
  let wallet ← get
  wallet.mapWallet.toList.foldlM (fixTx env wenv txdb fCheckOnly) (0, 0)

end code

end CWallet

/-! ## Flags -/

namespace CWalletTx

variable {wtx wtx' : CWalletTx} {n m : Nat}

/-- The flag of an output. -/
def flag (wtx : CWalletTx) (n : Nat) : Bool := wtx.vfSpent[n]?.getD false

theorem isSpent_of_lt (hn : n < wtx.tx.vout.length) : wtx.isSpent n = .ok (wtx.flag n) :=
  if_neg (Nat.not_le.mpr hn)

theorem flag_set (b : Bool) (hm : m < wtx.tx.vout.length) :
    (wtx.resizeSpent.set n b)[m]?.getD false = if n = m then b else wtx.flag m := by
  by_cases heq : n = m
  · subst heq
    rw [if_pos rfl, List.getElem?_set_self (by rw [length_resizeSpent]; exact hm)]
    rfl
  · rw [if_neg heq, List.getElem?_set_ne heq, getElem?_resizeSpent hm]
    rfl

/-- `mark` sets the flag of an output to `b`. -/
def Marks (mark : CWalletTx → Nat → Except Thrown CWalletTx) (b : Bool) : Prop :=
  ∀ wtx n, n < wtx.tx.vout.length →
    mark wtx n = .ok { wtx with vfSpent := wtx.resizeSpent.set n b }

theorem markSpent_marks : Marks markSpent true := fun _ _ hn => if_neg (Nat.not_le.mpr hn)

theorem markUnspent_marks : Marks markUnspent false := fun _ _ hn => if_neg (Nat.not_le.mpr hn)

end CWalletTx

namespace CWallet

open CWalletTx

/-- A step that changes the transaction `hash` to `wtx'` and no other. -/
structure Replaces (hash : Uint256) (wtx' : CWalletTx) (wallet wallet' : CWallet) : Prop where
  entry : wallet'.mapWallet[hash]? = some wtx'
  others : ∀ other, hash ≠ other → wallet'.mapWallet[other]? = wallet.mapWallet[other]?

theorem Replaces.trans {hash : Uint256} {wtx₁ wtx₂ : CWalletTx} {wallet wallet₁ wallet₂ : CWallet}
    (h₁ : Replaces hash wtx₁ wallet wallet₁) (h₂ : Replaces hash wtx₂ wallet₁ wallet₂) :
    Replaces hash wtx₂ wallet wallet₂ :=
  ⟨h₂.entry, fun other hne => (h₂.others other hne).trans (h₁.others other hne)⟩

theorem replaces_insert (hash : Uint256) (wtx : CWalletTx) (wallet : CWallet)
    (disk : Map Uint256 CWalletTx) (keys : KeyPool.CWallet) :
    Replaces hash wtx wallet ⟨wallet.mapWallet.insert hash wtx, disk, keys⟩ := by
  refine ⟨?_, fun other hne => Map.getElem?_insert_of_ne _ _ hne⟩
  show (wallet.mapWallet.insert hash wtx)[hash]? = _
  rw [Map.getElem?_insert, if_pos rfl]

/-! ## One output -/

section output

variable (env : Env) (wenv : WalletEnv) (txindex : CTxIndex)

/-- The output is the wallet's, and its flag is not what the index says. -/
def differs (wtx : CWalletTx) (output : CTxOut × Nat) : Bool :=
  wenv.isMine output.1 && wtx.flag output.2 != txindex.isSpent output.2

/-- The counts after the output. -/
def countOutput (wtx : CWalletTx) (count : Nat × Int) (output : CTxOut × Nat) : Nat × Int :=
  if differs wenv txindex wtx output then (count.1 + 1, count.2 + output.1.nValue) else count

variable {env wenv txindex} {hash : Uint256} {count : Nat × Int} {wtx : CWalletTx}
  {output : CTxOut × Nat} {wallet : CWallet}

/-- The two branches are one: a flag that differs is set to what the index says. -/
theorem fixOutput_eq (fCheckOnly : Bool) (hlt : output.2 < wtx.tx.vout.length) :
    ∃ mark, Marks mark (txindex.isSpent output.2) ∧
      fixOutput env wenv txindex fCheckOnly hash (count, wtx) output wallet =
        if differs wenv txindex wtx output then
          mismatchFound env fCheckOnly hash mark (count, wtx) output wallet
        else .ok (count, wtx) wallet := by
  rw [fixOutput, isSpent_of_lt hlt, bind_run]
  dsimp only [fromExcept, pure_run]
  rw [differs]
  cases txindex.isSpent output.2 with
  | true =>
    refine ⟨markSpent, markSpent_marks, ?_⟩
    cases wtx.flag output.2 with
    | true => cases wenv.isMine output.1 <;> rfl
    | false => cases wenv.isMine output.1 <;> rfl
  | false =>
    refine ⟨markUnspent, markUnspent_marks, ?_⟩
    cases wtx.flag output.2 with
    | true => cases wenv.isMine output.1 <;> rfl
    | false => cases wenv.isMine output.1 <;> rfl

theorem fixOutput_same (fCheckOnly : Bool) (hlt : output.2 < wtx.tx.vout.length)
    (hsame : differs wenv txindex wtx output = false) :
    fixOutput env wenv txindex fCheckOnly hash (count, wtx) output wallet =
      .ok (count, wtx) wallet := by
  obtain ⟨mark, -, hrun⟩ := @fixOutput_eq env wenv txindex hash count wtx output wallet
    fCheckOnly hlt
  rw [hrun, hsame]
  rfl

theorem fixOutput_check (hlt : output.2 < wtx.tx.vout.length) :
    fixOutput env wenv txindex true hash (count, wtx) output wallet =
      .ok (countOutput wenv txindex wtx count output, wtx) wallet := by
  obtain ⟨mark, -, hrun⟩ := @fixOutput_eq env wenv txindex hash count wtx output wallet true hlt
  rw [hrun, countOutput]
  split
  · rfl
  · rfl

theorem mismatchFound_repair {mark : CWalletTx → Nat → Except Thrown CWalletTx} {wtx' : CWalletTx}
    (hmark : mark wtx output.2 = .ok wtx') :
    ∃ disk keys, mismatchFound env false hash mark (count, wtx) output wallet =
      .ok ((count.1 + 1, count.2 + output.1.nValue), wtx')
        ⟨wallet.mapWallet.insert hash wtx', disk, keys⟩ := by
  obtain ⟨disk, keys, hwrite, -⟩ := writeToDisk_run env wtx' (wallet.insertTx hash wtx')
  refine ⟨disk, keys, ?_⟩
  rw [mismatchFound]
  dsimp only
  rw [if_neg Bool.false_ne_true, hmark]
  refine bind_eq_ok.mpr ⟨_, _, rfl, bind_eq_ok.mpr ⟨_, _, rfl, ?_⟩⟩
  exact bind_eq_ok.mpr ⟨_, _, hwrite, rfl⟩

theorem fixOutput_repair (hlt : output.2 < wtx.tx.vout.length)
    (hwtx : wallet.mapWallet[hash]? = some wtx) :
    ∃ wtx' wallet', fixOutput env wenv txindex false hash (count, wtx) output wallet =
        .ok (countOutput wenv txindex wtx count output, wtx') wallet' ∧
      Replaces hash wtx' wallet wallet' ∧ wtx'.tx = wtx.tx ∧
      ∀ n, n < wtx.tx.vout.length → wtx'.flag n =
        if output.2 = n ∧ wenv.isMine output.1 = true then txindex.isSpent n else wtx.flag n := by
  obtain ⟨mark, hmark, hrun⟩ := @fixOutput_eq env wenv txindex hash count wtx output wallet
    false hlt
  rw [hrun, countOutput]
  by_cases hdiffers : differs wenv txindex wtx output = true
  · rw [if_pos hdiffers, if_pos hdiffers]
    obtain ⟨hmine, -⟩ := Bool.and_eq_true_iff.mp hdiffers
    obtain ⟨disk, keys, hfound⟩ := @mismatchFound_repair env hash count wtx output wallet mark _
      (hmark wtx output.2 hlt)
    refine ⟨_, _, hfound, replaces_insert hash _ wallet disk keys, rfl, fun n hn => ?_⟩
    refine (flag_set _ hn).trans (if_ctx_congr ?_ (fun heq => ?_) fun _ => rfl)
    · rw [and_iff_left hmine]
    · rw [heq.1]
  · rw [if_neg hdiffers, if_neg hdiffers]
    refine ⟨wtx, wallet, rfl, ⟨hwtx, fun _ _ => rfl⟩, rfl, fun n hn => ?_⟩
    split
    · next hboth =>
      rw [differs, hboth.2, Bool.true_and, bne_iff_ne, not_not, hboth.1] at hdiffers
      exact hdiffers
    · rfl

end output

/-! ## The outputs of a transaction -/

section outputs

variable {env : Env} {wenv : WalletEnv} {txindex : CTxIndex} {hash : Uint256} {wtx : CWalletTx}
  {outputs : List (CTxOut × Nat)} {wallet : CWallet}

theorem foldlM_same {σ α β ε : Type} {step : α → β → EStateM ε σ α} {l : List β} {a : α} {s : σ}
    (h : ∀ y ∈ l, step a y s = .ok a s) : l.foldlM step a s = .ok a s := by
  induction l with
  | nil => rfl
  | cons y l ih =>
    rw [List.forall_mem_cons] at h
    rw [List.foldlM_cons, bind_run, h.1]
    exact ih h.2

theorem fixOutputs_check (hin : ∀ output ∈ outputs, output.2 < wtx.tx.vout.length)
    (count : Nat × Int) :
    outputs.foldlM (fixOutput env wenv txindex true hash) (count, wtx) wallet =
      .ok (outputs.foldl (countOutput wenv txindex wtx) count, wtx) wallet := by
  induction outputs generalizing count with
  | nil => rfl
  | cons output outputs ih =>
    rw [List.forall_mem_cons] at hin
    rw [List.foldlM_cons, bind_run, fixOutput_check hin.1]
    exact ih hin.2 _

theorem fixOutputs_repair (hin : ∀ output ∈ outputs, output.2 < wtx.tx.vout.length)
    (hnodup : (outputs.map Prod.snd).Nodup) (hwtx : wallet.mapWallet[hash]? = some wtx)
    (count : Nat × Int) :
    ∃ wtx' wallet', outputs.foldlM (fixOutput env wenv txindex false hash) (count, wtx) wallet =
        .ok (outputs.foldl (countOutput wenv txindex wtx) count, wtx') wallet' ∧
      Replaces hash wtx' wallet wallet' ∧ wtx'.tx = wtx.tx ∧
      ∀ n, n < wtx.tx.vout.length → wtx'.flag n =
        if ∃ output ∈ outputs, output.2 = n ∧ wenv.isMine output.1 = true then txindex.isSpent n
        else wtx.flag n := by
  induction outputs generalizing wtx wallet count with
  | nil => exact ⟨wtx, wallet, rfl, ⟨hwtx, fun _ _ => rfl⟩, rfl, fun n _ => by simp⟩
  | cons output outputs ih =>
    rw [List.forall_mem_cons] at hin
    rw [List.map_cons, List.nodup_cons] at hnodup
    obtain ⟨wtx₁, wallet₁, hfirst, hreplaces₁, htx₁, hflags₁⟩ :=
      @fixOutput_repair env wenv txindex hash count wtx output wallet hin.1 hwtx
    rw [← htx₁] at hin
    obtain ⟨wtx', wallet', hrest, hreplaces', htx', hflags'⟩ :=
      ih hin.2 hnodup.2 hreplaces₁.entry (countOutput wenv txindex wtx count output)
    have hcount : ∀ count, ∀ other ∈ outputs,
        countOutput wenv txindex wtx₁ count other = countOutput wenv txindex wtx count other := by
      intro count other hother
      have hne : output.2 ≠ other.2 := fun heq =>
        hnodup.1 (heq ▸ List.mem_map_of_mem hother)
      have hflag := hflags₁ other.2 (htx₁ ▸ hin.2 other hother)
      rw [if_neg fun hboth => hne hboth.1] at hflag
      rw [countOutput, countOutput, differs, differs, hflag]
    refine ⟨wtx', wallet', ?_, hreplaces₁.trans hreplaces', htx'.trans htx₁, fun n hn => ?_⟩
    · rw [List.foldlM_cons, bind_run, hfirst, List.foldl_cons,
        ← List.foldl_ext _ _ _ hcount]
      exact hrest
    · rw [hflags' n (htx₁ ▸ hn), hflags₁ n hn]
      by_cases hlater : ∃ other ∈ outputs, other.2 = n ∧ wenv.isMine other.1 = true
      · rw [if_pos hlater, if_pos ((List.exists_mem_cons_iff _ _ _).mpr (.inr hlater))]
      · rw [if_neg hlater]
        refine if_congr ?_ rfl rfl
        rw [List.exists_mem_cons_iff, or_iff_left hlater]

end outputs

/-! ## The transactions of a wallet -/

/-- What the repair makes of a transaction: where it is in the index, the flags of the own outputs
are those of the index. -/
structure Repaired (env : Env) (wenv : WalletEnv) (txdb : TxDB) (wtx wtx' : CWalletTx) : Prop where
  tx : wtx'.tx = wtx.tx
  own : ∀ txindex, txdb.readTxIndex (wtx.tx.getHash env) = some txindex →
    ∀ (n : Nat) txout, wtx.tx.vout[n]? = some txout → wenv.isMine txout = true →
      wtx'.isSpent n = .ok (txindex.isSpent n)
  others : ∀ (n : Nat) txout, wtx.tx.vout[n]? = some txout →
    (txdb.readTxIndex (wtx.tx.getHash env) = none ∨ wenv.isMine txout = false) →
    wtx'.isSpent n = wtx.isSpent n

/-- The wallet has the same transactions, repaired. -/
def AllRepaired (env : Env) (wenv : WalletEnv) (txdb : TxDB) (wallet wallet' : CWallet) : Prop :=
  ∀ hash : Uint256, (wallet.mapWallet[hash]? = none ∧ wallet'.mapWallet[hash]? = none) ∨
    ∃ wtx wtx', wallet.mapWallet[hash]? = some wtx ∧ wallet'.mapWallet[hash]? = some wtx' ∧
      Repaired env wenv txdb wtx wtx'

section txs

variable (env : Env) (wenv : WalletEnv) (txdb : TxDB)

/-- The counts after the transaction. -/
def countTx (count : Nat × Int) (item : Uint256 × CWalletTx) : Nat × Int :=
  match txdb.readTxIndex (item.2.tx.getHash env) with
  | none => count
  | some txindex => item.2.tx.vout.zipIdx.foldl (countOutput wenv txindex item.2) count

variable {env wenv txdb} {wallet : CWallet} {item : Uint256 × CWalletTx}
  {items : List (Uint256 × CWalletTx)}

theorem lt_of_mem_zipIdx {vout : List CTxOut} : ∀ output ∈ vout.zipIdx, output.2 < vout.length :=
  fun _ hmem => (List.getElem?_eq_some_iff.mp (List.mem_zipIdx_iff_getElem?.mp hmem)).1

theorem fixTx_check (count : Nat × Int) :
    fixTx env wenv txdb true count item wallet =
      .ok (countTx env wenv txdb count item) wallet := by
  rw [fixTx, countTx]
  cases txdb.readTxIndex (item.2.tx.getHash env) with
  | none => rfl
  | some txindex =>
    dsimp only
    rw [bind_run, fixOutputs_check lt_of_mem_zipIdx]
    rfl

theorem fixTx_repair (hitem : wallet.mapWallet[item.1]? = some item.2) (count : Nat × Int) :
    ∃ wtx' wallet', fixTx env wenv txdb false count item wallet =
        .ok (countTx env wenv txdb count item) wallet' ∧
      Replaces item.1 wtx' wallet wallet' ∧ Repaired env wenv txdb item.2 wtx' := by
  rw [fixTx, countTx]
  cases hread : txdb.readTxIndex (item.2.tx.getHash env) with
  | none =>
    refine ⟨item.2, wallet, rfl, ⟨hitem, fun _ _ => rfl⟩, rfl, fun txindex hsome => ?_,
      fun _ _ _ _ => rfl⟩
    cases hread.symm.trans hsome
  | some txindex =>
    have hnodup : (item.2.tx.vout.zipIdx.map Prod.snd).Nodup := by
      rw [List.zipIdx_map_snd]
      exact List.nodup_range'
    obtain ⟨wtx', wallet', hrun, hreplaces, htx, hflags⟩ :=
      @fixOutputs_repair env wenv txindex item.1 item.2 _ wallet lt_of_mem_zipIdx hnodup hitem count
    refine ⟨wtx', wallet', ?_, hreplaces, htx, fun txindex' hread' n txout hout hmine => ?_,
      fun n txout hout hor => ?_⟩
    · dsimp only
      rw [bind_run, hrun]
      rfl
    · obtain rfl := Option.some.inj (hread.symm.trans hread')
      have hlt := (List.getElem?_eq_some_iff.mp hout).1
      rw [isSpent_of_lt (htx ▸ hlt), hflags n hlt,
        if_pos ⟨(txout, n), List.mem_zipIdx_iff_getElem?.mpr hout, rfl, hmine⟩]
    · have hlt := (List.getElem?_eq_some_iff.mp hout).1
      rw [isSpent_of_lt (htx ▸ hlt), isSpent_of_lt hlt, hflags n hlt, if_neg]
      rintro ⟨⟨found, n'⟩, hmem, heq, hmine⟩
      obtain rfl : n' = n := heq
      obtain rfl := Option.some.inj ((List.mem_zipIdx_iff_getElem?.mp hmem).symm.trans hout)
      rcases hor with hnone | hother
      · cases hread.symm.trans hnone
      · exact absurd (hmine.symm.trans hother) (by decide)

theorem fixTxs_check (count : Nat × Int) :
    items.foldlM (fixTx env wenv txdb true) count wallet =
      .ok (items.foldl (countTx env wenv txdb) count) wallet := by
  induction items generalizing count with
  | nil => rfl
  | cons item items ih =>
    rw [List.foldlM_cons, bind_run, fixTx_check]
    exact ih _

theorem fixTxs_repair (hdistinct : items.Pairwise fun a b => a.1 ≠ b.1)
    (hitems : ∀ item ∈ items, wallet.mapWallet[item.1]? = some item.2) (count : Nat × Int) :
    ∃ wallet', items.foldlM (fixTx env wenv txdb false) count wallet =
        .ok (items.foldl (countTx env wenv txdb) count) wallet' ∧
      (∀ item ∈ items, ∃ wtx', wallet'.mapWallet[item.1]? = some wtx' ∧
        Repaired env wenv txdb item.2 wtx') ∧
      ∀ hash, (∀ item ∈ items, item.1 ≠ hash) →
        wallet'.mapWallet[hash]? = wallet.mapWallet[hash]? := by
  induction items generalizing wallet count with
  | nil => exact ⟨wallet, rfl, fun _ hmem => absurd hmem List.not_mem_nil, fun _ _ => rfl⟩
  | cons item items ih =>
    rw [List.pairwise_cons] at hdistinct
    rw [List.forall_mem_cons] at hitems
    obtain ⟨wtx', wallet₁, hfirst, hreplaces, hrepaired⟩ :=
      @fixTx_repair env wenv txdb wallet item hitems.1 count
    obtain ⟨wallet', hrest, hall, hothers⟩ := @ih wallet₁ hdistinct.2
      (fun other hother => by
        rw [hreplaces.others other.1 (hdistinct.1 other hother)]
        exact hitems.2 other hother)
      (countTx env wenv txdb count item)
    refine ⟨wallet', ?_, ?_, fun hash hnot => ?_⟩
    · rw [List.foldlM_cons, bind_run, hfirst]
      exact hrest
    · rw [List.forall_mem_cons]
      refine ⟨⟨wtx', ?_, hrepaired⟩, hall⟩
      rw [hothers item.1 fun other hother => (hdistinct.1 other hother).symm]
      exact hreplaces.entry
    · rw [List.forall_mem_cons] at hnot
      rw [hothers hash hnot.2, hreplaces.others hash hnot.1]

end txs

/-! ## `FixSpentCoins` -/

section fix

variable {env : Env} {wenv : WalletEnv} {txdb : TxDB} {wallet wallet' : CWallet}

theorem fixSpentCoins_check (env : Env) (wenv : WalletEnv) (txdb : TxDB) (wallet : CWallet) :
    fixSpentCoins env wenv txdb true wallet =
      .ok (wallet.mapWallet.toList.foldl (countTx env wenv txdb) (0, 0)) wallet :=
  fixTxs_check (0, 0)

/-- The repair finds what the check has counted. -/
theorem fixSpentCoins_repair (env : Env) (wenv : WalletEnv) (txdb : TxDB) (wallet : CWallet) :
    ∃ wallet', fixSpentCoins env wenv txdb false wallet =
        .ok (wallet.mapWallet.toList.foldl (countTx env wenv txdb) (0, 0)) wallet' ∧
      AllRepaired env wenv txdb wallet wallet' := by
  obtain ⟨wallet', hrun, hall, hothers⟩ := @fixTxs_repair env wenv txdb wallet _
    (Map.pairwise_toList wallet.mapWallet) (fun item hitem => (Map.mem_toList _ _ _).mp hitem)
    (0, 0)
  refine ⟨wallet', hrun, fun hash => ?_⟩
  cases hwtx : wallet.mapWallet[hash]? with
  | none =>
    refine .inl ⟨rfl, ?_⟩
    rw [hothers hash fun item hitem heq => ?_, hwtx]
    rw [← heq, (Map.mem_toList _ _ _).mp hitem] at hwtx
    cases hwtx
  | some wtx =>
    obtain ⟨wtx', hwtx', hrepaired⟩ := hall (hash, wtx) ((Map.mem_toList _ _ _).mpr hwtx)
    exact .inr ⟨wtx, wtx', rfl, hwtx', hrepaired⟩

/-- No own output differs from the index. -/
def Agrees (env : Env) (wenv : WalletEnv) (txdb : TxDB) (wallet : CWallet) : Prop :=
  ∀ (hash : Uint256) wtx, wallet.mapWallet[hash]? = some wtx →
    ∀ txindex, txdb.readTxIndex (wtx.tx.getHash env) = some txindex →
    ∀ (n : Nat) txout, wtx.tx.vout[n]? = some txout → wenv.isMine txout = true →
      wtx.isSpent n = .ok (txindex.isSpent n)

theorem fixSpentCoins_same (h : Agrees env wenv txdb wallet) (fCheckOnly : Bool) :
    fixSpentCoins env wenv txdb fCheckOnly wallet = .ok (0, 0) wallet := by
  refine foldlM_same fun item hitem => ?_
  have hwtx := (Map.mem_toList _ _ _).mp hitem
  rw [fixTx]
  cases hread : txdb.readTxIndex (item.2.tx.getHash env) with
  | none => rfl
  | some txindex =>
    dsimp only
    rw [bind_run, foldlM_same fun output hmem => fixOutput_same fCheckOnly
      (lt_of_mem_zipIdx output hmem) ?_]
    · rfl
    · have hlt := lt_of_mem_zipIdx output hmem
      rw [differs]
      cases hmine : wenv.isMine output.1 with
      | false => rfl
      | true =>
        have hspent := h item.1 item.2 hwtx txindex hread output.2 output.1
          (List.mem_zipIdx_iff_getElem?.mp hmem) hmine
        rw [isSpent_of_lt hlt] at hspent
        rw [Except.ok.inj hspent, Bool.true_and, bne_self_eq_false]

theorem AllRepaired.agrees (h : AllRepaired env wenv txdb wallet wallet') :
    Agrees env wenv txdb wallet' := by
  intro hash wtx' hwtx' txindex hread n txout hout hmine
  rcases h hash with ⟨-, hnone⟩ | ⟨wtx, found, -, hfound, hrepaired⟩
  · cases hnone.symm.trans hwtx'
  · obtain rfl := Option.some.inj (hfound.symm.trans hwtx')
    rw [hrepaired.tx] at hread hout
    exact hrepaired.own txindex hread n txout hout hmine

end fix

end CWallet

end NoLimitCoin
