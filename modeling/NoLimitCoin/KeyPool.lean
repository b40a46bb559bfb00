import NoLimitCoin.Lib.Map
import NoLimitCoin.Lib.Prog

/-!
# The key pool of the wallet

The key pool (`wallet.cpp`) is a set of indices; under every index `wallet.dat` has a record with
a public key.  `CReserveKey` objects take an index out of the set, and later keep it, which
erases the record, or return it.

Results:

1. `Inv.safe`, `Inv.of_starts`: the invariant implies safety and holds of a wallet that has just
   been opened.
2. `Inv.put`, `Inv.put_new`: it stays true when a record is written under an index that is not
   reserved.
-/

namespace NoLimitCoin

namespace KeyPool

open Prog

/-! ## The wallet -/

/-- How a function of the wallet ends early: with an exception, or by undefined behaviour. -/
inductive Thrown where
  | runtimeError (what : String)
  | undefined (what : String)
deriving Repr, DecidableEq

/-- A public key; zero is the key that is not valid. -/
abbrev CPubKey := Nat

/-- `CReserveKey`. -/
structure CReserveKey where
  nIndex : Int
  vchPubKey : CPubKey
deriving Repr, DecidableEq

/-- A `CReserveKey` that holds nothing. -/
def CReserveKey.free : CReserveKey := ⟨-1, 0⟩

/-- The part of `CWallet` that the key pool uses, with the `CReserveKey` objects that are there.
`io` tells of every write to `wallet.dat` still to come whether it works.  `kept` is a ghost:
the keys that have been handed out and kept. -/
structure CWallet where
  fLocked : Bool
  /-- How many keys have been generated; the keys are numbered from one on. -/
  nKeys : Nat
  vchDefaultKey : CPubKey
  setKeyPool : Finset Int
  pool : Map Int CPubKey
  reserved : Nat → CReserveKey
  io : Nat → Bool
  kept : Finset CPubKey

abbrev WalletM := EStateM Thrown CWallet

/-- `HaveKey`. -/
def CWallet.haveKey (w : CWallet) (key : CPubKey) : Bool := decide (1 ≤ key) && decide (key ≤ w.nKeys)

/-- The index after the last one of the set. -/
def nextIndex (setKeyPool : Finset Int) : Int :=
  if h : setKeyPool.Nonempty then setKeyPool.max' h + 1 else 1

def getWallet : WalletM CWallet := fun w => .ok w w

def modifyWallet (f : CWallet → CWallet) : WalletM Unit := fun w => .ok () (f w)

/-- `GenerateNewKey`: a key that has not been there before. -/
def generateNewKey : WalletM CPubKey := fun w => .ok (w.nKeys + 1) { w with nKeys := w.nKeys + 1 }

/-- `CWalletDB::WritePool`. -/
def writePool (nPool : Int) (keypool : CPubKey) : WalletM Bool := fun w =>
  .ok (w.io 0) { w with
    io := fun n => w.io (n + 1)
    pool := if w.io 0 then w.pool.insert nPool keypool else w.pool }

/-- `CWalletDB::ErasePool`. -/
def erasePool (nPool : Int) : WalletM Bool := fun w =>
  .ok (w.io 0) { w with
    io := fun n => w.io (n + 1)
    pool := if w.io 0 then w.pool.erase nPool else w.pool }

def insertIndex (nIndex : Int) : WalletM Unit :=
  modifyWallet fun w => { w with setKeyPool := insert nIndex w.setKeyPool }

/-! ## Filling the pool -/

/-- One round of the loop of `NewKeyPool`, which does not look at the status of the write. -/
def newPoolKey (nIndex : Int) : WalletM Unit := do
  let key ← generateNewKey
  let _ ← writePool nIndex key
  insertIndex nIndex

/-- `NewKeyPool`; `nKeys` is the `-keypool` argument. -/
def newKeyPool (nKeys : Nat) : WalletM Bool := do
  let w ← getWallet
  (w.setKeyPool.sort (· ≤ ·)).forM fun nIndex => do
    let _ ← erasePool nIndex
  modifyWallet fun w => { w with setKeyPool := ∅ }
  if w.fLocked then pure false
  else do
    (List.range nKeys).forM fun (i : Nat) => newPoolKey (i + 1)
    pure true

/-- One round of the loop of `TopUpKeyPool`. -/
def topUpKey : WalletM Unit := do
  let w ← getWallet
  let nEnd := nextIndex w.setKeyPool
  let key ← generateNewKey
  let written ← writePool nEnd key
  if written then insertIndex nEnd
  else throw (.runtimeError "TopUpKeyPool() : writing generated key failed")

/-- The loop of `TopUpKeyPool`.  Every round adds an index, so `fuel` is the target size. -/
def topUpLoop (nTargetSize : Nat) : (fuel : Nat) → WalletM Unit
  | 0 => pure ()
  | fuel + 1 => do
    let w ← getWallet
    if w.setKeyPool.card < nTargetSize + 1 then do
      topUpKey
      topUpLoop nTargetSize fuel
    else pure ()

/-- The size `TopUpKeyPool` fills the pool to, from its argument and `-keypool`. -/
def targetSize (nKeypool nSize : Nat) : Nat := if 0 < nSize then nSize else nKeypool

/-- `TopUpKeyPool`. -/
def topUpKeyPool (nKeypool nSize : Nat) : WalletM Bool := do
  let w ← getWallet
  if w.fLocked then pure false
  else do
    topUpLoop (targetSize nKeypool nSize) (targetSize nKeypool nSize + 1)
    pure true

/-! ## Taking keys out -/

/-- Where `ReserveKeyFromKeyPool` puts the index: into the `CReserveKey` it is called for, or
into a variable of the caller. -/
def setIndex (holder : Option Nat) (nIndex : Int) : WalletM Unit :=
  match holder with
  | none => pure ()
  | some h => modifyWallet fun w =>
    { w with reserved := Function.update w.reserved h { w.reserved h with nIndex := nIndex } }

/-- The part of `ReserveKeyFromKeyPool` that takes the oldest key. -/
def takeOldest (holder : Option Nat) : WalletM (Int × CPubKey) := do
  let w ← getWallet
  if h : w.setKeyPool.Nonempty then do
    let nIndex := w.setKeyPool.min' h
    setIndex holder nIndex
    modifyWallet fun w => { w with setKeyPool := w.setKeyPool.erase nIndex }
    match w.pool[nIndex]? with
    | none => throw (.runtimeError "ReserveKeyFromKeyPool() : read failed")
    | some key =>
      if w.haveKey key then pure (nIndex, key)
      else throw (.runtimeError "ReserveKeyFromKeyPool() : unknown key in key pool")
  else pure (-1, 0)

/-- `ReserveKeyFromKeyPool`: the index and the key, or -1 when the pool is empty. -/
def reserveKeyFromKeyPool (nKeypool : Nat) (holder : Option Nat) : WalletM (Int × CPubKey) := do
  setIndex holder (-1)
  let w ← getWallet
  (if w.fLocked then pure () else do
    let _ ← topUpKeyPool nKeypool 0)
  takeOldest holder

/-- `AddReserveKey`, which takes the last index of the set without asking whether there is
one. -/
def addReserveKey (keypool : CPubKey) : WalletM Int := do
  let w ← getWallet
  if w.setKeyPool.Nonempty then do
    let nIndex := nextIndex w.setKeyPool
    let written ← writePool nIndex keypool
    if written then do
      insertIndex nIndex
      pure nIndex
    else throw (.runtimeError "AddReserveKey() : writing added key failed")
  else throw (.undefined "*(--setKeyPool.end())")

/-- `CWallet::KeepKey`. -/
def walletKeepKey (nIndex : Int) : WalletM Unit := do
  let _ ← erasePool nIndex

/-- `CWallet::ReturnKey`. -/
def walletReturnKey (nIndex : Int) : WalletM Unit := insertIndex nIndex

/-- The ghost of a key that is handed out for good. -/
def noteKept (key : CPubKey) : WalletM Unit :=
  modifyWallet fun w => { w with kept := insert key w.kept }

/-- `GetKeyFromPool`: `none` is the result `false`. -/
def getKeyFromPool (nKeypool : Nat) (fAllowReuse : Bool) : WalletM (Option CPubKey) := do
  let (nIndex, key) ← reserveKeyFromKeyPool nKeypool none
  let w ← getWallet
  if nIndex = -1 then
    if fAllowReuse && w.vchDefaultKey != 0 then do
      noteKept w.vchDefaultKey
      pure (some w.vchDefaultKey)
    else if w.fLocked then pure none
    else do
      let key ← generateNewKey
      noteKept key
      pure (some key)
  else do
    walletKeepKey nIndex
    noteKept key
    pure (some key)

/-! ## Holders -/

def setPubKey (h : Nat) (key : CPubKey) : WalletM Unit :=
  modifyWallet fun w =>
    { w with reserved := Function.update w.reserved h { w.reserved h with vchPubKey := key } }

def release (h : Nat) : WalletM Unit :=
  modifyWallet fun w => { w with reserved := Function.update w.reserved h .free }

/-- `CReserveKey::GetReservedKey` of holder `h`: `none` is the result `false`. -/
def getReservedKey (nKeypool h : Nat) : WalletM (Option CPubKey) := do
  let w ← getWallet
  if (w.reserved h).nIndex = -1 then do
    let (nIndex, key) ← reserveKeyFromKeyPool nKeypool (some h)
    let w ← getWallet
    if nIndex ≠ -1 then do
      setPubKey h key
      pure (some key)
    else if w.vchDefaultKey ≠ 0 then do
      setPubKey h w.vchDefaultKey
      pure (some w.vchDefaultKey)
    else pure none
  else pure (some (w.reserved h).vchPubKey)

/-- `CReserveKey::KeepKey` of holder `h`. -/
def keepKey (h : Nat) : WalletM Unit := do
  let w ← getWallet
  (if (w.reserved h).nIndex ≠ -1 then walletKeepKey (w.reserved h).nIndex else pure ())
  (if (w.reserved h).vchPubKey ≠ 0 then noteKept (w.reserved h).vchPubKey else pure ())
  release h

/-- `CReserveKey::ReturnKey` of holder `h`, which its destructor calls too. -/
def returnKey (h : Nat) : WalletM Unit := do
  let w ← getWallet
  (if (w.reserved h).nIndex ≠ -1 then walletReturnKey (w.reserved h).nIndex else pure ())
  release h

/-! ## Runs -/

/-- What is called on the wallet and on the holders. -/
inductive Call where
  | getReservedKey (h : Nat)
  | keepKey (h : Nat)
  | returnKey (h : Nat)
  | getKeyFromPool (fAllowReuse : Bool)
  | topUpKeyPool (nSize : Nat)
  | newKeyPool
  | addReserveKey (keypool : CPubKey)
  | lock
  | unlock
deriving Repr, DecidableEq

/-- Serve one call; a key that is handed out is the result. -/
def Call.exec (nKeypool : Nat) : Call → WalletM (Option CPubKey)
  | getReservedKey h => KeyPool.getReservedKey nKeypool h
  | keepKey h => do KeyPool.keepKey h; pure none
  | returnKey h => do KeyPool.returnKey h; pure none
  | getKeyFromPool fAllowReuse => KeyPool.getKeyFromPool nKeypool fAllowReuse
  | topUpKeyPool nSize => do let _ ← KeyPool.topUpKeyPool nKeypool nSize; pure none
  | newKeyPool => do let _ ← KeyPool.newKeyPool nKeypool; pure none
  | addReserveKey keypool => do let _ ← KeyPool.addReserveKey keypool; pure none
  | lock => do modifyWallet fun w => { w with fLocked := true }; pure none
  | unlock => do modifyWallet fun w => { w with fLocked := false }; pure none

/-- A wallet that has just been opened: the records of its pool have keys of their own. -/
structure Starts (w : CWallet) : Prop where
  reserved : ∀ h, w.reserved h = .free
  recorded : ∀ i ∈ w.setKeyPool, 1 ≤ i ∧ ∃ key, w.pool[i]? = some key ∧ w.haveKey key = true ∧
    key ∉ w.kept ∧ key ≠ w.vchDefaultKey
  distinct : ∀ i ∈ w.setKeyPool, ∀ j ∈ w.setKeyPool, w.pool[i]? = w.pool[j]? → i = j
  kept : ∀ key ∈ w.kept, key ≤ w.nKeys
  default : w.vchDefaultKey ≤ w.nKeys

/-- The wallets after any interleaving of calls that all meet `ok`, each with its own answers of
the disk; a call may end with an exception. -/
inductive Runs (nKeypool : Nat) (ok : CWallet → Call → Prop) : CWallet → Prop where
  | start {w : CWallet} (h : Starts w) : Runs nKeypool ok w
  | call {w : CWallet} {io : Nat → Bool} {c : Call} (h : Runs nKeypool ok w)
      (hok : ok { w with io := io } c) :
      Runs nKeypool ok (endState (c.exec nKeypool { w with io := io }))

/-! ## Safety -/

namespace CWallet

/-- An index that is in the set or reserved: its record is still needed. -/
def Live (w : CWallet) (i : Int) : Prop :=
  i ∈ w.setKeyPool ∨ ∃ h, (w.reserved h).nIndex = i ∧ i ≠ -1

/-- No holder has reserved the index. -/
def Unreserved (w : CWallet) (i : Int) : Prop := ∀ h, (w.reserved h).nIndex ≠ i

/-- What the users of the pool rely on. -/
structure Safe (w : CWallet) : Prop where
  recorded : ∀ i ∈ w.setKeyPool, ∃ key, w.pool[i]? = some key ∧ w.haveKey key = true ∧ key ∉ w.kept
  unreserved : ∀ i ∈ w.setKeyPool, w.Unreserved i
  exclusive : ∀ h h', (w.reserved h).nIndex ≠ -1 → (w.reserved h).nIndex = (w.reserved h').nIndex →
    h = h'
  own : ∀ h, (w.reserved h).nIndex ≠ -1 →
    w.pool[(w.reserved h).nIndex]? = some (w.reserved h).vchPubKey

/-- The invariant behind it. -/
structure Inv (w : CWallet) : Prop where
  recorded : ∀ i, w.Live i → ∃ key, w.pool[i]? = some key ∧ w.haveKey key = true ∧
    key ∉ w.kept ∧ key ≠ w.vchDefaultKey
  distinct : ∀ i j, w.Live i → w.Live j → w.pool[i]? = w.pool[j]? → i = j
  positive : ∀ i ∈ w.setKeyPool, 1 ≤ i
  unreserved : ∀ i ∈ w.setKeyPool, w.Unreserved i
  exclusive : ∀ h h', (w.reserved h).nIndex ≠ -1 → (w.reserved h).nIndex = (w.reserved h').nIndex →
    h = h'
  own : ∀ h, (w.reserved h).nIndex ≠ -1 → 1 ≤ (w.reserved h).nIndex ∧
    w.pool[(w.reserved h).nIndex]? = some (w.reserved h).vchPubKey
  unused : ∀ h, (w.reserved h).nIndex = -1 →
    (w.reserved h).vchPubKey = 0 ∨ (w.reserved h).vchPubKey = w.vchDefaultKey
  kept : ∀ key ∈ w.kept, key ≤ w.nKeys
  default : w.vchDefaultKey ≤ w.nKeys

theorem Inv.safe {w : CWallet} (h : w.Inv) : w.Safe where
  recorded i hi := by
    obtain ⟨key, hkey, hhave, hkept, -⟩ := h.recorded i (.inl hi)
    exact ⟨key, hkey, hhave, hkept⟩
  unreserved := h.unreserved
  exclusive := h.exclusive
  own holder hne := (h.own holder hne).2

theorem Inv.of_starts {w : CWallet} (h : Starts w) : w.Inv := by
  have hfree : ∀ holder, (w.reserved holder).nIndex = -1 := fun holder => by
    rw [h.reserved]; rfl
  have hlive : ∀ {i}, w.Live i → i ∈ w.setKeyPool := by
    rintro i (hi | ⟨holder, hi, hne⟩)
    · exact hi
    · exact absurd (hi.symm.trans (hfree holder)) hne
  refine ⟨fun i hi => (h.recorded i (hlive hi)).2,
    fun i j hi hj => h.distinct i (hlive hi) j (hlive hj), fun i hi => (h.recorded i hi).1,
    fun i hi holder heq => ?_, fun holder _ hne => absurd (hfree holder) hne,
    fun holder hne => absurd (hfree holder) hne, fun holder _ => .inl ?_, h.kept, h.default⟩
  · have hone := (h.recorded i hi).1
    rw [hfree holder] at heq
    omega
  · rw [h.reserved]
    rfl

/-- What filling the pool leaves alone. -/
structure Frame (w w' : CWallet) : Prop where
  reserved : w'.reserved = w.reserved
  kept : w'.kept = w.kept
  vchDefaultKey : w'.vchDefaultKey = w.vchDefaultKey
  fLocked : w'.fLocked = w.fLocked

theorem Frame.refl (w : CWallet) : Frame w w := ⟨rfl, rfl, rfl, rfl⟩

theorem Frame.trans {w w' w'' : CWallet} (h : Frame w w') (h' : Frame w' w'') : Frame w w'' :=
  ⟨h'.reserved.trans h.reserved, h'.kept.trans h.kept, h'.vchDefaultKey.trans h.vchDefaultKey,
    h'.fLocked.trans h.fLocked⟩

/-- Only the answers of the disk, and how many keys there are, have changed. -/
theorem Inv.of_more {w w' : CWallet} (h : w.Inv) (hframe : Frame w w') (hset : w'.setKeyPool = w.setKeyPool)
    (hpool : ∀ i, w.Live i → w'.pool[i]? = w.pool[i]?) (hkeys : w.nKeys ≤ w'.nKeys) : w'.Inv := by
  have hlive : ∀ i, w'.Live i ↔ w.Live i := fun i => by
    rw [Live, Live, hset, hframe.reserved]
  refine ⟨fun i hi => ?_, fun i j hi hj heq => ?_, ?_, ?_, ?_, fun holder hne => ?_, ?_, ?_, ?_⟩
  · have hi := (hlive i).mp hi
    obtain ⟨key, hkey, hhave, hkept, hdefault⟩ := h.recorded i hi
    refine ⟨key, (hpool i hi).trans hkey, ?_, hframe.kept ▸ hkept, hframe.vchDefaultKey ▸ hdefault⟩
    simp only [haveKey, Bool.and_eq_true, decide_eq_true_eq] at hhave ⊢
    exact ⟨hhave.1, hhave.2.trans hkeys⟩
  · have hi := (hlive i).mp hi
    have hj := (hlive j).mp hj
    exact h.distinct i j hi hj (by rw [← hpool i hi, ← hpool j hj, heq])
  · rw [hset]; exact h.positive
  · rw [hset]
    intro i hi holder
    rw [hframe.reserved]
    exact h.unreserved i hi holder
  · rw [hframe.reserved]
    exact h.exclusive
  · rw [hframe.reserved] at hne ⊢
    obtain ⟨hone, hown⟩ := h.own holder hne
    exact ⟨hone, (hpool _ (.inr ⟨holder, rfl, hne⟩)).trans hown⟩
  · rw [hframe.reserved, hframe.vchDefaultKey]
    exact h.unused
  · rw [hframe.kept]
    exact fun key hkey => (h.kept key hkey).trans hkeys
  · rw [hframe.vchDefaultKey]
    exact h.default.trans hkeys

/-- A key that no record has, that is owned and has not been handed out, put under an index
that is not reserved. -/
theorem Inv.put {w : CWallet} (h : w.Inv) {i : Int} {key : CPubKey} (hi : 1 ≤ i)
    (hfree : w.Unreserved i) (hhave : w.haveKey key = true) (hkept : key ∉ w.kept)
    (hdefault : key ≠ w.vchDefaultKey) (hnew : ∀ j, w.Live j → w.pool[j]? ≠ some key) :
    Inv { w with pool := w.pool.insert i key, setKeyPool := insert i w.setKeyPool } := by
  have hlive : ∀ j, Live { w with
      pool := w.pool.insert i key, setKeyPool := insert i w.setKeyPool } j → i ≠ j → w.Live j := by
    rintro j (hj | hj) hne
    · rcases Finset.mem_insert.mp hj with rfl | hj
      · exact absurd rfl hne
      · exact .inl hj
    · exact .inr hj
  refine ⟨fun j hj => ?_, fun j k hj hk heq => ?_, ?_, ?_, h.exclusive, fun holder hne => ?_,
    h.unused, h.kept, h.default⟩
  · by_cases heq : i = j
    · exact ⟨key, by simp [heq], hhave, hkept, hdefault⟩
    · rw [Map.getElem?_insert_of_ne _ _ heq]
      exact h.recorded j (hlive j hj heq)
  · simp only [Map.getElem?_insert] at heq
    by_cases hij : i = j <;> by_cases hik : i = k
    · exact hij.symm.trans hik
    · rw [if_pos hij, if_neg hik] at heq
      exact absurd heq.symm (hnew k (hlive k hk hik))
    · rw [if_neg hij, if_pos hik] at heq
      exact absurd heq (hnew j (hlive j hj hij))
    · rw [if_neg hij, if_neg hik] at heq
      exact h.distinct j k (hlive j hj hij) (hlive k hk hik) heq
  · intro j hj
    rcases Finset.mem_insert.mp hj with rfl | hj
    · exact hi
    · exact h.positive j hj
  · intro j hj
    rcases Finset.mem_insert.mp hj with rfl | hj
    · exact hfree
    · exact h.unreserved j hj
  · obtain ⟨hone, hown⟩ := h.own holder hne
    exact ⟨hone, (Map.getElem?_insert_of_ne _ _ (hfree holder).symm).trans hown⟩

/-- A key that has just been generated. -/
theorem Inv.put_new {w : CWallet} (h : w.Inv) {i : Int} (hi : 1 ≤ i) (hfree : w.Unreserved i) :
    Inv { w with
      nKeys := w.nKeys + 1
      pool := w.pool.insert i (w.nKeys + 1)
      setKeyPool := insert i w.setKeyPool } := by
  have hmore : Inv { w with nKeys := w.nKeys + 1 } :=
    h.of_more ⟨rfl, rfl, rfl, rfl⟩ rfl (fun _ _ => rfl) (Nat.le_succ _)
  refine hmore.put hi hfree ?_ ?_ ?_ ?_
  · simp [haveKey]
  · exact fun hmem => absurd (h.kept _ hmem) (Nat.not_succ_le_self _)
  · exact fun heq => absurd (heq ▸ h.default) (Nat.not_succ_le_self _)
  · intro j hj heq
    obtain ⟨key, hkey, hhave, -⟩ := h.recorded j hj
    rw [hkey] at heq
    simp only [haveKey, Bool.and_eq_true, decide_eq_true_eq] at hhave
    rw [Option.some.inj heq] at hhave
    exact Nat.not_succ_le_self _ hhave.2

end CWallet

end KeyPool

end NoLimitCoin
