import NoLimitCoin.Passphrase
import NoLimitCoin.WalletRecords

/-!
# Loading a wallet

`LoadWallet` of `walletdb.cpp` goes over the records of `wallet.dat` and is tolerant of single
records that cannot be read.  `ReadKeyValue` puts what it reads into the wallet piece by piece, and
an exception that it catches leaves what is there by then.

Results:
1. `readKeyValue_step`: what one record does to keys and transactions.
2. `scanRecords_mapWallet`: the last record for a hash decides about its entry.
3. `scanRecords_keys`, `scanRecords_failed`: no record of a key type fails unnoticed.
4. `loadWallet_safe_iff`: the loading is safe exactly when no transaction is cut off in the last
   record for its hash; `cutOff_leftBehind`: such a transaction stays in the wallet.
-/

namespace NoLimitCoin

namespace LoadWallet

open Serializer KeyStore

/-! ## The wallet -/

/-- An entry of `mapWallet`. -/
inductive LoadedTx where
  /-- The default object, or one that has not been read to its end; it is bound to no wallet. -/
  | unbound
  /-- A transaction that is bound to the wallet. -/
  | bound (wtx : CWalletTxRecord)

structure Wallet where
  store : CCryptoKeyStore
  mapMasterKeys : Map Nat CMasterKey
  nMasterKeyMaxID : Nat
  mapWallet : Map Uint256 LoadedTx

/-- `CWallet` as it is constructed. -/
def Wallet.new : Wallet := ⟨.empty, ∅, 0, ∅⟩

/-- The part of `CWalletScanState` that is not about birth times. -/
structure ScanState where
  wallet : Wallet
  fIsEncrypted : Bool
  fAnyUnordered : Bool
  nFileVersion : Int
  vWalletUpgrade : List Uint256

def ScanState.start : ScanState := ⟨.new, false, false, 0, []⟩

namespace ScanState

variable (s : ScanState)

def setTx (hash : Uint256) (entry : LoadedTx) : ScanState :=
  { s with wallet := { s.wallet with mapWallet := s.wallet.mapWallet.insert hash entry } }

def eraseTx (hash : Uint256) : ScanState :=
  { s with wallet := { s.wallet with mapWallet := s.wallet.mapWallet.erase hash } }

def setStore (store : CCryptoKeyStore) : ScanState :=
  { s with wallet := { s.wallet with store := store } }

end ScanState

/-- What the loading of a wallet uses. -/
structure LoadEnv where
  node : Env
  crypto : Crypto
  /-- `d2i_ECPrivateKey` into a key object, if the result passes `EC_KEY_check_key`. -/
  d2iECPrivateKey : ECKey crypto → List UInt8 → Option (ECKey crypto)
  /-- `EC_KEY_check_key`. -/
  checkKey : ECKey crypto → Bool
  sizes : CWalletTxRecord.WalletSizes

variable (env : LoadEnv)

/-! ## Reading -/

/-- `ss >> value`. -/
def get {α : Type} (S : Serializer α) (ss : CDataStream) : Except Failure (α × CDataStream) :=
  (S.unserialize CDataStream.read).run ss

/-- The name of a record type. -/
def typeName (name : String) : List UInt8 := name.toUTF8.toList

def ofBytes (bytes : List UInt8) : CDataStream := ⟨bytes, 0⟩

/-- `CWalletKey`: the private key, the times and the comment. -/
def walletKeySerializer : Serializer (List UInt8 × Int × Int × List UInt8) :=
  record (pair int32Type.serializer (pair bytesSerializer (pair int64Type.serializer
      (pair int64Type.serializer (string .byte)))))
    (fun wkey => (0, wkey)) Prod.snd

/-- `CMasterKey`; the other parameters are read and not used. -/
def masterKeySerializer : Serializer CMasterKey :=
  record (pair bytesSerializer (pair bytesSerializer (pair uint32Type.serializer
      (pair uint32Type.serializer bytesSerializer))))
    (fun key => (key.vchCryptedKey, key.vchSalt, key.nDerivationMethod, key.nDeriveIterations, []))
    fun members => ⟨members.1, members.2.1, members.2.2.1, members.2.2.2.1⟩

/-- `CKey::SetPrivKey`. -/
def setPrivKey (key : CKey env.crypto) (vchPrivKey : List UInt8) : Option (CKey env.crypto) :=
  (env.d2iECPrivateKey key.pkey vchPrivKey).map fun pkey => { key with pkey := pkey, fSet := true }

/-- `CKey::IsValid`. -/
def isValid (key : CKey env.crypto) : Except Exit Bool :=
  if !key.fSet then .ok false
  else if !env.checkKey key.pkey then .ok false
  else do
    let (secret, fCompr) ← key.getSecret
    let key2 : CKey env.crypto := CKey.new.setSecret secret fCompr
    let pubKey ← key.getPubKey
    let pubKey2 ← key2.getPubKey
    return pubKey == pubKey2

/-- The key of a record: `none` where an error is found or an exception is thrown. -/
def keyOf (vchPubKey : CPubKey) (vchPrivKey : List UInt8) : Option (CKey env.crypto) :=
  match setPrivKey env (CKey.new.setPubKey vchPubKey) vchPrivKey with
  | none => none
  | some key =>
    match key.getPubKey with
    | .error _ => none
    | .ok pubKey =>
      if pubKey ≠ vchPubKey then none
      else
        match isValid env key with
        | .ok true => some key
        | _ => none

/-- `LoadKey`. -/
def loadKey (s : ScanState) (vchPubKey : CPubKey) (vchPrivKey : List UInt8) : ScanState × Bool :=
  match keyOf env vchPubKey vchPrivKey with
  | none => (s, false)
  | some key =>
    match s.wallet.store.addKey key with
    | .error _ => (s, false)
    | .ok (store, fAdded) => (s.setStore store, fAdded)

/-- `str.resize(nSize)`. -/
def resized (str : List UInt8) (nSize : Nat) : List UInt8 :=
  str.take nSize ++ List.replicate (nSize - str.length) 0

/-- The undoing of serialize changes in 31600, which may throw: the transaction, and whether it
throws. -/
def upgradeTx (wtx : CWalletTxRecord) (ssValue : CDataStream) : CWalletTxRecord × Bool :=
  if ssValue.rest.isEmpty then ({ wtx with fTimeReceivedIsTxTime := 0 }, true)
  else
    match get (pair Flat.byte.serializer Flat.byte.serializer) ssValue with
    | .error _ => (wtx, false)
    | .ok ((fTmp, _), ssValue) =>
      match (readCompactSize CDataStream.read).run ssValue with
      | .error _ => (wtx, false)
      | .ok (nSize, ssValue) =>
        match CDataStream.read nSize ssValue with
        | .error _ => ({ wtx with strFromAccount := resized wtx.strFromAccount nSize }, false)
        | .ok (str, _) =>
          ({ wtx with
            strFromAccount := str
            fTimeReceivedIsTxTime := (Int.bmod fTmp.toNat 256 % 2 ^ 32).toNat }, true)

/-- The transaction is of an age whose serialization has to be undone. -/
def needsUpgrade (wtx : CWalletTxRecord) : Bool :=
  decide (31404 ≤ wtx.fTimeReceivedIsTxTime ∧ wtx.fTimeReceivedIsTxTime ≤ 31703)

/-- The transaction is whole, and that of the hash. -/
def accepted (hash : Uint256) (wtx : CWalletTxRecord) : Bool :=
  wtx.tx.checkTransaction.isOk && wtx.tx.getHash env.node == hash

/-- The branch of `ReadKeyValue` for transactions. -/
def readTx (s : ScanState) (ssKey ssValue : CDataStream) : ScanState × Bool :=
  match get uint256Type.serializer ssKey with
  | .error _ => (s, false)
  | .ok (hash, _) =>
    match get (CWalletTxRecord.serializer env.sizes) ssValue with
    -- `mapWallet[hash]` is there before its value is read
    | .error _ => (s.setTx hash .unbound, false)
    | .ok (wtx, ssValue) =>
      if !accepted env hash wtx then (s.eraseTx hash, false)
      else if needsUpgrade wtx then
        match upgradeTx wtx ssValue with
        | (wtx, false) => (s.setTx hash (.bound wtx), false)
        | (wtx, true) =>
          ({ s.setTx hash (.bound wtx) with
            vWalletUpgrade := s.vWalletUpgrade ++ [hash]
            fAnyUnordered := s.fAnyUnordered || wtx.nOrderPos == -1 }, true)
      else
        ({ s.setTx hash (.bound wtx) with
          fAnyUnordered := s.fAnyUnordered || wtx.nOrderPos == -1 }, true)

/-- The branch for keys that are not encrypted. -/
def readKey (s : ScanState) (fWalletKey : Bool) (ssKey ssValue : CDataStream) : ScanState × Bool :=
  match get bytesSerializer ssKey with
  | .error _ => (s, false)
  | .ok (vchPubKey, _) =>
    if fWalletKey then
      match get walletKeySerializer ssValue with
      | .error _ => (s, false)
      | .ok (wkey, _) => loadKey env s vchPubKey wkey.1
    else
      match get bytesSerializer ssValue with
      | .error _ => (s, false)
      | .ok (pkey, _) => loadKey env s vchPubKey pkey

/-- The branch for master keys. -/
def readMasterKey (s : ScanState) (ssKey ssValue : CDataStream) : ScanState × Bool :=
  match get uint32Type.serializer ssKey with
  | .error _ => (s, false)
  | .ok (nID, _) =>
    match get masterKeySerializer ssValue with
    | .error _ => (s, false)
    | .ok (kMasterKey, _) =>
      if s.wallet.mapMasterKeys.contains nID then (s, false)
      else
        ({ s with
          wallet := { s.wallet with
            mapMasterKeys := s.wallet.mapMasterKeys.insert nID kMasterKey
            nMasterKeyMaxID := max s.wallet.nMasterKeyMaxID nID } }, true)

/-- The branch for encrypted keys. -/
def readCryptedKey (s : ScanState) (ssKey ssValue : CDataStream) : ScanState × Bool :=
  match get bytesSerializer ssKey with
  | .error _ => (s, false)
  | .ok (vchPubKey, _) =>
    match get bytesSerializer ssValue with
    | .error _ => (s, false)
    | .ok (vchPrivKey, _) =>
      match s.wallet.store.addCryptedKey env.crypto vchPubKey vchPrivKey with
      | (store, false) => (s.setStore store, false)
      | (store, true) => ({ s.setStore store with fIsEncrypted := true }, true)

/-- The branch for accounting entries, which are only read until something has no position. -/
def readAcentry (s : ScanState) (ssKey ssValue : CDataStream) : ScanState × Bool :=
  match get (pair (string .byte) uint64Type.serializer) ssKey with
  | .error _ => (s, false)
  | .ok ((strAccount, nNumber), _) =>
    if s.fAnyUnordered then (s, true)
    else
      match get (CAccountingEntry.serializer serDisk 0 strAccount nNumber) ssValue with
      | .error _ => (s, false)
      | .ok (acentry, _) => ({ s with fAnyUnordered := acentry.nOrderPos == -1 }, true)

/-- A branch that reads a key and a value and does nothing with them that is modelled here. -/
def readOnly {α β : Type} (s : ScanState) (K : Serializer α) (V : Serializer β)
    (check : α × β → Bool) (ssKey ssValue : CDataStream) : ScanState × Bool :=
  match get K ssKey with
  | .error _ => (s, false)
  | .ok (a, _) =>
    match get V ssValue with
    | .error _ => (s, false)
    | .ok (b, _) => (s, check (a, b))

/-- Nothing is read. -/
def nothing : Serializer Unit := ⟨fun _ => 0, fun _ => [], fun _ => pure ()⟩

/-- The branch for the version of the file. -/
def readVersion (s : ScanState) (ssValue : CDataStream) : ScanState × Bool :=
  match get int32Type.serializer ssValue with
  | .error _ => (s, false)
  | .ok (nFileVersion, _) =>
    ({ s with nFileVersion := if nFileVersion = 10300 then 300 else nFileVersion }, true)

/-- The branches of `ReadKeyValue`, behind the type of the record. -/
def readRecord (s : ScanState) (strType : List UInt8) (ssKey ssValue : CDataStream) :
    ScanState × Bool :=
  if strType = typeName "name" then
    readOnly s (string .byte) (string .byte) (fun _ => true) ssKey ssValue
  else if strType = typeName "tx" then readTx env s ssKey ssValue
  else if strType = typeName "acentry" then readAcentry s ssKey ssValue
  else if strType = typeName "key" then readKey env s false ssKey ssValue
  else if strType = typeName "wkey" then readKey env s true ssKey ssValue
  else if strType = typeName "mkey" then readMasterKey s ssKey ssValue
  else if strType = typeName "ckey" then readCryptedKey env s ssKey ssValue
  else if strType = typeName "keymeta" then
    readOnly s bytesSerializer (pair int32Type.serializer int64Type.serializer) (fun _ => true)
      ssKey ssValue
  else if strType = typeName "defaultkey" then
    readOnly s nothing bytesSerializer (fun _ => true) ssKey ssValue
  else if strType = typeName "pool" then
    readOnly s int64Type.serializer
      (pair int32Type.serializer (pair int64Type.serializer bytesSerializer)) (fun _ => true)
      ssKey ssValue
  else if strType = typeName "version" then readVersion s ssValue
  else if strType = typeName "cscript" then
    readOnly s (Flat.unsigned 20 (by decide) (by decide)).serializer bytesSerializer
      (fun item => decide (item.2.length ≤ 520)) ssKey ssValue
  else if strType = typeName "orderposnext" then
    readOnly s nothing int64Type.serializer (fun _ => true) ssKey ssValue
  else (s, true)

/-- A record of `wallet.dat`: its key and its value. -/
structure Record where
  key : List UInt8
  value : List UInt8
deriving Repr, DecidableEq

/-- `ReadKeyValue`, with `strType`, which is not a type where it cannot be read. -/
def readKeyValue (s : ScanState) (record : Record) : ScanState × List UInt8 × Bool :=
  match get (string .byte) (ofBytes record.key) with
  | .error _ => (s, [], false)
  | .ok (strType, ssKey) =>
    let (s, fRead) := readRecord env s strType ssKey (ofBytes record.value)
    (s, strType, fRead)

/-! ## The loop -/

/-- `IsKeyType`. -/
def isKeyType (strType : List UInt8) : Bool :=
  strType == typeName "key" || strType == typeName "wkey" || strType == typeName "mkey" ||
    strType == typeName "ckey"

/-- `DBErrors`. -/
inductive LoadErrors where
  | loadOk
  | corrupt
  | noncriticalError
  | tooNew
  | loadFail
  | needRewrite
deriving Repr, DecidableEq

structure Scan where
  s : ScanState
  /-- `result == DB_CORRUPT`. -/
  fCorrupt : Bool
  fNoncriticalErrors : Bool
  /-- `SoftSetBoolArg("-rescan", true)`. -/
  fRescan : Bool

/-- A record in the loop of `LoadWallet`. -/
def scanRecord (t : Scan) (record : Record) : Scan :=
  let (s, strType, fRead) := readKeyValue env t.s record
  if fRead then { t with s := s }
  else if isKeyType strType then { t with s := s, fCorrupt := true }
  else { t with s := s, fNoncriticalErrors := true, fRescan := t.fRescan || strType == typeName "tx" }

def scanRecords (records : List Record) : Scan :=
  records.foldl (scanRecord env) ⟨.start, false, false, false⟩

/-- `wallet.dat`, and how the accesses to it go. -/
structure WalletFile where
  nMinVersion : Option Int
  fCursor : Bool
  /-- The records that the cursor finds. -/
  records : List Record
  /-- The cursor fails behind them. -/
  fFails : Bool

/-- `CLIENT_VERSION`. -/
def clientVersion : Int := 4000201

/-- What `LoadWallet` writes. -/
inductive DbWrite where
  | tx (hash : Uint256)
  | version
  /-- `ReorderTransactions`. -/
  | positions
deriving Repr, DecidableEq

structure Loaded where
  result : LoadErrors
  wallet : Wallet
  written : List DbWrite

/-- `pwallet->mapWallet[hash]`, which makes an entry where there is none. -/
def touchTx (mapWallet : Map Uint256 LoadedTx) (hash : Uint256) : Map Uint256 LoadedTx :=
  if mapWallet.contains hash then mapWallet else mapWallet.insert hash .unbound

/-- `ReorderTransactions` gives a position to the transactions. -/
def setPositions (positions : Uint256 → Int) (mapWallet : Map Uint256 LoadedTx) :
    Map Uint256 LoadedTx :=
  mapWallet.map fun hash entry =>
    match entry with
    | .unbound => .unbound
    | .bound wtx => .bound { wtx with nOrderPos := positions hash }

/-- `LoadWallet` behind the loop, where no record has failed; `reorder` is what
`ReorderTransactions` does. -/
def finish (reorder : Wallet → (Uint256 → Int) × LoadErrors) (s : ScanState) : Loaded :=
  let wallet := { s.wallet with mapWallet := s.vWalletUpgrade.foldl touchTx s.wallet.mapWallet }
  let written := s.vWalletUpgrade.map DbWrite.tx
  if s.fIsEncrypted && (s.nFileVersion == 40000 || s.nFileVersion == 50000) then
    ⟨.needRewrite, wallet, written⟩
  else
    let written := if s.nFileVersion < clientVersion then written ++ [.version] else written
    if s.fAnyUnordered then
      let (positions, result) := reorder wallet
      ⟨result, { wallet with mapWallet := setPositions positions wallet.mapWallet },
        written ++ [.positions]⟩
    else ⟨.loadOk, wallet, written⟩

/-- The records that are read. -/
def WalletFile.reached (file : WalletFile) : List Record :=
  if file.nMinVersion.any (· > clientVersion) || !file.fCursor then [] else file.records

/-- `LoadWallet`. -/
def loadWallet (reorder : Wallet → (Uint256 → Int) × LoadErrors) (file : WalletFile) : Loaded :=
  if file.nMinVersion.any (· > clientVersion) then ⟨.tooNew, .new, []⟩
  else if !file.fCursor then ⟨.corrupt, .new, []⟩
  else
    let t := scanRecords env file.records
    if file.fFails || t.fCorrupt then ⟨.corrupt, t.s.wallet, []⟩
    else if t.fNoncriticalErrors then ⟨.noncriticalError, t.s.wallet, []⟩
    else finish reorder t.s

/-! ## Key stores while they are loaded -/

section store

variable (crypto : Crypto) (store : CCryptoKeyStore)

theorem setCrypted_haveKey {address : CKeyID} (h : store.haveKey address = true) :
    store.setCrypted.1.haveKey address = true := by
  unfold CCryptoKeyStore.setCrypted
  split
  · exact h
  split
  · exact h
  · next hplain hempty =>
    -- a store becomes an encrypted one only as long as it has no key
    simp only [Bool.not_eq_true', Bool.not_eq_false, Std.ExtTreeMap.isEmpty_iff] at hempty
    simp [CCryptoKeyStore.haveKey, hplain, hempty] at h

theorem setCrypted_fUseCrypto (h : store.setCrypted.2 = true) :
    store.setCrypted.1.fUseCrypto = true := by
  unfold CCryptoKeyStore.setCrypted at h ⊢
  split
  · next hcrypted => exact hcrypted
  split
  · next hplain hkeys => simp [hplain, hkeys] at h
  · rfl

/-- Keys are only added. -/
def StoreGrows (store store' : CCryptoKeyStore) : Prop :=
  ∀ address, store.haveKey address = true → store'.haveKey address = true

theorem addCryptedKey_grows (vchPubKey : CPubKey) (vchCryptedSecret : List UInt8) :
    StoreGrows store (store.addCryptedKey crypto vchPubKey vchCryptedSecret).1 := by
  intro address h
  have hset := setCrypted_haveKey store h
  have hcrypted := setCrypted_fUseCrypto store
  unfold CCryptoKeyStore.addCryptedKey
  generalize store.setCrypted = s at hset hcrypted ⊢
  obtain ⟨store', fSet⟩ := s
  cases fSet with
  | false => exact hset
  | true =>
    have hcrypted : store'.fUseCrypto = true := hcrypted rfl
    simp only [CCryptoKeyStore.haveKey, hcrypted, Bool.not_true, Bool.false_eq_true,
      if_false] at hset ⊢
    rw [Std.ExtTreeMap.contains_insert, hset, Bool.or_true]

theorem addCryptedKey_haveKey (vchPubKey : CPubKey) (vchCryptedSecret : List UInt8)
    (h : (store.addCryptedKey crypto vchPubKey vchCryptedSecret).2 = true) :
    (store.addCryptedKey crypto vchPubKey vchCryptedSecret).1.haveKey
      (crypto.hash160 vchPubKey) = true := by
  have hcrypted := setCrypted_fUseCrypto store
  unfold CCryptoKeyStore.addCryptedKey at h ⊢
  generalize store.setCrypted = s at h hcrypted ⊢
  obtain ⟨store', fSet⟩ := s
  cases fSet with
  | false => cases h
  | true =>
    have hcrypted : store'.fUseCrypto = true := hcrypted rfl
    simp [CCryptoKeyStore.haveKey, hcrypted]

variable {crypto store}

theorem basicAddKey_eq_ok {key : CKey crypto} {r : CCryptoKeyStore × Bool}
    (h : store.basicAddKey key = .ok r) : ∃ vchPubKey k, key.getPubKey = .ok vchPubKey ∧
      r = ({ store with mapKeys := store.mapKeys.insert (crypto.hash160 vchPubKey) k }, true) := by
  unfold CCryptoKeyStore.basicAddKey at h
  obtain ⟨k, -, h⟩ := except_bind_eq_ok.mp h
  obtain ⟨vchPubKey, hpub, h⟩ := except_bind_eq_ok.mp h
  exact ⟨vchPubKey, k, hpub, (Except.ok.inj h).symm⟩

/-- A key is added plain, or encrypted, or the store stays as it is. -/
theorem addKey_cases {key : CKey crypto} {r : CCryptoKeyStore × Bool}
    (h : store.addKey key = .ok r) : r = (store, false) ∨
      ∃ vchPubKey, key.getPubKey = .ok vchPubKey ∧
        ((store.fUseCrypto = false ∧ ∃ k, r = ({ store with
            mapKeys := store.mapKeys.insert (crypto.hash160 vchPubKey) k }, true)) ∨
          ∃ vchCryptedSecret, r = store.addCryptedKey crypto vchPubKey vchCryptedSecret) := by
  unfold CCryptoKeyStore.addKey at h
  split at h
  · next hplain =>
    obtain ⟨vchPubKey, k, hpub, rfl⟩ := basicAddKey_eq_ok h
    exact .inr ⟨vchPubKey, hpub, .inl ⟨by simpa using hplain, k, rfl⟩⟩
  split at h
  · exact .inl (Except.ok.inj h).symm
  obtain ⟨vchPubKey, hpub, h⟩ := except_bind_eq_ok.mp h
  obtain ⟨⟨secret, fCompressed⟩, -, h⟩ := except_bind_eq_ok.mp h
  dsimp only at h
  split at h
  · exact .inl (Except.ok.inj h).symm
  · next vchCryptedSecret _ =>
    exact .inr ⟨vchPubKey, hpub, .inr ⟨vchCryptedSecret, (Except.ok.inj h).symm⟩⟩

theorem addKey_grows {key : CKey crypto} {r : CCryptoKeyStore × Bool}
    (h : store.addKey key = .ok r) : StoreGrows store r.1 := by
  intro address hhave
  rcases addKey_cases h with rfl | ⟨vchPubKey, -, ⟨hplain, k, rfl⟩ | ⟨vchCryptedSecret, rfl⟩⟩
  · exact hhave
  · simp only [CCryptoKeyStore.haveKey, hplain, Bool.not_false, if_true] at hhave ⊢
    rw [Std.ExtTreeMap.contains_insert, hhave, Bool.or_true]
  · exact addCryptedKey_grows crypto store vchPubKey vchCryptedSecret address hhave

theorem addKey_haveKey {key : CKey crypto} {store' : CCryptoKeyStore} {vchPubKey : CPubKey}
    (h : store.addKey key = .ok (store', true)) (hpub : key.getPubKey = .ok vchPubKey) :
    store'.haveKey (crypto.hash160 vchPubKey) = true := by
  rcases addKey_cases h with hsame | ⟨pub, hpub', hadd⟩
  · cases hsame
  have hpubs : pub = vchPubKey := Except.ok.inj (hpub'.symm.trans hpub)
  subst hpubs
  rcases hadd with ⟨hplain, k, hr⟩ | ⟨vchCryptedSecret, hr⟩
  · cases hr
    simp [CCryptoKeyStore.haveKey, hplain]
  · have hfst := congrArg Prod.fst hr
    have hsnd := congrArg Prod.snd hr
    dsimp only at hfst hsnd
    rw [hfst]
    exact addCryptedKey_haveKey crypto store pub vchCryptedSecret hsnd.symm

end store

/-! ## A record -/

/-- The type of a record, which is not a type where it cannot be read. -/
def Record.strType (record : Record) : List UInt8 :=
  match get (string .byte) (ofBytes record.key) with
  | .error _ => []
  | .ok (strType, _) => strType

/-- What a record of a key type is for is in the wallet. -/
def KeyLoaded (wallet : Wallet) (record : Record) : Prop :=
  ∃ strType ssKey, get (string .byte) (ofBytes record.key) = .ok (strType, ssKey) ∧
    if strType = typeName "mkey" then
      ∃ nID kMasterKey rest rest', get uint32Type.serializer ssKey = .ok (nID, rest) ∧
        get masterKeySerializer (ofBytes record.value) = .ok (kMasterKey, rest') ∧
        wallet.mapMasterKeys[nID]? = some kMasterKey
    else
      ∃ vchPubKey rest, get bytesSerializer ssKey = .ok (vchPubKey, rest) ∧
        wallet.store.haveKey (env.crypto.hash160 vchPubKey) = true

/-- Keys and master keys stay. -/
structure Grows (wallet wallet' : Wallet) : Prop where
  store : StoreGrows wallet.store wallet'.store
  masterKey : ∀ (nID : Nat) (kMasterKey : CMasterKey),
    wallet.mapMasterKeys[nID]? = some kMasterKey → wallet'.mapMasterKeys[nID]? = some kMasterKey

theorem Grows.refl (wallet : Wallet) : Grows wallet wallet := ⟨fun _ h => h, fun _ _ h => h⟩

theorem KeyLoaded.grows {wallet wallet' : Wallet} {record : Record}
    (h : KeyLoaded env wallet record) (hgrows : Grows wallet wallet') :
    KeyLoaded env wallet' record := by
  obtain ⟨strType, ssKey, htype, h⟩ := h
  refine ⟨strType, ssKey, htype, ?_⟩
  split at h
  · next hmaster =>
    obtain ⟨nID, kMasterKey, rest, rest', hid, hkey, hin⟩ := h
    rw [if_pos hmaster]
    exact ⟨nID, kMasterKey, rest, rest', hid, hkey, hgrows.masterKey nID kMasterKey hin⟩
  · next hmaster =>
    obtain ⟨vchPubKey, rest, hpub, hhave⟩ := h
    rw [if_neg hmaster]
    exact ⟨vchPubKey, rest, hpub, hgrows.store _ hhave⟩

theorem keyOf_getPubKey {vchPubKey : CPubKey} {vchPrivKey : List UInt8} {key : CKey env.crypto}
    (h : keyOf env vchPubKey vchPrivKey = some key) : key.getPubKey = .ok vchPubKey := by
  unfold keyOf at h
  split at h
  · cases h
  split at h
  · cases h
  · next pubKey hpub =>
    split at h
    · cases h
    · next hsame =>
      split at h
      · cases h
        rw [hpub, Decidable.not_not.mp hsame]
      · cases h

/-- A record of another type is for neither a transaction nor a key. -/
structure Leaves (s s' : ScanState) : Prop where
  wallet : s'.wallet = s.wallet
  upgrade : s'.vWalletUpgrade = s.vWalletUpgrade

theorem readOnly_leaves (s : ScanState) {α β : Type} (K : Serializer α) (V : Serializer β)
    (check : α × β → Bool) (ssKey ssValue : CDataStream) :
    Leaves s (readOnly s K V check ssKey ssValue).1 := by
  unfold readOnly
  repeat' split
  all_goals exact ⟨rfl, rfl⟩

theorem readAcentry_leaves (s : ScanState) (ssKey ssValue : CDataStream) :
    Leaves s (readAcentry s ssKey ssValue).1 := by
  unfold readAcentry
  repeat' split
  all_goals exact ⟨rfl, rfl⟩

theorem readVersion_leaves (s : ScanState) (ssValue : CDataStream) :
    Leaves s (readVersion s ssValue).1 := by
  unfold readVersion
  split
  all_goals exact ⟨rfl, rfl⟩

/-- The branch that a record takes. -/
inductive Branch (s : ScanState) (strType : List UInt8) (ssKey ssValue : CDataStream) :
    ScanState × Bool → Prop where
  | tx (h : strType = typeName "tx") : Branch s strType ssKey ssValue (readTx env s ssKey ssValue)
  | key (fWalletKey : Bool)
      (h : strType = if fWalletKey then typeName "wkey" else typeName "key") :
      Branch s strType ssKey ssValue (readKey env s fWalletKey ssKey ssValue)
  | masterKey (h : strType = typeName "mkey") :
      Branch s strType ssKey ssValue (readMasterKey s ssKey ssValue)
  | cryptedKey (h : strType = typeName "ckey") :
      Branch s strType ssKey ssValue (readCryptedKey env s ssKey ssValue)
  | other {r : ScanState × Bool} (htx : strType ≠ typeName "tx") (hkey : isKeyType strType = false)
      (h : Leaves s r.1) : Branch s strType ssKey ssValue r

theorem isKeyType_eq_false {strType : List UInt8} (hkey : strType ≠ typeName "key")
    (hwkey : strType ≠ typeName "wkey") (hmkey : strType ≠ typeName "mkey")
    (hckey : strType ≠ typeName "ckey") : isKeyType strType = false := by
  unfold isKeyType
  rw [beq_eq_false_iff_ne.mpr hkey, beq_eq_false_iff_ne.mpr hwkey, beq_eq_false_iff_ne.mpr hmkey,
    beq_eq_false_iff_ne.mpr hckey]
  rfl

theorem readRecord_branch (s : ScanState) (strType : List UInt8) (ssKey ssValue : CDataStream) :
    Branch env s strType ssKey ssValue (readRecord env s strType ssKey ssValue) := by
  unfold readRecord
  by_cases hname : strType = typeName "name"
  · rw [if_pos hname]
    exact .other (by rw [hname]; decide +kernel) (by rw [hname]; decide +kernel) (readOnly_leaves ..)
  rw [if_neg hname]
  by_cases htx : strType = typeName "tx"
  · rw [if_pos htx]
    exact .tx htx
  rw [if_neg htx]
  by_cases hacentry : strType = typeName "acentry"
  · rw [if_pos hacentry]
    exact .other htx (by rw [hacentry]; decide +kernel) (readAcentry_leaves ..)
  rw [if_neg hacentry]
  by_cases hkey : strType = typeName "key"
  · rw [if_pos hkey]
    exact .key false hkey
  rw [if_neg hkey]
  by_cases hwkey : strType = typeName "wkey"
  · rw [if_pos hwkey]
    exact .key true hwkey
  rw [if_neg hwkey]
  by_cases hmkey : strType = typeName "mkey"
  · rw [if_pos hmkey]
    exact .masterKey hmkey
  rw [if_neg hmkey]
  by_cases hckey : strType = typeName "ckey"
  · rw [if_pos hckey]
    exact .cryptedKey hckey
  rw [if_neg hckey]
  -- none of the other types is one of a key
  have hother := isKeyType_eq_false hkey hwkey hmkey hckey
  by_cases hkeymeta : strType = typeName "keymeta"
  · rw [if_pos hkeymeta]
    exact .other htx hother (readOnly_leaves ..)
  rw [if_neg hkeymeta]
  by_cases hdefaultkey : strType = typeName "defaultkey"
  · rw [if_pos hdefaultkey]
    exact .other htx hother (readOnly_leaves ..)
  rw [if_neg hdefaultkey]
  by_cases hpool : strType = typeName "pool"
  · rw [if_pos hpool]
    exact .other htx hother (readOnly_leaves ..)
  rw [if_neg hpool]
  by_cases hversion : strType = typeName "version"
  · rw [if_pos hversion]
    exact .other htx hother (readVersion_leaves ..)
  rw [if_neg hversion]
  by_cases hcscript : strType = typeName "cscript"
  · rw [if_pos hcscript]
    exact .other htx hother (readOnly_leaves ..)
  rw [if_neg hcscript]
  by_cases horderposnext : strType = typeName "orderposnext"
  · rw [if_pos horderposnext]
    exact .other htx hother (readOnly_leaves ..)
  rw [if_neg horderposnext]
  exact .other htx hother ⟨rfl, rfl⟩

/-! ### Records of keys -/

theorem loadKey_wallet (s : ScanState) (vchPubKey : CPubKey) (vchPrivKey : List UInt8) :
    ∃ store, StoreGrows s.wallet.store store ∧
      (loadKey env s vchPubKey vchPrivKey).1 = s.setStore store ∧
      ((loadKey env s vchPubKey vchPrivKey).2 = true →
        store.haveKey (env.crypto.hash160 vchPubKey) = true) := by
  unfold loadKey
  split
  · exact ⟨s.wallet.store, fun _ h => h, rfl, fun h => nomatch h⟩
  · next key hkey =>
    have hpub := keyOf_getPubKey env hkey
    split
    · exact ⟨s.wallet.store, fun _ h => h, rfl, fun h => nomatch h⟩
    · next store fAdded hadd =>
      refine ⟨store, addKey_grows hadd, rfl, fun h => ?_⟩
      have hfAdded : fAdded = true := h
      rw [hfAdded] at hadd
      exact addKey_haveKey hadd hpub

/-- What a record for a key does: it changes the key store, and when it is read, the key is
there. -/
structure KeyStep (s : ScanState) (ssKey : CDataStream) (r : ScanState × Bool) : Prop where
  grows : StoreGrows s.wallet.store r.1.wallet.store
  masterKeys : r.1.wallet.mapMasterKeys = s.wallet.mapMasterKeys
  mapWallet : r.1.wallet.mapWallet = s.wallet.mapWallet
  upgrade : r.1.vWalletUpgrade = s.vWalletUpgrade
  haveKey : r.2 = true → ∃ vchPubKey rest, get bytesSerializer ssKey = .ok (vchPubKey, rest) ∧
    r.1.wallet.store.haveKey (env.crypto.hash160 vchPubKey) = true

theorem keyStep_failed (s : ScanState) (ssKey : CDataStream) : KeyStep env s ssKey (s, false) :=
  ⟨fun _ h => h, rfl, rfl, rfl, fun h => nomatch h⟩

theorem loadKey_keyStep (s : ScanState) {ssKey rest : CDataStream} {vchPubKey : CPubKey}
    (hpub : get bytesSerializer ssKey = .ok (vchPubKey, rest)) (vchPrivKey : List UInt8) :
    KeyStep env s ssKey (loadKey env s vchPubKey vchPrivKey) := by
  obtain ⟨store, hgrows, hload, hhave⟩ := loadKey_wallet env s vchPubKey vchPrivKey
  generalize loadKey env s vchPubKey vchPrivKey = r at hload hhave ⊢
  obtain ⟨s', fAdded⟩ := r
  dsimp only at hload
  subst hload
  exact ⟨hgrows, rfl, rfl, rfl, fun h => ⟨vchPubKey, rest, hpub, hhave h⟩⟩

theorem readKey_keyStep (s : ScanState) (fWalletKey : Bool) (ssKey ssValue : CDataStream) :
    KeyStep env s ssKey (readKey env s fWalletKey ssKey ssValue) := by
  unfold readKey
  split
  · exact keyStep_failed env s ssKey
  · next vchPubKey rest hpub =>
    split
    · split
      · exact keyStep_failed env s ssKey
      · exact loadKey_keyStep env s hpub _
    · split
      · exact keyStep_failed env s ssKey
      · exact loadKey_keyStep env s hpub _

theorem readCryptedKey_keyStep (s : ScanState) (ssKey ssValue : CDataStream) :
    KeyStep env s ssKey (readCryptedKey env s ssKey ssValue) := by
  unfold readCryptedKey
  split
  · exact keyStep_failed env s ssKey
  · next vchPubKey rest hpub =>
    split
    · exact keyStep_failed env s ssKey
    · next vchPrivKey _ _ =>
      have hgrows := addCryptedKey_grows env.crypto s.wallet.store vchPubKey vchPrivKey
      have hhave := addCryptedKey_haveKey env.crypto s.wallet.store vchPubKey vchPrivKey
      generalize s.wallet.store.addCryptedKey env.crypto vchPubKey vchPrivKey = r at hgrows hhave ⊢
      obtain ⟨store, fAdded⟩ := r
      cases fAdded with
      | false => exact ⟨hgrows, rfl, rfl, rfl, fun h => nomatch h⟩
      | true => exact ⟨hgrows, rfl, rfl, rfl, fun _ => ⟨vchPubKey, rest, hpub, hhave rfl⟩⟩

/-- What a record for a master key does. -/
structure MasterKeyStep (s : ScanState) (ssKey ssValue : CDataStream) (r : ScanState × Bool) :
    Prop where
  store : r.1.wallet.store = s.wallet.store
  grows : ∀ (nID : Nat) (kMasterKey : CMasterKey),
    s.wallet.mapMasterKeys[nID]? = some kMasterKey →
      r.1.wallet.mapMasterKeys[nID]? = some kMasterKey
  mapWallet : r.1.wallet.mapWallet = s.wallet.mapWallet
  upgrade : r.1.vWalletUpgrade = s.vWalletUpgrade
  masterKey : r.2 = true → ∃ nID kMasterKey rest rest',
    get uint32Type.serializer ssKey = .ok (nID, rest) ∧
      get masterKeySerializer ssValue = .ok (kMasterKey, rest') ∧
      r.1.wallet.mapMasterKeys[nID]? = some kMasterKey

theorem MasterKeyStep.toGrows {s : ScanState} {ssKey ssValue : CDataStream} {r : ScanState × Bool}
    (h : MasterKeyStep s ssKey ssValue r) : Grows s.wallet r.1.wallet :=
  ⟨fun _ hhave => by rw [h.store]; exact hhave, h.grows⟩

theorem readMasterKey_masterKeyStep (s : ScanState) (ssKey ssValue : CDataStream) :
    MasterKeyStep s ssKey ssValue (readMasterKey s ssKey ssValue) := by
  have hfailed : MasterKeyStep s ssKey ssValue (s, false) :=
    ⟨rfl, fun _ _ h => h, rfl, rfl, fun h => nomatch h⟩
  unfold readMasterKey
  split
  · exact hfailed
  · next nID rest hid =>
    split
    · exact hfailed
    · next kMasterKey rest' hkey =>
      split
      · exact hfailed
      · next hnew =>
        refine ⟨rfl, fun other kOther h => ?_, rfl, rfl,
          fun _ => ⟨nID, kMasterKey, rest, rest', hid, hkey, ?_⟩⟩
        · -- the number is a new one
          have hne : nID ≠ other := by
            rintro rfl
            exact hnew ((Map.contains_iff _ _).mpr ⟨kOther, h⟩)
          show (s.wallet.mapMasterKeys.insert nID kMasterKey)[other]? = some kOther
          rw [Map.getElem?_insert, if_neg hne, h]
        · show (s.wallet.mapMasterKeys.insert nID kMasterKey)[nID]? = some kMasterKey
          rw [Map.getElem?_insert, if_pos rfl]

/-! ### Records of transactions -/

/-- The entry that a record leaves under its hash. -/
def entryLeft (hash : Uint256) (ssValue : CDataStream) : Option LoadedTx :=
  match get (CWalletTxRecord.serializer env.sizes) ssValue with
  | .error _ => some .unbound
  | .ok (wtx, ssValue) =>
    if !accepted env hash wtx then none
    else some (.bound (if needsUpgrade wtx then (upgradeTx wtx ssValue).1 else wtx))

/-- What a record for a transaction does; its hash is not always read. -/
structure TxStep (s : ScanState) (ssKey ssValue : CDataStream) (r : ScanState × Bool) : Prop where
  store : r.1.wallet.store = s.wallet.store
  masterKeys : r.1.wallet.mapMasterKeys = s.wallet.mapMasterKeys
  hash : ∀ hash rest, get uint256Type.serializer ssKey = .ok (hash, rest) →
    ∀ other, r.1.wallet.mapWallet[other]? =
      if hash = other then entryLeft env hash ssValue else s.wallet.mapWallet[other]?
  noHash : (∀ hash rest, get uint256Type.serializer ssKey ≠ .ok (hash, rest)) → r = (s, false)
  upgrade : r.2 = true → ∀ other ∈ r.1.vWalletUpgrade,
    other ∈ s.vWalletUpgrade ∨ r.1.wallet.mapWallet.contains other = true
  contains : r.2 = true → ∀ other, s.wallet.mapWallet.contains other = true →
    r.1.wallet.mapWallet.contains other = true

theorem setTx_txStep {s : ScanState} {ssKey ssValue rest : CDataStream} {hash : Uint256}
    {entry : LoadedTx} {r : ScanState × Bool}
    (hhash : get uint256Type.serializer ssKey = .ok (hash, rest))
    (hentry : entryLeft env hash ssValue = some entry)
    (hwallet : r.1.wallet = (s.setTx hash entry).wallet)
    (hupgrade : r.1.vWalletUpgrade = s.vWalletUpgrade ∨
      r.1.vWalletUpgrade = s.vWalletUpgrade ++ [hash]) : TxStep env s ssKey ssValue r := by
  have hset : ∀ other, r.1.wallet.mapWallet[other]? =
      if hash = other then some entry else s.wallet.mapWallet[other]? := by
    intro other
    rw [hwallet]
    exact Map.getElem?_insert ..
  have hcontains : ∀ other, hash = other ∨ s.wallet.mapWallet.contains other = true →
      r.1.wallet.mapWallet.contains other = true := by
    intro other h
    rw [Map.contains_iff, hset]
    by_cases hsame : hash = other
    · exact ⟨entry, if_pos hsame⟩
    · rw [if_neg hsame]
      exact (Map.contains_iff _ _).mp (h.resolve_left hsame)
  refine ⟨by rw [hwallet]; rfl, by rw [hwallet]; rfl, fun hash' rest' h other => ?_,
    fun h => absurd hhash (h hash rest), fun _ other hmem => ?_,
    fun _ other h => hcontains other (.inr h)⟩
  · rw [hhash] at h
    cases h
    rw [hset, hentry]
  · rcases hupgrade with heq | heq
    · rw [heq] at hmem
      exact .inl hmem
    · rw [heq, List.mem_append, List.mem_singleton] at hmem
      exact hmem.imp id fun h => hcontains other (.inl h.symm)

theorem readTx_txStep (s : ScanState) (ssKey ssValue : CDataStream) :
    TxStep env s ssKey ssValue (readTx env s ssKey ssValue) := by
  unfold readTx
  split
  · next e he =>
    refine ⟨rfl, rfl, fun hash rest h => ?_, fun _ => rfl, (nomatch ·), (nomatch ·)⟩
    rw [he] at h
    cases h
  · next hash rest hhash =>
    split
    · next e hvalue => exact setTx_txStep env hhash (by rw [entryLeft, hvalue]) rfl (.inl rfl)
    · next wtx ssRest hvalue =>
      split
      · next hreject =>
        refine ⟨rfl, rfl, fun hash' rest' h other => ?_, fun h => absurd hhash (h hash rest),
          (nomatch ·), (nomatch ·)⟩
        rw [hhash] at h
        cases h
        rw [entryLeft, hvalue]
        dsimp only
        rw [if_pos hreject]
        exact Map.getElem?_erase ..
      · next haccept =>
        have hentry : entryLeft env hash ssValue =
            some (.bound (if needsUpgrade wtx then (upgradeTx wtx ssRest).1 else wtx)) := by
          rw [entryLeft, hvalue]
          exact if_neg haccept
        split
        · next hupgrade =>
          rw [if_pos hupgrade] at hentry
          split
          · next wtx' hup => exact setTx_txStep env hhash (by rw [hentry, hup]) rfl (.inl rfl)
          · next wtx' hup => exact setTx_txStep env hhash (by rw [hentry, hup]) rfl (.inr rfl)
        · next hupgrade =>
          rw [if_neg hupgrade] at hentry
          exact setTx_txStep env hhash hentry rfl (.inl rfl)

/-! ### Any record -/

/-- The hash of the transaction that a record is for. -/
def Record.txHash (record : Record) : Option Uint256 :=
  match get (string .byte) (ofBytes record.key) with
  | .error _ => none
  | .ok (strType, ssKey) =>
    if strType = typeName "tx" then
      match get uint256Type.serializer ssKey with
      | .error _ => none
      | .ok (hash, _) => some hash
    else none

/-- What a record does. -/
structure Step (s : ScanState) (record : Record) (r : ScanState × List UInt8 × Bool) : Prop where
  strType : r.2.1 = record.strType
  grows : Grows s.wallet r.1.wallet
  key : r.2.2 = true → isKeyType record.strType = true → KeyLoaded env r.1.wallet record
  tx : ∀ hash, r.1.wallet.mapWallet[hash]? =
    if record.txHash = some hash then entryLeft env hash (ofBytes record.value)
    else s.wallet.mapWallet[hash]?
  upgrade : r.2.2 = true → ∀ hash ∈ r.1.vWalletUpgrade,
    hash ∈ s.vWalletUpgrade ∨ r.1.wallet.mapWallet.contains hash = true
  contains : r.2.2 = true → ∀ hash, s.wallet.mapWallet.contains hash = true →
    r.1.wallet.mapWallet.contains hash = true

/-- A record of another type is for no transaction. -/
theorem step_keep {s : ScanState} {record : Record} {strType : List UInt8} {ssKey : CDataStream}
    {r : ScanState × Bool} (htype : get (string .byte) (ofBytes record.key) = .ok (strType, ssKey))
    (htx : strType ≠ typeName "tx") (hmap : r.1.wallet.mapWallet = s.wallet.mapWallet)
    (hupgrade : r.1.vWalletUpgrade = s.vWalletUpgrade) (hgrows : Grows s.wallet r.1.wallet)
    (hkey : r.2 = true → isKeyType strType = true → KeyLoaded env r.1.wallet record) :
    Step env s record (r.1, strType, r.2) := by
  have hname : record.strType = strType := by rw [Record.strType, htype]
  have hno : record.txHash = none := by
    rw [Record.txHash, htype]
    exact if_neg htx
  refine ⟨hname.symm, hgrows, by rw [hname]; exact hkey, fun hash => ?_, fun _ hash hmem => ?_,
    fun _ hash h => ?_⟩
  · rw [hno, hmap]
    rfl
  · rw [hupgrade] at hmem
    exact .inl hmem
  · rw [hmap]
    exact h

theorem step_key {s : ScanState} {record : Record} {strType : List UInt8} {ssKey : CDataStream}
    {r : ScanState × Bool} (htype : get (string .byte) (ofBytes record.key) = .ok (strType, ssKey))
    (htx : strType ≠ typeName "tx") (hmkey : strType ≠ typeName "mkey")
    (h : KeyStep env s ssKey r) : Step env s record (r.1, strType, r.2) := by
  refine step_keep env htype htx h.mapWallet h.upgrade
    ⟨h.grows, fun nID kMasterKey hin => by rw [h.masterKeys]; exact hin⟩ fun hread _ => ?_
  refine ⟨strType, ssKey, htype, ?_⟩
  rw [if_neg hmkey]
  exact h.haveKey hread

theorem step_tx {s : ScanState} {record : Record} {ssKey : CDataStream} {r : ScanState × Bool}
    (htype : get (string .byte) (ofBytes record.key) = .ok (typeName "tx", ssKey))
    (h : TxStep env s ssKey (ofBytes record.value) r) :
    Step env s record (r.1, typeName "tx", r.2) := by
  have hname : record.strType = typeName "tx" := by rw [Record.strType, htype]
  have hnotKey : isKeyType record.strType = false := by
    rw [hname]
    decide +kernel
  refine ⟨hname.symm, ⟨fun _ hhave => by rw [h.store]; exact hhave, fun _ _ hin => by
    rw [h.masterKeys]; exact hin⟩, fun _ hkey => ?_, fun hash => ?_, h.upgrade, h.contains⟩
  · rw [hnotKey] at hkey
    cases hkey
  · cases hhash : get uint256Type.serializer ssKey with
    | error e =>
      have hno : record.txHash = none := by
        simp only [Record.txHash, htype, hhash, if_pos]
      have hsame : r = (s, false) := h.noHash fun hash rest hok => by simp [hhash] at hok
      rw [hsame, hno]
      exact (if_neg nofun).symm
    | ok item =>
      obtain ⟨hash', rest⟩ := item
      have hsome : record.txHash = some hash' := by
        simp only [Record.txHash, htype, hhash, if_pos]
      rw [h.hash hash' rest hhash hash, hsome]
      by_cases hsame : hash' = hash
      · rw [if_pos hsame, if_pos (congrArg some hsame), hsame]
      · rw [if_neg hsame, if_neg fun h => hsame (Option.some.inj h)]

theorem readKeyValue_step (s : ScanState) (record : Record) :
    Step env s record (readKeyValue env s record) := by
  unfold readKeyValue
  split
  · next e he =>
    have hno : record.txHash = none := by rw [Record.txHash, he]
    refine ⟨by rw [Record.strType, he], .refl _, (nomatch ·), fun hash => ?_, (nomatch ·),
      (nomatch ·)⟩
    rw [hno]
    rfl
  · next strType ssKey htype =>
    have hbranch := readRecord_branch env s strType ssKey (ofBytes record.value)
    generalize readRecord env s strType ssKey (ofBytes record.value) = r at hbranch ⊢
    cases hbranch with
    | tx h =>
      subst h
      exact step_tx env htype (readTx_txStep env s ssKey _)
    | key fWalletKey h =>
      have hne : strType ≠ typeName "tx" ∧ strType ≠ typeName "mkey" := by
        cases fWalletKey <;> (rw [h]; decide +kernel)
      exact step_key env htype hne.1 hne.2 (readKey_keyStep env s fWalletKey ssKey _)
    | cryptedKey h =>
      have hne : strType ≠ typeName "tx" ∧ strType ≠ typeName "mkey" := by
        rw [h]
        decide +kernel
      exact step_key env htype hne.1 hne.2 (readCryptedKey_keyStep env s ssKey _)
    | masterKey h =>
      have hne : strType ≠ typeName "tx" := by
        rw [h]
        decide +kernel
      have hstep := readMasterKey_masterKeyStep s ssKey (ofBytes record.value)
      refine step_keep env htype hne hstep.mapWallet hstep.upgrade hstep.toGrows fun hread _ => ?_
      refine ⟨strType, ssKey, htype, ?_⟩
      rw [if_pos h]
      exact hstep.masterKey hread
    | other htx hkey h =>
      refine step_keep env htype htx (by rw [h.wallet]) h.upgrade (by rw [h.wallet]; exact .refl _)
        fun _ hkey' => ?_
      rw [hkey] at hkey'
      cases hkey'

/-! ## The whole file -/

theorem scanRecords_snoc (records : List Record) (record : Record) :
    scanRecords env (records ++ [record]) = scanRecord env (scanRecords env records) record :=
  List.foldl_append ..

/-- The reading of the record behind the others fails. -/
def Fails (before : List Record) (record : Record) : Prop :=
  (readKeyValue env (scanRecords env before).s record).2.2 = false

theorem scanRecord_s (t : Scan) (record : Record) :
    (scanRecord env t record).s = (readKeyValue env t.s record).1 := by
  unfold scanRecord
  dsimp only
  split
  · rfl
  split
  · rfl
  · rfl

theorem scanRecord_flags (t : Scan) (record : Record) :
    ((scanRecord env t record).fCorrupt = true ↔ t.fCorrupt = true ∨
        ((readKeyValue env t.s record).2.2 = false ∧ isKeyType record.strType = true)) ∧
      ((scanRecord env t record).fNoncriticalErrors = true ↔ t.fNoncriticalErrors = true ∨
        ((readKeyValue env t.s record).2.2 = false ∧ isKeyType record.strType = false)) := by
  have htype := (readKeyValue_step env t.s record).strType
  unfold scanRecord
  generalize readKeyValue env t.s record = r at htype ⊢
  obtain ⟨s', strType, fRead⟩ := r
  dsimp only at htype ⊢
  subst htype
  cases fRead <;> cases hkey : isKeyType record.strType <;> simp

/-- The record that decides about a hash is the last one for it. -/
def lastFor (hash : Uint256) (records : List Record) : Option Record :=
  (records.filter fun record => decide (record.txHash = some hash)).getLast?

theorem lastFor_snoc (hash : Uint256) (records : List Record) (record : Record) :
    lastFor hash (records ++ [record]) =
      if record.txHash = some hash then some record else lastFor hash records := by
  unfold lastFor
  rw [List.filter_append]
  by_cases h : record.txHash = some hash
  · rw [if_pos h, List.filter_cons_of_pos (by simpa using h)]
    simp
  · rw [if_neg h, List.filter_cons_of_neg (by simpa using h)]
    simp

theorem scanRecords_mapWallet (records : List Record) (hash : Uint256) :
    (scanRecords env records).s.wallet.mapWallet[hash]? =
      (lastFor hash records).bind fun record => entryLeft env hash (ofBytes record.value) := by
  induction records using List.reverseRecOn with
  | nil => exact Map.getElem?_empty hash
  | append_singleton records record ih =>
    rw [scanRecords_snoc, scanRecord_s, (readKeyValue_step env _ record).tx hash, lastFor_snoc]
    split
    · rfl
    · exact ih

theorem scanRecords_failed (records : List Record) :
    ((scanRecords env records).fCorrupt = true ∨
        (scanRecords env records).fNoncriticalErrors = true) ↔
      ∃ before record after, records = before ++ record :: after ∧ Fails env before record := by
  induction records using List.reverseRecOn with
  | nil =>
    refine ⟨fun h => by simp [scanRecords] at h, ?_⟩
    rintro ⟨before, record, after, h, -⟩
    simp at h
  | append_singleton records last ih =>
    obtain ⟨hcorrupt, hnoncritical⟩ := scanRecord_flags env (scanRecords env records) last
    rw [scanRecords_snoc, hcorrupt, hnoncritical]
    constructor
    · intro h
      have hcases : ((scanRecords env records).fCorrupt = true ∨
          (scanRecords env records).fNoncriticalErrors = true) ∨ Fails env records last := by
        rcases h with (h | h) | h | h
        · exact .inl (.inl h)
        · exact .inr h.1
        · exact .inl (.inr h)
        · exact .inr h.1
      rcases hcases with h | h
      · obtain ⟨before, record, after, hsplit, hfails⟩ := ih.mp h
        exact ⟨before, record, after ++ [last], by rw [hsplit]; simp, hfails⟩
      · exact ⟨records, last, [], rfl, h⟩
    · rintro ⟨before, record, after, hsplit, hfails⟩
      rcases List.eq_nil_or_concat after with rfl | ⟨after', last', rfl⟩
      · -- it is the last record that fails
        obtain ⟨rfl, hlast⟩ := List.append_inj' hsplit rfl
        cases hlast
        cases hkey : isKeyType last.strType with
        | true => exact .inl (.inr ⟨hfails, rfl⟩)
        | false => exact .inr (.inr ⟨hfails, rfl⟩)
      · have hsplit' : records ++ [last] = (before ++ record :: after') ++ [last'] := by
          simpa using hsplit
        obtain ⟨hrecords, -⟩ := List.append_inj' hsplit' rfl
        rcases ih.mpr ⟨before, record, after', hrecords, hfails⟩ with h | h
        · exact .inl (.inl h)
        · exact .inr (.inl h)

/-- A record of a key type that fails is not forgotten, and one that is read stays. -/
theorem scanRecords_keys (records : List Record)
    (h : (scanRecords env records).fCorrupt = false) :
    ∀ record ∈ records, isKeyType record.strType = true →
      KeyLoaded env (scanRecords env records).s.wallet record := by
  induction records using List.reverseRecOn with
  | nil => exact fun _ hmem => absurd hmem List.not_mem_nil
  | append_singleton records last ih =>
    obtain ⟨hcorrupt, -⟩ := scanRecord_flags env (scanRecords env records) last
    rw [scanRecords_snoc] at h ⊢
    have hnone : ¬ ((scanRecords env records).fCorrupt = true ∨
        ((readKeyValue env (scanRecords env records).s last).2.2 = false ∧
          isKeyType last.strType = true)) := fun hbad => by
      rw [hcorrupt.mpr hbad] at h
      cases h
    have hstep := readKeyValue_step env (scanRecords env records).s last
    intro record hmem hkey
    rw [scanRecord_s]
    rcases List.mem_append.mp hmem with hold | hlast
    · have hbefore : (scanRecords env records).fCorrupt = false := by
        simpa using fun hbad => hnone (.inl hbad)
      exact (ih hbefore record hold hkey).grows env hstep.grows
    · obtain rfl := List.mem_singleton.mp hlast
      refine hstep.key ?_ hkey
      simpa using fun hbad => hnone (.inr ⟨hbad, hkey⟩)

/-- Where no record fails, the transactions that are to be written again are there. -/
theorem scanRecords_upgrade (records : List Record)
    (h : ∀ before record after, records = before ++ record :: after → ¬ Fails env before record) :
    ∀ hash ∈ (scanRecords env records).s.vWalletUpgrade,
      (scanRecords env records).s.wallet.mapWallet.contains hash = true := by
  induction records using List.reverseRecOn with
  | nil => exact fun _ hmem => absurd hmem List.not_mem_nil
  | append_singleton records last ih =>
    have hstep := readKeyValue_step env (scanRecords env records).s last
    have hread : (readKeyValue env (scanRecords env records).s last).2.2 = true := by
      simpa [Fails] using h records last [] rfl
    have hbefore := ih fun before record after hsplit =>
      h before record (after ++ [last]) (by rw [hsplit]; simp)
    intro hash hmem
    rw [scanRecords_snoc, scanRecord_s] at hmem ⊢
    rcases hstep.upgrade hread hash hmem with hold | hnew
    · exact hstep.contains hread hash (hbefore hash hold)
    · exact hnew

/-! ## The safety of loading -/

/-- The value of a record for a transaction is read to its end. -/
def Record.ReadsTx (record : Record) : Prop :=
  ∃ item, get (CWalletTxRecord.serializer env.sizes) (ofBytes record.value) = .ok item

/-- An entry is a transaction that is whole, under its own hash and bound to the wallet. -/
def EntryOk (hash : Uint256) (entry : LoadedTx) : Prop :=
  ∃ wtx, entry = .bound wtx ∧ wtx.tx.getHash env.node = hash ∧ wtx.tx.checkTransaction.isOk = true

/-- The loading of a wallet is safe and honest. -/
structure Safe (file : WalletFile) (loaded : Loaded) : Prop where
  keys : loaded.result = .loadOk ∨ loaded.result = .noncriticalError →
    ∀ record ∈ file.reached, isKeyType record.strType = true → KeyLoaded env loaded.wallet record
  entries : ∀ (hash : Uint256) (entry : LoadedTx), loaded.wallet.mapWallet[hash]? = some entry →
    EntryOk env hash entry
  untouched : ∀ before record after, file.reached = before ++ record :: after →
    Fails env before record → loaded.written = []

/-- The last record for a hash is read to the end of its transaction. -/
def LastRead (records : List Record) : Prop :=
  ∀ hash record, lastFor hash records = some record → record.ReadsTx env

theorem entryLeft_ok {hash : Uint256} {record : Record} {entry : LoadedTx}
    (hreads : record.ReadsTx env) (h : entryLeft env hash (ofBytes record.value) = some entry) :
    EntryOk env hash entry := by
  obtain ⟨⟨wtx, ssRest⟩, hvalue⟩ := hreads
  rw [entryLeft, hvalue] at h
  dsimp only at h
  split at h
  · cases h
  · next haccept =>
    cases h
    have haccept : accepted env hash wtx = true := by simpa using haccept
    rw [accepted, Bool.and_eq_true, beq_iff_eq] at haccept
    -- undoing serialize changes is not about the transaction itself
    have htx : (if needsUpgrade wtx then (upgradeTx wtx ssRest).1 else wtx).tx = wtx.tx := by
      unfold upgradeTx
      repeat' split
      all_goals rfl
    exact ⟨_, rfl, by rw [htx, haccept.2], by rw [htx, haccept.1]⟩

theorem scanRecords_entries {records : List Record} (h : LastRead env records) (hash : Uint256)
    (entry : LoadedTx) (hentry : (scanRecords env records).s.wallet.mapWallet[hash]? = some entry) :
    EntryOk env hash entry := by
  rw [scanRecords_mapWallet] at hentry
  obtain ⟨record, hlast, hleft⟩ := Option.bind_eq_some_iff.mp hentry
  exact entryLeft_ok env (h hash record hlast) hleft

/-- A transaction that is not read to its end stays in the wallet. -/
theorem scanRecords_unbound {records : List Record} {hash : Uint256} {record : Record}
    (hlast : lastFor hash records = some record) (hreads : ¬ record.ReadsTx env) :
    (scanRecords env records).s.wallet.mapWallet[hash]? = some .unbound := by
  rw [scanRecords_mapWallet, hlast, Option.bind_some, entryLeft]
  cases hvalue : get (CWalletTxRecord.serializer env.sizes) (ofBytes record.value) with
  | error e => rfl
  | ok item => exact absurd ⟨item, hvalue⟩ hreads

/-- The record before, and that of the hash. -/
theorem lastFor_split {hash : Uint256} {records : List Record} {record : Record}
    (h : lastFor hash records = some record) :
    ∃ before after, records = before ++ record :: after ∧ record.txHash = some hash := by
  have hmem := List.mem_of_getLast? h
  rw [List.mem_filter, decide_eq_true_eq] at hmem
  obtain ⟨before, after, hsplit⟩ := List.append_of_mem hmem.1
  exact ⟨before, after, hsplit, hmem.2⟩

theorem foldl_touchTx (hashes : List Uint256) (mapWallet : Map Uint256 LoadedTx)
    (h : ∀ hash ∈ hashes, mapWallet.contains hash = true) :
    hashes.foldl touchTx mapWallet = mapWallet := by
  induction hashes with
  | nil => rfl
  | cons hash hashes ih =>
    rw [List.foldl_cons, touchTx, if_pos (h hash List.mem_cons_self)]
    exact ih fun other hmem => h other (List.mem_cons_of_mem hash hmem)

theorem setPositions_ok (positions : Uint256 → Int) {mapWallet : Map Uint256 LoadedTx}
    (h : ∀ (hash : Uint256) (entry : LoadedTx), mapWallet[hash]? = some entry →
      EntryOk env hash entry) (hash : Uint256) (entry : LoadedTx)
    (hentry : (setPositions positions mapWallet)[hash]? = some entry) : EntryOk env hash entry := by
  rw [setPositions, Std.ExtTreeMap.getElem?_map] at hentry
  obtain ⟨old, hold, heq⟩ := Option.map_eq_some_iff.mp hentry
  obtain ⟨wtx, rfl, hhash, hcheck⟩ := h hash old hold
  subst heq
  exact ⟨_, rfl, hhash, hcheck⟩

/-- What is done behind the loop keeps keys and entries. -/
theorem finish_keeps (reorder : Wallet → (Uint256 → Int) × LoadErrors) {s : ScanState}
    (hupgrade : ∀ hash ∈ s.vWalletUpgrade, s.wallet.mapWallet.contains hash = true) :
    Grows s.wallet (finish reorder s).wallet ∧
      ((∀ (hash : Uint256) (entry : LoadedTx), s.wallet.mapWallet[hash]? = some entry →
        EntryOk env hash entry) →
      ∀ (hash : Uint256) (entry : LoadedTx), (finish reorder s).wallet.mapWallet[hash]? =
        some entry → EntryOk env hash entry) := by
  have htouch := foldl_touchTx s.vWalletUpgrade s.wallet.mapWallet hupgrade
  unfold finish
  rw [htouch]
  dsimp only
  split
  · exact ⟨.refl _, id⟩
  split
  · exact ⟨⟨fun _ h => h, fun _ _ h => h⟩, setPositions_ok env _⟩
  · exact ⟨.refl _, id⟩

/-- The ways in which `LoadWallet` returns. -/
theorem loadWallet_cases (reorder : Wallet → (Uint256 → Int) × LoadErrors) (file : WalletFile) :
    (file.reached = [] ∧ (loadWallet env reorder file).wallet = .new ∧
        (loadWallet env reorder file).written = [] ∧
        (loadWallet env reorder file).result ∈ [LoadErrors.tooNew, .corrupt]) ∨
      (file.reached = file.records ∧
        ((loadWallet env reorder file = ⟨.corrupt, (scanRecords env file.records).s.wallet, []⟩) ∨
          ((scanRecords env file.records).fCorrupt = false ∧
            loadWallet env reorder file =
              ⟨.noncriticalError, (scanRecords env file.records).s.wallet, []⟩) ∨
          ((scanRecords env file.records).fCorrupt = false ∧
            (scanRecords env file.records).fNoncriticalErrors = false ∧
            loadWallet env reorder file = finish reorder (scanRecords env file.records).s))) := by
  unfold loadWallet WalletFile.reached
  by_cases hnew : file.nMinVersion.any (· > clientVersion) = true
  · exact .inl (by simp [hnew])
  by_cases hcursor : file.fCursor = true
  · refine .inr ⟨by simp [hnew, hcursor], ?_⟩
    rw [if_neg hnew, if_neg (by simp [hcursor])]
    dsimp only
    split
    · exact .inl rfl
    · next hcorrupt =>
      rw [Bool.or_eq_true, not_or, Bool.not_eq_true, Bool.not_eq_true] at hcorrupt
      split
      · exact .inr (.inl ⟨hcorrupt.2, rfl⟩)
      · next hnoncritical => exact .inr (.inr ⟨hcorrupt.2, by simpa using hnoncritical, rfl⟩)
  · exact .inl (by simp [hnew, hcursor])

/-- Keys are loaded and nothing is written on damage, whatever the records are. -/
theorem loadWallet_keys (reorder : Wallet → (Uint256 → Int) × LoadErrors) (file : WalletFile)
    (h : (loadWallet env reorder file).result = .loadOk ∨
      (loadWallet env reorder file).result = .noncriticalError) :
    ∀ record ∈ file.reached, isKeyType record.strType = true →
      KeyLoaded env (loadWallet env reorder file).wallet record := by
  rcases loadWallet_cases env reorder file with ⟨hnone, -⟩ |
    ⟨hall, heq | ⟨hcorrupt, heq⟩ | ⟨hcorrupt, hnoncritical, heq⟩⟩
  · rw [hnone]
    exact fun _ hmem => absurd hmem List.not_mem_nil
  · rw [heq] at h
    rcases h with h | h <;> cases h
  · rw [hall, heq]
    exact scanRecords_keys env file.records hcorrupt
  · have hnone : ∀ before record after, file.records = before ++ record :: after →
        ¬ Fails env before record := fun before record after hsplit hfails => by
      rcases (scanRecords_failed env file.records).mpr ⟨before, record, after, hsplit, hfails⟩
        with hbad | hbad
      · rw [hcorrupt] at hbad
        cases hbad
      · rw [hnoncritical] at hbad
        cases hbad
    have hgrows := (finish_keeps env reorder (scanRecords_upgrade env file.records hnone)).1
    rw [hall, heq]
    exact fun record hmem hkey =>
      (scanRecords_keys env file.records hcorrupt record hmem hkey).grows env hgrows

theorem loadWallet_untouched (reorder : Wallet → (Uint256 → Int) × LoadErrors) (file : WalletFile)
    (before : List Record) (record : Record) (after : List Record)
    (hsplit : file.reached = before ++ record :: after) (hfails : Fails env before record) :
    (loadWallet env reorder file).written = [] := by
  rcases loadWallet_cases env reorder file with ⟨-, -, hnone, -⟩ |
    ⟨hall, heq | ⟨hcorrupt, heq⟩ | ⟨hcorrupt, hnoncritical, heq⟩⟩
  · exact hnone
  · rw [heq]
  · rw [heq]
  · -- behind the loop no record has failed
    rw [hall] at hsplit
    have hbad := (scanRecords_failed env file.records).mpr ⟨before, record, after, hsplit, hfails⟩
    simp [hcorrupt, hnoncritical] at hbad

theorem readTx_cutOff (s : ScanState) (ssKey : CDataStream) {ssValue : CDataStream} {e : Failure}
    (h : get (CWalletTxRecord.serializer env.sizes) ssValue = .error e) :
    (readTx env s ssKey ssValue).2 = false := by
  unfold readTx
  rw [h]
  split <;> rfl

/-- A record whose transaction is not read to its end fails. -/
theorem fails_of_not_readsTx (before : List Record) {record : Record} {hash : Uint256}
    (hhash : record.txHash = some hash) (hreads : ¬ record.ReadsTx env) :
    Fails env before record := by
  unfold Record.txHash at hhash
  split at hhash
  · cases hhash
  next strType ssKey htype =>
  split at hhash
  · next htx =>
    have hread : ∀ s, readKeyValue env s record =
        ((readTx env s ssKey (ofBytes record.value)).1, strType,
          (readTx env s ssKey (ofBytes record.value)).2) := fun s => by
      rw [readKeyValue, htype]
      dsimp only
      rw [readRecord, if_neg (by rw [htx]; decide +kernel), if_pos htx]
    rw [Fails, hread]
    cases hvalue : get (CWalletTxRecord.serializer env.sizes) (ofBytes record.value) with
    | error e => exact readTx_cutOff env _ ssKey hvalue
    | ok item => exact absurd ⟨item, hvalue⟩ hreads
  · cases hhash

theorem loadWallet_entries (reorder : Wallet → (Uint256 → Int) × LoadErrors) (file : WalletFile)
    (h : LastRead env file.reached) (hash : Uint256) (entry : LoadedTx)
    (hentry : (loadWallet env reorder file).wallet.mapWallet[hash]? = some entry) :
    EntryOk env hash entry := by
  rcases loadWallet_cases env reorder file with ⟨-, hnew, -⟩ |
    ⟨hall, heq | ⟨-, heq⟩ | ⟨hcorrupt, hnoncritical, heq⟩⟩
  · rw [hnew, Wallet.new, Map.getElem?_empty] at hentry
    cases hentry
  · rw [heq] at hentry
    exact scanRecords_entries env (hall ▸ h) hash entry hentry
  · rw [heq] at hentry
    exact scanRecords_entries env (hall ▸ h) hash entry hentry
  · have hnone : ∀ before record after, file.records = before ++ record :: after →
        ¬ Fails env before record := fun before record after hsplit hfails => by
      have hbad := (scanRecords_failed env file.records).mpr ⟨before, record, after, hsplit, hfails⟩
      simp [hcorrupt, hnoncritical] at hbad
    rw [heq] at hentry
    exact (finish_keeps env reorder (scanRecords_upgrade env file.records hnone)).2
      (scanRecords_entries env (hall ▸ h)) hash entry hentry

/-- A transaction that is not read to its end is still there at the end. -/
theorem loadWallet_unbound (reorder : Wallet → (Uint256 → Int) × LoadErrors) (file : WalletFile)
    {hash : Uint256} {record : Record} (hlast : lastFor hash file.reached = some record)
    (hreads : ¬ record.ReadsTx env) :
    (loadWallet env reorder file).wallet.mapWallet[hash]? = some .unbound := by
  rcases loadWallet_cases env reorder file with ⟨hnone, -⟩ |
    ⟨hall, heq | ⟨-, heq⟩ | ⟨hcorrupt, hnoncritical, -⟩⟩
  · rw [hnone] at hlast
    cases hlast
  · rw [heq]
    exact scanRecords_unbound env (hall ▸ hlast) hreads
  · rw [heq]
    exact scanRecords_unbound env (hall ▸ hlast) hreads
  · obtain ⟨before, after, hsplit, hhash⟩ := lastFor_split hlast
    rw [hall] at hsplit
    have hbad := (scanRecords_failed env file.records).mpr
      ⟨before, record, after, hsplit, fails_of_not_readsTx env before hhash hreads⟩
    simp [hcorrupt, hnoncritical] at hbad

/-- The loading is safe exactly when no transaction is cut off in the last record for its hash. -/
theorem loadWallet_safe_iff (reorder : Wallet → (Uint256 → Int) × LoadErrors) (file : WalletFile) :
    Safe env file (loadWallet env reorder file) ↔ LastRead env file.reached := by
  constructor
  · intro hsafe hash record hlast
    by_contra hreads
    obtain ⟨wtx, hentry, -⟩ :=
      hsafe.entries hash .unbound (loadWallet_unbound env reorder file hlast hreads)
    cases hentry
  · exact fun h => ⟨loadWallet_keys env reorder file, loadWallet_entries env reorder file h,
      loadWallet_untouched env reorder file⟩

section samples

/-- A node without keys. -/
def sampleLoad : LoadEnv where
  node := mainNet
  crypto := sampleCrypto
  d2iECPrivateKey _ _ := none
  checkKey _ := false
  sizes := ⟨⟨⟨1, by decide⟩, ⟨1, by decide⟩, ⟨1, by decide⟩⟩, ⟨1, by decide⟩, ⟨1, by decide⟩⟩

/-- The record of a transaction whose value has been cut off. -/
def cutOff : Record := ⟨[2, 0x74, 0x78] ++ List.replicate 32 0, []⟩

def cutOffFile : WalletFile := ⟨none, true, [cutOff], false⟩

theorem cutOff_unread : ¬ cutOff.ReadsTx sampleLoad := by
  rintro ⟨item, h⟩
  have herr : (get (CWalletTxRecord.serializer sampleLoad.sizes) (ofBytes cutOff.value)).isOk =
      false := by decide +kernel
  rw [h] at herr
  cases herr

/-- `ReorderTransactions` is not reached. -/
def noReorder (_ : Wallet) : (Uint256 → Int) × LoadErrors := (fun _ => 0, .loadOk)

/-- The wallet is used with an entry for a transaction that was not read. -/
theorem cutOff_leftBehind :
    (loadWallet sampleLoad noReorder cutOffFile).result = .noncriticalError ∧
      (loadWallet sampleLoad noReorder cutOffFile).wallet.mapWallet[(0 : Uint256)]? =
        some .unbound ∧
      ¬ Safe sampleLoad cutOffFile (loadWallet sampleLoad noReorder cutOffFile) := by
  have hlast : lastFor (0 : Uint256) cutOffFile.reached = some cutOff := by decide +kernel
  have hleft := loadWallet_unbound sampleLoad noReorder cutOffFile hlast cutOff_unread
  refine ⟨by decide +kernel, hleft, fun hsafe => ?_⟩
  obtain ⟨wtx, hentry, -⟩ := hsafe.entries 0 .unbound hleft
  cases hentry

end samples

end LoadWallet

end NoLimitCoin
