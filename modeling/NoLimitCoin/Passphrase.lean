import NoLimitCoin.KeyStoreRuns

/-!
# Passphrases of the wallet

`Unlock` and `ChangeWalletPassphrase` of `wallet.cpp` try the passphrase on one master key after
another.  Both return from the middle when a key cannot be derived or the decryption fails, and
`ChangeWalletPassphrase` locks the wallet first.

Results:
1. `unlockLoop_eq`, `changeLoop_eq`: the loops look for the first master key that is opened, and
   give up at the first one that cannot be tried.
2. `passphrase_exact`: exactly when `Unlock` finds what there is to find, and exactly when a failed
   `ChangeWalletPassphrase` changes nothing.
-/

namespace NoLimitCoin

namespace KeyStore

/-! ## Master keys -/

structure CMasterKey where
  vchCryptedKey : List UInt8
  vchSalt : List UInt8
  nDerivationMethod : Nat
  nDeriveIterations : Nat
deriving Repr, DecidableEq

/-- The functions of OpenSSL and scrypt that a passphrase goes through. -/
structure CrypterEnv where
  /-- `EVP_BytesToKey`: the key and the initialization vector, unless it fails. -/
  evpBytesToKey : (data salt : List UInt8) → (nRounds : Nat) → Option (List UInt8 × List UInt8)
  /-- `scrypt_salted_multiround_hash`. -/
  scryptHash : (passphrase salt : List UInt8) → (nRounds : Nat) → List UInt8
  /-- `EVP_EncryptInit_ex` to `EVP_EncryptFinal_ex`: whether they succeeded, and the buffer. -/
  evpEncrypt : (chKey chIV vchPlaintext : List UInt8) → Bool × List UInt8

/-- `WALLET_CRYPTO_SALT_SIZE`. -/
def walletCryptoSaltSize : Nat := 8

/-- `CCrypter::SetKeyFromPassphrase`. -/
def setKeyFromPassphrase (cenv : CrypterEnv) (strKeyData chSalt : List UInt8)
    (nRounds nDerivationMethod : Nat) : Option (List UInt8 × List UInt8) :=
  if nRounds < 1 ∨ chSalt.length ≠ walletCryptoSaltSize then none
  else
    match nDerivationMethod with
    | 0 => cenv.evpBytesToKey strKeyData chSalt nRounds
    | 1 => cenv.evpBytesToKey (cenv.scryptHash strKeyData chSalt nRounds) chSalt nRounds
    | _ => none

/-- A master key under a passphrase: `none` when no key is derived or the padding is wrong. -/
def openMasterKey (crypto : Crypto) (cenv : CrypterEnv) (passphrase : List UInt8)
    (masterKey : CMasterKey) : Option CKeyingMaterial :=
  (setKeyFromPassphrase cenv passphrase masterKey.vchSalt masterKey.nDeriveIterations
    masterKey.nDerivationMethod).bind fun key =>
      crypto.aesDecrypt key.1 key.2 masterKey.vchCryptedKey

/-- `CWallet` with its master keys. -/
structure CryptedWallet where
  store : CCryptoKeyStore
  mapMasterKeys : Map Nat CMasterKey

/-! ## `Unlock` -/

def unlockLoop (crypto : Crypto) (cenv : CrypterEnv) (passphrase : List UInt8) :
    List (Nat × CMasterKey) → CCryptoKeyStore → Except Exit (CCryptoKeyStore × Bool)
  | [], store => .ok (store, false)
  | (_, masterKey) :: masterKeys, store =>
    match openMasterKey crypto cenv passphrase masterKey with
    | none => .ok (store, false)
    | some vMasterKey => do
      let unlocked ← store.unlock crypto vMasterKey
      if unlocked.2 then return unlocked
      else unlockLoop crypto cenv passphrase masterKeys unlocked.1

/-- `CWallet::Unlock`. -/
def CryptedWallet.unlock (crypto : Crypto) (cenv : CrypterEnv) (wallet : CryptedWallet)
    (passphrase : List UInt8) : Except Exit (CryptedWallet × Bool) :=
  if !wallet.store.isLocked then .ok (wallet, false)
  else do
    let unlocked ← unlockLoop crypto cenv passphrase wallet.mapMasterKeys.toList wallet.store
    return ({ wallet with store := unlocked.1 }, unlocked.2)

/-! ## `ChangeWalletPassphrase` -/

/-- What the measured times make of the number of iterations, in two steps. -/
structure Calibration where
  first : Nat → Nat
  second : Nat → Nat

/-- The master key under the new passphrase, and whether that succeeded.  The number of iterations
and the buffer of the ciphertext are written before the steps that can fail. -/
def rewrite (cenv : CrypterEnv) (calibration : Calibration) (passphrase : List UInt8)
    (masterKey : CMasterKey) (vMasterKey : CKeyingMaterial) : CMasterKey × Bool :=
  let nDeriveIterations :=
    max 25000 (calibration.second (calibration.first masterKey.nDeriveIterations))
  let masterKey := { masterKey with nDeriveIterations := nDeriveIterations }
  match setKeyFromPassphrase cenv passphrase masterKey.vchSalt masterKey.nDeriveIterations
      masterKey.nDerivationMethod with
  | none => (masterKey, false)
  | some key =>
    let encrypted := cenv.evpEncrypt key.1 key.2 vMasterKey
    ({ masterKey with vchCryptedKey := encrypted.2 }, encrypted.1)

def changeLoop (crypto : Crypto) (cenv : CrypterEnv) (calibration : Calibration)
    (oldPassphrase newPassphrase : List UInt8) (fWasLocked : Bool) :
    List (Nat × CMasterKey) → CryptedWallet → Except Exit (CryptedWallet × Bool)
  | [], wallet => .ok (wallet, false)
  | (id, masterKey) :: masterKeys, wallet =>
    match openMasterKey crypto cenv oldPassphrase masterKey with
    | none => .ok (wallet, false)
    | some vMasterKey => do
      let unlocked ← wallet.store.unlock crypto vMasterKey
      let wallet := { wallet with store := unlocked.1 }
      if unlocked.2 then
        let rewritten := rewrite cenv calibration newPassphrase masterKey vMasterKey
        let wallet := { wallet with
          mapMasterKeys := wallet.mapMasterKeys.insert id rewritten.1 }
        if rewritten.2 then
          return (if fWasLocked then { wallet with store := wallet.store.lock.1 } else wallet, true)
        else return (wallet, false)
      else
        changeLoop crypto cenv calibration oldPassphrase newPassphrase fWasLocked masterKeys wallet

/-- `CWallet::ChangeWalletPassphrase`. -/
def CryptedWallet.changeWalletPassphrase (crypto : Crypto) (cenv : CrypterEnv)
    (calibration : Calibration) (wallet : CryptedWallet)
    (oldPassphrase newPassphrase : List UInt8) : Except Exit (CryptedWallet × Bool) :=
  changeLoop crypto cenv calibration oldPassphrase newPassphrase wallet.store.isLocked
    wallet.mapMasterKeys.toList { wallet with store := wallet.store.lock.1 }

/-! ## The store -/

variable {crypto : Crypto} {cenv : CrypterEnv} {store : CCryptoKeyStore}

/-- The check of the first key always ends. -/
theorem checkFirstKey_ok (store : CCryptoKeyStore) (vMasterKey : CKeyingMaterial) :
    ∃ fFits, store.checkFirstKey crypto vMasterKey = .ok fFits := by
  unfold CCryptoKeyStore.checkFirstKey
  split
  · exact ⟨true, rfl⟩
  · split
    · exact ⟨false, rfl⟩
    · next vchPubKey _ _ _ _ vchSecret _ =>
      split
      · next hlength =>
        have hpoint : ∀ key : CKey crypto, ∃ pubKey,
            (key.setSecret ⟨vchSecret, hlength⟩ false).getPubKey = .ok pubKey := by
          intro key
          unfold CKey.setSecret
          dsimp only
          split
          · exact ⟨_, rfl⟩
          · exact ⟨_, rfl⟩
        obtain ⟨pubKey, hpubKey⟩ := hpoint (CKey.new.setPubKey vchPubKey)
        dsimp only
        rw [hpubKey]
        exact ⟨_, rfl⟩
      · exact ⟨false, rfl⟩

/-- The keying material fits the encrypted keys. -/
def FitsKeys (crypto : Crypto) (store : CCryptoKeyStore) (vMasterKey : CKeyingMaterial) : Prop :=
  store.setCrypted.2 = true ∧ store.checkFirstKey crypto vMasterKey = .ok true

/-- `SetCrypted` has nothing more to do. -/
def Settled (store : CCryptoKeyStore) : Prop := store.setCrypted.1 = store

theorem unlock_of_fits (hsettled : Settled store) {vMasterKey : CKeyingMaterial}
    (h : FitsKeys crypto store vMasterKey) :
    store.unlock crypto vMasterKey = .ok ({ store with vMasterKey := vMasterKey }, true) := by
  obtain ⟨hcrypted, hfits⟩ := h
  unfold CCryptoKeyStore.unlock
  rw [show store.setCrypted = (store, true) from Prod.ext hsettled hcrypted]
  dsimp only
  rw [hfits]
  rfl

theorem unlock_of_not_fits (hsettled : Settled store) {vMasterKey : CKeyingMaterial}
    (h : ¬ FitsKeys crypto store vMasterKey) :
    store.unlock crypto vMasterKey = .ok (store, false) := by
  unfold CCryptoKeyStore.unlock
  cases hcrypted : store.setCrypted.2 with
  | false => rw [show store.setCrypted = (store, false) from Prod.ext hsettled hcrypted]
  | true =>
    rw [show store.setCrypted = (store, true) from Prod.ext hsettled hcrypted]
    dsimp only
    obtain ⟨fFits, hfits⟩ := @checkFirstKey_ok crypto store vMasterKey
    cases fFits with
    | true => exact absurd ⟨hcrypted, hfits⟩ h
    | false =>
      rw [hfits]
      rfl

theorem settled_of_locked (h : store.isLocked = true) : Settled store := by
  unfold CCryptoKeyStore.isLocked at h
  unfold Settled CCryptoKeyStore.setCrypted
  split
  · rfl
  · next hplain =>
    rw [if_pos (by simpa using hplain)] at h
    cases h

theorem settled_lock (store : CCryptoKeyStore) : Settled store.lock.1 := by
  unfold Settled CCryptoKeyStore.lock CCryptoKeyStore.setCrypted
  by_cases hcrypted : store.fUseCrypto = true
  · rw [if_pos hcrypted]
    dsimp only
    rw [if_pos hcrypted]
  · rw [if_neg hcrypted]
    by_cases hkeys : (!store.mapKeys.isEmpty) = true
    · rw [if_pos hkeys]
      dsimp only
      rw [if_neg hcrypted, if_pos hkeys]
    · rw [if_neg hkeys]
      rfl

/-! ## The loops -/

/-- A loop that tries the passphrase opens this master key: those before it gave material for other
keys. -/
inductive Reaches (crypto : Crypto) (cenv : CrypterEnv) (store : CCryptoKeyStore)
    (passphrase : List UInt8) :
    List (Nat × CMasterKey) → Nat → CMasterKey → CKeyingMaterial → Prop
  | here {id masterKey vMasterKey masterKeys}
      (hopen : openMasterKey crypto cenv passphrase masterKey = some vMasterKey)
      (hfits : FitsKeys crypto store vMasterKey) :
      Reaches crypto cenv store passphrase ((id, masterKey) :: masterKeys) id masterKey vMasterKey
  | there {id masterKey vMasterKey masterKeys id' masterKey' vMasterKey'}
      (hopen : openMasterKey crypto cenv passphrase masterKey' = some vMasterKey')
      (hfits : ¬ FitsKeys crypto store vMasterKey')
      (h : Reaches crypto cenv store passphrase masterKeys id masterKey vMasterKey) :
      Reaches crypto cenv store passphrase ((id', masterKey') :: masterKeys) id masterKey vMasterKey

/-- The passphrase decrypts the master key to the keying material of the wallet. -/
def Opens (crypto : Crypto) (cenv : CrypterEnv) (store : CCryptoKeyStore)
    (passphrase : List UInt8) (masterKey : CMasterKey) : Prop :=
  ∃ vMasterKey, openMasterKey crypto cenv passphrase masterKey = some vMasterKey ∧
    FitsKeys crypto store vMasterKey

section loops

variable {passphrase newPassphrase : List UInt8} {masterKeys : List (Nat × CMasterKey)} {id : Nat}
  {masterKey : CMasterKey} {vMasterKey : CKeyingMaterial}

theorem Reaches.opens
    (h : Reaches crypto cenv store passphrase masterKeys id masterKey vMasterKey) :
    (id, masterKey) ∈ masterKeys ∧
      openMasterKey crypto cenv passphrase masterKey = some vMasterKey ∧
      FitsKeys crypto store vMasterKey := by
  induction h with
  | here hopen hfits => exact ⟨List.mem_cons_self, hopen, hfits⟩
  | there _ _ _ ih => exact ⟨List.mem_cons_of_mem _ ih.1, ih.2⟩

theorem unlockLoop_of_reaches (hsettled : Settled store)
    (h : Reaches crypto cenv store passphrase masterKeys id masterKey vMasterKey) :
    unlockLoop crypto cenv passphrase masterKeys store =
      .ok ({ store with vMasterKey := vMasterKey }, true) := by
  induction h with
  | here hopen hfits =>
    rw [unlockLoop, hopen]
    dsimp only
    rw [unlock_of_fits hsettled hfits]
    rfl
  | there hopen hfits _ ih =>
    rw [unlockLoop, hopen]
    dsimp only
    rw [unlock_of_not_fits hsettled hfits]
    exact ih

theorem unlockLoop_of_not_reaches (hsettled : Settled store)
    (h : ∀ id masterKey vMasterKey,
      ¬ Reaches crypto cenv store passphrase masterKeys id masterKey vMasterKey) :
    unlockLoop crypto cenv passphrase masterKeys store = .ok (store, false) := by
  induction masterKeys with
  | nil => rfl
  | cons first masterKeys ih =>
    obtain ⟨id, masterKey⟩ := first
    rw [unlockLoop]
    cases hopen : openMasterKey crypto cenv passphrase masterKey with
    | none => rfl
    | some vMasterKey =>
      have hfits : ¬ FitsKeys crypto store vMasterKey := fun hfits => h _ _ _ (.here hopen hfits)
      dsimp only
      rw [unlock_of_not_fits hsettled hfits]
      exact ih fun id' masterKey' vMasterKey' hrest => h _ _ _ (.there hopen hfits hrest)

variable {calibration : Calibration} {fWasLocked : Bool} {wallet : CryptedWallet}

theorem changeLoop_of_reaches (hsettled : Settled wallet.store)
    (h : Reaches crypto cenv wallet.store passphrase masterKeys id masterKey vMasterKey) :
    ∃ wallet', changeLoop crypto cenv calibration passphrase newPassphrase fWasLocked masterKeys
        wallet =
        .ok (wallet', (rewrite cenv calibration newPassphrase masterKey vMasterKey).2) ∧
      ((rewrite cenv calibration newPassphrase masterKey vMasterKey).2 = false →
        wallet' = ⟨{ wallet.store with vMasterKey := vMasterKey }, wallet.mapMasterKeys.insert id
          (rewrite cenv calibration newPassphrase masterKey vMasterKey).1⟩) := by
  generalize hstore : wallet.store = store at h
  rw [hstore] at hsettled
  induction h with
  | here hopen hfits =>
    rw [changeLoop, hopen]
    dsimp only
    rw [hstore, unlock_of_fits hsettled hfits]
    dsimp only [bind, Except.bind]
    rw [if_pos rfl]
    split
    · next hrewritten =>
      rw [hrewritten]
      exact ⟨_, rfl, (fun hfalse => by cases hfalse)⟩
    · next hrewritten =>
      rw [Bool.not_eq_true] at hrewritten
      rw [hrewritten]
      exact ⟨_, rfl, fun _ => rfl⟩
  | there hopen hfits _ ih =>
    rw [changeLoop, hopen]
    dsimp only
    rw [hstore, unlock_of_not_fits hsettled hfits]
    have hsame : ({ wallet with store := store } : CryptedWallet) = wallet := by
      rw [← hstore]
    dsimp only [bind, Except.bind]
    rw [hsame, if_neg (by decide)]
    exact ih

theorem changeLoop_of_not_reaches (hsettled : Settled wallet.store)
    (h : ∀ id masterKey vMasterKey,
      ¬ Reaches crypto cenv wallet.store passphrase masterKeys id masterKey vMasterKey) :
    changeLoop crypto cenv calibration passphrase newPassphrase fWasLocked masterKeys wallet =
      .ok (wallet, false) := by
  induction masterKeys with
  | nil => rfl
  | cons first masterKeys ih =>
    obtain ⟨id, masterKey⟩ := first
    rw [changeLoop]
    cases hopen : openMasterKey crypto cenv passphrase masterKey with
    | none => rfl
    | some vMasterKey =>
      have hfits : ¬ FitsKeys crypto wallet.store vMasterKey :=
        fun hfits => h _ _ _ (.here hopen hfits)
      dsimp only
      rw [unlock_of_not_fits hsettled hfits]
      dsimp only [bind, Except.bind]
      rw [if_neg (by decide)]
      exact ih fun id' masterKey' vMasterKey' hrest => h _ _ _ (.there hopen hfits hrest)

end loops

/-! ## Locking -/

theorem isLocked_lock (store : CCryptoKeyStore) :
    store.lock.1.isLocked = store.isLocked ↔
      store.isLocked = true ∨ store.setCrypted.2 = false := by
  unfold CCryptoKeyStore.lock CCryptoKeyStore.isLocked CCryptoKeyStore.setCrypted
  obtain ⟨mapKeys, mapCryptedKeys, vMasterKey, fUseCrypto⟩ := store
  cases fUseCrypto with
  | true =>
    show (true = vMasterKey.isEmpty) ↔ vMasterKey.isEmpty = true ∨ true = false
    rw [eq_comm, or_iff_left (by decide)]
  | false =>
    dsimp only
    cases mapKeys.isEmpty with
    | true =>
      show true = false ↔ false = true ∨ true = false
      exact ⟨.inr, fun h => h.resolve_left (by decide)⟩
    | false => exact ⟨fun _ => .inr rfl, fun _ => rfl⟩

/-- A store that has been unlocked is locked only if the keying material is empty. -/
theorem isLocked_of_fits {vMasterKey : CKeyingMaterial} (hsettled : Settled store)
    (h : FitsKeys crypto store vMasterKey) :
    ({ store with vMasterKey := vMasterKey } : CCryptoKeyStore).isLocked = vMasterKey.isEmpty := by
  have hcrypted := h.1
  unfold Settled at hsettled
  unfold CCryptoKeyStore.isLocked
  have huse : store.fUseCrypto = true := by
    unfold CCryptoKeyStore.setCrypted at hsettled hcrypted
    split at hcrypted
    · assumption
    · next hplain =>
      rw [if_neg hplain] at hsettled
      split at hcrypted
      · cases hcrypted
      · next hkeys =>
        rw [if_neg hkeys] at hsettled
        rw [← hsettled]
  dsimp only
  rw [huse]
  rfl

theorem insert_eq_self_iff {masterKeys : Map Nat CMasterKey} {id : Nat}
    {masterKey masterKey' : CMasterKey} (h : masterKeys[id]? = some masterKey) :
    masterKeys.insert id masterKey' = masterKeys ↔ masterKey' = masterKey := by
  constructor
  · intro heq
    have hget := Map.getElem?_insert masterKeys id id masterKey'
    rw [heq, h, if_pos rfl] at hget
    exact (Option.some.inj hget).symm
  · rintro rfl
    refine Map.ext fun id' => ?_
    rw [Map.getElem?_insert]
    split
    · next heq =>
      subst heq
      exact h.symm
    · rfl

/-! ## Both operations -/

/-- `Unlock` succeeds exactly when the passphrase opens some master key. -/
def UnlockFinds (crypto : Crypto) (cenv : CrypterEnv) (wallet : CryptedWallet)
    (passphrase : List UInt8) : Prop :=
  ∃ wallet' fUnlocked, wallet.unlock crypto cenv passphrase = .ok (wallet', fUnlocked) ∧
    (fUnlocked = true ↔ ∃ entry ∈ wallet.mapMasterKeys.toList,
      Opens crypto cenv wallet.store passphrase entry.2)

/-- `ChangeWalletPassphrase` changes nothing when it fails. -/
def ChangeKeeps (crypto : Crypto) (cenv : CrypterEnv) (calibration : Calibration)
    (wallet : CryptedWallet) (oldPassphrase newPassphrase : List UInt8) : Prop :=
  ∃ wallet' fChanged,
    wallet.changeWalletPassphrase crypto cenv calibration oldPassphrase newPassphrase =
      .ok (wallet', fChanged) ∧
    (fChanged = false → wallet'.mapMasterKeys = wallet.mapMasterKeys ∧
      wallet'.store.isLocked = wallet.store.isLocked)

theorem unlockFinds_iff (wallet : CryptedWallet) (passphrase : List UInt8) :
    UnlockFinds crypto cenv wallet passphrase ↔
      ((∃ entry ∈ wallet.mapMasterKeys.toList,
          Opens crypto cenv wallet.store passphrase entry.2) →
        wallet.store.isLocked = true ∧ ∃ id masterKey vMasterKey, Reaches crypto cenv
          wallet.store passphrase wallet.mapMasterKeys.toList id masterKey vMasterKey) := by
  by_cases hlocked : wallet.store.isLocked = true
  · have hsettled := settled_of_locked hlocked
    by_cases hreaches : ∃ id masterKey vMasterKey, Reaches crypto cenv wallet.store passphrase
        wallet.mapMasterKeys.toList id masterKey vMasterKey
    · refine ⟨fun _ _ => ⟨hlocked, hreaches⟩, fun _ => ?_⟩
      obtain ⟨id, masterKey, vMasterKey, h⟩ := hreaches
      obtain ⟨hmem, hopens⟩ := h.opens
      refine ⟨{ wallet with store := { wallet.store with vMasterKey := vMasterKey } }, true, ?_,
        fun _ => ⟨_, hmem, vMasterKey, hopens⟩, fun _ => rfl⟩
      unfold CryptedWallet.unlock
      rw [hlocked, unlockLoop_of_reaches hsettled h]
      rfl
    · have hunlock : wallet.unlock crypto cenv passphrase = .ok (wallet, false) := by
        unfold CryptedWallet.unlock
        rw [hlocked, unlockLoop_of_not_reaches hsettled fun id masterKey vMasterKey h =>
          hreaches ⟨id, masterKey, vMasterKey, h⟩]
        rfl
      constructor
      · rintro ⟨wallet', fUnlocked, hrun, hiff⟩ hopens
        rw [hunlock] at hrun
        cases hrun
        cases hiff.mpr hopens
      · intro hcond
        refine ⟨wallet, false, hunlock, (fun hfalse => by cases hfalse), fun hopens => ?_⟩
        exact absurd (hcond hopens).2 hreaches
  · have hunlock : wallet.unlock crypto cenv passphrase = .ok (wallet, false) := by
      unfold CryptedWallet.unlock
      rw [Bool.not_eq_true] at hlocked
      rw [hlocked]
      rfl
    constructor
    · rintro ⟨wallet', fUnlocked, hrun, hiff⟩ hopens
      rw [hunlock] at hrun
      cases hrun
      cases hiff.mpr hopens
    · intro hcond
      refine ⟨wallet, false, hunlock, (fun hfalse => by cases hfalse), fun hopens => ?_⟩
      exact absurd (hcond hopens).1 hlocked

/-- The loops find one master key at most. -/
theorem Reaches.unique {passphrase : List UInt8} {masterKeys : List (Nat × CMasterKey)}
    {id id' : Nat} {masterKey masterKey' : CMasterKey} {vMasterKey vMasterKey' : CKeyingMaterial}
    (h : Reaches crypto cenv store passphrase masterKeys id masterKey vMasterKey)
    (h' : Reaches crypto cenv store passphrase masterKeys id' masterKey' vMasterKey') :
    id = id' ∧ masterKey = masterKey' ∧ vMasterKey = vMasterKey' := by
  induction h with
  | here hopen hfits =>
    cases h' with
    | here hopen' _ => exact ⟨rfl, rfl, Option.some.inj (hopen.symm.trans hopen')⟩
    | there hopen' hfits' _ =>
      obtain rfl := Option.some.inj (hopen.symm.trans hopen')
      exact absurd hfits hfits'
  | there hopen hfits _ ih =>
    cases h' with
    | here hopen' hfits' =>
      obtain rfl := Option.some.inj (hopen.symm.trans hopen')
      exact absurd hfits' hfits
    | there _ _ hrest => exact ih hrest

theorem changeKeeps_iff (calibration : Calibration) (wallet : CryptedWallet)
    (oldPassphrase newPassphrase : List UInt8) :
    ChangeKeeps crypto cenv calibration wallet oldPassphrase newPassphrase ↔
      (∀ id masterKey vMasterKey, Reaches crypto cenv wallet.store.lock.1 oldPassphrase
          wallet.mapMasterKeys.toList id masterKey vMasterKey →
        (rewrite cenv calibration newPassphrase masterKey vMasterKey).2 = true ∨
        (rewrite cenv calibration newPassphrase masterKey vMasterKey).1 = masterKey ∧
          vMasterKey.isEmpty = wallet.store.isLocked) ∧
      ((∀ id masterKey vMasterKey, ¬ Reaches crypto cenv wallet.store.lock.1 oldPassphrase
          wallet.mapMasterKeys.toList id masterKey vMasterKey) →
        wallet.store.isLocked = true ∨ wallet.store.setCrypted.2 = false) := by
  have hsettled := settled_lock wallet.store
  have hlocked := isLocked_lock wallet.store
  by_cases hreaches : ∃ id masterKey vMasterKey, Reaches crypto cenv wallet.store.lock.1
      oldPassphrase wallet.mapMasterKeys.toList id masterKey vMasterKey
  · obtain ⟨id, masterKey, vMasterKey, h⟩ := hreaches
    obtain ⟨wallet', hrun, hfailed⟩ := @changeLoop_of_reaches crypto cenv oldPassphrase
      newPassphrase _ id masterKey vMasterKey calibration wallet.store.isLocked
      { wallet with store := wallet.store.lock.1 } hsettled h
    obtain ⟨hmem, -, hfits⟩ := h.opens
    have hentry := (Map.mem_toList _ _ _).mp hmem
    constructor
    · rintro ⟨wallet'', fChanged, hrun', hkeeps⟩
      unfold CryptedWallet.changeWalletPassphrase at hrun'
      rw [hrun] at hrun'
      cases hrun'
      refine ⟨fun id' masterKey' vMasterKey' h' => ?_, fun hnone => absurd h (hnone _ _ _)⟩
      obtain ⟨rfl, rfl, rfl⟩ := h.unique h'
      cases hrewritten : (rewrite cenv calibration newPassphrase masterKey vMasterKey).2 with
      | true => exact .inl rfl
      | false =>
        obtain ⟨hkeys, hlock⟩ := hkeeps hrewritten
        rw [hfailed hrewritten] at hkeys hlock
        exact .inr ⟨(insert_eq_self_iff hentry).mp hkeys,
          (isLocked_of_fits hsettled hfits).symm.trans hlock⟩
    · rintro ⟨hcond, -⟩
      refine ⟨wallet', _, hrun, fun hrewritten => ?_⟩
      rw [hfailed hrewritten]
      rcases hcond _ _ _ h with htrue | ⟨hsame, hempty⟩
      · rw [hrewritten] at htrue
        cases htrue
      · exact ⟨(insert_eq_self_iff hentry).mpr hsame,
          (isLocked_of_fits hsettled hfits).trans hempty⟩
  · have hnone : ∀ id masterKey vMasterKey, ¬ Reaches crypto cenv wallet.store.lock.1
        oldPassphrase wallet.mapMasterKeys.toList id masterKey vMasterKey :=
      fun id masterKey vMasterKey h => hreaches ⟨id, masterKey, vMasterKey, h⟩
    have hrun := @changeLoop_of_not_reaches crypto cenv oldPassphrase newPassphrase _ calibration
      wallet.store.isLocked { wallet with store := wallet.store.lock.1 } hsettled hnone
    constructor
    · rintro ⟨wallet', fChanged, hrun', hkeeps⟩
      unfold CryptedWallet.changeWalletPassphrase at hrun'
      rw [hrun] at hrun'
      cases hrun'
      exact ⟨fun id masterKey vMasterKey h => absurd h (hnone _ _ _),
        fun _ => hlocked.mp (hkeeps rfl).2⟩
    · rintro ⟨-, hcond⟩
      exact ⟨_, false, hrun, fun _ => ⟨rfl, hlocked.mpr (hcond hnone)⟩⟩

/-- Exactly when `Unlock` finds the master key of a passphrase: the wallet is locked, and no master
key before it stops the loop.  Exactly when a failed `ChangeWalletPassphrase` changes nothing: the
wallet was locked or has nothing to lock, and what has been found is encrypted again or left as it
was. -/
theorem passphrase_exact (crypto : Crypto) (cenv : CrypterEnv) (calibration : Calibration)
    (wallet : CryptedWallet) (passphrase newPassphrase : List UInt8) :
    (UnlockFinds crypto cenv wallet passphrase ↔
      ((∃ entry ∈ wallet.mapMasterKeys.toList,
          Opens crypto cenv wallet.store passphrase entry.2) →
        wallet.store.isLocked = true ∧ ∃ id masterKey vMasterKey, Reaches crypto cenv
          wallet.store passphrase wallet.mapMasterKeys.toList id masterKey vMasterKey)) ∧
    (ChangeKeeps crypto cenv calibration wallet passphrase newPassphrase ↔
      (∀ id masterKey vMasterKey, Reaches crypto cenv wallet.store.lock.1 passphrase
          wallet.mapMasterKeys.toList id masterKey vMasterKey →
        (rewrite cenv calibration newPassphrase masterKey vMasterKey).2 = true ∨
        (rewrite cenv calibration newPassphrase masterKey vMasterKey).1 = masterKey ∧
          vMasterKey.isEmpty = wallet.store.isLocked) ∧
      ((∀ id masterKey vMasterKey, ¬ Reaches crypto cenv wallet.store.lock.1 passphrase
          wallet.mapMasterKeys.toList id masterKey vMasterKey) →
        wallet.store.isLocked = true ∨ wallet.store.setCrypted.2 = false)) :=
  ⟨unlockFinds_iff wallet passphrase,
    changeKeeps_iff calibration wallet passphrase newPassphrase⟩

section samples

/-- A cipher whose ciphertext is the key, for the keying material `[1]`. -/
def sampleCrypto : Crypto where
  Point := Unit
  regenerateKey _ := ()
  i2oECPublicKey _ _ := []
  o2iECPublicKey _ := none
  hash160 _ := 0
  hash _ := []
  aesEncrypt chKey _ _ := chKey
  aesDecrypt chKey _ vchCiphertext := if vchCiphertext = chKey then some [1] else none

/-- The key is the passphrase itself. -/
def sampleCrypter : CrypterEnv where
  evpBytesToKey data _ _ := some (data, [])
  scryptHash passphrase _ _ := passphrase
  evpEncrypt chKey _ _ := (true, chKey)

/-- The master key of a passphrase of one byte. -/
def sampleMasterKey (b : UInt8) : CMasterKey := ⟨[b], List.replicate 8 0, 1, 25000⟩

/-- A wallet with the master keys of the passphrases `[1]` and `[2]`. -/
def twoPassphrases (vMasterKey : CKeyingMaterial) : CryptedWallet where
  store := ⟨∅, ∅, vMasterKey, true⟩
  mapMasterKeys :=
    ((∅ : Map Nat CMasterKey).insert 1 (sampleMasterKey 1)).insert 2 (sampleMasterKey 2)

/-- The second passphrase is not found, and a wrong one locks the wallet. -/
theorem second_passphrase_not_found :
    Opens sampleCrypto sampleCrypter (twoPassphrases []).store [2] (sampleMasterKey 2) ∧
      (twoPassphrases []).mapMasterKeys[2]? = some (sampleMasterKey 2) ∧
      (((twoPassphrases []).unlock sampleCrypto sampleCrypter [2]).toOption.map (·.2)) =
        some false ∧
      (twoPassphrases [1]).store.isLocked = false ∧
      (((twoPassphrases [1]).changeWalletPassphrase sampleCrypto sampleCrypter ⟨id, id⟩ [3]
        [4]).toOption.map fun changed => (changed.1.store.isLocked, changed.2)) =
          some (true, false) := by
  refine ⟨⟨[1], by decide +kernel, by decide +kernel, by decide +kernel⟩, by decide +kernel,
    by decide +kernel, by decide +kernel, by decide +kernel⟩

end samples

end KeyStore

end NoLimitCoin
