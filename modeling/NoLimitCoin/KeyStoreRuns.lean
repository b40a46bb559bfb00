import NoLimitCoin.Bytes
import NoLimitCoin.KeyStore

/-!
# The encrypted key store and the keys added to it

A run of a key store next to the keys that have been added and the master key they are encrypted
under.

Results:

1. `CKey.setPubKey_setSecret`: the key that `GetKey` makes, which keeps the flag of the object it
   is written to.
2. `Inv.step`: what every operation keeps.
3. `keyStore_refines`: in every run, the store answers as the added keys say.
-/

namespace NoLimitCoin

namespace KeyStore

variable {crypto : Crypto}

/-- What is relied on: the encoding of public keys, and an encryption that is undone by the same
key only. -/
structure Crypto.Ideal (crypto : Crypto) : Prop where
  length_pubKey : ∀ secret fCompressed, secret.InRange →
    ((crypto.pubKey secret fCompressed).length = 33 ↔ fCompressed = true)
  o2i_pubKey : ∀ secret fCompressed, secret.InRange → ∃ convForm,
    crypto.o2iECPublicKey (crypto.pubKey secret fCompressed) =
      some (crypto.regenerateKey secret, convForm)
  decrypt_encrypt : ∀ chKey chIV vchPlaintext,
    crypto.aesDecrypt chKey chIV (crypto.aesEncrypt chKey chIV vchPlaintext) = some vchPlaintext
  wrong_key : ∀ chKey chKey' chIV (secret secret' : Secret) fCompressed, chKey ≠ chKey' →
    crypto.aesDecrypt chKey' chIV (crypto.aesEncrypt chKey chIV secret.val) = some secret'.val →
      crypto.pubKey secret' fCompressed ≠ crypto.pubKey secret fCompressed

/-! ## Runs -/

inductive Op (crypto : Crypto) where
  | addKey (key : CKey crypto)
  | encryptKeys (vMasterKeyIn : CKeyingMaterial)
  | lock
  | unlock (vMasterKeyIn : CKeyingMaterial)
  | haveKey (address : CKeyID)
  | getPubKey (address : CKeyID)
  | getKey (address : CKeyID) (keyOut : CKey crypto)

/-- A store with the keys that `AddKey` has taken, under the hash of their public keys, and the
master key that `EncryptKeys` or `Unlock` has taken last. -/
structure State where
  store : CCryptoKeyStore
  added : Map CKeyID (Secret × Bool)
  master : Option CKeyingMaterial

def State.initial : State := ⟨.empty, ∅, none⟩

def step (s : State) : Op crypto → Except Exit State
  | .addKey key => do
    let (store, fAdded) ← s.store.addKey key
    if fAdded then
      let k ← key.getSecret
      let vchPubKey ← key.getPubKey
      return ⟨store, s.added.insert (crypto.hash160 vchPubKey) k, s.master⟩
    else return { s with store := store }
  | .encryptKeys vMasterKeyIn => do
    let (store, fEncrypted) ← s.store.encryptKeys crypto vMasterKeyIn
    return ⟨store, s.added, if fEncrypted then some vMasterKeyIn else s.master⟩
  | .lock => .ok { s with store := s.store.lock.1 }
  | .unlock vMasterKeyIn => do
    let (store, fUnlocked) ← s.store.unlock crypto vMasterKeyIn
    return ⟨store, s.added, if fUnlocked then some vMasterKeyIn else s.master⟩
  | .haveKey _ => .ok s
  | .getPubKey address => do
    let _ ← s.store.getPubKey crypto address
    return s
  | .getKey _ _ => .ok s

def run (s : State) : List (Op crypto) → Except Exit State
  | [] => .ok s
  | op :: ops => do
    let s ← step s op
    run s ops

/-- A key with its secret, whose two marks of the compressed form agree. -/
structure KeyOk (key : CKey crypto) (secret : Secret) : Prop where
  priv : key.pkey.priv = some secret
  point : key.pkey.point = some (crypto.regenerateKey secret)
  inRange : secret.InRange
  convForm : key.pkey.convForm = key.fCompressedPubKey

/-- The key object that `GetKey` writes to is not marked compressed where the key is not. -/
def Fits (s : State) (address : CKeyID) (keyOut : CKey crypto) : Prop :=
  s.store.fUseCrypto = true → keyOut.fCompressedPubKey = true →
    ∀ k, s.added[address]? = some k → k.2 = true

def StepOk (s : State) : Op crypto → Prop
  | .addKey key => ∃ secret, KeyOk key secret
  | .encryptKeys vMasterKeyIn => s.store.fUseCrypto = false → s.added ≠ ∅ →
      vMasterKeyIn.length = walletCryptoKeySize
  | .unlock vMasterKeyIn => s.added = ∅ → s.master = none ∨ s.master = some vMasterKeyIn
  | .getKey address keyOut => Fits s address keyOut
  | _ => True

/-- Every step of the run meets the condition in the state it is in. -/
def Meets (s : State) : List (Op crypto) → Prop
  | [] => True
  | op :: ops => StepOk s op ∧ ∀ s', step s op = .ok s' → Meets s' ops

/-! ## What the store answers -/

/-- The store answers as the added keys say. -/
structure Faithful (crypto : Crypto) (s : State) : Prop where
  haveKey : ∀ address, s.store.haveKey address = s.added.contains address
  getPubKey : ∀ address, s.store.getPubKey crypto address =
    .ok (s.added[address]?.map fun k => crypto.pubKey k.1 k.2)
  /-- Unlocked, `GetKey` finds what was added. -/
  getKey : s.store.isLocked = false → ∀ address (keyOut : CKey crypto) k,
    Fits s address keyOut → s.added[address]? = some k → ∃ key vchPubKey,
      s.store.getKey address keyOut = (true, key) ∧ key.getSecret = .ok k ∧
      key.getPubKey = .ok vchPubKey ∧ crypto.hash160 vchPubKey = address
  getKey_none : ∀ address (keyOut : CKey crypto), s.added[address]? = none →
    s.store.getKey address keyOut = (false, keyOut)
  /-- Locked, `AddKey` and `GetKey` fail. -/
  locked : s.store.isLocked = true → (∀ key : CKey crypto, s.store.addKey key = .ok (s.store, false)) ∧
    ∀ address (keyOut : CKey crypto), s.store.getKey address keyOut = (false, keyOut)
  /-- `EncryptKeys` loses no key. -/
  encryptKeys : s.store.fUseCrypto = false → ∀ vMasterKeyIn,
    vMasterKeyIn.length = walletCryptoKeySize → ∃ store,
      s.store.encryptKeys crypto vMasterKeyIn = .ok (store, true) ∧ ∀ address,
        store.haveKey address = s.store.haveKey address ∧
        store.getPubKey crypto address = s.store.getPubKey crypto address
  /-- A wrong master key leaves the store locked. -/
  unlock : s.store.isLocked = true → ∀ master vMasterKeyIn, s.master = some master →
    vMasterKeyIn ≠ master → s.added ≠ ∅ →
      s.store.unlock crypto vMasterKeyIn = .ok (s.store, false)

/-! ## Key objects -/

namespace CKey

theorem new_setSecret (secret : Secret) (fCompressed : Bool) :
    (new : CKey crypto).setSecret secret fCompressed =
      ⟨⟨some secret, some (crypto.regenerateKey secret), fCompressed⟩, true, fCompressed⟩ := by
  cases fCompressed <;> rfl

/-- The flag of the object is kept. -/
theorem setPubKey_setSecret (hcrypto : crypto.Ideal) (keyOut : CKey crypto) {secret : Secret}
    (hrange : secret.InRange) (fCompressed : Bool) (secret' : Secret) :
    (keyOut.setPubKey (crypto.pubKey secret fCompressed)).setSecret secret' false =
      ⟨⟨some secret', some (crypto.regenerateKey secret'), fCompressed || keyOut.fCompressedPubKey⟩,
        true, fCompressed || keyOut.fCompressedPubKey⟩ := by
  obtain ⟨convForm, ho2i⟩ := hcrypto.o2i_pubKey secret fCompressed hrange
  have hlength := hcrypto.length_pubKey secret fCompressed hrange
  unfold setPubKey
  rw [ho2i]
  dsimp only
  cases fCompressed with
  | true =>
    rw [if_pos (hlength.mpr rfl)]
    rfl
  | false =>
    rw [if_neg fun h => absurd (hlength.mp h) (by decide)]
    cases hflag : keyOut.fCompressedPubKey <;> simp [setSecret, setCompressedPubKey]

end CKey

/-! ## The invariant -/

/-- What an encrypted key looks like. -/
def entry (crypto : Crypto) (master : CKeyingMaterial) (k : Secret × Bool) : CPubKey × List UInt8 :=
  let vchPubKey := crypto.pubKey k.1 k.2
  (vchPubKey, crypto.aesEncrypt master (crypto.hash vchPubKey) k.1.val)

/-- What holds between two operations. -/
structure StoreInv (crypto : Crypto) (s : State) : Prop where
  added : ∀ (address : CKeyID) (k : Secret × Bool), s.added[address]? = some k →
    crypto.hash160 (crypto.pubKey k.1 k.2) = address ∧ k.1.InRange
  plain : s.store.fUseCrypto = false →
    s.store.mapKeys = s.added ∧ s.store.mapCryptedKeys = ∅ ∧ s.store.vMasterKey = []
  noKeys : s.store.fUseCrypto = true → s.store.mapKeys = ∅
  crypted : s.store.fUseCrypto = true → ∀ (address : CKeyID) (k : Secret × Bool),
    s.added[address]? = some k → ∃ master, s.master = some master ∧
      master.length = walletCryptoKeySize ∧
      s.store.mapCryptedKeys[address]? = some (entry crypto master k)
  crypted_none : s.store.fUseCrypto = true → ∀ address : CKeyID, s.added[address]? = none →
    s.store.mapCryptedKeys[address]? = none
  master : s.store.vMasterKey ≠ [] → s.master = some s.store.vMasterKey

section keys

variable {key : CKey crypto} {secret : Secret}

theorem KeyOk.getSecret (h : KeyOk key secret) :
    key.getSecret = .ok (secret, key.fCompressedPubKey) := by
  rw [CKey.getSecret, h.priv]

theorem KeyOk.getPubKey (h : KeyOk key secret) :
    key.getPubKey = .ok (crypto.pubKey secret key.fCompressedPubKey) := by
  rw [CKey.getPubKey, h.point, h.convForm]
  rfl

end keys

theorem isLocked_eq_true {store : CCryptoKeyStore} :
    store.isLocked = true ↔ store.fUseCrypto = true ∧ store.vMasterKey = [] := by
  unfold CCryptoKeyStore.isLocked
  cases store.fUseCrypto <;> simp

theorem encryptSecret_eq_some {master : CKeyingMaterial} {secret : Secret} {nIV c : List UInt8} :
    encryptSecret crypto master secret nIV = some c ↔
      master.length = walletCryptoKeySize ∧ crypto.aesEncrypt master nIV secret.val = c := by
  unfold encryptSecret
  split
  · next hne =>
    exact ⟨fun h => absurd h (by simp), fun h => absurd h.1 hne⟩
  · next heq => rw [Option.some.injEq, and_iff_right (not_not.mp heq)]

/-- The same key decrypts. -/
theorem decryptSecret_aesEncrypt (hcrypto : crypto.Ideal) {master : CKeyingMaterial}
    (hlen : master.length = walletCryptoKeySize) (secret : Secret) (nIV : List UInt8) :
    decryptSecret crypto master (crypto.aesEncrypt master nIV secret.val) nIV =
      some secret.val := by
  rw [decryptSecret, if_neg (not_not.mpr hlen)]
  exact hcrypto.decrypt_encrypt _ _ _

/-! ### Adding a key -/

section addKey

variable {store : CCryptoKeyStore} {key : CKey crypto} {secret : Secret}

theorem addKey_plain (hkey : KeyOk key secret) (hplain : store.fUseCrypto = false) :
    store.addKey key = .ok ({ store with
      mapKeys := store.mapKeys.insert (crypto.hash160
        (crypto.pubKey secret key.fCompressedPubKey)) (secret, key.fCompressedPubKey) }, true) := by
  have hnot : (!store.fUseCrypto) = true := by rw [hplain]; rfl
  unfold CCryptoKeyStore.addKey
  rw [if_pos hnot, CCryptoKeyStore.basicAddKey, hkey.getSecret, hkey.getPubKey]
  rfl

theorem addKey_locked (key : CKey crypto) (hlocked : store.isLocked = true) :
    store.addKey key = .ok (store, false) := by
  rw [CCryptoKeyStore.addKey, (isLocked_eq_true.mp hlocked).1, hlocked]
  rfl

theorem setCrypted_crypted (hcrypted : store.fUseCrypto = true) :
    store.setCrypted = (store, true) := if_pos hcrypted

theorem addCryptedKey_crypted (hcrypted : store.fUseCrypto = true) (vchPubKey : CPubKey)
    (vchCryptedSecret : List UInt8) : store.addCryptedKey crypto vchPubKey vchCryptedSecret =
      ({ store with
        mapCryptedKeys := store.mapCryptedKeys.insert (crypto.hash160 vchPubKey)
          (vchPubKey, vchCryptedSecret) }, true) := by
  unfold CCryptoKeyStore.addCryptedKey
  rw [setCrypted_crypted hcrypted]

theorem addKey_unlocked (hkey : KeyOk key secret) (hcrypted : store.fUseCrypto = true)
    (hlocked : store.isLocked = false) : store.addKey key =
      .ok (match encryptSecret crypto store.vMasterKey secret
          (crypto.hash (crypto.pubKey secret key.fCompressedPubKey)) with
        | none => (store, false)
        | some c => store.addCryptedKey crypto
            (crypto.pubKey secret key.fCompressedPubKey) c) := by
  unfold CCryptoKeyStore.addKey
  rw [if_neg (by rw [hcrypted]; decide), if_neg (by rw [hlocked]; decide), hkey.getPubKey,
    hkey.getSecret]
  show (match encryptSecret crypto store.vMasterKey secret
    (crypto.hash (crypto.pubKey secret key.fCompressedPubKey)) with
      | none => _
      | some c => _) = _
  cases encryptSecret crypto store.vMasterKey secret _ <;> rfl

theorem addKey_crypted (hkey : KeyOk key secret) (hcrypted : store.fUseCrypto = true)
    (hlocked : store.isLocked = false) (hlen : store.vMasterKey.length = walletCryptoKeySize) :
    store.addKey key = .ok ({ store with
      mapCryptedKeys := store.mapCryptedKeys.insert (crypto.hash160
        (crypto.pubKey secret key.fCompressedPubKey))
        (entry crypto store.vMasterKey (secret, key.fCompressedPubKey)) }, true) := by
  have hencrypt := fun nIV => encryptSecret_eq_some.mpr
    ⟨hlen, Eq.refl (crypto.aesEncrypt store.vMasterKey nIV secret.val)⟩
  rw [addKey_unlocked hkey hcrypted hlocked, hencrypt]
  exact congrArg Except.ok (addCryptedKey_crypted hcrypted _ _)

/-- A master key of another size encrypts nothing. -/
theorem addKey_size (hkey : KeyOk key secret) (hcrypted : store.fUseCrypto = true)
    (hlocked : store.isLocked = false) (hlen : store.vMasterKey.length ≠ walletCryptoKeySize) :
    store.addKey key = .ok (store, false) := by
  rw [addKey_unlocked hkey hcrypted hlocked, encryptSecret, if_pos hlen]

end addKey

theorem StoreInv.addKey {s : State} {key : CKey crypto} {secret : Secret}
    (h : StoreInv crypto s) (hkey : KeyOk key secret) :
    ∃ s', step s (.addKey key) = .ok s' ∧ StoreInv crypto s' := by
  have hnew : ∀ (address : CKeyID) (k : Secret × Bool), (s.added.insert (crypto.hash160
      (crypto.pubKey secret key.fCompressedPubKey)) (secret, key.fCompressedPubKey))[address]? =
        some k → crypto.hash160 (crypto.pubKey k.1 k.2) = address ∧ k.1.InRange := by
    intro address k hk
    rw [Map.getElem?_insert] at hk
    split at hk
    · next heq =>
      obtain rfl := Option.some.inj hk
      exact ⟨heq, hkey.inRange⟩
    · exact h.added address k hk
  have hfail : s.store.addKey key = .ok (s.store, false) →
      ∃ s', step s (.addKey key) = .ok s' ∧ StoreInv crypto s' := by
    intro hadd
    refine ⟨s, ?_, h⟩
    rw [step, hadd]
    rfl
  cases hcrypted : s.store.fUseCrypto with
  | false =>
    obtain ⟨hmap, hnone, hmaster⟩ := h.plain hcrypted
    rw [step, addKey_plain hkey hcrypted, hkey.getSecret, hkey.getPubKey]
    refine ⟨_, rfl, ?_⟩
    have hfalse : ∀ {P : Prop}, s.store.fUseCrypto = true → P :=
      fun htrue => absurd (hcrypted.symm.trans htrue) (by decide)
    refine ⟨hnew, fun _ => ⟨?_, hnone, hmaster⟩, hfalse, hfalse, hfalse, h.master⟩
    show s.store.mapKeys.insert _ _ = _
    rw [hmap]
  | true =>
    cases hlocked : s.store.isLocked with
    | true => exact hfail (addKey_locked key hlocked)
    | false =>
      by_cases hlen : s.store.vMasterKey.length = walletCryptoKeySize
      · have hmaster : s.master = some s.store.vMasterKey := by
          refine h.master fun hnil => ?_
          rw [isLocked_eq_true.mpr ⟨hcrypted, hnil⟩] at hlocked
          cases hlocked
        rw [step, addKey_crypted hkey hcrypted hlocked hlen, hkey.getSecret, hkey.getPubKey]
        refine ⟨_, rfl, ?_⟩
        refine ⟨hnew, fun hfalse => absurd (hcrypted.symm.trans hfalse) (by decide), h.noKeys,
          fun _ address k hk => ?_, fun _ address hk => ?_, h.master⟩
        · show ∃ master, s.master = some master ∧ _ ∧ (s.store.mapCryptedKeys.insert _ _)[address]? = _
          rw [Map.getElem?_insert] at hk ⊢
          split at hk
          · next heq =>
            obtain rfl := Option.some.inj hk
            exact ⟨_, hmaster, hlen, if_pos heq⟩
          · next hne =>
            rw [if_neg hne]
            exact h.crypted hcrypted address k hk
        · show (s.store.mapCryptedKeys.insert _ _)[address]? = _
          rw [Map.getElem?_insert] at hk ⊢
          split at hk
          · cases hk
          · next hne =>
            rw [if_neg hne]
            exact h.crypted_none hcrypted address hk
      · exact hfail (addKey_size hkey hcrypted hlocked hlen)

/-! ### Encrypting the keys -/

/-- The keys, encrypted. -/
def encrypted (crypto : Crypto) (master : CKeyingMaterial) (keys : Map CKeyID (Secret × Bool)) :
    Map CKeyID (CPubKey × List UInt8) :=
  keys.toList.foldl (fun m item => m.insert item.1 (entry crypto master item.2)) ∅

theorem getElem?_encrypted (master : CKeyingMaterial) (keys : Map CKeyID (Secret × Bool))
    (address : CKeyID) :
    (encrypted crypto master keys)[address]? = keys[address]?.map (entry crypto master) := by
  cases hk : keys[address]? with
  | some k =>
    exact Map.getElem?_foldl_insert_of_mem (Map.pairwise_toList keys)
      ((Map.mem_toList keys address k).mpr hk) ∅
  | none =>
    refine (Map.getElem?_foldl_insert_of_ne (fun item hitem heq => ?_) ∅).trans
      (Map.getElem?_empty address)
    have hsome := (Map.mem_toList keys item.1 item.2).mp hitem
    rw [heq, hk] at hsome
    cases hsome

theorem encryptLoop_eq {master : CKeyingMaterial} {keys : List (CKeyID × Secret × Bool)}
    (hlen : keys ≠ [] → master.length = walletCryptoKeySize)
    (hkeys : ∀ item ∈ keys, crypto.hash160 (crypto.pubKey item.2.1 item.2.2) = item.1)
    (store : CCryptoKeyStore) (hcrypted : store.fUseCrypto = true) :
    CCryptoKeyStore.encryptLoop crypto master keys store =
      .ok ({ store with
        mapKeys := ∅
        mapCryptedKeys := keys.foldl (fun m item => m.insert item.1 (entry crypto master item.2))
          store.mapCryptedKeys }, true) := by
  induction keys generalizing store with
  | nil => rfl
  | cons item keys ih =>
    obtain ⟨address, secret, fCompressed⟩ := item
    rw [List.forall_mem_cons] at hkeys
    have hencrypt := fun nIV => encryptSecret_eq_some.mpr
      ⟨hlen (List.cons_ne_nil _ _), Eq.refl (crypto.aesEncrypt master nIV secret.val)⟩
    unfold CCryptoKeyStore.encryptLoop
    rw [CKey.new_setSecret]
    show (match encryptSecret crypto master secret
      (crypto.hash (crypto.pubKey secret fCompressed)) with
        | none => _
        | some c => _) = _
    rw [hencrypt]
    dsimp only
    rw [addCryptedKey_crypted hcrypted]
    dsimp only
    refine Eq.trans (ih ?_ hkeys.2 _ ?_) ?_
    · exact fun _ => hlen (List.cons_ne_nil _ _)
    · exact hcrypted
    · rw [List.foldl_cons, ← hkeys.1]
      rfl

theorem StoreInv.encryptKeys_eq {s : State} (h : StoreInv crypto s)
    (hplain : s.store.fUseCrypto = false) {master : CKeyingMaterial}
    (hlen : s.added ≠ ∅ → master.length = walletCryptoKeySize) :
    s.store.encryptKeys crypto master =
      .ok (⟨∅, encrypted crypto master s.added, [], true⟩, true) := by
  obtain ⟨hmap, hnone, hmaster⟩ := h.plain hplain
  unfold CCryptoKeyStore.encryptKeys
  rw [hnone, hplain, if_neg (by simp), hmap, encryptLoop_eq ?_ ?_ _ rfl, hmaster]
  · rfl
  · exact fun hne => hlen fun hempty => hne (Std.ExtTreeMap.toList_eq_nil_iff.mpr hempty)
  · exact fun item hitem => (h.added item.1 item.2 ((Map.mem_toList _ _ _).mp hitem)).1

/-- Encrypting the keys keeps them. -/
theorem StoreInv.encrypted {s : State} {master : CKeyingMaterial} (h : StoreInv crypto s)
    (hlen : s.added ≠ ∅ → master.length = walletCryptoKeySize) :
    StoreInv crypto
      ⟨⟨∅, KeyStore.encrypted crypto master s.added, [], true⟩, s.added, some master⟩ := by
  refine ⟨h.added, fun hfalse => (by cases hfalse), fun _ => rfl,
    fun _ address k hk => ⟨master, rfl, ?_, ?_⟩, fun _ address hk => ?_, fun hne => absurd rfl hne⟩
  · refine hlen fun hempty => ?_
    rw [hempty, Map.getElem?_empty] at hk
    cases hk
  · exact (getElem?_encrypted master s.added address).trans (by rw [hk]; rfl)
  · exact (getElem?_encrypted master s.added address).trans (by rw [hk]; rfl)

theorem StoreInv.encryptKeys {s : State} {master : CKeyingMaterial} (h : StoreInv crypto s)
    (hlen : s.store.fUseCrypto = false → s.added ≠ ∅ → master.length = walletCryptoKeySize) :
    ∃ s', step s (.encryptKeys master : Op crypto) = .ok s' ∧ StoreInv crypto s' := by
  cases hcrypted : s.store.fUseCrypto with
  | false =>
    rw [step, h.encryptKeys_eq hcrypted (hlen hcrypted)]
    exact ⟨_, rfl, h.encrypted (hlen hcrypted)⟩
  | true =>
    rw [step, CCryptoKeyStore.encryptKeys, hcrypted, Bool.or_true, if_pos rfl]
    exact ⟨_, rfl, h⟩

/-! ### Locking and unlocking -/

/-- A store without keys that becomes an encrypted one. -/
theorem StoreInv.setCrypted {s : State} (h : StoreInv crypto s)
    (hplain : s.store.fUseCrypto = false) (hempty : s.added = ∅) :
    StoreInv crypto { s with store := { s.store with fUseCrypto := true } } := by
  obtain ⟨hmap, hnone, hmaster⟩ := h.plain hplain
  refine ⟨h.added, fun hfalse => (by cases hfalse), fun _ => hmap.trans hempty,
    fun _ address k hk => ?_, fun _ address _ => ?_, h.master⟩
  · rw [hempty, Map.getElem?_empty] at hk
    cases hk
  · show s.store.mapCryptedKeys[address]? = none
    rw [hnone]
    exact Map.getElem?_empty address

theorem StoreInv.lock {s : State} (h : StoreInv crypto s) :
    StoreInv crypto { s with store := s.store.lock.1 } := by
  unfold CCryptoKeyStore.lock CCryptoKeyStore.setCrypted
  cases hcrypted : s.store.fUseCrypto with
  | true =>
    exact ⟨h.added, fun hfalse => absurd (hcrypted.symm.trans hfalse) (by decide), h.noKeys,
      h.crypted, h.crypted_none, fun hne => absurd rfl hne⟩
  | false =>
    obtain ⟨hmap, -, hmaster⟩ := h.plain hcrypted
    cases hempty : s.store.mapKeys.isEmpty with
    | false => exact h
    | true =>
      rw [Std.ExtTreeMap.isEmpty_iff, hmap] at hempty
      have hset := h.setCrypted hcrypted hempty
      exact ⟨hset.added, fun hfalse => (by cases hfalse), hset.noKeys, hset.crypted,
        hset.crypted_none, fun hne => absurd rfl hne⟩

/-- The first key tells whether the master key is the right one. -/
theorem StoreInv.checkFirstKey {s : State} (hcrypto : crypto.Ideal) (h : StoreInv crypto s)
    (hcrypted : s.store.fUseCrypto = true) (hne : s.added ≠ ∅) (vMasterKeyIn : CKeyingMaterial) :
    s.store.checkFirstKey crypto vMasterKeyIn = .ok (decide (s.master = some vMasterKeyIn)) := by
  unfold CCryptoKeyStore.checkFirstKey
  cases hlist : s.store.mapCryptedKeys.toList with
  | nil =>
    refine absurd (Std.ExtTreeMap.toList_eq_nil_iff.mp ?_) hne
    refine List.eq_nil_iff_forall_not_mem.mpr fun item hitem => ?_
    obtain ⟨master, -, -, hentry⟩ :=
      h.crypted hcrypted item.1 item.2 ((Map.mem_toList _ _ _).mp hitem)
    rw [← Map.mem_toList, hlist] at hentry
    exact List.not_mem_nil hentry
  | cons first rest =>
    obtain ⟨address, vchPubKey, vchCryptedSecret⟩ := first
    have hfirst := (Map.mem_toList s.store.mapCryptedKeys address (vchPubKey, vchCryptedSecret)).mp
      (by rw [hlist]; exact List.mem_cons_self)
    cases hk : s.added[address]? with
    | none =>
      rw [h.crypted_none hcrypted address hk] at hfirst
      cases hfirst
    | some k =>
      obtain ⟨master, hmaster, hlen, hentry⟩ := h.crypted hcrypted address k hk
      have hrange := (h.added address k hk).2
      rw [hentry] at hfirst
      obtain ⟨rfl, rfl⟩ := Prod.mk.inj (Option.some.inj hfirst)
      rw [hmaster]
      dsimp only
      by_cases heq : master = vMasterKeyIn
      · subst heq
        rw [decryptSecret_aesEncrypt hcrypto hlen]
        dsimp only
        rw [dif_pos k.1.property, CKey.setPubKey_setSecret hcrypto _ hrange, decide_eq_true rfl]
        show Except.ok (crypto.pubKey k.1 (k.2 || false) == crypto.pubKey k.1 k.2) = _
        rw [Bool.or_false, beq_self_eq_true]
      · rw [decide_eq_false fun hsome => heq (Option.some.inj hsome)]
        cases hdecrypt : decryptSecret crypto vMasterKeyIn
            (crypto.aesEncrypt master (crypto.hash (crypto.pubKey k.1 k.2)) k.1.val)
            (crypto.hash (crypto.pubKey k.1 k.2)) with
        | none => rfl
        | some vchSecret =>
          dsimp only
          split
          · next hsize =>
            rw [CKey.setPubKey_setSecret hcrypto _ hrange]
            show Except.ok (crypto.pubKey ⟨vchSecret, hsize⟩ (k.2 || false) ==
              crypto.pubKey k.1 k.2) = _
            rw [Bool.or_false]
            refine congrArg Except.ok (beq_eq_false_iff_ne.mpr ?_)
            refine hcrypto.wrong_key master vMasterKeyIn (crypto.hash (crypto.pubKey k.1 k.2)) k.1
              ⟨vchSecret, hsize⟩ k.2 heq ?_
            unfold decryptSecret at hdecrypt
            split at hdecrypt
            · cases hdecrypt
            · exact hdecrypt
          · rfl

theorem StoreInv.unlock_eq {s : State} (hcrypto : crypto.Ideal) (h : StoreInv crypto s)
    (hcrypted : s.store.fUseCrypto = true) (hne : s.added ≠ ∅) (vMasterKeyIn : CKeyingMaterial) :
    s.store.unlock crypto vMasterKeyIn = .ok (if s.master = some vMasterKeyIn then
      ({ s.store with vMasterKey := vMasterKeyIn }, true) else (s.store, false)) := by
  unfold CCryptoKeyStore.unlock
  rw [setCrypted_crypted hcrypted]
  dsimp only
  rw [h.checkFirstKey hcrypto hcrypted hne]
  by_cases hmaster : s.master = some vMasterKeyIn
  · rw [decide_eq_true hmaster, if_pos hmaster]
    rfl
  · rw [decide_eq_false hmaster, if_neg hmaster]
    rfl

section empty

variable {s : State} (h : StoreInv crypto s) (hempty : s.added = ∅)

include h hempty

theorem StoreInv.mapKeys_empty : s.store.mapKeys = ∅ := by
  cases hcrypted : s.store.fUseCrypto with
  | false => exact (h.plain hcrypted).1.trans hempty
  | true => exact h.noKeys hcrypted

theorem StoreInv.mapCryptedKeys_empty : s.store.mapCryptedKeys = ∅ := by
  cases hcrypted : s.store.fUseCrypto with
  | false => exact (h.plain hcrypted).2.1
  | true =>
    refine Map.ext fun address => ?_
    rw [h.crypted_none hcrypted address (by rw [hempty]; exact Map.getElem?_empty _),
      Map.getElem?_empty]

/-- A store without keys takes any master key. -/
theorem StoreInv.unlock_empty (vMasterKeyIn : CKeyingMaterial) :
    s.store.unlock crypto vMasterKeyIn =
      .ok ({ s.store with vMasterKey := vMasterKeyIn, fUseCrypto := true }, true) := by
  have hset : s.store.setCrypted = ({ s.store with fUseCrypto := true }, true) := by
    unfold CCryptoKeyStore.setCrypted
    have hmap : s.store.mapKeys.isEmpty = true :=
      Std.ExtTreeMap.isEmpty_iff.mpr (h.mapKeys_empty hempty)
    cases hcrypted : s.store.fUseCrypto with
    | false => rw [if_neg (by decide), if_neg (by rw [hmap]; decide)]
    | true => rw [if_pos rfl, ← hcrypted]
  unfold CCryptoKeyStore.unlock CCryptoKeyStore.checkFirstKey
  rw [hset]
  dsimp only
  rw [h.mapCryptedKeys_empty hempty, Std.ExtTreeMap.toList_eq_nil_iff.mpr rfl]
  rfl

end empty

theorem StoreInv.unlock {s : State} (hcrypto : crypto.Ideal) (h : StoreInv crypto s)
    (vMasterKeyIn : CKeyingMaterial) :
    ∃ s', step s (.unlock vMasterKeyIn : Op crypto) = .ok s' ∧ StoreInv crypto s' := by
  by_cases hempty : s.added = ∅
  · rw [step, h.unlock_empty hempty]
    refine ⟨_, rfl, ?_⟩
    refine ⟨h.added, fun hfalse => (by cases hfalse), fun _ => h.mapKeys_empty hempty,
      fun _ address k hk => ?_, fun _ address _ => ?_, fun _ => rfl⟩
    · rw [hempty, Map.getElem?_empty] at hk
      cases hk
    · show s.store.mapCryptedKeys[address]? = none
      rw [h.mapCryptedKeys_empty hempty]
      exact Map.getElem?_empty address
  · cases hcrypted : s.store.fUseCrypto with
    | false =>
      have hset : s.store.setCrypted = (s.store, false) := by
        unfold CCryptoKeyStore.setCrypted
        rw [if_neg (by rw [hcrypted]; decide), if_pos]
        rw [(h.plain hcrypted).1, Bool.not_eq_true', Bool.eq_false_iff]
        exact fun htrue => hempty (Std.ExtTreeMap.isEmpty_iff.mp htrue)
      rw [step, CCryptoKeyStore.unlock, hset]
      exact ⟨_, rfl, h⟩
    | true =>
      rw [step, h.unlock_eq hcrypto hcrypted hempty]
      split
      · next hmaster =>
        refine ⟨_, rfl, ?_⟩
        refine ⟨h.added, fun hfalse => absurd (hcrypted.symm.trans hfalse) (by decide), h.noKeys,
          fun _ address k hk => ?_, h.crypted_none, fun _ => rfl⟩
        obtain ⟨master, hmaster', hentry⟩ := h.crypted hcrypted address k hk
        exact ⟨master, hmaster.symm.trans hmaster', hentry⟩
      · exact ⟨_, rfl, h⟩

/-! ## Answers -/

theorem getKey_locked {store : CCryptoKeyStore} (hlocked : store.isLocked = true) (address : CKeyID)
    (keyOut : CKey crypto) : store.getKey address keyOut = (false, keyOut) := by
  obtain ⟨hcrypted, hnil⟩ := isLocked_eq_true.mp hlocked
  unfold CCryptoKeyStore.getKey
  rw [if_neg (by rw [hcrypted]; decide), hnil]
  cases store.mapCryptedKeys[address]? <;> rfl

section answers

variable {s : State} (h : StoreInv crypto s)

include h

theorem StoreInv.map_crypted (hcrypted : s.store.fUseCrypto = true) (address : CKeyID) :
    (s.store.mapCryptedKeys[address]?).map (·.1) =
      s.added[address]?.map fun k => crypto.pubKey k.1 k.2 := by
  cases hk : s.added[address]? with
  | none =>
    rw [h.crypted_none hcrypted address hk]
    rfl
  | some k =>
    obtain ⟨master, -, -, hentry⟩ := h.crypted hcrypted address k hk
    rw [hentry]
    rfl

theorem StoreInv.haveKey_eq (address : CKeyID) :
    s.store.haveKey address = s.added.contains address := by
  unfold CCryptoKeyStore.haveKey
  cases hcrypted : s.store.fUseCrypto with
  | false =>
    rw [(h.plain hcrypted).1]
    rfl
  | true =>
    have hmap := congrArg Option.isSome (h.map_crypted hcrypted address)
    rw [Option.isSome_map, Option.isSome_map] at hmap
    rw [if_neg (by decide), Std.ExtTreeMap.contains_eq_isSome_getElem?,
      Std.ExtTreeMap.contains_eq_isSome_getElem?]
    exact hmap

/-- Without encryption, `GetKey` resets the object it writes to. -/
theorem StoreInv.getKey_plain (hplain : s.store.fUseCrypto = false) (address : CKeyID)
    (keyOut : CKey crypto) : s.store.getKey address keyOut =
      match s.added[address]? with
      | some k => (true, CKey.new.setSecret k.1 k.2)
      | none => (false, keyOut) := by
  unfold CCryptoKeyStore.getKey
  rw [if_pos (by rw [hplain]; rfl), CCryptoKeyStore.basicGetKey, (h.plain hplain).1]
  cases s.added[address]? <;> rfl

theorem StoreInv.getKey_none {address : CKeyID} (hk : s.added[address]? = none)
    (keyOut : CKey crypto) : s.store.getKey address keyOut = (false, keyOut) := by
  cases hcrypted : s.store.fUseCrypto with
  | false => rw [h.getKey_plain hcrypted, hk]
  | true =>
    unfold CCryptoKeyStore.getKey
    rw [if_neg (by rw [hcrypted]; decide), h.crypted_none hcrypted address hk]

theorem StoreInv.getPubKey_eq (address : CKeyID) : s.store.getPubKey crypto address =
    .ok (s.added[address]?.map fun k => crypto.pubKey k.1 k.2) := by
  unfold CCryptoKeyStore.getPubKey
  cases hcrypted : s.store.fUseCrypto with
  | false =>
    rw [if_pos (by rfl), h.getKey_plain hcrypted]
    cases s.added[address]? with
    | none => rfl
    | some k =>
      dsimp only
      rw [CKey.new_setSecret]
      rfl
  | true =>
    rw [if_neg (by decide)]
    exact congrArg _ (h.map_crypted hcrypted address)

theorem StoreInv.getKey_eq (hcrypto : crypto.Ideal) (hlocked : s.store.isLocked = false)
    {address : CKeyID} {keyOut : CKey crypto} {k : Secret × Bool} (hfits : Fits s address keyOut)
    (hk : s.added[address]? = some k) : s.store.getKey address keyOut =
      (true, ⟨⟨some k.1, some (crypto.regenerateKey k.1), k.2⟩, true, k.2⟩) := by
  cases hcrypted : s.store.fUseCrypto with
  | false =>
    rw [h.getKey_plain hcrypted, hk]
    dsimp only
    rw [CKey.new_setSecret]
  | true =>
    obtain ⟨master, hmaster, hlen, hentry⟩ := h.crypted hcrypted address k hk
    have hkey : s.store.vMasterKey = master := by
      have hne : s.store.vMasterKey ≠ [] := by
        intro hnil
        rw [isLocked_eq_true.mpr ⟨hcrypted, hnil⟩] at hlocked
        cases hlocked
      exact Option.some.inj ((h.master hne).symm.trans hmaster)
    have hflag : (k.2 || keyOut.fCompressedPubKey) = k.2 := by
      cases hk2 : k.2 with
      | true => rfl
      | false =>
        cases hold : keyOut.fCompressedPubKey with
        | false => rfl
        | true => exact absurd (hk2.symm.trans (hfits hcrypted hold k hk)) (by decide)
    unfold CCryptoKeyStore.getKey
    rw [if_neg (by rw [hcrypted]; decide), hentry]
    dsimp only [entry]
    rw [hkey, decryptSecret_aesEncrypt hcrypto hlen]
    dsimp only
    rw [dif_pos k.1.property, CKey.setPubKey_setSecret hcrypto _ (h.added address k hk).2, hflag]

end answers

theorem StoreInv.faithful {s : State} (hcrypto : crypto.Ideal) (h : StoreInv crypto s) :
    Faithful crypto s where
  haveKey := h.haveKey_eq
  getPubKey := h.getPubKey_eq
  getKey hlocked address keyOut k hfits hk :=
    ⟨_, _, h.getKey_eq hcrypto hlocked hfits hk, rfl, rfl, (h.added address k hk).1⟩
  getKey_none address keyOut hk := h.getKey_none hk keyOut
  locked hlocked := ⟨fun key => addKey_locked key hlocked, getKey_locked hlocked⟩
  encryptKeys hplain master hlen := by
    have hafter := h.encrypted fun _ => hlen
    refine ⟨_, h.encryptKeys_eq hplain fun _ => hlen, fun address => ⟨?_, ?_⟩⟩
    · exact (hafter.haveKey_eq address).trans (h.haveKey_eq address).symm
    · exact (hafter.getPubKey_eq address).trans (h.getPubKey_eq address).symm
  unlock hlocked master vMasterKeyIn hmaster hne hadded := by
    rw [h.unlock_eq hcrypto (isLocked_eq_true.mp hlocked).1 hadded, if_neg]
    exact fun hsome => hne (Option.some.inj (hsome.symm.trans hmaster))

/-! ## Runs -/

/-- Every operation that meets the condition returns and keeps the invariant. -/
theorem StoreInv.step {s : State} {op : Op crypto} (hcrypto : crypto.Ideal) (h : StoreInv crypto s)
    (hok : StepOk s op) : ∃ s', KeyStore.step s op = .ok s' ∧ StoreInv crypto s' := by
  cases op with
  | addKey key =>
    obtain ⟨secret, hkey⟩ := hok
    exact h.addKey hkey
  | encryptKeys master => exact h.encryptKeys hok
  | lock => exact ⟨_, rfl, h.lock⟩
  | unlock master => exact h.unlock hcrypto master
  | haveKey address => exact ⟨s, rfl, h⟩
  | getPubKey address =>
    refine ⟨s, ?_, h⟩
    rw [KeyStore.step, h.getPubKey_eq]
    rfl
  | getKey address keyOut => exact ⟨s, rfl, h⟩

theorem StoreInv.run {s : State} {ops : List (Op crypto)} (hcrypto : crypto.Ideal)
    (h : StoreInv crypto s) (hok : Meets s ops) :
    ∃ s', KeyStore.run s ops = .ok s' ∧ StoreInv crypto s' := by
  induction ops generalizing s with
  | nil => exact ⟨s, rfl, h⟩
  | cons op ops ih =>
    obtain ⟨s₁, hstep, h₁⟩ := h.step hcrypto hok.1
    obtain ⟨s', hrun, hinv⟩ := ih h₁ (hok.2 s₁ hstep)
    refine ⟨s', ?_, hinv⟩
    rw [KeyStore.run, hstep]
    exact hrun

theorem StoreInv.initial : StoreInv crypto .initial := by
  refine ⟨fun address k hk => ?_, fun _ => ⟨rfl, rfl, rfl⟩, fun htrue => (by cases htrue),
    fun htrue => (by cases htrue), fun htrue => (by cases htrue), fun hne => absurd rfl hne⟩
  rw [State.initial, Map.getElem?_empty] at hk
  cases hk

/-- In every run whose steps meet the condition, the store answers as the added keys say. -/
theorem keyStore_refines (crypto : Crypto) (hcrypto : crypto.Ideal) (ops : List (Op crypto))
    (h : Meets .initial ops) :
    ∃ s, run .initial ops = .ok s ∧ Faithful crypto s := by
  obtain ⟨s, hrun, hinv⟩ := StoreInv.initial.run hcrypto h
  exact ⟨s, hrun, hinv.faithful hcrypto⟩

/-- A stand-in for OpenSSL: a public key is the secret behind a first byte, and what is encrypted
stands behind its key. -/
def plainCrypto : Crypto where
  Point := Secret
  regenerateKey secret := secret
  i2oECPublicKey point fCompressed :=
    if fCompressed then 2 :: point.val else 4 :: (point.val ++ List.replicate 32 0)
  o2iECPublicKey vchPubKey :=
    if h : ((vchPubKey.drop 1).take 32).length = 32 then
      some (⟨(vchPubKey.drop 1).take 32, h⟩, vchPubKey.length == 33)
    else none
  hash160 := leNat
  hash vchPubKey := vchPubKey
  aesEncrypt chKey _ vchPlaintext := chKey ++ vchPlaintext
  aesDecrypt chKey _ vchCiphertext :=
    if chKey.isPrefixOf vchCiphertext then some (vchCiphertext.drop chKey.length) else none

theorem plainCrypto_ideal : plainCrypto.Ideal where
  length_pubKey secret fCompressed _ := by
    cases fCompressed with
    | true => exact ⟨fun _ => rfl, fun _ => congrArg (· + 1) secret.property⟩
    | false =>
      have hlen : (plainCrypto.pubKey secret false).length = 65 := by
        show (secret.val ++ List.replicate 32 0).length + 1 = 65
        rw [List.length_append, secret.property, List.length_replicate]
      rw [hlen]
      decide
  o2i_pubKey secret fCompressed _ := by
    have htake : ((plainCrypto.pubKey secret fCompressed).drop 1).take 32 = secret.val := by
      cases fCompressed with
      | true => exact List.take_of_length_le (Nat.le_of_eq secret.property)
      | false => exact List.take_left' secret.property
    have hlen := (congrArg List.length htake).trans secret.property
    refine ⟨(plainCrypto.pubKey secret fCompressed).length == 33, ?_⟩
    show (if h : _ then some (_, _) else none) = _
    rw [dif_pos hlen]
    exact congrArg (fun point => some (point, _)) (Subtype.ext htake)
  decrypt_encrypt chKey chIV vchPlaintext := by
    show (if chKey.isPrefixOf (chKey ++ vchPlaintext) then some _ else none) = _
    rw [if_pos (List.isPrefixOf_iff_prefix.mpr (List.prefix_append _ _))]
    exact congrArg some List.drop_left
  wrong_key chKey chKey' chIV secret secret' fCompressed hne hdecrypt := by
    have hdecrypt : (if chKey'.isPrefixOf (chKey ++ secret.val) then
        some ((chKey ++ secret.val).drop chKey'.length) else none) = some secret'.val := hdecrypt
    split at hdecrypt
    · next hpre =>
      have hlen := congrArg List.length (Option.some.inj hdecrypt)
      rw [List.length_drop, List.length_append, secret.property, secret'.property] at hlen
      obtain ⟨rest, hrest⟩ := List.isPrefixOf_iff_prefix.mp hpre
      exact absurd (List.append_inj hrest (by omega)).1.symm hne
    · cases hdecrypt

def someSecret : Secret := ⟨List.replicate 32 1, rfl⟩
def masterKey : CKeyingMaterial := List.replicate 32 7

/-- A key with an uncompressed public key, and its hash. -/
def someKey : CKey plainCrypto := CKey.new.setSecret someSecret false
def someAddress : CKeyID := plainCrypto.hash160 (plainCrypto.pubKey someSecret false)

theorem keyStore_refines_locked : ∃ s, run .initial
    [.addKey someKey, .encryptKeys masterKey, .lock, .getKey someAddress CKey.new] = .ok s ∧
      Faithful plainCrypto s :=
  keyStore_refines plainCrypto plainCrypto_ideal _
    ⟨⟨someSecret, rfl, rfl, ⟨by decide, by decide⟩, rfl⟩, fun _ _ => ⟨fun _ _ => rfl, fun _ _ =>
      ⟨trivial, fun _ _ => ⟨fun _ h => absurd h (by decide), fun _ _ => trivial⟩⟩⟩⟩

/-- What can be seen of the state after a run. -/
def outcome {α : Type} (ops : List (Op plainCrypto)) (f : State → α) : Option α :=
  (run .initial ops).toOption.map f

/-- `GetKey` writes a key with another public key to an object that held a compressed one; a store
without keys is unlocked by a second master key; and a master key of the wrong size loses the
keys. -/
theorem keyStore_not_refined :
    outcome [.addKey someKey, .encryptKeys masterKey, .unlock masterKey] (fun s =>
      let r := s.store.getKey someAddress (CKey.new.setCompressedPubKey : CKey plainCrypto)
      (s.store.isLocked, r.1, r.2.getPubKey.toOption == some (plainCrypto.pubKey someSecret true))) =
        some (false, true, true) ∧
    plainCrypto.hash160 (plainCrypto.pubKey someSecret true) ≠ someAddress ∧
    outcome [.encryptKeys masterKey, .unlock (List.replicate 32 8)] (fun s => s.store.isLocked) =
      some false ∧
    outcome [.addKey someKey, .encryptKeys [7]] (fun s => s.store.haveKey someAddress) =
      some false := by
  refine ⟨?_, ?_, ?_, ?_⟩ <;> decide +kernel

end KeyStore

end NoLimitCoin
