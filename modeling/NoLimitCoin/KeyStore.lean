import NoLimitCoin.Types

/-!
# Keys and key stores

`key.cpp`, `crypter.cpp` and `keystore.cpp`: a store of keys under the hash of their public key,
which can keep the secrets encrypted.

What OpenSSL and the hash functions do is a parameter.  A key is compressed in two places: the
conversion form of the OpenSSL key and the flag `fCompressedPubKey`.
-/

namespace NoLimitCoin

namespace KeyStore

abbrev CPubKey := List UInt8

/-- The hash of a public key. -/
abbrev CKeyID := Nat

abbrev CKeyingMaterial := List UInt8

/-- The 32 bytes of a private key. -/
abbrev Secret := { vchSecret : List UInt8 // vchSecret.length = 32 }

/-- The functions of OpenSSL and the hash functions that keys and key stores use. -/
structure Crypto where
  Point : Type
  /-- `EC_KEY_regenerate_key`: the public key of a secret. -/
  regenerateKey : Secret → Point
  /-- `i2o_ECPublicKey`, compressed or not. -/
  i2oECPublicKey : Point → Bool → CPubKey
  /-- `o2i_ECPublicKey`: the point and the form it was written in. -/
  o2iECPublicKey : CPubKey → Option (Point × Bool)
  hash160 : CPubKey → CKeyID
  hash : CPubKey → List UInt8
  /-- AES-256-CBC under a key and an initialization vector. -/
  aesEncrypt : (chKey chIV vchPlaintext : List UInt8) → List UInt8
  aesDecrypt : (chKey chIV vchCiphertext : List UInt8) → Option (List UInt8)

/-- The numbers below the order of the generator, without zero. -/
def Secret.InRange (secret : Secret) : Prop :=
  secret.val.any (· ≠ 0) ∧ secret.val ≤ [
    0xFF, 0xFF, 0xFF, 0xFF, 0xFF, 0xFF, 0xFF, 0xFF, 0xFF, 0xFF, 0xFF, 0xFF, 0xFF, 0xFF, 0xFF, 0xFE,
    0xBA, 0xAE, 0xDC, 0xE6, 0xAF, 0x48, 0xA0, 0x3B, 0xBF, 0xD2, 0x5E, 0x8C, 0xD0, 0x36, 0x41, 0x40]

variable (crypto : Crypto)

/-- The public key of a secret, in the form that is asked for. -/
def Crypto.pubKey (secret : Secret) (fCompressed : Bool) : CPubKey :=
  crypto.i2oECPublicKey (crypto.regenerateKey secret) fCompressed

/-! ## `CKey` -/

/-- An `EC_KEY`. -/
structure ECKey where
  priv : Option Secret
  point : Option crypto.Point
  convForm : Bool

structure CKey where
  pkey : ECKey crypto
  fSet : Bool
  fCompressedPubKey : Bool

namespace CKey

variable {crypto : Crypto} (key : CKey crypto)

/-- `Reset`, which is also what the constructor does. -/
def new : CKey crypto := ⟨⟨none, none, false⟩, false, false⟩

def setCompressedPubKey : CKey crypto :=
  { key with pkey := { key.pkey with convForm := true }, fCompressedPubKey := true }

/-- The flag of the key object is kept from before. -/
def setSecret (vchSecret : Secret) (fCompressed : Bool) : CKey crypto :=
  let key : CKey crypto :=
    { key with
      pkey := ⟨some vchSecret, some (crypto.regenerateKey vchSecret), false⟩
      fSet := true }
  if fCompressed || key.fCompressedPubKey then key.setCompressedPubKey else key

def setPubKey (vchPubKey : CPubKey) : CKey crypto :=
  match crypto.o2iECPublicKey vchPubKey with
  | some (point, convForm) =>
    let key : CKey crypto :=
      { key with pkey := { key.pkey with point := some point, convForm := convForm }, fSet := true }
    if vchPubKey.length = 33 then key.setCompressedPubKey else key
  | none => new

/-- The secret and the flag. -/
def getSecret : Except Exit (Secret × Bool) :=
  match key.pkey.priv with
  | some secret => .ok (secret, key.fCompressedPubKey)
  | none => .error (.abort "CKey::GetSecret() : EC_KEY_get0_private_key failed")

def getPubKey : Except Exit CPubKey :=
  match key.pkey.point with
  | some point => .ok (crypto.i2oECPublicKey point key.pkey.convForm)
  | none => .error (.abort "CKey::GetPubKey() : i2o_ECPublicKey failed")

end CKey

/-! ## `crypter.cpp` -/

/-- `WALLET_CRYPTO_KEY_SIZE`. -/
def walletCryptoKeySize : Nat := 32

/-- The initialization vector has the right size by itself. -/
def encryptSecret (vMasterKey : CKeyingMaterial) (vchPlaintext : Secret) (nIV : List UInt8) :
    Option (List UInt8) :=
  if vMasterKey.length ≠ walletCryptoKeySize then none
  else some (crypto.aesEncrypt vMasterKey nIV vchPlaintext.val)

def decryptSecret (vMasterKey : CKeyingMaterial) (vchCiphertext nIV : List UInt8) :
    Option (List UInt8) :=
  if vMasterKey.length ≠ walletCryptoKeySize then none
  else crypto.aesDecrypt vMasterKey nIV vchCiphertext

/-! ## `CCryptoKeyStore` -/

/-- `CCryptoKeyStore` with the maps of `CBasicKeyStore`, without redeem scripts. -/
structure CCryptoKeyStore where
  mapKeys : Map CKeyID (Secret × Bool)
  mapCryptedKeys : Map CKeyID (CPubKey × List UInt8)
  vMasterKey : CKeyingMaterial
  fUseCrypto : Bool

namespace CCryptoKeyStore

def empty : CCryptoKeyStore := ⟨∅, ∅, [], false⟩

section store

variable {crypto : Crypto} (store : CCryptoKeyStore)

def isLocked : Bool := if !store.fUseCrypto then false else store.vMasterKey.isEmpty

/-- The state and what was returned. -/
def setCrypted : CCryptoKeyStore × Bool :=
  if store.fUseCrypto then (store, true)
  else if !store.mapKeys.isEmpty then (store, false)
  else ({ store with fUseCrypto := true }, true)

def lock : CCryptoKeyStore × Bool :=
  match store.setCrypted with
  | (store, false) => (store, false)
  | (store, true) => ({ store with vMasterKey := [] }, true)

/-- The loop of `Unlock` looks at the first key only. -/
def checkFirstKey (crypto : Crypto) (vMasterKeyIn : CKeyingMaterial) : Except Exit Bool :=
  match store.mapCryptedKeys.toList with
  | [] => .ok true
  | (_, vchPubKey, vchCryptedSecret) :: _ =>
    match decryptSecret crypto vMasterKeyIn vchCryptedSecret (crypto.hash vchPubKey) with
    | none => .ok false
    | some vchSecret =>
      if h : vchSecret.length = 32 then do
        let key : CKey crypto := (CKey.new.setPubKey vchPubKey).setSecret ⟨vchSecret, h⟩ false
        let pubKey ← key.getPubKey
        return pubKey == vchPubKey
      else .ok false

def unlock (crypto : Crypto) (vMasterKeyIn : CKeyingMaterial) :
    Except Exit (CCryptoKeyStore × Bool) :=
  match store.setCrypted with
  | (store, false) => .ok (store, false)
  | (store, true) => do
    let fFits ← store.checkFirstKey crypto vMasterKeyIn
    return if fFits then ({ store with vMasterKey := vMasterKeyIn }, true) else (store, false)

def addCryptedKey (crypto : Crypto) (vchPubKey : CPubKey) (vchCryptedSecret : List UInt8) :
    CCryptoKeyStore × Bool :=
  match store.setCrypted with
  | (store, false) => (store, false)
  | (store, true) =>
    ({ store with
      mapCryptedKeys :=
        store.mapCryptedKeys.insert (crypto.hash160 vchPubKey) (vchPubKey, vchCryptedSecret) }, true)

/-- `CBasicKeyStore::AddKey`. -/
def basicAddKey (key : CKey crypto) : Except Exit (CCryptoKeyStore × Bool) := do
  let (secret, fCompressed) ← key.getSecret
  let vchPubKey ← key.getPubKey
  return ({ store with
    mapKeys := store.mapKeys.insert (crypto.hash160 vchPubKey) (secret, fCompressed) }, true)

def addKey (key : CKey crypto) : Except Exit (CCryptoKeyStore × Bool) :=
  if !store.fUseCrypto then store.basicAddKey key
  else if store.isLocked then .ok (store, false)
  else do
    let vchPubKey ← key.getPubKey
    let (secret, _) ← key.getSecret
    match encryptSecret crypto store.vMasterKey secret (crypto.hash vchPubKey) with
    | none => return (store, false)
    | some vchCryptedSecret => return store.addCryptedKey crypto vchPubKey vchCryptedSecret

def haveKey (address : CKeyID) : Bool :=
  if !store.fUseCrypto then store.mapKeys.contains address
  else store.mapCryptedKeys.contains address

/-- `CBasicKeyStore::GetKey`: what is returned, and `keyOut`. -/
def basicGetKey (address : CKeyID) (keyOut : CKey crypto) : Bool × CKey crypto :=
  match store.mapKeys[address]? with
  | some (secret, fCompressed) => (true, CKey.new.setSecret secret fCompressed)
  | none => (false, keyOut)

def getKey (address : CKeyID) (keyOut : CKey crypto) : Bool × CKey crypto :=
  if !store.fUseCrypto then store.basicGetKey address keyOut
  else
    match store.mapCryptedKeys[address]? with
    | some (vchPubKey, vchCryptedSecret) =>
      match decryptSecret crypto store.vMasterKey vchCryptedSecret (crypto.hash vchPubKey) with
      | none => (false, keyOut)
      | some vchSecret =>
        if h : vchSecret.length = 32 then
          (true, (keyOut.setPubKey vchPubKey).setSecret ⟨vchSecret, h⟩ false)
        else (false, keyOut)
    | none => (false, keyOut)

/-- `none` for `false`. -/
def getPubKey (crypto : Crypto) (address : CKeyID) : Except Exit (Option CPubKey) :=
  if !store.fUseCrypto then
    match store.getKey address (CKey.new : CKey crypto) with
    | (false, _) => .ok none
    | (true, key) => some <$> key.getPubKey
  else .ok (store.mapCryptedKeys[address]?.map (·.1))

/-- The loop of `EncryptKeys`, which ends early with what it has encrypted so far. -/
def encryptLoop (crypto : Crypto) (vMasterKeyIn : CKeyingMaterial) :
    List (CKeyID × Secret × Bool) → CCryptoKeyStore → Except Exit (CCryptoKeyStore × Bool)
  | [], store => .ok ({ store with mapKeys := ∅ }, true)
  | (_, secret, fCompressed) :: keys, store => do
    let key : CKey crypto := CKey.new.setSecret secret fCompressed
    let vchPubKey ← key.getPubKey
    let (secret, _) ← key.getSecret
    match encryptSecret crypto vMasterKeyIn secret (crypto.hash vchPubKey) with
    | none => return (store, false)
    | some vchCryptedSecret =>
      match store.addCryptedKey crypto vchPubKey vchCryptedSecret with
      | (store, false) => return (store, false)
      | (store, true) => encryptLoop crypto vMasterKeyIn keys store

def encryptKeys (crypto : Crypto) (vMasterKeyIn : CKeyingMaterial) :
    Except Exit (CCryptoKeyStore × Bool) :=
  if !store.mapCryptedKeys.isEmpty || store.fUseCrypto then .ok (store, false)
  else encryptLoop crypto vMasterKeyIn store.mapKeys.toList { store with fUseCrypto := true }

end store

end CCryptoKeyStore

end KeyStore

end NoLimitCoin
