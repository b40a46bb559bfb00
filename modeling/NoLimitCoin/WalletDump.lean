import NoLimitCoin.Base58
import NoLimitCoin.DumpText
import NoLimitCoin.KeyStoreRuns

/-!
# Dumping and importing a wallet

`dumpwallet` and `importwallet` of `rpcdump.cpp`: a file with a line for each key, with its birth
time and its label or a mark that it has none.

The text of dates, the build strings and which writes to `wallet.dat` work are parameters.  The
rescan after an import changes no key, label or birth time, as there is no default key yet, and is
left out.

Results:
1. `getKeyBirthTimes_covers`: every key of the wallet has a birth time.
2. `dumpLine_words`: how a line is split when it is read.
3. `dump_import`: an import into an empty wallet gives the keys, labels and birth times of the dump.
-/

namespace NoLimitCoin.WalletDump

open KeyStore

/-! ## Wallets -/

/-- How an RPC ends early. -/
inductive Thrown where
  | rpcError (message : String)
  | runtimeError (what : String)
  | exit (e : Exit)
deriving Repr, DecidableEq

/-- What the source takes from elsewhere. -/
structure DumpEnv where
  crypto : Crypto
  hash : List UInt8 → Uint256
  fTestNet : Bool
  fWalletUnlockStakingOnly : Bool
  /-- `EncodeDumpTime` and `DecodeDumpTime`. -/
  encodeDumpTime : Int → List UInt8
  decodeDumpTime : List UInt8 → Int
  clientBuild : List UInt8
  clientDate : List UInt8
  /-- Whether the key can be written to `wallet.dat`. -/
  written : CKeyID → Bool

structure CBlockIndex where
  nHeight : Int
  nTime : Nat
deriving Repr, DecidableEq

/-- What a dump says about the chain; `pindexMax` is 144 blocks below the best block. -/
structure ChainTip where
  now : Int
  nBestHeight : Int
  hashBestChain : Uint256
  pindexBest : CBlockIndex
  pindexMax : CBlockIndex

/-- The part of `CWallet` that is dumped.  The address book has the labels of key ids; `keyPool` is
what `ReadPool` finds for each index of the pool; `vAffected` has, for each output of a wallet
transaction in the main chain, its block and the keys that it affects. -/
structure CWallet where
  keyStore : CCryptoKeyStore
  mapKeyMetadata : Map CKeyID Int
  mapAddressBook : Map CKeyID (List UInt8)
  keyPool : List (Option CPubKey)
  vAffected : List (CBlockIndex × List CKeyID)
  nTimeFirstKey : Int

/-- `EnsureWalletIsUnlocked`. -/
def ensureWalletIsUnlocked (env : DumpEnv) (w : CWallet) : Except Thrown Unit :=
  if w.keyStore.isLocked then
    .error (.rpcError ("Error: Please enter the wallet passphrase with walletpassphrase first."))
  else if env.fWalletUnlockStakingOnly then
    .error (.rpcError "Error: Wallet is unlocked for staking only.")
  else .ok ()

/-! ## Birth times -/

/-- `GetKeys`. -/
def getKeys (keyStore : CCryptoKeyStore) : List CKeyID :=
  if !keyStore.fUseCrypto then keyStore.mapKeys.toList.map (·.1)
  else keyStore.mapCryptedKeys.toList.map (·.1)

/-- An output in a block affects a key: the key is not younger than the block. -/
def lowerFirstBlock (block : CBlockIndex) (mapKeyFirstBlock : Map CKeyID CBlockIndex)
    (keyid : CKeyID) : Map CKeyID CBlockIndex :=
  match mapKeyFirstBlock[keyid]? with
  | some first =>
    if block.nHeight < first.nHeight then mapKeyFirstBlock.insert keyid block else mapKeyFirstBlock
  | none => mapKeyFirstBlock

/-- The first block that affects a key, for the keys without a birth time of their own. -/
def keyFirstBlocks (pindexMax : CBlockIndex) (w : CWallet) (mapKeyBirth : Map CKeyID Int) :
    Map CKeyID CBlockIndex :=
  let mapKeyFirstBlock := ((getKeys w.keyStore).filter fun keyid =>
    !mapKeyBirth.contains keyid).foldl (fun m keyid => m.insert keyid pindexMax) ∅
  w.vAffected.foldl (fun m affected => affected.2.foldl (lowerFirstBlock affected.1) m)
    mapKeyFirstBlock

/-- `GetKeyBirthTimes`; the time of a block is unsigned. -/
def getKeyBirthTimes (pindexMax : CBlockIndex) (w : CWallet) : Map CKeyID Int :=
  let mapKeyBirth := w.mapKeyMetadata.filter fun _ nCreateTime => decide (nCreateTime ≠ 0)
  (keyFirstBlocks pindexMax w mapKeyBirth).toList.foldl
    (fun m item => m.insert item.1 (((item.2.nTime : Int) - 7200) % 2 ^ 32)) mapKeyBirth

/-- `GetAllReserveKeys`. -/
def getAllReserveKeys (crypto : Crypto) (w : CWallet) : Except Thrown (List CKeyID) :=
  w.keyPool.mapM fun keypool =>
    match keypool with
    | none => .error (.runtimeError "GetAllReserveKeyHashes() : read failed")
    | some vchPubKey =>
      -- `IsValid` of a public key
      if ¬ (vchPubKey.length = 33 ∨ vchPubKey.length = 65) then
        .error (.exit (.abort "keypool.vchPubKey.IsValid()"))
      else if ¬ w.keyStore.haveKey (crypto.hash160 vchPubKey) then
        .error (.runtimeError "GetAllReserveKeyHashes() : unknown key in key pool")
      else .ok (crypto.hash160 vchPubKey)

/-! ## Dumping -/

def labelPrefix : List UInt8 := "label=".toUTF8.toList
def reserveMark : List UInt8 := "reserve=1".toUTF8.toList
def changeMark : List UInt8 := "change=1".toUTF8.toList
def addrPrefix : List UInt8 := "addr=".toUTF8.toList

/-- What is said about a key between its birth time and its address. -/
def keyMark (w : CWallet) (setKeyPool : List CKeyID) (keyid : CKeyID) : List UInt8 :=
  match w.mapAddressBook[keyid]? with
  | some label => labelPrefix ++ cStr (encodeDumpString label)
  | none => if keyid ∈ setKeyPool then reserveMark else changeMark

/-- `CBitcoinSecret(secret, IsCompressed).ToString()`. -/
def secretText (env : DumpEnv) (k : Secret × Bool) : List UInt8 :=
  (CBitcoinSecret.ofSecret env.fTestNet k.1.1 k.2).toString env.hash

/-- `CBitcoinAddress(keyid).ToString()`. -/
def addressText (env : DumpEnv) (keyid : CKeyID) : List UInt8 :=
  (CBitcoinAddress.ofDestination env.fTestNet (.keyID (leBytes 20 keyid))).toString env.hash

/-- The words of a line. -/
def lineWords (env : DumpEnv) (k : Secret × Bool) (nTime : Int) (mark : List UInt8)
    (keyid : CKeyID) : List (List UInt8) :=
  [cStr (secretText env k), cStr (env.encodeDumpTime nTime), mark, [charHash],
    addrPrefix ++ cStr (addressText env keyid)]

/-- The line for a key, if the wallet has it. -/
def dumpLine (env : DumpEnv) (w : CWallet) (setKeyPool : List CKeyID) (birth : Int × CKeyID) :
    Except Thrown (List (List UInt8)) :=
  match w.keyStore.getKey birth.2 (CKey.new : CKey env.crypto) with
  | (false, _) => .ok []
  | (true, key) =>
    match key.getSecret with
    | .error e => .error (.exit e)
    | .ok k => .ok [[charBlank].intercalate
        (lineWords env k birth.1 (keyMark w setKeyPool birth.2) birth.2)]

/-- The order of `std::pair`. -/
def birthLE (a b : Int × CKeyID) : Bool := decide (a.1 < b.1 ∨ a.1 = b.1 ∧ a.2 ≤ b.2)

/-- The lines in front of the keys. -/
def dumpHeader (env : DumpEnv) (tip : ChainTip) : List (List UInt8) :=
  ["# Wallet dump created by NoLimitCoin ".toUTF8.toList ++ cStr env.clientBuild ++
      " (".toUTF8.toList ++ cStr env.clientDate ++ ")".toUTF8.toList,
    "# * Created on ".toUTF8.toList ++ cStr (env.encodeDumpTime tip.now),
    "# * Best block at time of backup was ".toUTF8.toList ++ i64tostr tip.nBestHeight ++
      " (".toUTF8.toList ++ hexStr (leBytes 32 tip.hashBestChain).reverse ++ "),".toUTF8.toList,
    "#   mined on ".toUTF8.toList ++ cStr (env.encodeDumpTime tip.pindexBest.nTime),
    []]

def dumpFooter : List (List UInt8) := [[], "# End of dump".toUTF8.toList]

/-- `dumpwallet`: the file. -/
def dumpwallet (env : DumpEnv) (tip : ChainTip) (w : CWallet) : Except Thrown (List UInt8) := do
  ensureWalletIsUnlocked env w
  let mapKeyBirth := getKeyBirthTimes tip.pindexMax w
  let setKeyPool ← getAllReserveKeys env.crypto w
  let vKeyBirth := (mapKeyBirth.toList.map fun item => (item.2, item.1)).mergeSort birthLE
  let lines ← vKeyBirth.mapM (dumpLine env w setKeyPool)
  return fileText (dumpHeader env tip ++ lines.flatten ++ dumpFooter)

/-! ## Importing -/

/-- The loop of `importwallet` over the words behind the time: `strLabel` and `fLabel`. -/
def readMarks : (strLabel : List UInt8) → (fLabel : Bool) → List (List UInt8) → List UInt8 × Bool
  | strLabel, fLabel, [] => (strLabel, fLabel)
  | strLabel, fLabel, str :: vstr =>
    if [charHash].isPrefixOf str then (strLabel, fLabel)
    else
      let fLabel := if str = changeMark then false else fLabel
      let fLabel := if str = reserveMark then false else fLabel
      if labelPrefix.isPrefixOf str then readMarks (decodeDumpString (str.drop 6)) true vstr
      else readMarks strLabel fLabel vstr

/-- `CWallet::AddKey`: the key is in the key store, whether it can be written or not. -/
def addKey (env : DumpEnv) (w : CWallet) (keyid : CKeyID) (key : CKey env.crypto) :
    Except Thrown (CWallet × Bool) :=
  match w.keyStore.addKey key with
  | .error e => .error (.exit e)
  | .ok (keyStore, false) => .ok ({ w with keyStore := keyStore }, false)
  | .ok (keyStore, true) =>
    .ok ({ w with
      keyStore := keyStore
      mapKeyMetadata := w.mapKeyMetadata.insertIfNew keyid 0 }, env.written keyid)

structure ImportState where
  wallet : CWallet
  nTimeBegin : Int
  fGood : Bool

/-- A key of the file that the wallet does not have. -/
def importKey (env : DumpEnv) (s : ImportState) (keyid : CKeyID) (key : CKey env.crypto)
    (nTime : Int) (marks : List (List UInt8)) : Except Thrown ImportState := do
  let (strLabel, fLabel) := readMarks [] true marks
  let (w, fAdded) ← addKey env s.wallet keyid key
  if !fAdded then return { s with wallet := w, fGood := false }
  let w := { w with mapKeyMetadata := w.mapKeyMetadata.insert keyid nTime }
  let w := if fLabel then { w with mapAddressBook := w.mapAddressBook.insert keyid strLabel } else w
  return { s with wallet := w, nTimeBegin := min s.nTimeBegin nTime }

/-- A line in the loop of `importwallet`. -/
def importLine (env : DumpEnv) (s : ImportState) (line : List UInt8) :
    Except Thrown ImportState :=
  if line = [] ∨ line.head? = some charHash then .ok s
  else
    match words line with
    | strSecret :: strTime :: marks =>
      let vchSecret := CBitcoinSecret.setString env.hash env.fTestNet strSecret
      if !vchSecret.2 then .ok s
      else
        let secret := CBitcoinSecret.getSecret vchSecret.1
        if h : secret.1.length = 32 then
          let key : CKey env.crypto := CKey.new.setSecret ⟨secret.1, h⟩ secret.2
          match key.getPubKey with
          | .error e => .error (.exit e)
          | .ok vchPubKey =>
            let keyid := env.crypto.hash160 vchPubKey
            if s.wallet.keyStore.haveKey keyid then .ok s
            else importKey env s keyid key (env.decodeDumpTime strTime) marks
        else .error (.exit (.abort "CKey::SetSecret() : secret must be 32 bytes"))
    | _ => .ok s

/-- `importwallet`, up to the rescan. -/
def importwallet (env : DumpEnv) (nBestTime : Nat) (w : CWallet) (file : List UInt8) :
    Except Thrown CWallet := do
  ensureWalletIsUnlocked env w
  let s ← (fileLines file).foldlM (importLine env) ⟨w, nBestTime, true⟩
  let nTimeFirstKey := s.wallet.nTimeFirstKey
  let w := { s.wallet with
    nTimeFirstKey := if nTimeFirstKey = 0 ∨ s.nTimeBegin < nTimeFirstKey then s.nTimeBegin
      else nTimeFirstKey }
  if !s.fGood then throw (.rpcError "Error adding some keys to wallet")
  return w

/-! ## Every key has a birth time -/

theorem isSome_lowerFirstBlock (block : CBlockIndex) (m : Map CKeyID CBlockIndex)
    (keyid other : CKeyID) :
    (lowerFirstBlock block m keyid)[other]?.isSome = m[other]?.isSome := by
  unfold lowerFirstBlock
  split
  · next first hfirst =>
    split
    · rw [Map.getElem?_insert]
      split
      · next heq =>
        subst heq
        rw [hfirst]
        rfl
      · rfl
    · rfl
  · rfl

theorem isSome_lowerFirstBlocks (affected : List (CBlockIndex × List CKeyID))
    (m : Map CKeyID CBlockIndex) (keyid : CKeyID) :
    (affected.foldl (fun m item => item.2.foldl (lowerFirstBlock item.1) m) m)[keyid]?.isSome =
      m[keyid]?.isSome := by
  have hkeys (block : CBlockIndex) (keys : List CKeyID) (m : Map CKeyID CBlockIndex) :
      (keys.foldl (lowerFirstBlock block) m)[keyid]?.isSome = m[keyid]?.isSome := by
    induction keys generalizing m with
    | nil => rfl
    | cons key keys ih => rw [List.foldl_cons, ih, isSome_lowerFirstBlock]
  induction affected generalizing m with
  | nil => rfl
  | cons item affected ih => rw [List.foldl_cons, ih, hkeys]

theorem isSome_foldl_pindexMax (pindexMax : CBlockIndex) (keys : List CKeyID)
    (m : Map CKeyID CBlockIndex) (keyid : CKeyID) :
    (keys.foldl (fun m keyid => m.insert keyid pindexMax) m)[keyid]?.isSome =
      (decide (keyid ∈ keys) || m[keyid]?.isSome) := by
  induction keys generalizing m with
  | nil => rfl
  | cons key keys ih =>
    rw [List.foldl_cons, ih, Map.getElem?_insert]
    by_cases heq : key = keyid
    · simp [heq]
    · simp [heq, Ne.symm heq]

/-- The keys whose birth time is inferred. -/
theorem isSome_keyFirstBlocks (pindexMax : CBlockIndex) (w : CWallet)
    (mapKeyBirth : Map CKeyID Int) (keyid : CKeyID) :
    (keyFirstBlocks pindexMax w mapKeyBirth)[keyid]?.isSome = true ↔
      keyid ∈ getKeys w.keyStore ∧ mapKeyBirth[keyid]? = none := by
  unfold keyFirstBlocks
  dsimp only
  rw [isSome_lowerFirstBlocks, isSome_foldl_pindexMax, Map.getElem?_empty, Option.isSome_none,
    Bool.or_false, decide_eq_true_iff, List.mem_filter, Bool.not_eq_true',
    Map.contains_eq_false_iff]

/-- A birth time of its own is kept. -/
theorem getKeyBirthTimes_meta (pindexMax : CBlockIndex) {w : CWallet} {keyid : CKeyID}
    {nCreateTime : Int} (h : w.mapKeyMetadata[keyid]? = some nCreateTime) (hne : nCreateTime ≠ 0) :
    (getKeyBirthTimes pindexMax w)[keyid]? = some nCreateTime := by
  have hbirth : (w.mapKeyMetadata.filter fun _ nCreateTime =>
      decide (nCreateTime ≠ 0))[keyid]? = some nCreateTime := by
    rw [Std.ExtTreeMap.getElem?_filter', h, Option.filter_some, if_pos (decide_eq_true hne)]
  unfold getKeyBirthTimes
  dsimp only
  rw [Map.getElem?_foldl_insert_of_ne, hbirth]
  rintro ⟨other, first⟩ hitem rfl
  rw [Map.mem_toList] at hitem
  have hnone := ((isSome_keyFirstBlocks _ _ _ _).mp (by rw [hitem]; rfl)).2
  rw [hbirth] at hnone
  cases hnone

/-- Every key of the wallet has a birth time. -/
theorem getKeyBirthTimes_covers (pindexMax : CBlockIndex) {w : CWallet} {keyid : CKeyID}
    (h : keyid ∈ getKeys w.keyStore) :
    ∃ nTime, (getKeyBirthTimes pindexMax w)[keyid]? = some nTime := by
  cases hbirth : (w.mapKeyMetadata.filter fun _ nCreateTime =>
      decide (nCreateTime ≠ 0))[keyid]? with
  | some nCreateTime =>
    rw [Std.ExtTreeMap.getElem?_filter', Option.filter_eq_some_iff] at hbirth
    exact ⟨_, getKeyBirthTimes_meta pindexMax hbirth.1 (of_decide_eq_true hbirth.2)⟩
  | none =>
    obtain ⟨first, hfirst⟩ := Option.isSome_iff_exists.mp
      ((isSome_keyFirstBlocks pindexMax w _ keyid).mpr ⟨h, hbirth⟩)
    rw [← Map.mem_toList] at hfirst
    refine ⟨((first.nTime : Int) - 7200) % 2 ^ 32, ?_⟩
    unfold getKeyBirthTimes
    exact Map.getElem?_foldl_insert_of_mem (Map.pairwise_toList _) hfirst _

/-- Where a birth time comes from. -/
theorem getKeyBirthTimes_some {pindexMax : CBlockIndex} {w : CWallet} {keyid : CKeyID} {nTime : Int}
    (h : (getKeyBirthTimes pindexMax w)[keyid]? = some nTime) :
    (w.mapKeyMetadata[keyid]? = some nTime ∧ nTime ≠ 0) ∨
      (keyid ∈ getKeys w.keyStore ∧
        (∀ nCreateTime, w.mapKeyMetadata[keyid]? = some nCreateTime → nCreateTime = 0) ∧
        0 ≤ nTime ∧ nTime < 2 ^ 32) := by
  have hbirth : (w.mapKeyMetadata.filter fun _ nCreateTime =>
      decide (nCreateTime ≠ 0))[keyid]? = none ∨ w.mapKeyMetadata[keyid]? = some nTime ∧
        nTime ≠ 0 := by
    cases hfilter : (w.mapKeyMetadata.filter fun _ nCreateTime =>
        decide (nCreateTime ≠ 0))[keyid]? with
    | none => exact .inl rfl
    | some nCreateTime =>
      rw [Std.ExtTreeMap.getElem?_filter', Option.filter_eq_some_iff] at hfilter
      have hne := of_decide_eq_true hfilter.2
      obtain rfl := Option.some.inj ((getKeyBirthTimes_meta pindexMax hfilter.1 hne).symm.trans h)
      exact .inr ⟨hfilter.1, hne⟩
  rcases hbirth with hnone | hmeta
  · right
    cases hfirst : (keyFirstBlocks pindexMax w (w.mapKeyMetadata.filter fun _ nCreateTime =>
        decide (nCreateTime ≠ 0)))[keyid]? with
    | none =>
      unfold getKeyBirthTimes at h
      dsimp only at h
      rw [Map.getElem?_foldl_insert_of_ne, hnone] at h
      · cases h
      · rintro ⟨other, first⟩ hitem rfl
        rw [Map.mem_toList, hfirst] at hitem
        cases hitem
    | some first =>
      have hkey := ((isSome_keyFirstBlocks pindexMax w _ keyid).mp (by rw [hfirst]; rfl)).1
      rw [← Map.mem_toList] at hfirst
      unfold getKeyBirthTimes at h
      dsimp only at h
      rw [Map.getElem?_foldl_insert_of_mem (Map.pairwise_toList _) hfirst] at h
      obtain rfl := Option.some.inj h
      refine ⟨hkey, fun nCreateTime hmeta => ?_, by omega, by omega⟩
      rw [Std.ExtTreeMap.getElem?_filter', hmeta, Option.filter_some] at hnone
      by_contra hne
      rw [if_pos (decide_eq_true hne)] at hnone
      cases hnone
  · exact .inl hmeta

/-! ## Lines -/

/-- No terminator, no line end and no blank. -/
def IsWord (str : List UInt8) : Prop := ∀ c ∈ str, c ≠ 0 ∧ c ≠ charNewline ∧ c ≠ charBlank

theorem IsWord.append {str more : List UInt8} (h : IsWord str) (h' : IsWord more) :
    IsWord (str ++ more) := fun c hc => (List.mem_append.mp hc).elim (h c) (h' c)

theorem IsWord.cStr_eq {str : List UInt8} (h : IsWord str) : cStr str = str :=
  NoLimitCoin.cStr_eq fun hmem => (h 0 hmem).1 rfl

/-- The text of a time is a word, and is read back to the second. -/
structure Dated (env : DumpEnv) (nTime : Int) : Prop where
  word : IsWord (env.encodeDumpTime nTime)
  exact : env.decodeDumpTime (env.encodeDumpTime nTime) = nTime

variable {env : DumpEnv}

theorem isWord_toString (data : CBase58Data) (hash : List UInt8 → Uint256) :
    IsWord (data.toString hash) := fun c hc => by
  obtain ⟨-, hspace, hzero⟩ := encodeBase58_char _ hc
  refine ⟨hzero, ?_, ?_⟩
  · rintro rfl
    exact absurd hspace (by decide)
  · rintro rfl
    exact absurd hspace (by decide)

theorem isWord_encodeDumpString (str : List UInt8) : IsWord (encodeDumpString str) := fun c hc => by
  have hprintable := (encodeDumpString_printable str c hc).1
  refine ⟨?_, ?_, ?_⟩
  · rintro rfl
    exact absurd hprintable (by decide)
  · rintro rfl
    exact absurd hprintable (by decide)
  · rintro rfl
    exact absurd hprintable (by decide)

theorem isWord_marks : IsWord labelPrefix ∧ IsWord reserveMark ∧ IsWord changeMark ∧
    IsWord addrPrefix ∧ IsWord [charHash] := by
  unfold IsWord
  decide +kernel

theorem isWord_keyMark (w : CWallet) (setKeyPool : List CKeyID) (keyid : CKeyID) :
    IsWord (keyMark w setKeyPool keyid) := by
  unfold keyMark
  split
  · next label _ =>
    have hword := isWord_encodeDumpString label
    rw [hword.cStr_eq]
    exact isWord_marks.1.append hword
  · split
    · exact isWord_marks.2.1
    · exact isWord_marks.2.2.1

/-- The words of a line as they are written. -/
theorem lineWords_eq {nTime : Int} (hdated : Dated env nTime) (k : Secret × Bool)
    (mark : List UInt8) (keyid : CKeyID) :
    lineWords env k nTime mark keyid =
      [secretText env k, env.encodeDumpTime nTime, mark, [charHash],
        addrPrefix ++ addressText env keyid] := by
  unfold lineWords secretText addressText
  rw [(isWord_toString _ env.hash).cStr_eq, (isWord_toString _ env.hash).cStr_eq,
    hdated.word.cStr_eq]

theorem isWord_lineWords {nTime : Int} (hdated : Dated env nTime) (k : Secret × Bool)
    {mark : List UInt8} (hmark : IsWord mark) (keyid : CKeyID) :
    ∀ str ∈ lineWords env k nTime mark keyid, IsWord str := by
  rw [lineWords_eq hdated]
  simp only [List.forall_mem_cons]
  exact ⟨isWord_toString _ _, hdated.word, hmark, isWord_marks.2.2.2.2,
    isWord_marks.2.2.2.1.append (isWord_toString _ _), nofun⟩

theorem mem_intercalate {c d : UInt8} {strs : List (List UInt8)}
    (h : c ∈ [d].intercalate strs) : (∃ str ∈ strs, c ∈ str) ∨ c = d := by
  induction strs with
  | nil => cases h
  | cons str strs ih =>
    cases strs with
    | nil =>
      rw [List.intercalate_singleton] at h
      exact .inl ⟨str, List.mem_cons_self, h⟩
    | cons next strs =>
      rw [List.intercalate_cons_cons, List.append_assoc, List.mem_append, List.mem_append,
        List.mem_singleton] at h
      rcases h with h | h | h
      · exact .inl ⟨str, List.mem_cons_self, h⟩
      · exact .inr h
      · rcases ih h with ⟨other, hother, hmem⟩ | heq
        · exact .inl ⟨other, List.mem_cons_of_mem _ hother, hmem⟩
        · exact .inr heq

/-- A line is split into its words, and is no comment. -/
theorem dumpLine_words {nTime : Int} (hdated : Dated env nTime) (k : Secret × Bool)
    {mark : List UInt8} (hmark : IsWord mark) (keyid : CKeyID) :
    let line := [charBlank].intercalate (lineWords env k nTime mark keyid)
    words line = [secretText env k, env.encodeDumpTime nTime, mark, [charHash],
        addrPrefix ++ addressText env keyid] ∧
      charNewline ∉ line ∧ line ≠ [] ∧ line.head? ≠ some charHash := by
  have hwords := isWord_lineWords hdated k hmark keyid
  have hsplit := lineWords_eq hdated k mark keyid
  obtain ⟨c, str, htext, hhash⟩ : ∃ c str, secretText env k = c :: str ∧ c ≠ charHash := by
    have hne : secretText env k ≠ [] := encodeBase58_ne_nil (List.cons_ne_nil _ _)
    obtain ⟨c, str, htext⟩ := List.exists_cons_of_ne_nil hne
    have hmem : c ∈ secretText env k := htext ▸ List.mem_cons_self
    obtain ⟨⟨d, hd, rfl⟩, -⟩ := encodeBase58_char _ hmem
    have hall : ∀ d < 58, base58Char d ≠ charHash := by decide +kernel
    exact ⟨_, str, htext, hall d hd⟩
  have hline : ∃ rest, [charBlank].intercalate (lineWords env k nTime mark keyid) = c :: rest := by
    rw [hsplit, htext]
    exact ⟨_, rfl⟩
  obtain ⟨rest, hline⟩ := hline
  refine ⟨?_, fun hmem => ?_, ?_, ?_⟩
  · rw [words_intercalate (fun str hstr hmem => (hwords str hstr _ hmem).2.2 rfl)
      (by rw [hsplit]; exact List.cons_ne_nil _ _), hsplit]
  · obtain ⟨str, hstr, hmem⟩ | hblank := mem_intercalate hmem
    · exact (hwords str hstr _ hmem).2.1 rfl
    · exact absurd hblank (by decide)
  · rw [hline]
    exact List.cons_ne_nil _ _
  · rw [hline]
    exact fun heq => hhash (Option.some.inj heq)

/-! ## Reading a line -/

/-- The words behind the time give the label, or none. -/
theorem readMarks_keyMark (w : CWallet) (setKeyPool : List CKeyID) (keyid : CKeyID)
    (more : List (List UInt8)) :
    readMarks [] true (keyMark w setKeyPool keyid :: [charHash] :: more) =
      match w.mapAddressBook[keyid]? with
      | some label => (label, true)
      | none => ([], false) := by
  unfold keyMark
  cases w.mapAddressBook[keyid]? with
  | some label =>
    have hfirst : labelPrefix = 108 :: labelPrefix.tail := by decide +kernel
    have hstart : ∀ str : List UInt8, [charHash].isPrefixOf (labelPrefix ++ str) = false ∧
        labelPrefix.isPrefixOf (labelPrefix ++ str) = true ∧ (labelPrefix ++ str).drop 6 = str :=
      fun str => ⟨by rw [hfirst]; rfl, List.isPrefixOf_iff_prefix.mpr (List.prefix_append _ _),
        List.drop_left' (by decide +kernel)⟩
    obtain ⟨hhash, hlabel, hdrop⟩ := hstart (encodeDumpString label)
    dsimp only
    rw [(isWord_encodeDumpString label).cStr_eq, readMarks, hhash, if_neg (by decide)]
    dsimp only
    rw [if_pos hlabel, hdrop, decodeDumpString_encodeDumpString, readMarks, if_pos (by decide)]
  | none =>
    dsimp only
    split
    · rw [readMarks, if_neg (by decide +kernel)]
      dsimp only
      rw [if_neg (by decide +kernel), if_pos rfl, readMarks, if_pos (by decide)]
    · rw [readMarks, if_neg (by decide +kernel)]
      dsimp only
      rw [if_neg (by decide +kernel), if_pos rfl, readMarks, if_pos (by decide)]
      rw [if_neg (by decide +kernel)]

/-- The key store has these keys. -/
def Holds (crypto : Crypto) (keyStore : CCryptoKeyStore) (keys : Map CKeyID (Secret × Bool)) :
    Prop :=
  ∃ master, StoreInv crypto ⟨keyStore, keys, master⟩

section

variable {keyStore : CCryptoKeyStore} {keys : Map CKeyID (Secret × Bool)}

theorem Holds.haveKey (h : Holds env.crypto keyStore keys) (keyid : CKeyID) :
    keyStore.haveKey keyid = keys.contains keyid := by
  obtain ⟨master, hinv⟩ := h
  exact hinv.haveKey_eq keyid

/-- Adding a key does not lock the store. -/
theorem isLocked_addKey {store store' : CCryptoKeyStore} {key : CKey env.crypto} {secret : Secret}
    (hkey : KeyOk key secret) {fAdded : Bool} (h : store.addKey key = .ok (store', fAdded)) :
    store'.isLocked = store.isLocked := by
  cases hcrypted : store.fUseCrypto with
  | false =>
    obtain ⟨rfl, -⟩ := Prod.ext_iff.mp (Except.ok.inj ((addKey_plain hkey hcrypted).symm.trans h))
    rfl
  | true =>
    cases hlocked : store.isLocked with
    | true =>
      obtain ⟨rfl, -⟩ := Prod.ext_iff.mp (Except.ok.inj ((addKey_locked key hlocked).symm.trans h))
      exact hlocked
    | false =>
      by_cases hlength : store.vMasterKey.length = walletCryptoKeySize
      · obtain ⟨rfl, -⟩ := Prod.ext_iff.mp
          (Except.ok.inj ((addKey_crypted hkey hcrypted hlocked hlength).symm.trans h))
        exact hlocked
      · obtain ⟨rfl, -⟩ := Prod.ext_iff.mp
          (Except.ok.inj ((addKey_size hkey hcrypted hlocked hlength).symm.trans h))
        exact hlocked

/-- Not encrypted, or with a master key of the right size. -/
def Takes (keyStore : CCryptoKeyStore) : Prop :=
  keyStore.fUseCrypto = false ∨ keyStore.vMasterKey.length = walletCryptoKeySize

theorem addKey_takes {store store' : CCryptoKeyStore} (htakes : Takes store)
    (hlocked : store.isLocked = false) {key : CKey env.crypto} {secret : Secret}
    (hkey : KeyOk key secret) {fAdded : Bool} (h : store.addKey key = .ok (store', fAdded)) :
    fAdded = true ∧ Takes store' := by
  cases hcrypted : store.fUseCrypto with
  | false =>
    obtain ⟨rfl, rfl⟩ := Prod.ext_iff.mp (Except.ok.inj ((addKey_plain hkey hcrypted).symm.trans h))
    exact ⟨rfl, .inl hcrypted⟩
  | true =>
    have hlength : store.vMasterKey.length = walletCryptoKeySize :=
      htakes.resolve_left (by rw [hcrypted]; decide)
    obtain ⟨rfl, rfl⟩ := Prod.ext_iff.mp
      (Except.ok.inj ((addKey_crypted hkey hcrypted hlocked hlength).symm.trans h))
    exact ⟨rfl, .inr hlength⟩

/-- A key that is taken is one key more. -/
theorem Holds.addKey (h : Holds env.crypto keyStore keys) {key : CKey env.crypto}
    {secret : Secret} (hkey : KeyOk key secret) :
    ∃ keyStore' fAdded, keyStore.addKey key = .ok (keyStore', fAdded) ∧
      Holds env.crypto keyStore' (if fAdded = true then
        keys.insert (env.crypto.hash160 (env.crypto.pubKey secret key.fCompressedPubKey))
          (secret, key.fCompressedPubKey) else keys) := by
  obtain ⟨master, hinv⟩ := h
  obtain ⟨s', hstep, hinv'⟩ := hinv.addKey hkey
  unfold KeyStore.step at hstep
  dsimp only at hstep
  cases hadd : keyStore.addKey key with
  | error e =>
    rw [hadd] at hstep
    cases hstep
  | ok result =>
    obtain ⟨keyStore', fAdded⟩ := result
    rw [hadd, hkey.getSecret, hkey.getPubKey] at hstep
    refine ⟨keyStore', fAdded, rfl, master, ?_⟩
    cases fAdded with
    | true =>
      obtain rfl := Except.ok.inj hstep
      exact hinv'
    | false =>
      obtain rfl := Except.ok.inj hstep
      exact hinv'

/-- What `dumpwallet` writes for a key. -/
theorem dumpLine_eq (hcrypto : env.crypto.Ideal) {w : CWallet}
    (h : Holds env.crypto w.keyStore keys) (hlocked : w.keyStore.isLocked = false)
    (setKeyPool : List CKeyID) (birth : Int × CKeyID) :
    dumpLine env w setKeyPool birth = .ok (keys[birth.2]?.toList.map fun k =>
      [charBlank].intercalate
        (lineWords env k birth.1 (keyMark w setKeyPool birth.2) birth.2)) := by
  obtain ⟨master, hinv⟩ := h
  unfold dumpLine
  cases hk : keys[birth.2]? with
  | none =>
    rw [hinv.getKey_none hk]
    rfl
  | some k =>
    have hfits : Fits ⟨w.keyStore, keys, master⟩ birth.2 (CKey.new : CKey env.crypto) :=
      fun _ hflag => by cases hflag
    rw [hinv.getKey_eq hcrypto hlocked hfits hk]
    rfl

end

theorem setString_secretText (env : DumpEnv) (k : Secret × Bool) :
    (CBitcoinSecret.setString env.hash env.fTestNet (secretText env k)).2 = true ∧
      CBitcoinSecret.getSecret
        (CBitcoinSecret.setString env.hash env.fTestNet (secretText env k)).1 = (k.1.1, k.2) :=
  CBitcoinSecret.setString_toString env.hash env.fTestNet k.1.2 k.2

/-- A line for a key that the wallet does not have yet leads to an import of that key. -/
theorem importLine_eq {s : ImportState} {keys : Map CKeyID (Secret × Bool)}
    (h : Holds env.crypto s.wallet.keyStore keys) {k : Secret × Bool} {keyid : CKeyID}
    (hid : env.crypto.hash160 (env.crypto.pubKey k.1 k.2) = keyid) (hnew : keys[keyid]? = none)
    {nTime : Int} (hdated : Dated env nTime) {mark : List UInt8} (hmark : IsWord mark) :
    importLine env s ([charBlank].intercalate (lineWords env k nTime mark keyid)) =
      importKey env s keyid (CKey.new.setSecret k.1 k.2) nTime
        [mark, [charHash], addrPrefix ++ addressText env keyid] := by
  obtain ⟨hwords, -, hne, hhash⟩ := dumpLine_words hdated k hmark keyid
  obtain ⟨hvalid, hsecret⟩ := setString_secretText env k
  have hlength : (CBitcoinSecret.getSecret (CBitcoinSecret.setString env.hash env.fTestNet
      (secretText env k)).1).1.length = 32 := by
    rw [hsecret]
    exact k.1.2
  have hkey : (CKey.new.setSecret ⟨_, hlength⟩ (CBitcoinSecret.getSecret (CBitcoinSecret.setString
      env.hash env.fTestNet (secretText env k)).1).2 : CKey env.crypto) =
        CKey.new.setSecret k.1 k.2 := by
    have hfirst := congrArg Prod.fst hsecret
    have hsecond := congrArg Prod.snd hsecret
    congr 1
    exact Subtype.ext hfirst
  have hpubkey : (CKey.new.setSecret k.1 k.2 : CKey env.crypto).getPubKey =
      .ok (env.crypto.pubKey k.1 k.2) := by
    rw [CKey.new_setSecret]
    rfl
  have hhave : s.wallet.keyStore.haveKey keyid = false := by
    rw [h.haveKey, Map.contains_eq_false_iff]
    exact hnew
  unfold importLine
  rw [if_neg (not_or.mpr ⟨hne, hhash⟩), hwords]
  dsimp only
  rw [hvalid, if_neg (by decide), dif_pos hlength, hkey, hpubkey]
  dsimp only
  rw [hid, hhave, if_neg (by decide), hdated.exact]

/-! ## The run -/

/-- What has been imported after the lines of some keys. -/
structure Imported (env : DumpEnv) (w : CWallet) (keys : Map CKeyID (Secret × Bool))
    (done : List (Int × CKeyID)) (s : ImportState) : Prop where
  keyStore : ∃ keys', Holds env.crypto s.wallet.keyStore keys' ∧
    ∀ keyid : CKeyID, keys'[keyid]? = if keyid ∈ done.map (·.2) then keys[keyid]? else none
  labels : ∀ keyid : CKeyID, s.wallet.mapAddressBook[keyid]? =
    if keyid ∈ done.map (·.2) ∧ keys.contains keyid = true then w.mapAddressBook[keyid]? else none
  births : ∀ birth ∈ done, keys.contains birth.2 = true →
    s.wallet.mapKeyMetadata[birth.2]? = some birth.1
  unlocked : s.wallet.keyStore.isLocked = false

variable {w : CWallet} {keys : Map CKeyID (Secret × Bool)} {done : List (Int × CKeyID)}
  {s : ImportState} {birth : Int × CKeyID}

theorem mem_snoc_ids {keyid : CKeyID} :
    keyid ∈ (done ++ [birth]).map (·.2) ↔ keyid ∈ done.map (·.2) ∨ birth.2 = keyid := by
  rw [List.map_append, List.mem_append, List.map_singleton, List.mem_singleton, eq_comm (a := keyid)]

/-- A birth time without a key has no line. -/
theorem Imported.skip (h : Imported env w keys done s) (hnone : keys[birth.2]? = none) :
    Imported env w keys (done ++ [birth]) s := by
  have hcontains : keys.contains birth.2 = false := (Map.contains_eq_false_iff _ _).mpr hnone
  obtain ⟨keys', hholds, hkeys⟩ := h.keyStore
  refine ⟨⟨keys', hholds, fun keyid => ?_⟩, fun keyid => ?_, fun other hother hmem => ?_,
    h.unlocked⟩
  · rw [hkeys]
    by_cases heq : birth.2 = keyid
    · subst heq
      rw [hnone, ite_self, ite_self]
    · simp only [mem_snoc_ids, heq, or_false]
  · rw [h.labels]
    by_cases heq : birth.2 = keyid
    · subst heq
      rw [hcontains, if_neg fun hboth => Bool.false_ne_true hboth.2,
        if_neg fun hboth => Bool.false_ne_true hboth.2]
    · simp only [mem_snoc_ids, heq, or_false]
  · rcases List.mem_append.mp hother with hother | hother
    · exact h.births other hother hmem
    · rw [List.mem_singleton.mp hother, hcontains] at hmem
      cases hmem

/-- The wallet with a key more, its birth time and its label. -/
def withKey (wallet : CWallet) (keyStore : CCryptoKeyStore) (birth : Int × CKeyID)
    (label : Option (List UInt8)) : CWallet :=
  { wallet with
    keyStore := keyStore
    mapKeyMetadata := (wallet.mapKeyMetadata.insertIfNew birth.2 0).insert birth.2 birth.1
    mapAddressBook := match label with
      | some strLabel => wallet.mapAddressBook.insert birth.2 strLabel
      | none => wallet.mapAddressBook }

/-- A key that is added. -/
theorem Imported.add (h : Imported env w keys done s) {k : Secret × Bool}
    (hk : keys[birth.2]? = some k) (hnew : birth.2 ∉ done.map (·.2)) {s' : ImportState}
    {keyStore : CCryptoKeyStore}
    (hs : s'.wallet = withKey s.wallet keyStore birth w.mapAddressBook[birth.2]?)
    (hunlocked : keyStore.isLocked = false)
    (hholds : ∀ keys', Holds env.crypto s.wallet.keyStore keys' →
      Holds env.crypto keyStore (keys'.insert birth.2 k)) :
    Imported env w keys (done ++ [birth]) s' := by
  have hcontains : keys.contains birth.2 = true := (Map.contains_iff _ _).mpr ⟨k, hk⟩
  obtain ⟨keys', hkeys', hlookup⟩ := h.keyStore
  refine ⟨⟨_, by rw [hs]; exact hholds keys' hkeys', fun keyid => ?_⟩, fun keyid => ?_,
    fun other hother hmem => ?_, by rw [hs]; exact hunlocked⟩
  · rw [Map.getElem?_insert]
    by_cases heq : birth.2 = keyid
    · subst heq
      rw [if_pos rfl, if_pos (mem_snoc_ids.mpr (.inr rfl)), hk]
    · simp only [mem_snoc_ids, heq, or_false, if_false, hlookup]
  · have hbook : s'.wallet.mapAddressBook[keyid]? =
        if birth.2 = keyid then w.mapAddressBook[keyid]? else s.wallet.mapAddressBook[keyid]? := by
      rw [hs]
      unfold withKey
      dsimp only
      split
      · next label hlabel =>
        rw [Map.getElem?_insert]
        split
        · next heq => rw [← heq, hlabel]
        · rfl
      · next hlabel =>
        split
        · next heq =>
          subst heq
          rw [hlabel, h.labels, if_neg fun hboth => hnew hboth.1]
        · rfl
    rw [hbook]
    by_cases heq : birth.2 = keyid
    · subst heq
      rw [if_pos rfl, if_pos ⟨mem_snoc_ids.mpr (.inr rfl), hcontains⟩]
    · simp only [mem_snoc_ids, heq, or_false, if_false, h.labels]
  · rw [hs]
    unfold withKey
    dsimp only
    rw [Map.getElem?_insert]
    by_cases heq : birth.2 = other.2
    · rw [if_pos heq]
      rcases List.mem_append.mp hother with hother | hother
      · exact absurd (heq ▸ List.mem_map_of_mem hother) hnew
      · rw [List.mem_singleton.mp hother]
    · rw [if_neg heq, Std.ExtTreeMap.getElem?_insertIfNew, if_neg fun hboth =>
        heq (Std.LawfulEqCmp.eq_of_compare hboth.1)]
      rcases List.mem_append.mp hother with hother | hother
      · exact h.births other hother hmem
      · exact absurd (List.mem_singleton.mp hother ▸ rfl) heq

/-- The line of a key: it is added, or the import is no longer good. -/
theorem Imported.step (h : Imported env w keys done s) {k : Secret × Bool}
    (hk : keys[birth.2]? = some k) (hnew : birth.2 ∉ done.map (·.2))
    (hid : env.crypto.hash160 (env.crypto.pubKey k.1 k.2) = birth.2) (hrange : k.1.InRange)
    (hdated : Dated env birth.1) (setKeyPool : List CKeyID) :
    ∃ s', importLine env s ([charBlank].intercalate
        (lineWords env k birth.1 (keyMark w setKeyPool birth.2) birth.2)) = .ok s' ∧
      (s'.fGood = true → s.fGood = true ∧ Imported env w keys (done ++ [birth]) s') ∧
      (Takes s.wallet.keyStore → env.written birth.2 = true →
        s'.fGood = s.fGood ∧ Takes s'.wallet.keyStore) := by
  obtain ⟨keys', hholds, hlookup⟩ := h.keyStore
  have hnone : keys'[birth.2]? = none := by rw [hlookup, if_neg hnew]
  have hkey : KeyOk (CKey.new.setSecret k.1 k.2 : CKey env.crypto) k.1 := by
    rw [CKey.new_setSecret]
    exact ⟨rfl, rfl, hrange, rfl⟩
  have hflag : (CKey.new.setSecret k.1 k.2 : CKey env.crypto).fCompressedPubKey = k.2 := by
    rw [CKey.new_setSecret]
  obtain ⟨keyStore, fAdded, hadd, -⟩ := hholds.addKey hkey
  have htakes := fun htakes => addKey_takes htakes h.unlocked hkey hadd
  rw [importLine_eq hholds hid hnone hdated (isWord_keyMark w setKeyPool birth.2)]
  unfold importKey addKey
  rw [readMarks_keyMark, hadd]
  cases fAdded with
  | false =>
    refine ⟨_, rfl, nofun, fun hstore => ?_⟩
    cases (htakes hstore).1
  | true =>
    cases hwritten : env.written birth.2 with
    | false => exact ⟨_, rfl, nofun, fun _ hfalse => by cases hfalse⟩
    | true =>
      have hinsert : ∀ keys'', Holds env.crypto s.wallet.keyStore keys'' →
          Holds env.crypto keyStore (keys''.insert birth.2 k) := fun keys'' hkeys'' => by
        obtain ⟨keyStore'', fAdded'', hadd'', hholds''⟩ := hkeys''.addKey hkey
        obtain ⟨rfl, rfl⟩ := Prod.ext_iff.mp (Except.ok.inj (hadd.symm.trans hadd''))
        rw [if_pos rfl, hflag, hid] at hholds''
        exact hholds''
      have hunlocked : keyStore.isLocked = false :=
        (isLocked_addKey hkey hadd).trans h.unlocked
      cases hlabel : w.mapAddressBook[birth.2]? with
      | some label =>
        refine ⟨_, rfl, fun hgood => ⟨hgood, h.add hk hnew ?_ hunlocked hinsert⟩,
          fun hstore _ => ⟨rfl, (htakes hstore).2⟩⟩
        rw [hlabel]
        rfl
      | none =>
        refine ⟨_, rfl, fun hgood => ⟨hgood, h.add hk hnew ?_ hunlocked hinsert⟩,
          fun hstore _ => ⟨rfl, (htakes hstore).2⟩⟩
        rw [hlabel]
        rfl

/-- The lines of a key. -/
def keyLines (env : DumpEnv) (w : CWallet) (keys : Map CKeyID (Secret × Bool))
    (setKeyPool : List CKeyID) (birth : Int × CKeyID) : List (List UInt8) :=
  keys[birth.2]?.toList.map fun k => [charBlank].intercalate
    (lineWords env k birth.1 (keyMark w setKeyPool birth.2) birth.2)

/-- An import that is good has been good. -/
theorem importKey_good {keyid : CKeyID} {key : CKey env.crypto} {nTime : Int}
    {marks : List (List UInt8)} {s s' : ImportState}
    (h : importKey env s keyid key nTime marks = .ok s') (hgood : s'.fGood = true) :
    s.fGood = true := by
  unfold importKey at h
  cases hadd : addKey env s.wallet keyid key with
  | error e =>
    rw [hadd] at h
    cases h
  | ok result =>
    obtain ⟨wallet, fAdded⟩ := result
    rw [hadd] at h
    cases fAdded with
    | false =>
      obtain rfl := Except.ok.inj h
      cases hgood
    | true =>
      obtain rfl := Except.ok.inj h
      exact hgood

theorem importLine_good {line : List UInt8} {s s' : ImportState}
    (h : importLine env s line = .ok s') (hgood : s'.fGood = true) : s.fGood = true := by
  have hsame (h : Except.ok s = (.ok s' : Except Thrown ImportState)) : s.fGood = true := by
    obtain rfl := Except.ok.inj h
    exact hgood
  unfold importLine at h
  split at h
  · exact hsame h
  · split at h
    · dsimp only at h
      split at h
      · exact hsame h
      · split at h
        · split at h
          · cases h
          · split at h
            · exact hsame h
            · exact importKey_good h hgood
        · cases h
    · exact hsame h

theorem importLines_good {lines : List (List UInt8)} {s s' : ImportState}
    (h : lines.foldlM (importLine env) s = .ok s') (hgood : s'.fGood = true) :
    s.fGood = true := by
  induction lines generalizing s with
  | nil =>
    obtain rfl := Except.ok.inj h
    exact hgood
  | cons line lines ih =>
    rw [List.foldlM_cons] at h
    cases hline : importLine env s line with
    | error e =>
      rw [hline] at h
      cases h
    | ok s₁ =>
      rw [hline] at h
      exact importLine_good hline (ih h)

/-- Empty lines and comments are passed over. -/
theorem importLines_comments {lines : List (List UInt8)}
    (h : ∀ line ∈ lines, line = [] ∨ line.head? = some charHash) (s : ImportState) :
    lines.foldlM (importLine env) s = .ok s := by
  induction lines with
  | nil => rfl
  | cons line lines ih =>
    obtain ⟨hline, hrest⟩ := List.forall_mem_cons.mp h
    rw [List.foldlM_cons, importLine, if_pos hline]
    exact ih hrest

/-- The lines of a birth time: of a key of the wallet, or none. -/
theorem Imported.birthLines (h : Imported env w keys done s)
    (hadded : ∀ (keyid : CKeyID) (k : Secret × Bool), keys[keyid]? = some k →
      env.crypto.hash160 (env.crypto.pubKey k.1 k.2) = keyid ∧ k.1.InRange)
    (setKeyPool : List CKeyID) (hdated : Dated env birth.1) (hnew : birth.2 ∉ done.map (·.2)) :
    ∃ s', (keyLines env w keys setKeyPool birth).foldlM (importLine env) s = .ok s' ∧
      (s'.fGood = true → Imported env w keys (done ++ [birth]) s') ∧
      (Takes s.wallet.keyStore → (∀ keyid : CKeyID, keys.contains keyid = true →
        env.written keyid = true) → s'.fGood = s.fGood ∧ Takes s'.wallet.keyStore) := by
  unfold keyLines
  cases hk : keys[birth.2]? with
  | none => exact ⟨s, rfl, fun _ => h.skip hk, fun htakes _ => ⟨rfl, htakes⟩⟩
  | some k =>
    obtain ⟨hid, hrange⟩ := hadded birth.2 k hk
    obtain ⟨s', hline, hgood, htakes⟩ := h.step hk hnew hid hrange hdated setKeyPool
    refine ⟨s', ?_, fun hgood' => (hgood hgood').2, fun hstore hwritten => ?_⟩
    · simp only [Option.toList_some, List.map_cons, List.map_nil, List.foldlM_cons, List.foldlM_nil,
        hline]
      rfl
    · exact htakes hstore (hwritten birth.2 ((Map.contains_iff _ _).mpr ⟨k, hk⟩))

section

variable (hadded : ∀ (keyid : CKeyID) (k : Secret × Bool), keys[keyid]? = some k →
    env.crypto.hash160 (env.crypto.pubKey k.1 k.2) = keyid ∧ k.1.InRange)
  (setKeyPool : List CKeyID) {births : List (Int × CKeyID)}
  (hdated : ∀ birth ∈ births, Dated env birth.1)

include hadded hdated

/-- The lines of the keys, one after the other. -/
theorem Imported.run (h : Imported env w keys done s)
    (hdistinct : ((done ++ births).map (·.2)).Nodup) {s' : ImportState}
    (hrun : (births.flatMap (keyLines env w keys setKeyPool)).foldlM (importLine env) s = .ok s')
    (hgood : s'.fGood = true) : Imported env w keys (done ++ births) s' := by
  induction births generalizing done s with
  | nil =>
    obtain rfl := Except.ok.inj hrun
    rw [List.append_nil]
    exact h
  | cons birth births ih =>
    obtain ⟨hbirth, hrest⟩ := List.forall_mem_cons.mp hdated
    have hnew : birth.2 ∉ done.map (·.2) := by
      rw [List.map_append, List.nodup_append] at hdistinct
      exact fun hmem => hdistinct.2.2 _ hmem _ List.mem_cons_self rfl
    obtain ⟨s₁, hline, himported, -⟩ := h.birthLines hadded setKeyPool hbirth hnew
    rw [List.flatMap_cons, List.foldlM_append, hline] at hrun
    have hgood₁ := importLines_good hrun hgood
    rw [List.append_cons] at hdistinct ⊢
    exact ih hrest (himported hgood₁) hdistinct hrun

/-- A wallet that takes the keys has them all. -/
theorem Imported.run_takes (h : Imported env w keys done s)
    (hdistinct : ((done ++ births).map (·.2)).Nodup) (hgood : s.fGood = true)
    (htakes : Takes s.wallet.keyStore)
    (hwritten : ∀ keyid : CKeyID, keys.contains keyid = true → env.written keyid = true) :
    ∃ s', (births.flatMap (keyLines env w keys setKeyPool)).foldlM (importLine env) s = .ok s' ∧
      s'.fGood = true := by
  induction births generalizing done s with
  | nil => exact ⟨s, rfl, hgood⟩
  | cons birth births ih =>
    obtain ⟨hbirth, hrest⟩ := List.forall_mem_cons.mp hdated
    have hnew : birth.2 ∉ done.map (·.2) := by
      rw [List.map_append, List.nodup_append] at hdistinct
      exact fun hmem => hdistinct.2.2 _ hmem _ List.mem_cons_self rfl
    obtain ⟨s₁, hline, himported, hstep⟩ := h.birthLines hadded setKeyPool hbirth hnew
    obtain ⟨hsame, htakes₁⟩ := hstep htakes hwritten
    have hgood₁ := hsame.trans hgood
    rw [List.append_cons] at hdistinct
    rw [List.flatMap_cons, List.foldlM_append, hline]
    exact ih hrest (himported hgood₁) hdistinct hgood₁ htakes₁

end

/-! ## The file -/

/-- The lines that `dumpwallet` writes around the keys end where they should: the build strings have
no line end, and the dates are exact. -/
structure Dumpable (env : DumpEnv) (tip : ChainTip) (w : CWallet) : Prop where
  build : charNewline ∉ cStr env.clientBuild
  date : charNewline ∉ cStr env.clientDate
  now : Dated env tip.now
  mined : Dated env tip.pindexBest.nTime
  births : ∀ (keyid : CKeyID) (nTime : Int),
    (getKeyBirthTimes tip.pindexMax w)[keyid]? = some nTime → Dated env nTime

/-- `vKeyBirth`. -/
def keyBirths (tip : ChainTip) (w : CWallet) : List (Int × CKeyID) :=
  ((getKeyBirthTimes tip.pindexMax w).toList.map fun item => (item.2, item.1)).mergeSort birthLE

theorem mem_keyBirths {tip : ChainTip} :
    birth ∈ keyBirths tip w ↔ (getKeyBirthTimes tip.pindexMax w)[birth.2]? = some birth.1 := by
  unfold keyBirths
  rw [List.mem_mergeSort, List.mem_map, ← Map.mem_toList]
  constructor
  · rintro ⟨item, hitem, rfl⟩
    exact hitem
  · intro hitem
    exact ⟨_, hitem, rfl⟩

theorem nodup_keyBirths (tip : ChainTip) (w : CWallet) : ((keyBirths tip w).map (·.2)).Nodup := by
  unfold keyBirths
  have hperm := (List.mergeSort_perm ((getKeyBirthTimes tip.pindexMax w).toList.map fun item =>
    (item.2, item.1)) birthLE).map (·.2)
  refine hperm.nodup_iff.mpr ?_
  rw [List.map_map, List.Nodup, List.pairwise_map]
  exact Map.pairwise_toList _

theorem newline_i64tostr (n : Int) : charNewline ∉ i64tostr n := by
  have hdecimal : ∀ n, charNewline ∉ decimal n := fun n hmem =>
    absurd (isDigit_decimal hmem) (by decide)
  unfold i64tostr
  split
  · exact List.not_mem_cons_of_ne_of_not_mem (by decide) (hdecimal _)
  · exact hdecimal _

theorem newline_hexStr (vch : List UInt8) : charNewline ∉ hexStr vch := by
  have hall : ∀ c : UInt8, charNewline ∉ [hexmap (c >>> 4), hexmap (c &&& 15)] :=
    forall_character (by decide +kernel)
  intro hmem
  obtain ⟨c, -, hc⟩ := List.mem_flatMap.mp hmem
  exact hall c hc

/-- Nothing is read from the line. -/
def IsComment (line : List UInt8) : Prop :=
  charNewline ∉ line ∧ (line = [] ∨ line.head? = some charHash)

theorem IsComment.append {line rest : List UInt8} (h : charNewline ∉ line)
    (hhash : line.head? = some charHash) (hrest : charNewline ∉ rest) :
    IsComment (line ++ rest) := by
  refine ⟨fun hmem => (List.mem_append.mp hmem).elim h hrest, .inr ?_⟩
  rw [List.head?_append, hhash]
  rfl

theorem newline_append {str more : List UInt8} (h : charNewline ∉ str) (h' : charNewline ∉ more) :
    charNewline ∉ str ++ more := fun hmem => (List.mem_append.mp hmem).elim h h'

/-- The lines around the keys are comments or empty. -/
theorem dumpHeader_comments {tip : ChainTip} (h : Dumpable env tip w) :
    ∀ line ∈ dumpHeader env tip, IsComment line := by
  have hdate {nTime : Int} (hdated : Dated env nTime) :
      charNewline ∉ cStr (env.encodeDumpTime nTime) := by
    rw [hdated.word.cStr_eq]
    exact fun hmem => (hdated.word _ hmem).2.1 rfl
  have hcreated : IsComment ("# Wallet dump created by NoLimitCoin ".toUTF8.toList ++
      (cStr env.clientBuild ++ (" (".toUTF8.toList ++ (cStr env.clientDate ++
        ")".toUTF8.toList)))) :=
    .append (by decide +kernel) (by decide +kernel) (newline_append h.build
      (newline_append (by decide +kernel) (newline_append h.date (by decide +kernel))))
  have hnow : IsComment ("# * Created on ".toUTF8.toList ++ cStr (env.encodeDumpTime tip.now)) :=
    .append (by decide +kernel) (by decide +kernel) (hdate h.now)
  have hbest : IsComment ("# * Best block at time of backup was ".toUTF8.toList ++
      (i64tostr tip.nBestHeight ++ (" (".toUTF8.toList ++
        (hexStr (leBytes 32 tip.hashBestChain).reverse ++ "),".toUTF8.toList)))) :=
    .append (by decide +kernel) (by decide +kernel) (newline_append (newline_i64tostr _)
      (newline_append (by decide +kernel) (newline_append (newline_hexStr _) (by decide +kernel))))
  have hmined : IsComment ("#   mined on ".toUTF8.toList ++
      cStr (env.encodeDumpTime tip.pindexBest.nTime)) :=
    .append (by decide +kernel) (by decide +kernel) (hdate h.mined)
  unfold dumpHeader
  simp only [List.append_assoc, List.forall_mem_cons]
  exact ⟨hcreated, hnow, hbest, hmined, ⟨List.not_mem_nil, .inl rfl⟩, nofun⟩

theorem dumpFooter_comments : ∀ line ∈ dumpFooter, IsComment line := by
  unfold dumpFooter
  rw [List.forall_mem_cons, List.forall_mem_singleton]
  exact ⟨⟨List.not_mem_nil, .inl rfl⟩, by decide +kernel, .inr (by decide +kernel)⟩

/-- The lines for the keys of a wallet. -/
def allKeyLines (env : DumpEnv) (tip : ChainTip) (w : CWallet)
    (keys : Map CKeyID (Secret × Bool)) (setKeyPool : List CKeyID) : List (List UInt8) :=
  (keyBirths tip w).flatMap (keyLines env w keys setKeyPool)

theorem ensureWalletIsUnlocked_eq (h : ensureWalletIsUnlocked env w = .ok ()) :
    w.keyStore.isLocked = false := by
  unfold ensureWalletIsUnlocked at h
  split at h
  · cases h
  · next hlocked => exact eq_false_of_ne_true hlocked

/-- What is written. -/
theorem dumpwallet_eq {tip : ChainTip} (hw : Holds env.crypto w.keyStore keys) (hcrypto : env.crypto.Ideal) (hunlocked : ensureWalletIsUnlocked env w = .ok ())
    {setKeyPool : List CKeyID} (hpool : getAllReserveKeys env.crypto w = .ok setKeyPool) :
    dumpwallet env tip w = .ok (fileText
      (dumpHeader env tip ++ allKeyLines env tip w keys setKeyPool ++ dumpFooter)) := by
  have hlocked := ensureWalletIsUnlocked_eq hunlocked
  have hlines : (keyBirths tip w).mapM (dumpLine env w setKeyPool) =
      Except.ok ((keyBirths tip w).map (keyLines env w keys setKeyPool)) := by
    rw [funext (dumpLine_eq hcrypto hw hlocked setKeyPool)]
    exact List.mapM_pure
  unfold dumpwallet
  rw [hunlocked, hpool]
  show (do
    let lines ← (keyBirths tip w).mapM (dumpLine env w setKeyPool)
    return fileText (dumpHeader env tip ++ lines.flatten ++ dumpFooter)) = _
  rw [hlines]
  rfl

/-- A line of a key. -/
theorem mem_allKeyLines {tip : ChainTip} {setKeyPool : List CKeyID} {line : List UInt8}
    (h : line ∈ allKeyLines env tip w keys setKeyPool) :
    ∃ (keyid : CKeyID) (k : Secret × Bool) (nTime : Int), keys[keyid]? = some k ∧
      (getKeyBirthTimes tip.pindexMax w)[keyid]? = some nTime ∧
      line = [charBlank].intercalate (lineWords env k nTime (keyMark w setKeyPool keyid) keyid) := by
  obtain ⟨birth, hbirth, hline⟩ := List.mem_flatMap.mp h
  obtain ⟨k, hk, rfl⟩ := List.mem_map.mp hline
  exact ⟨birth.2, k, birth.1, Option.mem_toList.mp hk, mem_keyBirths.mp hbirth, rfl⟩

/-- The lines that are read are the lines that were written. -/
theorem fileLines_dump {tip : ChainTip} (h : Dumpable env tip w) (setKeyPool : List CKeyID) :
    fileLines (fileText
        (dumpHeader env tip ++ allKeyLines env tip w keys setKeyPool ++ dumpFooter)) =
      dumpHeader env tip ++ allKeyLines env tip w keys setKeyPool ++ dumpFooter ++ [[]] := by
  refine fileLines_fileText fun line hline => ?_
  rw [List.append_assoc, List.mem_append, List.mem_append] at hline
  rcases hline with hheader | hkey | hfooter
  · exact (dumpHeader_comments h line hheader).1
  · obtain ⟨keyid, k, nTime, -, htime, rfl⟩ := mem_allKeyLines hkey
    exact (dumpLine_words (h.births keyid nTime htime) k (isWord_keyMark w setKeyPool keyid)
      keyid).2.1
  · exact (dumpFooter_comments line hfooter).1

/-- Only the lines of the keys are read. -/
theorem importLines_dump {tip : ChainTip} (h : Dumpable env tip w) (setKeyPool : List CKeyID)
    (s : ImportState) :
    (dumpHeader env tip ++ allKeyLines env tip w keys setKeyPool ++ dumpFooter ++ [[]]).foldlM
        (importLine env) s =
      (allKeyLines env tip w keys setKeyPool).foldlM (importLine env) s := by
  have hheader : (dumpHeader env tip).foldlM (importLine env) s = .ok s :=
    importLines_comments (fun line hline => (dumpHeader_comments h line hline).2) s
  have hfooter (s' : ImportState) : dumpFooter.foldlM (importLine env) s' = .ok s' :=
    importLines_comments (fun line hline => (dumpFooter_comments line hline).2) s'
  rw [List.append_assoc, List.append_assoc, List.foldlM_append, hheader]
  show (allKeyLines env tip w keys setKeyPool ++ (dumpFooter ++ [[]])).foldlM (importLine env) s = _
  rw [List.foldlM_append]
  cases (allKeyLines env tip w keys setKeyPool).foldlM (importLine env) s with
  | error e => rfl
  | ok s' =>
    show (dumpFooter ++ [[]]).foldlM (importLine env) s' = _
    rw [List.foldlM_append, hfooter]
    rfl

/-! ## The import -/

/-- The keys of a wallet. -/
theorem Holds.mem_getKeys {keyStore : CCryptoKeyStore} (h : Holds env.crypto keyStore keys)
    {keyid : CKeyID} (hkey : keys.contains keyid = true) : keyid ∈ getKeys keyStore := by
  obtain ⟨k, hk⟩ := (Map.contains_iff _ _).mp hkey
  obtain ⟨master, hinv⟩ := h
  unfold getKeys
  cases hcrypted : keyStore.fUseCrypto with
  | false =>
    rw [Bool.not_false, if_pos rfl, (hinv.plain hcrypted).1]
    exact List.mem_map.mpr ⟨_, (Map.mem_toList _ _ _).mpr hk, rfl⟩
  | true =>
    rw [Bool.not_true, if_neg Bool.false_ne_true]
    obtain ⟨_, -, -, hentry⟩ := hinv.crypted hcrypted keyid k hk
    exact List.mem_map.mpr ⟨_, (Map.mem_toList _ _ _).mpr hentry, rfl⟩

/-- What an unlocked store gives for a key. -/
theorem Holds.getKey (hcrypto : env.crypto.Ideal) {keyStore : CCryptoKeyStore}
    (h : Holds env.crypto keyStore keys) (hlocked : keyStore.isLocked = false) (keyid : CKeyID) :
    keyStore.getKey keyid (CKey.new : CKey env.crypto) =
      match keys[keyid]? with
      | some k => (true, ⟨⟨some k.1, some (env.crypto.regenerateKey k.1), k.2⟩, true, k.2⟩)
      | none => (false, CKey.new) := by
  obtain ⟨master, hinv⟩ := h
  cases hk : keys[keyid]? with
  | none => exact hinv.getKey_none hk _
  | some k =>
    have hfits : Fits ⟨keyStore, keys, master⟩ keyid (CKey.new : CKey env.crypto) :=
      fun _ hflag => by cases hflag
    exact hinv.getKey_eq hcrypto hlocked hfits hk

/-- A wallet has what another one had when it was dumped. -/
structure SameKeys (env : DumpEnv) (tip : ChainTip) (w w' : CWallet) : Prop where
  /-- The same keys, with the same secrets and the same marks for compressed public keys. -/
  getKey : ∀ keyid, w'.keyStore.getKey keyid (CKey.new : CKey env.crypto) =
    w.keyStore.getKey keyid CKey.new
  labels : ∀ keyid : CKeyID, w'.mapAddressBook[keyid]? =
    if w.keyStore.haveKey keyid = true then w.mapAddressBook[keyid]? else none
  births : ∀ keyid, w.keyStore.haveKey keyid = true → ∃ nTime,
    (getKeyBirthTimes tip.pindexMax w)[keyid]? = some nTime ∧
      w'.mapKeyMetadata[keyid]? = some nTime

theorem Imported.sameKeys (hcrypto : env.crypto.Ideal) {tip : ChainTip}
    (hw : Holds env.crypto w.keyStore keys) (hlocked : w.keyStore.isLocked = false)
    (h : Imported env w keys (keyBirths tip w) s) : SameKeys env tip w s.wallet := by
  have hborn : ∀ keyid : CKeyID, keys.contains keyid = true →
      ∃ nTime, (nTime, keyid) ∈ keyBirths tip w := fun keyid hkey => by
    obtain ⟨nTime, htime⟩ := getKeyBirthTimes_covers tip.pindexMax (hw.mem_getKeys hkey)
    exact ⟨nTime, mem_keyBirths.mpr htime⟩
  have hdone : ∀ keyid : CKeyID, keys.contains keyid = true →
      keyid ∈ (keyBirths tip w).map (·.2) := fun keyid hkey => by
    obtain ⟨nTime, hbirth⟩ := hborn keyid hkey
    exact List.mem_map.mpr ⟨_, hbirth, rfl⟩
  refine ⟨fun keyid => ?_, fun keyid => ?_, fun keyid hkey => ?_⟩
  · obtain ⟨keys', hkeys', hlookup⟩ := h.keyStore
    have hsame : keys' = keys := Map.ext fun other => by
      rw [hlookup]
      split
      · rfl
      · next hnot =>
        exact ((Map.contains_eq_false_iff _ _).mp
          (eq_false_of_ne_true fun hkey => hnot (hdone other hkey))).symm
    subst hsame
    rw [hkeys'.getKey hcrypto h.unlocked, hw.getKey hcrypto hlocked]
  · rw [h.labels, hw.haveKey]
    by_cases hkey : keys.contains keyid = true
    · rw [if_pos ⟨hdone keyid hkey, hkey⟩, if_pos hkey]
    · rw [if_neg fun hboth => hkey hboth.2, if_neg hkey]
  · rw [hw.haveKey] at hkey
    obtain ⟨nTime, hbirth⟩ := hborn keyid hkey
    exact ⟨nTime, mem_keyBirths.mp hbirth, h.births _ hbirth hkey⟩

/-- Nothing has been imported. -/
theorem Imported.nil {dst : CWallet} (hdst : Holds env.crypto dst.keyStore ∅)
    (hbook : dst.mapAddressBook = ∅) (hlocked : dst.keyStore.isLocked = false) (nTimeBegin : Int) :
    Imported env w keys [] ⟨dst, nTimeBegin, true⟩ := by
  refine ⟨⟨∅, hdst, fun keyid => ?_⟩, fun keyid => ?_, nofun, hlocked⟩
  · rw [Map.getElem?_empty, List.map_nil, if_neg List.not_mem_nil]
  · show dst.mapAddressBook[keyid]? = _
    rw [hbook, Map.getElem?_empty, if_neg fun hboth => List.not_mem_nil hboth.1]

/-- A line of the file for a key: it is split into its words, and is no comment. -/
def IsKeyLine (env : DumpEnv) (tip : ChainTip) (w : CWallet) (setKeyPool : List CKeyID)
    (line : List UInt8) : Prop :=
  ∃ keyid k nTime, w.keyStore.getKey keyid (CKey.new : CKey env.crypto) =
      (true, CKey.new.setSecret k.1 k.2) ∧
    (getKeyBirthTimes tip.pindexMax w)[keyid]? = some nTime ∧
    words line = [secretText env k, env.encodeDumpTime nTime, keyMark w setKeyPool keyid,
      [charHash], addrPrefix ++ addressText env keyid] ∧
    line ≠ [] ∧ line.head? ≠ some charHash

/-- The oldest birth time, or the time of the best block. -/
def ImportState.result (s : ImportState) : CWallet :=
  { s.wallet with
    nTimeFirstKey := if s.wallet.nTimeFirstKey = 0 ∨ s.nTimeBegin < s.wallet.nTimeFirstKey then
      s.nTimeBegin else s.wallet.nTimeFirstKey }

theorem importwallet_eq_ok {nBestTime : Nat} {dst w' : CWallet} {file : List UInt8} :
    importwallet env nBestTime dst file = .ok w' ↔
      ensureWalletIsUnlocked env dst = .ok () ∧
      ∃ s, (fileLines file).foldlM (importLine env) ⟨dst, nBestTime, true⟩ = .ok s ∧
        s.fGood = true ∧ s.result = w' := by
  have hend (s : ImportState) : (do
      if !s.fGood then throw (.rpcError "Error adding some keys to wallet")
      return s.result : Except Thrown CWallet) = .ok w' ↔ s.fGood = true ∧ s.result = w' := by
    cases hgood : s.fGood with
    | false => exact ⟨nofun, fun h => by cases h.1⟩
    | true => exact ⟨fun h => ⟨rfl, Except.ok.inj h⟩, fun h => congrArg _ h.2⟩
  unfold importwallet
  cases ensureWalletIsUnlocked env dst with
  | error e => exact ⟨nofun, fun h => by cases h.1⟩
  | ok _ =>
    cases hrun : (fileLines file).foldlM (importLine env) ⟨dst, nBestTime, true⟩ with
    | error e => exact ⟨nofun, fun ⟨_, _, h, _⟩ => by cases h⟩
    | ok s =>
      refine (hend s).trans ⟨fun h => ⟨rfl, s, rfl, h⟩, ?_⟩
      rintro ⟨-, s', hs, h⟩
      obtain rfl := Except.ok.inj hs
      exact h

/-- A dump that is imported into an empty wallet gives the keys with their secrets, labels and birth
times; a wallet that takes keys is written them all. -/
theorem dump_import (env : DumpEnv) (hcrypto : env.crypto.Ideal) {tip : ChainTip} {w dst : CWallet}
    {keys : Map CKeyID (Secret × Bool)} {setKeyPool : List CKeyID}
    (hw : Holds env.crypto w.keyStore keys) (hunlocked : ensureWalletIsUnlocked env w = .ok ())
    (hpool : getAllReserveKeys env.crypto w = .ok setKeyPool) (hdump : Dumpable env tip w)
    (hdst : Holds env.crypto dst.keyStore ∅) (hbook : dst.mapAddressBook = ∅) (nBestTime : Nat) :
    ∃ file, dumpwallet env tip w = .ok file ∧
      (∀ w', importwallet env nBestTime dst file = .ok w' → SameKeys env tip w w') ∧
      (ensureWalletIsUnlocked env dst = .ok () → Takes dst.keyStore →
        (∀ keyid, w.keyStore.haveKey keyid = true → env.written keyid = true) →
          ∃ w', importwallet env nBestTime dst file = .ok w') ∧
      (∃ lines, fileLines file = dumpHeader env tip ++ lines ++ dumpFooter ++ [[]] ∧
        (∀ line ∈ dumpHeader env tip ++ dumpFooter, IsComment line) ∧
        ∀ line ∈ lines, IsKeyLine env tip w setKeyPool line) ∧
      ∀ str, decodeDumpString (encodeDumpString str) = str ∧ IsWord (encodeDumpString str) := by
  have hlocked := ensureWalletIsUnlocked_eq hunlocked
  have hadded : ∀ (keyid : CKeyID) (k : Secret × Bool), keys[keyid]? = some k →
      env.crypto.hash160 (env.crypto.pubKey k.1 k.2) = keyid ∧ k.1.InRange := by
    obtain ⟨master, hinv⟩ := hw
    exact hinv.added
  have hdated : ∀ birth ∈ keyBirths tip w, Dated env birth.1 := fun birth hbirth =>
    hdump.births birth.2 birth.1 (mem_keyBirths.mp hbirth)
  have hdistinct := nodup_keyBirths tip w
  refine ⟨_, dumpwallet_eq hw hcrypto hunlocked hpool, fun w' himport => ?_,
    fun hopen htakes hwritten => ?_, ⟨_, fileLines_dump hdump setKeyPool, ?_, ?_⟩,
    fun str => ⟨decodeDumpString_encodeDumpString str, isWord_encodeDumpString str⟩⟩
  · obtain ⟨hopen, s', hrun, hgood, rfl⟩ := importwallet_eq_ok.mp himport
    rw [fileLines_dump hdump, importLines_dump hdump] at hrun
    have hnil : Imported env w keys [] ⟨dst, nBestTime, true⟩ :=
      .nil hdst hbook (ensureWalletIsUnlocked_eq hopen) nBestTime
    have himported := hnil.run hadded setKeyPool hdated hdistinct hrun hgood
    obtain ⟨hkeys, hlabels, hbirths⟩ := himported.sameKeys hcrypto hw hlocked
    exact ⟨hkeys, hlabels, hbirths⟩
  · have hnil : Imported env w keys [] ⟨dst, nBestTime, true⟩ :=
      .nil hdst hbook (ensureWalletIsUnlocked_eq hopen) nBestTime
    obtain ⟨s', hrun, hgood⟩ := hnil.run_takes hadded setKeyPool hdated hdistinct rfl htakes
      fun keyid hkey => hwritten keyid ((hw.haveKey keyid).trans hkey)
    refine ⟨s'.result, importwallet_eq_ok.mpr ⟨hopen, s', ?_, hgood, rfl⟩⟩
    rw [fileLines_dump hdump, importLines_dump hdump]
    exact hrun
  · intro line hline
    rcases List.mem_append.mp hline with hheader | hfooter
    · exact dumpHeader_comments hdump line hheader
    · exact dumpFooter_comments line hfooter
  · intro line hline
    obtain ⟨keyid, k, nTime, hk, htime, rfl⟩ := mem_allKeyLines hline
    obtain ⟨hwords, -, hne, hhash⟩ := dumpLine_words (hdump.births keyid nTime htime) k
      (isWord_keyMark w setKeyPool keyid) keyid
    refine ⟨keyid, k, nTime, ?_, htime, hwords, hne, hhash⟩
    rw [hw.getKey hcrypto hlocked, hk, CKey.new_setSecret]

/-- A stand-in for the texts of dates, with one of them. -/
def someEnv : DumpEnv where
  crypto := plainCrypto
  hash := leNat
  fTestNet := false
  fWalletUnlockStakingOnly := false
  encodeDumpTime _ := "2014-05-13T16:53:20Z".toUTF8.toList
  decodeDumpTime _ := 1400000000
  clientBuild := []
  clientDate := []
  written _ := true

def someTip : ChainTip := ⟨1400000000, 0, 0, ⟨0, 1400000000⟩, ⟨0, 1400000000⟩⟩

def emptyWallet : CWallet := ⟨.empty, ∅, ∅, [], [], 0⟩

/-- A key with a birth time and a label with a blank and a line end. -/
def someWallet : CWallet where
  keyStore := { CCryptoKeyStore.empty with
    mapKeys := (∅ : Map CKeyID (Secret × Bool)).insert someAddress (someSecret, false) }
  mapKeyMetadata := (∅ : Map CKeyID Int).insert someAddress 1400000000
  mapAddressBook := (∅ : Map CKeyID (List UInt8)).insert someAddress [97, charBlank, charNewline]
  keyPool := []
  vAffected := []
  nTimeFirstKey := 0

theorem dated_some : Dated someEnv 1400000000 where
  word := by
    unfold IsWord
    decide +kernel
  exact := rfl

theorem holds_someWallet : Holds plainCrypto someWallet.keyStore
    ((∅ : Map CKeyID (Secret × Bool)).insert someAddress (someSecret, false)) := by
  have hkey : KeyOk someKey someSecret := ⟨rfl, rfl, ⟨by decide, by decide⟩, rfl⟩
  have hinit : StoreInv plainCrypto .initial := StoreInv.initial
  obtain ⟨s', hstep, hinv⟩ := hinit.addKey hkey
  obtain rfl := Except.ok.inj hstep
  exact ⟨_, hinv⟩

theorem dump_import_label : ∃ file w', dumpwallet someEnv someTip someWallet = .ok file ∧
    importwallet someEnv 0 emptyWallet file = .ok w' ∧
    SameKeys someEnv someTip someWallet w' := by
  have hbirths : ∀ (keyid : CKeyID) (nTime : Int),
      (getKeyBirthTimes someTip.pindexMax someWallet)[keyid]? = some nTime →
        Dated someEnv nTime := fun keyid nTime hbirth => by
    obtain ⟨hmeta, -⟩ | ⟨hkey, hzero, -⟩ := getKeyBirthTimes_some hbirth
    · unfold someWallet at hmeta
      rw [Map.getElem?_insert, Map.getElem?_empty] at hmeta
      split at hmeta
      · obtain rfl := Option.some.inj hmeta
        exact dated_some
      · cases hmeta
    · obtain ⟨item, hitem, rfl⟩ := List.mem_map.mp hkey
      rw [Map.mem_toList] at hitem
      unfold someWallet at hitem hzero
      dsimp only at hitem hzero
      rw [Map.getElem?_insert, Map.getElem?_empty] at hitem
      split at hitem
      · next heq =>
        rw [Map.getElem?_insert, if_pos heq] at hzero
        exact absurd (hzero _ rfl) (by decide)
      · cases hitem
  have hdump : Dumpable someEnv someTip someWallet :=
    ⟨List.not_mem_nil, List.not_mem_nil, dated_some, dated_some, hbirths⟩
  have hempty : Holds plainCrypto emptyWallet.keyStore ∅ := ⟨_, StoreInv.initial⟩
  obtain ⟨file, hfile, hsame, himport, -⟩ :=
    dump_import someEnv plainCrypto_ideal holds_someWallet rfl rfl hdump hempty rfl 0
  obtain ⟨w', hw'⟩ := himport rfl (.inl rfl) fun _ _ => rfl
  exact ⟨file, w', hfile, hw', hsame w' hw'⟩

end NoLimitCoin.WalletDump
