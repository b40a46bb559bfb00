import NoLimitCoin.KeyPool

/-!
# The birthday of the wallet

`nTimeFirstKey` of `wallet.cpp` is the earliest birth time of a key, and a rescan goes past the
blocks before it.  Zero stands for no value, and zero or one for a key whose birth time is not
known.  The minimum is kept in `GenerateNewKey`, `importprivkey`, `importwallet` and twice in
`LoadWallet`.

Results:
1. `readKeyValue_keymeta`: what a record with a birth time does to the minimum.
2. `loadRecords_first`: the minimum after all records.
3. `importLoop_spec`: the keys, birth times and the earliest time after the lines of a dump.
4. `firstKey_right`: the minimum is right after every operation that meets its condition.
5. `rescan_complete`: a rescan then skips no block that can pay the wallet.
-/

namespace NoLimitCoin

namespace KeyBirth

open KeyPool (CPubKey)

/-! ## The wallet -/

/-- The records of `wallet.dat` about keys.  A key is named by its public key. -/
inductive KeyRecord where
  | key (vchPubKey : CPubKey)
  | wkey (vchPubKey : CPubKey)
  | ckey (vchPubKey : CPubKey)
  | keymeta (vchPubKey : CPubKey) (nCreateTime : Int)
  | pool (vchPubKey : CPubKey) (nTime : Int)
deriving Repr, DecidableEq

structure CWallet where
  /-- The keys of the key store. -/
  keys : Finset CPubKey
  fCrypted : Bool
  mapKeyMetadata : Map CPubKey Int
  nTimeFirstKey : Int
  /-- The records of `wallet.dat`. -/
  disk : List KeyRecord

namespace CWallet

/-- `mapKeyMetadata[key].nCreateTime`, with zero where there is no entry. -/
def birth (w : CWallet) (key : CPubKey) : Int := w.mapKeyMetadata[key]?.getD 0

def setBirth (w : CWallet) (key : CPubKey) (nCreateTime : Int) : CWallet :=
  { w with mapKeyMetadata := w.mapKeyMetadata.insert key nCreateTime }

end CWallet

/-- How `AddKey` ends: the key store refuses the key, or it takes it and then the writes of the
birth time and of the key fail or succeed. -/
inductive KeyWrite where
  | refused
  | unwritten
  | metaOnly
  | written
deriving Repr, DecidableEq

/-- The key is in the key store, but `AddKey` returns false. -/
def KeyWrite.stranded : KeyWrite → Bool
  | unwritten | metaOnly => true
  | refused | written => false

/-- A record `keymeta` takes the place of the one for the same key. -/
def writeKeyMeta (key : CPubKey) (nCreateTime : Int) (disk : List KeyRecord) : List KeyRecord :=
  (disk.filter fun record =>
    match record with
    | .keymeta other _ => other ≠ key
    | _ => true) ++ [.keymeta key nCreateTime]

/-- The record of a key. -/
def keyRecord (fCrypted : Bool) (key : CPubKey) : KeyRecord :=
  if fCrypted then .ckey key else .key key

/-- `AddKey`: the birth time that is written is the one in `mapKeyMetadata` by then. -/
def addKey (w : CWallet) (key : CPubKey) : KeyWrite → CWallet × Bool
  | .refused => (w, false)
  | result =>
    let w := { w with keys := insert key w.keys }.setBirth key (w.birth key)
    match result with
    | .unwritten | .refused => (w, false)
    | .metaOnly => ({ w with disk := writeKeyMeta key (w.birth key) w.disk }, false)
    | .written =>
      ({ w with
        disk := writeKeyMeta key (w.birth key) w.disk ++ [keyRecord w.fCrypted key] }, true)

/-- The earlier of the two times, where zero is no time. -/
def earlier (nTimeFirstKey nTime : Int) : Int :=
  if nTimeFirstKey = 0 ∨ nTime < nTimeFirstKey then nTime else nTimeFirstKey

/-- `GenerateNewKey`. -/
def generateNewKey (w : CWallet) (key : CPubKey) (nCreationTime : Int) (result : KeyWrite) :
    CWallet :=
  let w := w.setBirth key nCreationTime
  let w := { w with nTimeFirstKey := earlier w.nTimeFirstKey nCreationTime }
  (addKey w key result).1

/-- `importprivkey`; the whole chain is scanned for the key. -/
def importprivkey (w : CWallet) (key : CPubKey) (result : KeyWrite) : CWallet :=
  if key ∈ w.keys then w
  else
    let (w, fAdded) := addKey (w.setBirth key 1) key result
    if fAdded then { w with nTimeFirstKey := 1 } else w

/-- A line of a dump: a key with its birth time. -/
structure DumpLine where
  key : CPubKey
  nTime : Int
  result : KeyWrite
deriving Repr, DecidableEq

/-- A line in the loop of `importwallet`, with `nTimeBegin`. -/
def importLine (s : CWallet × Int) (line : DumpLine) : CWallet × Int :=
  if line.key ∈ s.1.keys then s
  else
    let (w, fAdded) := addKey s.1 line.key line.result
    if fAdded then (w.setBirth line.key line.nTime, min s.2 line.nTime) else (w, s.2)

/-- `importwallet`; `nBestTime` is the time of the best block. -/
def importwallet (w : CWallet) (lines : List DumpLine) (nBestTime : Nat) : CWallet :=
  let s := lines.foldl importLine (w, (nBestTime : Int))
  { s.1 with nTimeFirstKey := earlier s.1.nTimeFirstKey s.2 }

/-! ## Loading -/

/-- The wallet while it is loaded, with the counters of `CWalletScanState`. -/
structure LoadState where
  keys : Finset CPubKey
  mapKeyMetadata : Map CPubKey Int
  nTimeFirstKey : Int
  nKeys : Nat
  nCKeys : Nat
  nKeyMeta : Nat

def LoadState.start : LoadState := ⟨∅, ∅, 0, 0, 0, 0⟩

/-- `LoadKeyMetadata`. -/
def loadKeyMetadata (s : LoadState) (key : CPubKey) (nCreateTime : Int) : LoadState :=
  { s with
    nTimeFirstKey := if nCreateTime ≠ 0 then earlier s.nTimeFirstKey nCreateTime
      else s.nTimeFirstKey
    mapKeyMetadata := s.mapKeyMetadata.insert key nCreateTime }

/-- The branches of `ReadKeyValue` for keys. -/
def readKeyValue (s : LoadState) : KeyRecord → LoadState
  | .key key => { s with keys := insert key s.keys, nKeys := s.nKeys + 1 }
  | .wkey key => { s with keys := insert key s.keys }
  | .ckey key => { s with keys := insert key s.keys, nCKeys := s.nCKeys + 1 }
  | .keymeta key nCreateTime =>
    let s := loadKeyMetadata { s with nKeyMeta := s.nKeyMeta + 1 } key nCreateTime
    { s with nTimeFirstKey := earlier s.nTimeFirstKey nCreateTime }
  | .pool key nTime =>
    { s with
      mapKeyMetadata := if s.mapKeyMetadata.contains key then s.mapKeyMetadata
        else s.mapKeyMetadata.insert key nTime }

/-- The numbers of keys and of birth times differ, as `unsigned int`s. -/
def LoadState.countsDiffer (s : LoadState) : Bool :=
  decide ((s.nKeys + s.nCKeys) % 2 ^ 32 ≠ s.nKeyMeta % 2 ^ 32)

/-- `LoadWallet`, with the records about keys in the order of the cursor; `fNoncriticalErrors`
tells whether another record could not be read. -/
def loadWallet (fCrypted : Bool) (records : List KeyRecord) (fNoncriticalErrors : Bool) :
    CWallet :=
  let s := records.foldl readKeyValue LoadState.start
  { keys := s.keys
    fCrypted := fCrypted
    mapKeyMetadata := s.mapKeyMetadata
    nTimeFirstKey := if !fNoncriticalErrors && s.countsDiffer then 1 else s.nTimeFirstKey
    disk := records }

/-! ## Operations and rescans -/

inductive Op where
  | generateNewKey (key : CPubKey) (nCreationTime : Int) (result : KeyWrite)
  | importprivkey (key : CPubKey) (result : KeyWrite)
  | importwallet (lines : List DumpLine) (nBestTime : Nat)
  /-- A restart; the cursor finds the records in some order. -/
  | restart (records : List KeyRecord) (fNoncriticalErrors : Bool)

def exec (w : CWallet) : Op → CWallet
  | .generateNewKey key nCreationTime result => generateNewKey w key nCreationTime result
  | .importprivkey key result => importprivkey w key result
  | .importwallet lines nBestTime => importwallet w lines nBestTime
  | .restart records fNoncriticalErrors => loadWallet w.fCrypted records fNoncriticalErrors

/-- The blocks that `ScanForWalletTransactions` reads, given the times of those from its start on. -/
def scanned (w : CWallet) (blocks : List Nat) : List Nat :=
  blocks.filter fun nTime => !(w.nTimeFirstKey ≠ 0 && (nTime : Int) < w.nTimeFirstKey - 7200)

/-- The birth time of the key is not known. -/
def CWallet.Unknown (w : CWallet) (key : CPubKey) : Prop := w.birth key = 0 ∨ w.birth key = 1

/-- `nTimeFirstKey` is right: zero or one where a birth time is not known, and otherwise not later
than any birth time. -/
structure FirstKeyRight (w : CWallet) : Prop where
  unknown : (∃ key ∈ w.keys, w.Unknown key) → w.nTimeFirstKey = 0 ∨ w.nTimeFirstKey = 1
  known : (∀ key ∈ w.keys, ¬ w.Unknown key) → ∀ key ∈ w.keys, w.nTimeFirstKey ≤ w.birth key

/-! ## The minimum -/

theorem earlier_zero (nTime : Int) : earlier 0 nTime = nTime := if_pos (.inl rfl)

theorem earlier_mem (t c : Int) : earlier t c = t ∨ earlier t c = c := by
  unfold earlier
  split
  · exact .inr rfl
  · exact .inl rfl

theorem earlier_nonneg {t c : Int} (ht : 0 ≤ t) (hc : 0 ≤ c) : 0 ≤ earlier t c := by
  rcases earlier_mem t c with h | h
  · rwa [h]
  · rwa [h]

theorem earlier_le {t c : Int} : earlier t c ≤ c := by
  unfold earlier
  split
  · exact le_rfl
  · next h => exact not_lt.mp fun hlt => h (.inr hlt)

theorem earlier_le_left {t c : Int} (ht : t ≠ 0) : earlier t c ≤ t := by
  unfold earlier
  split
  · next h => exact (h.resolve_left ht).le
  · exact le_rfl

theorem earlier_nonneg_zero {t : Int} (ht : 0 ≤ t) : earlier t 0 = 0 :=
  le_antisymm earlier_le (earlier_nonneg ht le_rfl)

/-- The earliest of birth times that are known. -/
theorem foldl_earlier_min {times : List Int} (htimes : ∀ c ∈ times, 0 < c) {t : Int} (ht : 0 < t) :
    times.foldl earlier t ∈ t :: times ∧ ∀ c ∈ t :: times, times.foldl earlier t ≤ c := by
  induction times generalizing t with
  | nil => exact ⟨List.mem_cons_self, fun c hc => (List.mem_singleton.mp hc).ge⟩
  | cons d times ih =>
    obtain ⟨hd, htimes⟩ := List.forall_mem_cons.mp htimes
    have hpos : 0 < earlier t d := by
      rcases earlier_mem t d with h | h
      · rwa [h]
      · rwa [h]
    obtain ⟨hmem, hle⟩ := ih htimes hpos
    rw [List.foldl_cons]
    have hfirst := hle _ List.mem_cons_self
    refine ⟨?_, fun c hc => ?_⟩
    · rcases List.mem_cons.mp hmem with h | h
      · rw [h]
        rcases earlier_mem t d with h' | h'
        · rw [h']
          exact List.mem_cons_self
        · rw [h']
          exact List.mem_cons_of_mem _ List.mem_cons_self
      · exact List.mem_cons_of_mem _ (List.mem_cons_of_mem _ h)
    · rcases List.mem_cons.mp hc with rfl | hc
      · exact hfirst.trans (earlier_le_left ht.ne')
      · rcases List.mem_cons.mp hc with rfl | hc
        · exact hfirst.trans earlier_le
        · exact hle c (List.mem_cons_of_mem _ hc)

theorem foldl_earlier_min_zero {times : List Int} (htimes : ∀ c ∈ times, 0 < c)
    (hne : times ≠ []) :
    times.foldl earlier 0 ∈ times ∧ ∀ c ∈ times, times.foldl earlier 0 ≤ c := by
  cases times with
  | nil => exact absurd rfl hne
  | cons d times =>
    obtain ⟨hd, htimes⟩ := List.forall_mem_cons.mp htimes
    rw [List.foldl_cons, earlier_zero]
    exact foldl_earlier_min htimes hd

theorem foldl_earlier_nonneg {times : List Int} (htimes : ∀ c ∈ times, 0 ≤ c) {t : Int}
    (ht : 0 ≤ t) : 0 ≤ times.foldl earlier t := by
  induction times generalizing t with
  | nil => exact ht
  | cons d times ih =>
    obtain ⟨hd, htimes⟩ := List.forall_mem_cons.mp htimes
    exact ih htimes (earlier_nonneg ht hd)

/-- A birth time of zero forgets what has been found before. -/
theorem foldl_earlier_reset {times : List Int} (htimes : ∀ c ∈ times, 0 ≤ c)
    (hlast : times.getLast?.getD 0 = 0) : times.foldl earlier 0 = 0 := by
  rcases List.eq_nil_or_concat times with rfl | ⟨front, c, rfl⟩
  · rfl
  · rw [List.concat_eq_append] at htimes hlast ⊢
    rw [List.getLast?_append, List.getLast?_singleton] at hlast
    obtain rfl : c = 0 := hlast
    have hfront : ∀ d ∈ front, 0 ≤ d := fun d hd => htimes d (List.mem_append_left _ hd)
    rw [List.foldl_concat]
    exact earlier_nonneg_zero (foldl_earlier_nonneg hfront le_rfl)

/-! ## What is loaded -/

def KeyRecord.metaTime? : KeyRecord → Option Int
  | keymeta _ nCreateTime => some nCreateTime
  | _ => none

/-- The birth times of the records `keymeta`, in the order of the cursor. -/
def metaTimes (records : List KeyRecord) : List Int := records.filterMap KeyRecord.metaTime?

/-- The record gives the key to the key store. -/
def KeyRecord.IsKey (vchPubKey : CPubKey) (record : KeyRecord) : Prop :=
  record = .key vchPubKey ∨ record = .wkey vchPubKey ∨ record = .ckey vchPubKey

/-- No record has a time before the epoch. -/
def KeyRecord.NotEarly : KeyRecord → Prop
  | keymeta _ nCreateTime => 0 ≤ nCreateTime
  | pool _ nTime => 0 ≤ nTime
  | _ => True

def KeyRecord.countsAsKey : KeyRecord → Bool
  | key _ | ckey _ => true
  | _ => false

/-- `LoadWallet` counts as many keys as birth times; records `wkey` are not counted. -/
def CountsDiffer (records : List KeyRecord) : Prop :=
  records.countP KeyRecord.countsAsKey % 2 ^ 32 ≠ (metaTimes records).length % 2 ^ 32

/-- No birth time of the map is before the epoch. -/
def NoneEarly (mapKeyMetadata : Map CPubKey Int) : Prop :=
  ∀ (key : CPubKey) (c : Int), mapKeyMetadata[key]? = some c → 0 ≤ c

theorem NoneEarly.insert {mapKeyMetadata : Map CPubKey Int} (h : NoneEarly mapKeyMetadata)
    {c : Int} (hc : 0 ≤ c) (key : CPubKey) : NoneEarly (mapKeyMetadata.insert key c) := by
  intro key' c' hc'
  rw [Map.getElem?_insert] at hc'
  split at hc'
  · rwa [← Option.some.inj hc']
  · exact h key' c' hc'

/-- The two minima of a record come to one. -/
theorem readKeyValue_keymeta (s : LoadState) (key : CPubKey) (c : Int) :
    (readKeyValue s (.keymeta key c)).nTimeFirstKey = earlier s.nTimeFirstKey c := by
  show earlier (if c ≠ 0 then earlier s.nTimeFirstKey c else s.nTimeFirstKey) c = _
  by_cases hzero : c = 0
  · rw [if_neg (not_not.mpr hzero)]
  · rw [if_pos hzero]
    rcases earlier_mem s.nTimeFirstKey c with h | h
    · rw [h, h]
    · rw [h]
      exact if_neg (by simp [hzero])

section load

variable {records : List KeyRecord}

theorem loadRecords_first (s : LoadState) :
    (records.foldl readKeyValue s).nTimeFirstKey =
      (metaTimes records).foldl earlier s.nTimeFirstKey := by
  induction records generalizing s with
  | nil => rfl
  | cons record records ih =>
    rw [List.foldl_cons, ih]
    cases record with
    | keymeta key c =>
      rw [readKeyValue_keymeta]
      rfl
    | _ => rfl

theorem readKeyValue_keys (s : LoadState) (record : KeyRecord) (key : CPubKey) :
    key ∈ (readKeyValue s record).keys ↔ key ∈ s.keys ∨ record.IsKey key := by
  cases record with
  | keymeta _ _ => simp [readKeyValue, loadKeyMetadata, KeyRecord.IsKey]
  | pool _ _ => simp [readKeyValue, KeyRecord.IsKey]
  | _ other => simp [readKeyValue, KeyRecord.IsKey, or_comm, eq_comm (a := other)]

theorem loadRecords_keys (s : LoadState) (key : CPubKey) :
    key ∈ (records.foldl readKeyValue s).keys ↔
      key ∈ s.keys ∨ ∃ record ∈ records, record.IsKey key := by
  induction records generalizing s with
  | nil => simp
  | cons record records ih =>
    rw [List.foldl_cons, ih, readKeyValue_keys, List.exists_mem_cons_iff, or_assoc]

theorem loadRecords_noneEarly (hrecords : ∀ record ∈ records, record.NotEarly) {s : LoadState}
    (hs : NoneEarly s.mapKeyMetadata) :
    NoneEarly (records.foldl readKeyValue s).mapKeyMetadata := by
  induction records generalizing s with
  | nil => exact hs
  | cons record records ih =>
    obtain ⟨hrecord, hrest⟩ := List.forall_mem_cons.mp hrecords
    refine ih hrest ?_
    cases record with
    | keymeta key c => exact hs.insert hrecord key
    | pool key nTime =>
      unfold readKeyValue
      dsimp only
      split
      · exact hs
      · exact hs.insert hrecord key
    | key => exact hs
    | wkey => exact hs
    | ckey => exact hs

/-- A key with a record `keymeta` is left with the birth time of such a record. -/
theorem loadRecords_birth {T : Set Int} (hT : ∀ c ∈ metaTimes records, c ∈ T) {s : LoadState}
    {key : CPubKey}
    (hkey : (∃ c, .keymeta key c ∈ records) ∨ ∃ c ∈ T, s.mapKeyMetadata[key]? = some c) :
    ∃ c ∈ T, (records.foldl readKeyValue s).mapKeyMetadata[key]? = some c := by
  induction records generalizing s with
  | nil =>
    rcases hkey with ⟨c, hc⟩ | hkey
    · exact absurd hc List.not_mem_nil
    · exact hkey
  | cons record records ih =>
    rw [List.foldl_cons]
    have hrest : ∀ c ∈ metaTimes records, c ∈ T := fun c hc => hT c (by
      unfold metaTimes at hc ⊢
      rw [List.filterMap_cons]
      split
      · exact hc
      · exact List.mem_cons_of_mem _ hc)
    refine ih hrest ?_
    by_cases hnow : ∃ c, record = .keymeta key c
    · obtain ⟨c, rfl⟩ := hnow
      refine .inr ⟨c, hT c List.mem_cons_self, ?_⟩
      exact (Map.getElem?_insert ..).trans (if_pos rfl)
    rcases hkey with ⟨c, hc⟩ | ⟨c, hc, hkey⟩
    · rcases List.mem_cons.mp hc with heq | hc
      · exact absurd ⟨c, heq.symm⟩ hnow
      · exact .inl ⟨c, hc⟩
    · refine .inr ⟨c, hc, ?_⟩
      cases record with
      | keymeta key' c' =>
        refine (Map.getElem?_insert ..).trans ?_
        rw [if_neg fun heq => hnow ⟨c', by rw [heq]⟩]
        exact hkey
      | pool key' nTime =>
        unfold readKeyValue
        dsimp only
        split
        · exact hkey
        · next hnone =>
          rw [Map.getElem?_insert, if_neg ?_]
          · exact hkey
          · rintro rfl
            exact hnone ((Map.contains_iff _ _).mpr ⟨c, hkey⟩)
      | key => exact hkey
      | wkey => exact hkey
      | ckey => exact hkey

theorem loadRecords_counts (s : LoadState) :
    (records.foldl readKeyValue s).nKeys + (records.foldl readKeyValue s).nCKeys =
        s.nKeys + s.nCKeys + records.countP KeyRecord.countsAsKey ∧
      (records.foldl readKeyValue s).nKeyMeta = s.nKeyMeta + (metaTimes records).length := by
  induction records generalizing s with
  | nil => exact ⟨rfl, rfl⟩
  | cons record records ih =>
    rw [List.foldl_cons, (ih _).1, (ih _).2, metaTimes, metaTimes, List.countP_cons,
      List.filterMap_cons]
    cases record <;> simp [readKeyValue, loadKeyMetadata, KeyRecord.metaTime?,
      KeyRecord.countsAsKey] <;> omega

theorem countsDiffer_iff :
    (records.foldl readKeyValue LoadState.start).countsDiffer = true ↔ CountsDiffer records := by
  obtain ⟨hkeys, hmeta⟩ := @loadRecords_counts records LoadState.start
  unfold LoadState.countsDiffer CountsDiffer
  rw [decide_eq_true_iff, hkeys, hmeta]
  simp [LoadState.start]

end load

/-! ## Conditions -/

/-- The minimum of `LoadWallet` is right: it is overruled because the counts differ, or it ends as
zero or one, or all keys have a birth time and none is zero. -/
structure RestartFits (records : List KeyRecord) (fNoncriticalErrors : Bool) : Prop where
  notEarly : ∀ record ∈ records, record.NotEarly
  right : (fNoncriticalErrors = false ∧ CountsDiffer records) ∨
    (∃ front back, metaTimes records = front ++ back ∧ front.getLast?.getD 0 = 0 ∧
      0 ∉ back ∧ (back = [] ∨ 1 ∈ back)) ∨
    (0 ∉ metaTimes records ∧ ∀ key, (∃ record ∈ records, record.IsKey key) →
      ∃ c, .keymeta key c ∈ records)

/-- The lines whose keys go into the key store: not there yet, and not refused. -/
def taken (keys : Finset CPubKey) : List DumpLine → List DumpLine
  | [] => []
  | line :: lines =>
    if line.key ∈ keys ∨ line.result = .refused then taken keys lines
    else line :: taken (insert line.key keys) lines

/-- The rescan of `importwallet` begins no later than for a time `limit`: the best block is not
later, or a key is imported that is not. -/
def BeginsBy (w : CWallet) (lines : List DumpLine) (nBestTime : Nat) (limit : Int) : Prop :=
  (nBestTime : Int) ≤ limit ∨
    ∃ line ∈ taken w.keys lines, line.result = .written ∧ line.nTime ≤ limit

structure ImportFits (w : CWallet) (lines : List DumpLine) (nBestTime : Nat) : Prop where
  notEarly : ∀ line ∈ lines, 0 ≤ line.nTime
  none : w.nTimeFirstKey = 0 → BeginsBy w lines nBestTime 1 ∨
    ∀ key ∈ w.keys, ¬ w.Unknown key ∧ BeginsBy w lines nBestTime (w.birth key)
  stranded : (∃ line ∈ taken w.keys lines, line.result ≠ .written) →
    w.nTimeFirstKey = 1 ∨ BeginsBy w lines nBestTime 1

/-- The condition of an operation, in the state before it. -/
def Fits (w : CWallet) : Op → Prop
  | .generateNewKey _ nCreationTime _ =>
    0 < nCreationTime ∧
      (w.nTimeFirstKey = 0 → ∀ key ∈ w.keys, ¬ w.Unknown key ∧ nCreationTime ≤ w.birth key)
  | .importprivkey key result =>
    key ∉ w.keys → result.stranded = true → w.nTimeFirstKey = 0 ∨ w.nTimeFirstKey = 1
  | .importwallet lines nBestTime => ImportFits w lines nBestTime
  | .restart records fNoncriticalErrors => RestartFits records fNoncriticalErrors

/-- What operations that meet their conditions keep. -/
structure Inv (w : CWallet) : Prop where
  right : FirstKeyRight w
  noneEarly : NoneEarly w.mapKeyMetadata
  notNegative : 0 ≤ w.nTimeFirstKey

/-! ## Adding keys -/

section keys

variable {w : CWallet} {key : CPubKey} {result : KeyWrite}

theorem CWallet.birth_setBirth (w : CWallet) (key : CPubKey) (c : Int) (other : CPubKey) :
    (w.setBirth key c).birth other = if key = other then c else w.birth other := by
  unfold CWallet.birth CWallet.setBirth
  rw [Map.getElem?_insert]
  split <;> rfl

theorem CWallet.birth_nonneg (h : NoneEarly w.mapKeyMetadata) (key : CPubKey) :
    0 ≤ w.birth key := by
  unfold CWallet.birth
  cases hc : w.mapKeyMetadata[key]? with
  | none => exact le_rfl
  | some c => exact h key c hc

/-- A birth time that is known is later than those that stand for unknown. -/
theorem CWallet.one_lt_birth (h : NoneEarly w.mapKeyMetadata) (hknown : ¬ w.Unknown key) :
    1 < w.birth key := by
  have hnonneg := w.birth_nonneg h key
  unfold CWallet.Unknown at hknown
  omega

theorem addKey_refused : addKey w key .refused = (w, false) := rfl

theorem addKey_keys (h : result ≠ .refused) :
    (addKey w key result).1.keys = insert key w.keys := by
  cases result with
  | refused => exact absurd rfl h
  | _ => rfl

theorem addKey_first (w : CWallet) (key : CPubKey) (result : KeyWrite) :
    (addKey w key result).1.nTimeFirstKey = w.nTimeFirstKey := by
  cases result <;> rfl

theorem addKey_snd (w : CWallet) (key : CPubKey) (result : KeyWrite) :
    (addKey w key result).2 = decide (result = .written) := by
  cases result <;> rfl

theorem addKey_birth (w : CWallet) (key : CPubKey) (result : KeyWrite) (other : CPubKey) :
    (addKey w key result).1.birth other = w.birth other := by
  have hset : (w.setBirth key (w.birth key)).birth other = w.birth other := by
    rw [CWallet.birth_setBirth]
    split
    · next heq => rw [heq]
    · rfl
  cases result with
  | refused => rfl
  | _ => exact hset

theorem addKey_noneEarly (h : NoneEarly w.mapKeyMetadata) :
    NoneEarly (addKey w key result).1.mapKeyMetadata := by
  cases result with
  | refused => exact h
  | _ => exact h.insert (w.birth_nonneg h key) key

end keys

/-! ## The operations -/

section operations

variable {w : CWallet}

/-- Zero and one are right whatever the birth times are. -/
theorem FirstKeyRight.of_unknown (h : w.nTimeFirstKey = 0 ∨ w.nTimeFirstKey = 1)
    (hnone : NoneEarly w.mapKeyMetadata) : FirstKeyRight w where
  unknown _ := h
  known hall key hkey := by
    have hbirth := CWallet.one_lt_birth hnone (hall key hkey)
    omega

theorem Inv.unknown_or (h : Inv w) : (w.nTimeFirstKey = 0 ∨ w.nTimeFirstKey = 1) ∨
    ∀ key ∈ w.keys, ¬ w.Unknown key ∧ w.nTimeFirstKey ≤ w.birth key := by
  by_cases hex : ∃ key ∈ w.keys, w.Unknown key
  · exact .inl (h.right.unknown hex)
  · have hall : ∀ key ∈ w.keys, ¬ w.Unknown key := fun key hkey hun => hex ⟨key, hkey, hun⟩
    exact .inr fun key hkey => ⟨hall key hkey, h.right.known hall key hkey⟩

/-- With a time that is not later than any birth time the minimum is right. -/
theorem FirstKeyRight.of_le (hpos : 1 < w.nTimeFirstKey)
    (hle : ∀ key ∈ w.keys, w.nTimeFirstKey ≤ w.birth key) : FirstKeyRight w where
  unknown := by
    rintro ⟨key, hkey, hun⟩
    have hbirth := hle key hkey
    unfold CWallet.Unknown at hun
    omega
  known _ := hle

theorem generateNewKey_inv (h : Inv w) {key : CPubKey} {nCreationTime : Int}
    {result : KeyWrite} (hfits : Fits w (.generateNewKey key nCreationTime result)) :
    Inv (generateNewKey w key nCreationTime result) := by
  obtain ⟨hpos, hnone⟩ := hfits
  have hfirst : (generateNewKey w key nCreationTime result).nTimeFirstKey =
      earlier w.nTimeFirstKey nCreationTime := addKey_first _ _ _
  have hbirth : ∀ other, (generateNewKey w key nCreationTime result).birth other =
      if key = other then nCreationTime else w.birth other := fun other =>
    (addKey_birth _ _ _ other).trans (CWallet.birth_setBirth w key nCreationTime other)
  have hkeys : ∀ other ∈ (generateNewKey w key nCreationTime result).keys,
      other = key ∨ other ∈ w.keys := by
    intro other hother
    by_cases hrefused : result = .refused
    · rw [hrefused] at hother
      exact .inr hother
    · rw [generateNewKey, addKey_keys hrefused] at hother
      exact Finset.mem_insert.mp hother
  have hearly : NoneEarly (generateNewKey w key nCreationTime result).mapKeyMetadata :=
    addKey_noneEarly (h.noneEarly.insert hpos.le key)
  refine ⟨?_, hearly, ?_⟩
  · by_cases hone : earlier w.nTimeFirstKey nCreationTime ≤ 1
    · refine .of_unknown ?_ hearly
      have hnonneg := earlier_nonneg h.notNegative hpos.le
      rw [hfirst]
      omega
    · refine .of_le (by rw [hfirst]; exact not_le.mp hone) fun other hother => ?_
      rw [hfirst, hbirth]
      split
      · exact earlier_le
      · next hne =>
        have hmem := (hkeys other hother).resolve_left (Ne.symm hne)
        by_cases hzero : w.nTimeFirstKey = 0
        · exact earlier_le.trans (hnone hzero other hmem).2
        · have hle := earlier_le_left (c := nCreationTime) hzero
          rcases h.unknown_or with hun | hall
          · rcases hun with hun | hun
            · exact absurd hun hzero
            · exact absurd (hle.trans hun.le) hone
          · exact hle.trans (hall other hmem).2
  · rw [hfirst]
    exact earlier_nonneg h.notNegative hpos.le

theorem importprivkey_inv (h : Inv w) {key : CPubKey} {result : KeyWrite}
    (hfits : Fits w (.importprivkey key result)) : Inv (importprivkey w key result) := by
  unfold importprivkey
  split
  · exact h
  next hnew =>
  have hearly : NoneEarly (addKey (w.setBirth key 1) key result).1.mapKeyMetadata :=
    addKey_noneEarly (h.noneEarly.insert Int.one_nonneg key)
  have hfirst : (addKey (w.setBirth key 1) key result).1.nTimeFirstKey = w.nTimeFirstKey :=
    addKey_first _ _ _
  dsimp only
  rw [addKey_snd]
  by_cases hwritten : result = .written
  · rw [if_pos (decide_eq_true hwritten)]
    exact ⟨.of_unknown (.inr rfl) hearly, hearly, Int.one_nonneg⟩
  rw [if_neg (by simpa using hwritten)]
  refine ⟨?_, hearly, hfirst ▸ h.notNegative⟩
  by_cases hrefused : result = .refused
  · rw [hrefused, addKey_refused]
    have hbirth : ∀ other ∈ w.keys, (w.setBirth key 1).birth other = w.birth other := by
      intro other hother
      rw [CWallet.birth_setBirth, if_neg]
      rintro rfl
      exact hnew hother
    rcases h.unknown_or with hun | hall
    · exact .of_unknown hun (h.noneEarly.insert Int.one_nonneg key)
    · refine ⟨?_, fun _ other hother => ?_⟩
      · rintro ⟨other, hother, hun⟩
        unfold CWallet.Unknown at hun
        rw [hbirth other hother] at hun
        exact absurd hun (hall other hother).1
      · rw [hbirth other hother]
        exact (hall other hother).2
  · have hstranded : result.stranded = true := by
      cases result with
      | refused => exact absurd rfl hrefused
      | written => exact absurd rfl hwritten
      | _ => rfl
    refine .of_unknown ?_ hearly
    rw [hfirst]
    exact hfits hnew hstranded

/-- The wallet and the earliest time after the lines of a dump. -/
structure Imported (w : CWallet) (b : Int) (lines : List DumpLine) (s : CWallet × Int) : Prop where
  first : s.1.nTimeFirstKey = w.nTimeFirstKey
  keys : ∀ key ∈ s.1.keys, key ∈ w.keys ∨ ∃ line ∈ taken w.keys lines, line.key = key
  kept : ∀ key ∈ w.keys, s.1.birth key = w.birth key
  birth : ∀ line ∈ taken w.keys lines, line.result = .written → s.1.birth line.key = line.nTime
  noneEarly : NoneEarly w.mapKeyMetadata → (∀ line ∈ lines, 0 ≤ line.nTime) →
    NoneEarly s.1.mapKeyMetadata
  le : ∀ line ∈ taken w.keys lines, line.result = .written → s.2 ≤ line.nTime
  le_best : s.2 ≤ b
  attained : s.2 = b ∨ ∃ line ∈ taken w.keys lines, line.result = .written ∧ s.2 = line.nTime
  subset : w.keys ⊆ s.1.keys

theorem importLine_skip {s : CWallet × Int} {line : DumpLine}
    (h : line.key ∈ s.1.keys ∨ line.result = .refused) : importLine s line = s := by
  unfold importLine
  by_cases hmem : line.key ∈ s.1.keys
  · rw [if_pos hmem]
  · rw [if_neg hmem, h.resolve_left hmem, addKey_refused]
    rfl

/-- A line whose key is taken. -/
theorem importLine_taken {b : Int} {line : DumpLine}
    (h : ¬ (line.key ∈ w.keys ∨ line.result = .refused)) :
    (importLine (w, b) line).1.keys = insert line.key w.keys ∧
      (importLine (w, b) line).1.nTimeFirstKey = w.nTimeFirstKey ∧
      (∀ key, (importLine (w, b) line).1.birth key =
        if line.key = key ∧ line.result = .written then line.nTime else w.birth key) ∧
      (NoneEarly w.mapKeyMetadata → 0 ≤ line.nTime →
        NoneEarly (importLine (w, b) line).1.mapKeyMetadata) ∧
      (importLine (w, b) line).2 = if line.result = .written then min b line.nTime else b := by
  obtain ⟨hnew, hresult⟩ := not_or.mp h
  unfold importLine
  rw [if_neg hnew]
  dsimp only
  rw [addKey_snd]
  by_cases hwritten : line.result = .written
  · rw [if_pos (decide_eq_true hwritten), if_pos hwritten]
    refine ⟨addKey_keys hresult, addKey_first _ _ _, fun key => ?_, fun hearly hpos => ?_, rfl⟩
    · rw [CWallet.birth_setBirth, addKey_birth]
      simp only [hwritten, and_true]
    · exact (addKey_noneEarly hearly).insert hpos line.key
  · rw [if_neg (by simpa using hwritten), if_neg hwritten]
    refine ⟨addKey_keys hresult, addKey_first _ _ _, fun key => ?_, fun hearly _ => ?_, rfl⟩
    · rw [addKey_birth, if_neg fun hboth => hwritten hboth.2]
    · exact addKey_noneEarly hearly

theorem importLoop_spec (w : CWallet) (b : Int) (lines : List DumpLine) :
    Imported w b lines (lines.foldl importLine (w, b)) := by
  induction lines generalizing w b with
  | nil =>
    exact ⟨rfl, fun _ hkey => .inl hkey, fun _ _ => rfl, fun _ hline => absurd hline
      List.not_mem_nil, fun hearly _ => hearly, fun _ hline => absurd hline List.not_mem_nil,
      le_rfl, .inl rfl, Finset.Subset.refl _⟩
  | cons line lines ih =>
    rw [List.foldl_cons]
    by_cases hskip : line.key ∈ w.keys ∨ line.result = .refused
    · rw [importLine_skip hskip]
      have htaken : taken w.keys (line :: lines) = taken w.keys lines := if_pos hskip
      obtain ⟨hfirst, hkeys, hkept, hbirth, hearly, hle, hbest, hattained, hsubset⟩ := ih w b
      rw [← htaken] at hkeys hbirth hle hattained
      exact ⟨hfirst, hkeys, hkept, hbirth, fun hnone hlines => hearly hnone
        (List.forall_mem_cons.mp hlines).2, hle, hbest, hattained, hsubset⟩
    have htaken : taken w.keys (line :: lines) =
        line :: taken (insert line.key w.keys) lines := if_neg hskip
    obtain ⟨hnew, hresult⟩ := not_or.mp hskip
    obtain ⟨hkeys₁, hfirst₁, hbirth₁, hearly₁, hbegin₁⟩ := importLine_taken (b := b) hskip
    generalize importLine (w, b) line = s₁ at hkeys₁ hfirst₁ hbirth₁ hearly₁ hbegin₁
    obtain ⟨w₁, b₁⟩ := s₁
    dsimp only at hkeys₁ hfirst₁ hbirth₁ hearly₁ hbegin₁
    obtain ⟨hfirst, hkeys, hkept, hbirth, hearly, hle, hbest, hattained, hsubset⟩ := ih w₁ b₁
    rw [hkeys₁] at hkeys hkept hbirth hle hattained hsubset
    have hself := hkept line.key (Finset.mem_insert_self _ _)
    have hline : line.result = .written → b₁ ≤ line.nTime := fun hwritten => by
      rw [hbegin₁, if_pos hwritten]
      exact min_le_right _ _
    have hbefore : b₁ ≤ b ∧ (b₁ = b ∨ line.result = .written ∧ b₁ = line.nTime) := by
      rw [hbegin₁]
      split
      · next hwritten =>
        exact ⟨min_le_left _ _, (min_choice b line.nTime).imp id fun hmin => ⟨hwritten, hmin⟩⟩
      · exact ⟨le_rfl, .inl rfl⟩
    refine ⟨hfirst.trans hfirst₁, fun key hkey => ?_, fun key hkey => ?_, fun other hother => ?_,
      fun hnone hlines => ?_, fun other hother => ?_, ?_, ?_,
      (Finset.subset_insert _ _).trans hsubset⟩
    · rw [htaken, List.exists_mem_cons_iff]
      rcases hkeys key hkey with hmem | hmem
      · rcases Finset.mem_insert.mp hmem with rfl | hmem
        · exact .inr (.inl rfl)
        · exact .inl hmem
      · exact .inr (.inr hmem)
    · rw [hkept key (Finset.mem_insert_of_mem hkey), hbirth₁, if_neg]
      rintro ⟨rfl, -⟩
      exact hnew hkey
    · rw [htaken] at hother
      intro hwritten
      rcases List.mem_cons.mp hother with rfl | hother
      · rw [hself, hbirth₁, if_pos ⟨rfl, hwritten⟩]
      · exact hbirth other hother hwritten
    · obtain ⟨hline, hlines⟩ := List.forall_mem_cons.mp hlines
      exact hearly (hearly₁ hnone hline) hlines
    · rw [htaken] at hother
      intro hwritten
      rcases List.mem_cons.mp hother with rfl | hother
      · exact hbest.trans (hline hwritten)
      · exact hle other hother hwritten
    · exact hbest.trans hbefore.1
    · rw [htaken, List.exists_mem_cons_iff]
      rcases hattained with heq | hex
      · rcases hbefore.2 with hsame | ⟨hwritten, htime⟩
        · exact .inl (heq.trans hsame)
        · exact .inr (.inl ⟨hwritten, heq.trans htime⟩)
      · exact .inr (.inr hex)

/-- The rescan begins by a limit exactly when it is not below the time that the loop has found. -/
theorem Imported.begin_le {lines : List DumpLine} {nBestTime : Nat} {s : CWallet × Int}
    (h : Imported w nBestTime lines s) {limit : Int} (hby : BeginsBy w lines nBestTime limit) :
    s.2 ≤ limit := by
  rcases hby with hbest | ⟨line, hline, hwritten, hle⟩
  · exact h.le_best.trans hbest
  · exact (h.le line hline hwritten).trans hle

theorem taken_sublist (keys : Finset CPubKey) (lines : List DumpLine) :
    (taken keys lines).Sublist lines := by
  induction lines generalizing keys with
  | nil => exact List.Sublist.refl _
  | cons line lines ih =>
    unfold taken
    split
    · exact (ih _).cons _
    · exact (ih _).cons_cons _

theorem importwallet_inv (h : Inv w) {lines : List DumpLine} {nBestTime : Nat}
    (hfits : ImportFits w lines nBestTime) : Inv (importwallet w lines nBestTime) := by
  have himport := importLoop_spec w nBestTime lines
  unfold importwallet
  generalize lines.foldl importLine (w, (nBestTime : Int)) = s at himport
  have hearly : NoneEarly s.1.mapKeyMetadata := himport.noneEarly h.noneEarly hfits.notEarly
  have hbegin : 0 ≤ s.2 := by
    rcases himport.attained with heq | ⟨line, hline, -, heq⟩
    · rw [heq]
      exact Int.natCast_nonneg _
    · rw [heq]
      exact hfits.notEarly line ((taken_sublist _ _).mem hline)
  dsimp only
  rw [himport.first]
  have hfirst := earlier_nonneg h.notNegative hbegin
  refine ⟨?_, hearly, hfirst⟩
  by_cases hone : earlier w.nTimeFirstKey s.2 ≤ 1
  · refine .of_unknown ?_ hearly
    show earlier w.nTimeFirstKey s.2 = 0 ∨ earlier w.nTimeFirstKey s.2 = 1
    omega
  -- the time that is found is later than the times for unknown
  have hlate : 1 < s.2 := (not_le.mp hone).trans_le earlier_le
  have hnoBegin : ¬ BeginsBy w lines nBestTime 1 := fun hby =>
    absurd (himport.begin_le hby) (not_le.mpr hlate)
  refine .of_le (not_le.mp hone) fun key hkey => ?_
  show earlier w.nTimeFirstKey s.2 ≤ s.1.birth key
  rcases himport.keys key hkey with hmem | ⟨line, hline, rfl⟩
  · rw [himport.kept key hmem]
    by_cases hzero : w.nTimeFirstKey = 0
    · have hall := (hfits.none hzero).resolve_left hnoBegin
      exact earlier_le.trans (himport.begin_le (hall key hmem).2)
    · have hle := earlier_le_left (c := s.2) hzero
      rcases h.unknown_or with hun | hall
      · exact absurd (hle.trans (hun.resolve_left hzero).le) hone
      · exact hle.trans (hall key hmem).2
  · by_cases hwritten : line.result = .written
    · rw [himport.birth line hline hwritten]
      exact earlier_le.trans (himport.le line hline hwritten)
    · have hfirstOne := (hfits.stranded ⟨line, hline, hwritten⟩).resolve_right hnoBegin
      have hle := earlier_le_left (t := w.nTimeFirstKey) (c := s.2) (by rw [hfirstOne]; decide)
      exact absurd (hle.trans hfirstOne.le) hone

theorem loadWallet_inv {fCrypted : Bool} {records : List KeyRecord} {fNoncriticalErrors : Bool}
    (hfits : RestartFits records fNoncriticalErrors) :
    Inv (loadWallet fCrypted records fNoncriticalErrors) := by
  have hearly : NoneEarly (loadWallet fCrypted records fNoncriticalErrors).mapKeyMetadata :=
    loadRecords_noneEarly hfits.notEarly fun key c hc => by simp [LoadState.start] at hc
  have hnonneg : ∀ c ∈ metaTimes records, 0 ≤ c := by
    intro c hc
    obtain ⟨record, hrecord, htime⟩ := List.mem_filterMap.mp hc
    have hnotEarly := hfits.notEarly record hrecord
    cases record with
    | keymeta key d =>
      obtain rfl := Option.some.inj htime
      exact hnotEarly
    | _ => cases htime
  have hscan : (records.foldl readKeyValue LoadState.start).nTimeFirstKey =
      (metaTimes records).foldl earlier 0 := loadRecords_first _
  have hfirst : (loadWallet fCrypted records fNoncriticalErrors).nTimeFirstKey = 1 ∨
      (loadWallet fCrypted records fNoncriticalErrors).nTimeFirstKey =
        (metaTimes records).foldl earlier 0 := by
    unfold loadWallet
    dsimp only
    split
    · exact .inl rfl
    · exact .inr hscan
  have hpos : 0 ≤ (loadWallet fCrypted records fNoncriticalErrors).nTimeFirstKey := by
    rcases hfirst with hone | heq
    · rw [hone]
      exact Int.one_nonneg
    · rw [heq]
      exact foldl_earlier_nonneg hnonneg le_rfl
  refine ⟨?_, hearly, hpos⟩
  rcases hfirst with hone | heq
  · exact .of_unknown (.inr hone) hearly
  rcases hfits.right with ⟨hgood, hcounts⟩ | ⟨front, back, hsplit, hlast, hzero, hback⟩ |
    ⟨hzero, hall⟩
  · refine .of_unknown (.inr ?_) hearly
    unfold loadWallet
    dsimp only
    rw [hgood, countsDiffer_iff.mpr hcounts]
    rfl
  · refine .of_unknown ?_ hearly
    have hreset : front.foldl earlier 0 = 0 :=
      foldl_earlier_reset (fun c hc => hnonneg c (hsplit ▸ List.mem_append_left _ hc)) hlast
    rw [heq, hsplit, List.foldl_append, hreset]
    rcases hback with rfl | hone
    · exact .inl rfl
    · have hlater : ∀ c ∈ back, 0 < c := fun c hc =>
        lt_of_le_of_ne (hnonneg c (hsplit ▸ List.mem_append_right _ hc)) fun heq =>
          hzero (heq ▸ hc)
      obtain ⟨hmem, hle⟩ := foldl_earlier_min_zero hlater (List.ne_nil_of_mem hone)
      have hle' := hle 1 hone
      have hgt := hlater _ hmem
      omega
  · have hlater : ∀ c ∈ metaTimes records, 0 < c := fun c hc =>
      lt_of_le_of_ne (hnonneg c hc) fun heq => hzero (heq ▸ hc)
    -- the birth time of every key is one of those that have been compared
    have hbirth : ∀ key ∈ (loadWallet fCrypted records fNoncriticalErrors).keys,
        (loadWallet fCrypted records fNoncriticalErrors).birth key ∈ metaTimes records := by
      intro key hkey
      have hkey' := (@loadRecords_keys records LoadState.start key).mp hkey
      have hrecord := hall key (hkey'.resolve_left (Finset.notMem_empty key))
      obtain ⟨c, hc, hfound⟩ := loadRecords_birth (T := {c | c ∈ metaTimes records})
        (fun c hc => hc) (s := LoadState.start) (.inl hrecord)
      have hvalue : (loadWallet fCrypted records fNoncriticalErrors).birth key = c := by
        rw [CWallet.birth, show (loadWallet fCrypted records fNoncriticalErrors).mapKeyMetadata[key]? =
          some c from hfound]
        rfl
      rw [hvalue]
      exact hc
    refine ⟨?_, fun _ key hkey => ?_⟩
    · rintro ⟨key, hkey, hun⟩
      have hmem := hbirth key hkey
      obtain ⟨hmin, hle⟩ := foldl_earlier_min_zero hlater (List.ne_nil_of_mem hmem)
      have hle' := hle _ hmem
      have hgt := hlater _ hmin
      unfold CWallet.Unknown at hun
      rw [heq]
      omega
    · have hmem := hbirth key hkey
      rw [heq]
      exact (foldl_earlier_min_zero hlater (List.ne_nil_of_mem hmem)).2 _ hmem

end operations

/-! ## Runs -/

/-- A wallet before it is loaded, over any file. -/
def unloaded (fCrypted : Bool) (records : List KeyRecord) : CWallet := ⟨∅, fCrypted, ∅, 0, records⟩

/-- A restart finds the records of the file, in any order. -/
def Possible (w : CWallet) : Op → Prop
  | .restart records _ => records.Perm w.disk
  | _ => True

/-- A run whose operations all meet their conditions. -/
def FitsRun : CWallet → List Op → Prop
  | _, [] => True
  | w, op :: ops => Possible w op ∧ Fits w op ∧ FitsRun (exec w op) ops

def run (w : CWallet) (ops : List Op) : CWallet := ops.foldl exec w

theorem unloaded_inv (fCrypted : Bool) (records : List KeyRecord) :
    Inv (unloaded fCrypted records) where
  right := ⟨fun ⟨_, hkey, _⟩ => absurd hkey (Finset.notMem_empty _),
    fun _ _ hkey => absurd hkey (Finset.notMem_empty _)⟩
  noneEarly key c hc := by simp [unloaded] at hc
  notNegative := le_rfl

theorem exec_inv {w : CWallet} {op : Op} (h : Inv w) (hfits : Fits w op) : Inv (exec w op) := by
  cases op with
  | generateNewKey => exact generateNewKey_inv h hfits
  | importprivkey => exact importprivkey_inv h hfits
  | importwallet => exact importwallet_inv h hfits
  | restart => exact loadWallet_inv hfits

theorem run_inv {w : CWallet} {ops : List Op} (h : Inv w) (hfits : FitsRun w ops) :
    Inv (run w ops) := by
  induction ops generalizing w with
  | nil => exact h
  | cons op ops ih => exact ih (exec_inv h hfits.2.1) hfits.2.2

/-- A rescan reads every block whose time is at least the birth time of some key minus 7200. -/
theorem rescan_complete {w : CWallet} (h : FirstKeyRight w) {blocks : List Nat} {nTime : Nat}
    (hblock : nTime ∈ blocks) {key : CPubKey} (hkey : key ∈ w.keys)
    (hlate : w.birth key - 7200 ≤ nTime) : nTime ∈ scanned w blocks := by
  have hread : ¬ (w.nTimeFirstKey ≠ 0 ∧ (nTime : Int) < w.nTimeFirstKey - 7200) := by
    rintro ⟨hne, hskip⟩
    by_cases hex : ∃ key ∈ w.keys, w.Unknown key
    · have hone := (h.unknown hex).resolve_left hne
      omega
    · have hle := h.known (fun key hkey hun => hex ⟨key, hkey, hun⟩) key hkey
      omega
  refine List.mem_filter.mpr ⟨hblock, ?_⟩
  rw [Bool.not_eq_true', Bool.and_eq_false_iff]
  by_cases hne : w.nTimeFirstKey = 0
  · exact .inl (by simp [hne])
  · exact .inr (decide_eq_false fun hskip => hread ⟨hne, hskip⟩)

/-- In every run whose operations meet their conditions, `nTimeFirstKey` is right in the end, and a
rescan skips no block that can pay the wallet. -/
theorem firstKey_right {fCrypted : Bool} {records : List KeyRecord} {ops : List Op}
    (hfits : FitsRun (unloaded fCrypted records) ops) :
    FirstKeyRight (run (unloaded fCrypted records) ops) ∧
      ∀ (blocks : List Nat), ∀ nTime ∈ blocks,
        (∃ key ∈ (run (unloaded fCrypted records) ops).keys,
          (run (unloaded fCrypted records) ops).birth key - 7200 ≤ nTime) →
        nTime ∈ scanned (run (unloaded fCrypted records) ops) blocks := by
  have hright := (run_inv (unloaded_inv fCrypted records) hfits).right
  refine ⟨hright, fun blocks nTime hblock => ?_⟩
  rintro ⟨key, hkey, hlate⟩
  exact rescan_complete hright hblock hkey hlate

theorem firstKey_right_sample :
    FirstKeyRight (run (unloaded false []) [.generateNewKey 1 100000 .written,
      .importprivkey 2 .written]) :=
  (@firstKey_right false [] [.generateNewKey 1 100000 .written, .importprivkey 2 .written]
    ⟨trivial, ⟨by decide, fun _ key hkey => absurd hkey (Finset.notMem_empty key)⟩,
      trivial, fun _ h => absurd h Bool.false_ne_true, trivial⟩).1

/-- Key 2 is imported from a dump, and its birth time is written as zero; after a restart that reads
it before the time of key 3 the minimum is that of key 3 alone. -/
def forgetful : List Op :=
  [.generateNewKey 1 100000 .written, .importwallet [⟨2, 50000, .written⟩] 100000,
    .generateNewKey 3 200000 .written,
    .restart [.key 1, .key 2, .key 3, .keymeta 1 100000, .keymeta 2 0, .keymeta 3 200000] false]

theorem firstKey_forgotten :
    Possible (run (unloaded false []) (forgetful.take 3)) (.restart [.key 1, .key 2, .key 3,
        .keymeta 1 100000, .keymeta 2 0, .keymeta 3 200000] false) ∧
      (run (unloaded false []) forgetful).keys = {1, 2, 3} ∧
      (run (unloaded false []) forgetful).birth 2 = 0 ∧
      (run (unloaded false []) forgetful).nTimeFirstKey = 200000 ∧
      scanned (run (unloaded false []) forgetful) [60000, 195000] = [195000] := by
  unfold Possible
  decide +kernel

end KeyBirth

end NoLimitCoin
