import NoLimitCoin.AddrManBuckets

/-!
# The file of addresses

The serialization of `CAddrMan`.  The file has the new addresses, the tried ones, and for each new
bucket the positions of its addresses among the new ones; ids, `vRandom`, `mapAddr`, reference counts
and tried buckets are made anew when it is read.

Results:
1. `AddrFile`: the documented format, with any number of new buckets.
2. `serialize_eq_write`: what is written of an address manager whose indexes agree is in it.
-/

namespace NoLimitCoin

namespace AddrMan

/-! ## The code -/

/-- What `READWRITE` stores of an entry. -/
structure StoredInfo where
  service : CService
  nServices : Nat
  nTime : Nat
  source : CNetAddr
  nLastSuccess : Int
  nAttempts : Int
deriving Repr, DecidableEq

def CAddrInfo.stored (info : CAddrInfo) : StoredInfo :=
  ⟨info.service, info.nServices, info.nTime, info.source, info.nLastSuccess, info.nAttempts⟩

/-- The entry that is read, with its place in `vRandom`; the other members are those of `Init`. -/
def StoredInfo.entry (info : StoredInfo) (nRandomPos : Nat) : CAddrInfo where
  service := info.service
  nServices := info.nServices
  nTime := info.nTime
  nLastTry := 0
  source := info.source
  nLastSuccess := info.nLastSuccess
  nAttempts := info.nAttempts
  nRefCount := 0
  fInTried := false
  nRandomPos := nRandomPos

/-- A value that `READWRITE` writes: the version, the key, an `int` or an entry. -/
inductive Field
  | byte (nVersion : Nat)
  | key (nKey : List UInt8)
  | int (n : Int)
  | info (info : StoredInfo)
deriving Repr, DecidableEq

namespace CAddrMan

/-- The loop that writes the new entries, and numbers them in `mapUnkIds`. -/
def writeNew (nNew : Int) : List (Nat × CAddrInfo) → (nIds : Nat) → (mapUnkIds : Map Nat Nat) →
    List Field × Map Nat Nat
  | [], _, mapUnkIds => ([], mapUnkIds)
  | (nId, info) :: items, nIds, mapUnkIds =>
    -- this means nNew was wrong, oh ow
    if (nIds : Int) = nNew then ([], mapUnkIds)
    else
      let mapUnkIds := mapUnkIds.insert nId nIds
      if info.nRefCount ≠ 0 then
        let (file, mapUnkIds) := writeNew nNew items (nIds + 1) mapUnkIds
        (.info info.stored :: file, mapUnkIds)
      else writeNew nNew items nIds mapUnkIds

/-- The loop that writes the tried entries. -/
def writeTried (nTried : Int) : List (Nat × CAddrInfo) → (nIds : Nat) → List Field
  | [], _ => []
  | (_, info) :: items, nIds =>
    if (nIds : Int) = nTried then []
    else if info.fInTried then .info info.stored :: writeTried nTried items (nIds + 1)
    else writeTried nTried items nIds

/-- A new bucket: its size and the numbers of its entries. -/
def writeBucket (mapUnkIds : Map Nat Nat) (vNew : Finset Nat) : List Field :=
  .int vNew.card :: (vNew.sort (· ≤ ·)).map fun nId =>
    .int ((mapUnkIds[nId]?).getD 0 : Nat)

/-- Serialization, of the key and the rest. -/
def serialize (nKey : List UInt8) (m : CAddrMan) : List Field :=
  let (infos, mapUnkIds) := writeNew m.nNew m.mapInfo.toList 0 ∅
  .byte 0 :: .key nKey :: .int m.nNew :: .int m.nTried :: .int newBucketCount ::
    (infos ++ (writeTried m.nTried m.mapInfo.toList 0 ++
      (List.finRange newBucketCount).flatMap fun nUBucket =>
        writeBucket mapUnkIds (m.vvNew nUBucket)))

/-- Another value stands where one is read, or the file ends. -/
def misread : Exit := .reject 0 "CDataStream::read() : end of data"

def readByte : List Field → Except Exit (Nat × List Field)
  | .byte nVersion :: file => .ok (nVersion, file)
  | _ => .error misread

def readKey : List Field → Except Exit (List UInt8 × List Field)
  | .key nKey :: file => .ok (nKey, file)
  | _ => .error misread

def readInt : List Field → Except Exit (Int × List Field)
  | .int n :: file => .ok (n, file)
  | _ => .error misread

def readInfo : List Field → Except Exit (StoredInfo × List Field)
  | .info info :: file => .ok (info, file)
  | _ => .error misread

variable (env : AddrEnv)

/-- A new entry is read. -/
def addNew (nUBuckets : Int) (n : Nat) (stored : StoredInfo) (m : CAddrMan) : CAddrMan :=
  let info := stored.entry m.vRandom.length
  let m := { m with
    mapInfo := m.mapInfo.insert n info
    mapAddr := m.mapAddr.insert info.service.ip n
    vRandom := m.vRandom ++ [n] }
  if nUBuckets ≠ newBucketCount then
    let nUBucket := env.getNewBucket info info.source
    { m with
      vvNew := Function.update m.vvNew nUBucket (insert n (m.vvNew nUBucket))
      mapInfo := m.mapInfo.insert n { info with nRefCount := info.nRefCount + 1 } }
  else m

/-- The loop that reads the new entries. -/
def loadNew (nUBuckets : Int) : (rounds n : Nat) → CAddrMan → List Field →
    Except Exit (CAddrMan × List Field)
  | 0, _, m, file => .ok (m, file)
  | rounds + 1, n, m, file => do
    let (stored, file) ← readInfo file
    loadNew nUBuckets rounds (n + 1) (addNew env nUBuckets n stored m) file

/-- A tried entry is read, and its bucket has room. -/
def addTried (stored : StoredInfo) (m : CAddrMan) : CAddrMan :=
  let info := { stored.entry m.vRandom.length with fInTried := true }
  let nKBucket := env.getTriedBucket info
  { m with
    vRandom := m.vRandom ++ [m.nIdCount]
    mapInfo := m.mapInfo.insert m.nIdCount info
    mapAddr := m.mapAddr.insert info.service.ip m.nIdCount
    vvTried := Function.update m.vvTried nKBucket (m.vvTried nKBucket ++ [m.nIdCount])
    nIdCount := m.nIdCount + 1 }

/-- The loop that reads the tried entries, with the number of those that were lost. -/
def loadTried : (rounds nLost : Nat) → CAddrMan → List Field →
    Except Exit (CAddrMan × Nat × List Field)
  | 0, nLost, m, file => .ok (m, nLost, file)
  | rounds + 1, nLost, m, file => do
    let (stored, file) ← readInfo file
    let nKBucket := env.getTriedBucket (stored.entry m.vRandom.length)
    if (m.vvTried nKBucket).length < triedBucketSize then
      loadTried rounds nLost (addTried env stored m) file
    else loadTried rounds (nLost + 1) m file

/-- A place in a new bucket is read.  An index without an entry stands for an access out of range,
where the source makes an empty entry. -/
def addPlace (nUBuckets : Int) (nUBucket : Fin newBucketCount) (nIndex : Int) (m : CAddrMan) :
    Except Exit CAddrMan :=
  match if 0 ≤ nIndex then m.mapInfo[nIndex.toNat]? else none with
  | none => .error (.abort "mapInfo[nIndex]")
  | some info =>
    if nUBuckets = newBucketCount ∧ info.nRefCount < newBucketsPerAddress then
      .ok { m with
        mapInfo := m.mapInfo.insert nIndex.toNat { info with nRefCount := info.nRefCount + 1 }
        vvNew := Function.update m.vvNew nUBucket (insert nIndex.toNat (m.vvNew nUBucket)) }
    else .ok m

/-- The loop that reads the places of a new bucket. -/
def loadPlaces (nUBuckets : Int) (nUBucket : Fin newBucketCount) : (rounds : Nat) → CAddrMan →
    List Field → Except Exit (CAddrMan × List Field)
  | 0, m, file => .ok (m, file)
  | rounds + 1, m, file => do
    let (nIndex, file) ← readInt file
    let m ← addPlace nUBuckets nUBucket nIndex m
    loadPlaces nUBuckets nUBucket rounds m file

/-- The loop that reads the new buckets. -/
def loadBuckets (nUBuckets : Int) : (rounds b : Nat) → CAddrMan → List Field →
    Except Exit (CAddrMan × List Field)
  | 0, _, m, file => .ok (m, file)
  | rounds + 1, b, m, file =>
    if hb : b < newBucketCount then do
      let (nSize, file) ← readInt file
      let (m, file) ← loadPlaces nUBuckets ⟨b, hb⟩ nSize.toNat m file
      loadBuckets nUBuckets rounds (b + 1) m file
    else .error (.abort "vvNew[b]")

end CAddrMan

open CAddrMan in
/-- Unserialization: the key, the rest, and what is left of the file.  The hashes depend on the
key. -/
def unserialize (hashes : List UInt8 → AddrEnv) (file : List Field) :
    Except Exit (List UInt8 × CAddrMan × List Field) := do
  let (_, file) ← readByte file
  let (nKey, file) ← readKey file
  let (nNew, file) ← readInt file
  let (nTried, file) ← readInt file
  let (nUBuckets, file) ← readInt file
  let m := { CAddrMan.empty with nTried := nTried, nNew := nNew }
  let (m, file) ← loadNew (hashes nKey) nUBuckets nNew.toNat 0 m file
  let (m, nLost, file) ←
    loadTried (hashes nKey) nTried.toNat 0 { m with nIdCount := nNew.toNat } file
  let (m, file) ←
    loadBuckets nUBuckets nUBuckets.toNat 0 { m with nTried := m.nTried - nLost } file
  return (nKey, m, file)

/-! ## The format -/

/-- The content of a file, written with as many new buckets as it lists. -/
structure AddrFile where
  nKey : List UInt8
  news : List StoredInfo
  trieds : List StoredInfo
  /-- The positions in `news` of the addresses of each new bucket. -/
  buckets : List (List Nat)

namespace AddrFile

def writePlaces (bucket : List Nat) : List Field :=
  .int bucket.length :: bucket.map fun n : Nat => .int (n : Int)

/-- The documented format. -/
def write (f : AddrFile) : List Field :=
  .byte 0 :: .key f.nKey :: .int f.news.length :: .int f.trieds.length :: .int f.buckets.length ::
    (f.news.map .info ++ (f.trieds.map .info ++ f.buckets.flatMap writePlaces))

/-- What the writer of a file guarantees: no address stands twice, a tried address has been connected
to after the epoch, and a bucket has each of its addresses once. -/
structure Valid (f : AddrFile) : Prop where
  addresses : ((f.news ++ f.trieds).map fun info => info.service.ip).Nodup
  news : ∀ info ∈ f.news, 0 ≤ info.nLastSuccess
  trieds : ∀ info ∈ f.trieds, 0 < info.nLastSuccess
  buckets : ∀ bucket ∈ f.buckets, bucket.Nodup ∧ ∀ n ∈ bucket, n < f.news.length

/-- The buckets that have the address at a position. -/
def places (f : AddrFile) (n : Nat) : Nat := f.buckets.countP (n ∈ ·)

end AddrFile

/-! ## What is written -/

section write

variable {m : CAddrMan} {nId : Nat} {info : CAddrInfo}

namespace CAddrMan

/-- The new entries and the tried ones, in the order of their ids. -/
def newItems (m : CAddrMan) : List (Nat × CAddrInfo) :=
  m.mapInfo.toList.filter fun item => item.2.nRefCount ≠ 0

def triedItems (m : CAddrMan) : List (Nat × CAddrInfo) :=
  m.mapInfo.toList.filter fun item => item.2.fInTried

/-- `mapUnkIds` after the loop. -/
def unkIds (m : CAddrMan) : Map Nat Nat := (writeNew m.nNew m.mapInfo.toList 0 ∅).2

/-- The numbers of the entries of a new bucket. -/
def fileBucket (m : CAddrMan) (nUBucket : Fin newBucketCount) : List Nat :=
  ((m.vvNew nUBucket).sort (· ≤ ·)).map fun nId => (m.unkIds[nId]?).getD 0

/-- The file of an address manager. -/
def file (nKey : List UInt8) (m : CAddrMan) : AddrFile where
  nKey := nKey
  news := m.newItems.map fun item => item.2.stored
  trieds := m.triedItems.map fun item => item.2.stored
  buckets := (List.finRange newBucketCount).map m.fileBucket

/-- The new entries are written in order, and numbered as they are written. -/
theorem writeNew_spec {nNew : Int} {items : List (Nat × CAddrInfo)} {nIds : Nat}
    {mapUnkIds : Map Nat Nat} (hdistinct : items.Pairwise fun a b => a.1 ≠ b.1)
    (hcount : nNew = nIds + (items.filter fun item => item.2.nRefCount ≠ 0).length) :
    (writeNew nNew items nIds mapUnkIds).1 =
        (items.filter fun item => item.2.nRefCount ≠ 0).map (fun item => .info item.2.stored) ∧
      (∀ (k : Nat) item, (items.filter fun item => item.2.nRefCount ≠ 0)[k]? = some item →
        (writeNew nNew items nIds mapUnkIds).2[item.1]? = some (nIds + k)) ∧
      ∀ nId, (∀ item ∈ items, item.1 ≠ nId) →
        (writeNew nNew items nIds mapUnkIds).2[nId]? = mapUnkIds[nId]? := by
  induction items generalizing nIds mapUnkIds with
  | nil => exact ⟨rfl, fun k item h => absurd h (by simp), fun _ _ => rfl⟩
  | cons first items ih =>
    obtain ⟨nId, info⟩ := first
    rw [List.pairwise_cons] at hdistinct
    rw [writeNew]
    by_cases hdone : (nIds : Int) = nNew
    · have hnone : (((nId, info) :: items).filter fun item => item.2.nRefCount ≠ 0) = [] :=
        List.eq_nil_of_length_eq_zero (by omega)
      rw [if_pos hdone, hnone]
      exact ⟨rfl, fun k item h => absurd h (by simp), fun _ _ => rfl⟩
    rw [if_neg hdone]
    by_cases hnew : info.nRefCount ≠ 0
    · rw [List.filter_cons_of_pos (by simpa using hnew)] at hcount ⊢
      rw [List.length_cons] at hcount
      obtain ⟨hinfos, hnumbers, hothers⟩ := @ih (nIds + 1) (mapUnkIds.insert nId nIds)
        hdistinct.2 (by push_cast at hcount ⊢; omega)
      simp only [if_pos hnew]
      refine ⟨by rw [hinfos]; rfl, fun k item hk => ?_, fun other hother => ?_⟩
      · cases k with
        | zero =>
          obtain rfl := Option.some.inj hk
          rw [hothers nId fun item hitem => (hdistinct.1 item hitem).symm, Map.getElem?_insert,
            if_pos rfl]
          rfl
        | succ k =>
          rw [hnumbers k item hk]
          exact congrArg some (by omega)
      · rw [List.forall_mem_cons] at hother
        rw [hothers other hother.2, Map.getElem?_insert_of_ne _ _ hother.1]
    · rw [List.filter_cons_of_neg (by simpa using hnew)] at hcount ⊢
      obtain ⟨hinfos, hnumbers, hothers⟩ := @ih nIds (mapUnkIds.insert nId nIds) hdistinct.2
        hcount
      simp only [if_neg hnew]
      refine ⟨hinfos, hnumbers, fun other hother => ?_⟩
      rw [List.forall_mem_cons] at hother
      rw [hothers other hother.2, Map.getElem?_insert_of_ne _ _ hother.1]

theorem writeTried_spec {nTried : Int} {items : List (Nat × CAddrInfo)} {nIds : Nat}
    (hcount : nTried = nIds + (items.filter fun item => item.2.fInTried).length) :
    writeTried nTried items nIds =
      (items.filter fun item => item.2.fInTried).map fun item => .info item.2.stored := by
  induction items generalizing nIds with
  | nil => rfl
  | cons first items ih =>
    obtain ⟨nId, info⟩ := first
    rw [writeTried]
    by_cases hdone : (nIds : Int) = nTried
    · have hnone : (((nId, info) :: items).filter fun item => item.2.fInTried) = [] :=
        List.eq_nil_of_length_eq_zero (by omega)
      rw [if_pos hdone, hnone]
      rfl
    rw [if_neg hdone]
    rw [List.filter_cons] at hcount ⊢
    dsimp only at hcount ⊢
    by_cases htried : info.fInTried = true
    · rw [if_pos htried, List.length_cons] at hcount
      rw [if_pos htried, if_pos htried, ih (by push_cast at hcount ⊢; omega)]
      rfl
    · rw [if_neg htried] at hcount
      rw [if_neg htried, if_neg htried, ih hcount]

end CAddrMan

/-- An entry counts places exactly if it is not tried. -/
theorem Consistent.refCount_iff (h : Consistent m) (hinfo : m.mapInfo[nId]? = some info) :
    info.nRefCount ≠ 0 ↔ info.fInTried = false := by
  have hplaced := h.placed_of hinfo
  generalize triedCount m.vvTried nId = nTried at hplaced
  generalize newCount m.vvNew nId = nNew at hplaced
  cases hplaced with
  | tried hflag href =>
    change info.fInTried = true at hflag
    change info.nRefCount = 0 at href
    rw [href, hflag]
    exact ⟨fun hne => absurd rfl hne, nofun⟩
  | new hflag href hpos =>
    change info.fInTried = false at hflag
    change info.nRefCount = _ at href
    exact ⟨fun _ => hflag, fun _ => by omega⟩

theorem Consistent.newItems_eq (h : Consistent m) :
    m.newItems = m.mapInfo.toList.filter fun item => !item.2.fInTried := by
  refine List.filter_congr fun item hitem => Bool.eq_iff_iff.mpr ?_
  rw [decide_eq_true_iff, h.refCount_iff ((Map.mem_toList _ _ _).mp hitem), Bool.not_eq_true']

theorem Consistent.length_newItems (h : Consistent m) : (m.newItems.length : Int) = m.nNew := by
  rw [h.newItems_eq]
  exact h.length_new

theorem Consistent.length_triedItems (h : Consistent m) :
    (m.triedItems.length : Int) = m.nTried := h.length_tried

/-- The numbers are the positions of the new entries. -/
theorem Consistent.unkIds_eq (h : Consistent m) {k : Nat} {item : Nat × CAddrInfo}
    (hk : m.newItems[k]? = some item) : m.unkIds[item.1]? = some k := by
  have hspec := @CAddrMan.writeNew_spec m.nNew m.mapInfo.toList 0 ∅
    (Map.pairwise_toList m.mapInfo) (by rw [Nat.cast_zero, zero_add]; exact h.length_newItems.symm)
  rw [CAddrMan.unkIds, hspec.2.1 k item hk, Nat.zero_add]

/-- What is written is in the documented format. -/
theorem serialize_eq_write (h : Consistent m) (nKey : List UInt8) :
    m.serialize nKey = (m.file nKey).write := by
  have hnew := @CAddrMan.writeNew_spec m.nNew m.mapInfo.toList 0 ∅
    (Map.pairwise_toList m.mapInfo) (by rw [Nat.cast_zero, zero_add]; exact h.length_newItems.symm)
  have htried := @CAddrMan.writeTried_spec m.nTried m.mapInfo.toList 0
    (by rw [Nat.cast_zero, zero_add]; exact h.length_triedItems.symm)
  have hbuckets : ∀ nUBucket, CAddrMan.writeBucket m.unkIds (m.vvNew nUBucket) =
      AddrFile.writePlaces (m.fileBucket nUBucket) := by
    intro nUBucket
    rw [CAddrMan.writeBucket, CAddrMan.fileBucket, AddrFile.writePlaces, List.length_map,
      Finset.length_sort, List.map_map]
    rfl
  rw [CAddrMan.serialize, AddrFile.write]
  dsimp only [CAddrMan.file]
  rw [hnew.1, htried, List.length_map, List.length_map, List.length_map, List.length_finRange,
    h.length_newItems, h.length_triedItems, List.map_map, List.map_map, List.flatMap_map]
  simp only [← hbuckets]
  rfl

end write

end AddrMan

end NoLimitCoin
