import Mathlib.Data.Finset.Sort
import Mathlib.Data.Fintype.Card
import NoLimitCoin.Types

/-!
# The address manager

`addrman.h` and `addrman.cpp`.  An address is either in one of the tried buckets or in some of the
new ones; `vRandom` lists all of them in an arbitrary order.

Hashes, `IsRoutable` and random numbers are parameters: a call gets the stream of raw random
numbers it draws from.  Ids are counted without a bound.
-/

namespace NoLimitCoin

namespace AddrMan

/-- A network address; a service has a port as well. -/
abbrev CNetAddr := Nat

structure CService where
  ip : CNetAddr
  port : Nat
deriving Repr, DecidableEq

structure CAddress where
  service : CService
  nServices : Nat
  nTime : Nat
deriving Repr, DecidableEq

structure CAddrInfo where
  service : CService
  nServices : Nat
  nTime : Nat
  nLastTry : Int
  source : CNetAddr
  nLastSuccess : Int
  nAttempts : Int
  nRefCount : Int
  fInTried : Bool
  nRandomPos : Nat
deriving Repr, DecidableEq

def triedBucketCount : Nat := 64
def triedBucketSize : Nat := 64
def newBucketCount : Nat := 256
def newBucketSize : Nat := 64
def newBucketsPerAddress : Nat := 4
def triedEntriesInspectOnEvict : Nat := 4
def horizonDays : Int := 30
def retries : Int := 3
def maxFailures : Int := 10
def minFailDays : Int := 7
def getaddrMaxPct : Nat := 23
def getaddrMax : Nat := 2500

/-- What the source takes from the network address classes and from hashing. -/
structure AddrEnv where
  isRoutable : CNetAddr → Bool
  /-- The last hash of `GetTriedBucket`. -/
  triedHash : CService → Nat
  /-- The last hash of `GetNewBucket`, of an address and a source. -/
  newHash : CNetAddr → CNetAddr → Nat

/-- The raw random numbers of a call. -/
abbrev Rand := Nat → Nat

def getRandInt (raw nMax : Nat) : Nat := if nMax = 0 then 0 else raw % nMax

def AddrEnv.getTriedBucket (env : AddrEnv) (info : CAddrInfo) : Fin triedBucketCount :=
  ⟨env.triedHash info.service % triedBucketCount, Nat.mod_lt _ (by decide)⟩

def AddrEnv.getNewBucket (env : AddrEnv) (info : CAddrInfo) (src : CNetAddr) : Fin newBucketCount :=
  ⟨env.newHash info.service.ip src % newBucketCount, Nat.mod_lt _ (by decide)⟩

/-- Assignment to an `unsigned int`. -/
def toUint32 (n : Int) : Nat := (n % 2 ^ 32).toNat

def CAddrInfo.isTerrible (info : CAddrInfo) (nNow : Int) : Bool :=
  if info.nLastTry ≠ 0 && info.nLastTry ≥ nNow - 60 then false
  else if (info.nTime : Int) > nNow + 10 * 60 then true
  else if info.nTime = 0 || nNow - info.nTime > horizonDays * 86400 then true
  else if info.nLastSuccess = 0 && info.nAttempts ≥ retries then true
  else nNow - info.nLastSuccess > minFailDays * 86400 && info.nAttempts ≥ maxFailures

structure CAddrMan where
  nIdCount : Nat
  mapInfo : Map Nat CAddrInfo
  mapAddr : Map CNetAddr Nat
  vRandom : List Nat
  nTried : Int
  vvTried : Fin triedBucketCount → List Nat
  nNew : Int
  vvNew : Fin newBucketCount → Finset Nat

namespace CAddrMan

def empty : CAddrMan := ⟨0, ∅, ∅, [], 0, fun _ => [], 0, fun _ => ∅⟩

/-- A failed assertion. -/
def failed : Exit := .abort "assert"

variable (m : CAddrMan)

def setInfo (nId : Nat) (info : CAddrInfo) : CAddrMan :=
  { m with mapInfo := m.mapInfo.insert nId info }

/-- `Find`: the id and the entry. -/
def find (addr : CNetAddr) : Option (Nat × CAddrInfo) :=
  match m.mapAddr[addr]? with
  | none => none
  | some nId => m.mapInfo[nId]?.map fun info => (nId, info)

/-- `Create`. -/
def create (addr : CAddress) (addrSource : CNetAddr) : CAddrMan × Nat × CAddrInfo :=
  let nId := m.nIdCount
  let info : CAddrInfo :=
    { service := addr.service
      nServices := addr.nServices
      nTime := addr.nTime
      nLastTry := 0
      source := addrSource
      nLastSuccess := 0
      nAttempts := 0
      nRefCount := 0
      fInTried := false
      nRandomPos := m.vRandom.length }
  ({ m with
    nIdCount := m.nIdCount + 1
    mapInfo := m.mapInfo.insert nId info
    mapAddr := m.mapAddr.insert addr.service.ip nId
    vRandom := m.vRandom ++ [nId] }, nId, info)

def swapRandom (nRndPos1 nRndPos2 : Nat) : Except Exit CAddrMan :=
  if nRndPos1 = nRndPos2 then .ok m
  else
    match m.vRandom[nRndPos1]?, m.vRandom[nRndPos2]? with
    | some nId1, some nId2 =>
      match m.mapInfo[nId1]?, m.mapInfo[nId2]? with
      | some info1, some info2 =>
        .ok { m with
          mapInfo := (m.mapInfo.insert nId1 { info1 with nRandomPos := nRndPos2 }).insert nId2
            { info2 with nRandomPos := nRndPos1 }
          vRandom := (m.vRandom.set nRndPos1 nId2).set nRndPos2 nId1 }
      | _, _ => .error failed
    | _, _ => .error failed

/-- An entry of a new bucket loses its place there, and is deleted with its last one. -/
def release (nUBucket : Fin newBucketCount) (nId : Nat) (info : CAddrInfo) :
    Except Exit CAddrMan := do
  let info := { info with nRefCount := info.nRefCount - 1 }
  let m := m.setInfo nId info
  let m ←
    if info.nRefCount = 0 then do
      let m ← m.swapRandom info.nRandomPos (m.vRandom.length - 1)
      pure { m with
        vRandom := m.vRandom.dropLast
        mapAddr := m.mapAddr.erase info.service.ip
        mapInfo := m.mapInfo.erase nId
        nNew := m.nNew - 1 }
    else pure m
  return { m with vvNew := Function.update m.vvNew nUBucket ((m.vvNew nUBucket).erase nId) }

/-- The first loop of `ShrinkNew`: a deletable item. -/
def findTerrible (nNow : Int) : List Nat → Except Exit (Option (Nat × CAddrInfo))
  | [] => .ok none
  | nId :: ids =>
    match m.mapInfo[nId]? with
    | none => .error failed
    | some info => if info.isTerrible nNow then .ok (some (nId, info)) else findTerrible nNow ids

def nTimeOf (nId : Nat) : Nat := (m.mapInfo[nId]?.map (·.nTime)).getD 0

/-- The second loop: the oldest of the items at the positions `n`. -/
def findOldest (n : List Nat) : (nI : Nat) → (nOldest : Option Nat) → List Nat →
    Except Exit (Option Nat)
  | _, nOldest, [] => .ok nOldest
  | nI, nOldest, nId :: ids =>
    if nI ∈ n then
      match nOldest with
      | none => findOldest n (nI + 1) (some nId) ids
      | some nBest =>
        if m.mapInfo.contains nId then
          findOldest n (nI + 1) (some (if m.nTimeOf nId < m.nTimeOf nBest then nId else nBest)) ids
        else .error failed
    else findOldest n (nI + 1) nOldest ids

def shrinkNew (nUBucket : Fin newBucketCount) (nNow : Int) (rnd : Rand) : Except Exit CAddrMan := do
  let vNew := (m.vvNew nUBucket).sort (· ≤ ·)
  match ← m.findTerrible nNow vNew with
  | some (nId, info) => m.release nUBucket nId info
  | none =>
    let n := (List.range 4).map fun i => getRandInt (rnd i) vNew.length
    match ← m.findOldest n 0 none vNew with
    | none => .error failed
    | some nOldest =>
      match m.mapInfo[nOldest]? with
      | none => .error failed
      | some info => m.release nUBucket nOldest info

/-- The loop of `SelectTried` from `i` on, with the best position so far. -/
def selectLoop (rnd : Rand) : (rounds i : Nat) → (best : Option (Nat × Nat)) → List Nat →
    Except Exit (List Nat × Option (Nat × Nat))
  | 0, _, best, vTried => .ok (vTried, best)
  | rounds + 1, i, best, vTried =>
    if i < vTried.length then
      let nPos := getRandInt (rnd i) (vTried.length - i) + i
      let nTemp := vTried.getD nPos 0
      let vTried := (vTried.set nPos (vTried.getD i 0)).set i nTemp
      match best with
      | none => selectLoop rnd rounds (i + 1) (some (nTemp, nPos)) vTried
      | some (nOldest, nOldestPos) =>
        match m.mapInfo[nTemp]?, m.mapInfo[nOldest]? with
        | some info, some infoOldest =>
          if info.nLastSuccess < infoOldest.nLastSuccess then
            selectLoop rnd rounds (i + 1) (some (nTemp, nPos)) vTried
          else selectLoop rnd rounds (i + 1) (some (nOldest, nOldestPos)) vTried
        | _, _ => .error failed
    else .ok (vTried, best)

/-- `SelectTried`: the bucket is shuffled, and a position in it. -/
def selectTried (nKBucket : Fin triedBucketCount) (rnd : Rand) : Except Exit (CAddrMan × Nat) := do
  let (vTried, best) ← m.selectLoop rnd triedEntriesInspectOnEvict 0 none (m.vvTried nKBucket)
  match best with
  | none => .error failed
  | some (_, nOldestPos) =>
    return ({ m with vvTried := Function.update m.vvTried nKBucket vTried }, nOldestPos)

/-- The new buckets an id is in. -/
def holders (nId : Nat) : Finset (Fin newBucketCount) :=
  Finset.univ.filter fun nUBucket => nId ∈ m.vvNew nUBucket

variable (env : AddrEnv)

/-- `MakeTried`. -/
def makeTried (info : CAddrInfo) (nId : Nat) (nOrigin : Fin newBucketCount) (rnd : Rand) :
    Except Exit CAddrMan := do
  require (nId ∈ m.vvNew nOrigin) failed
  let info := { info with nRefCount := info.nRefCount - (m.holders nId).card }
  let m := { m with
    mapInfo := m.mapInfo.insert nId info
    vvNew := fun nUBucket => (m.vvNew nUBucket).erase nId
    nNew := m.nNew - 1 }
  require (info.nRefCount = 0) failed
  let nKBucket := env.getTriedBucket info
  if (m.vvTried nKBucket).length < triedBucketSize then
    return { m with
      vvTried := Function.update m.vvTried nKBucket (m.vvTried nKBucket ++ [nId])
      nTried := m.nTried + 1
      mapInfo := m.mapInfo.insert nId { info with fInTried := true } }
  else
    let (m, nPos) ← m.selectTried nKBucket rnd
    let nIdOld := (m.vvTried nKBucket).getD nPos 0
    match m.mapInfo[nIdOld]? with
    | none => .error failed
    | some infoOld =>
      let nUBucket := env.getNewBucket infoOld infoOld.source
      let nUBucket := if (m.vvNew nUBucket).card < newBucketSize then nUBucket else nOrigin
      return { m with
        mapInfo := (m.mapInfo.insert nIdOld { infoOld with fInTried := false, nRefCount := 1 }).insert
          nId { info with fInTried := true }
        vvNew := Function.update m.vvNew nUBucket (insert nIdOld (m.vvNew nUBucket))
        nNew := m.nNew + 1
        vvTried := Function.update m.vvTried nKBucket ((m.vvTried nKBucket).set nPos nId) }

/-- `Good_`. -/
def good (addr : CService) (nTime : Int) (rnd : Rand) : Except Exit CAddrMan :=
  match m.find addr.ip with
  | none => .ok m
  | some (nId, info) =>
    if info.service ≠ addr then .ok m
    else
      let info := { info with
        nLastSuccess := nTime
        nLastTry := nTime
        nTime := toUint32 nTime
        nAttempts := 0 }
      let m := m.setInfo nId info
      if info.fInTried then .ok m
      else
        let nRnd := getRandInt (rnd 0) newBucketCount
        let buckets : List (Fin newBucketCount) := (List.range newBucketCount).map fun n =>
          ⟨(n + nRnd) % newBucketCount, Nat.mod_lt _ (by decide)⟩
        match buckets.find? fun nB => nId ∈ m.vvNew nB with
        | none => .ok m
        | some nUBucket => m.makeTried env info nId nUBucket fun i => rnd (i + 1)

/-- The last part of `Add_`: one more place in a new bucket. -/
def addRef (nId : Nat) (info : CAddrInfo) (source : CNetAddr) (nNow : Int) (rnd : Rand) :
    Except Exit CAddrMan := do
  let nUBucket := env.getNewBucket info source
  if nId ∉ m.vvNew nUBucket then
    let m := m.setInfo nId { info with nRefCount := info.nRefCount + 1 }
    let m ← if (m.vvNew nUBucket).card = newBucketSize then m.shrinkNew nUBucket nNow rnd else pure m
    return { m with vvNew := Function.update m.vvNew nUBucket (insert nId (m.vvNew nUBucket)) }
  else return m

/-- What `Add_` updates of an entry that is there. -/
def refresh (info : CAddrInfo) (addr : CAddress) (nTimePenalty nNow : Int) : CAddrInfo :=
  let fCurrentlyOnline := decide (nNow - addr.nTime < 24 * 60 * 60)
  let nUpdateInterval : Int := if fCurrentlyOnline then 60 * 60 else 24 * 60 * 60
  let nTime :=
    if addr.nTime ≠ 0 &&
        (info.nTime = 0 || (info.nTime : Int) < addr.nTime - nUpdateInterval - nTimePenalty) then
      toUint32 (max 0 ((addr.nTime : Int) - nTimePenalty))
    else info.nTime
  { info with nTime := nTime, nServices := info.nServices ||| addr.nServices }

/-- `Add_`. -/
def add (addr : CAddress) (source : CNetAddr) (nTimePenalty nNow : Int) (rnd : Rand) :
    Except Exit CAddrMan :=
  if !env.isRoutable addr.service.ip then .ok m
  else
    match m.find addr.service.ip with
    | some (nId, info) =>
      let info := refresh info addr nTimePenalty nNow
      let m := m.setInfo nId info
      if addr.nTime = 0 || (info.nTime ≠ 0 && addr.nTime ≤ info.nTime) then .ok m
      else if info.fInTried then .ok m
      else if info.nRefCount = newBucketsPerAddress then .ok m
      else
        let nFactor := 2 ^ info.nRefCount.toNat
        if nFactor > 1 && getRandInt (rnd 0) nFactor ≠ 0 then .ok m
        else m.addRef env nId info source nNow fun i => rnd (i + 1)
    | none =>
      let (m, nId, info) := m.create addr source
      let info := { info with nTime := toUint32 (max 0 ((info.nTime : Int) - nTimePenalty)) }
      let m := { m.setInfo nId info with nNew := m.nNew + 1 }
      m.addRef env nId info source nNow rnd

/-- `Attempt_`. -/
def attempt (addr : CService) (nTime : Int) : CAddrMan :=
  match m.find addr.ip with
  | none => m
  | some (nId, info) =>
    if info.service ≠ addr then m
    else m.setInfo nId { info with nLastTry := nTime, nAttempts := info.nAttempts + 1 }

/-- `Connected_`. -/
def connected (addr : CService) (nTime : Int) : CAddrMan :=
  match m.find addr.ip with
  | none => m
  | some (nId, info) =>
    if info.service ≠ addr then m
    else if nTime - info.nTime > 20 * 60 then m.setInfo nId { info with nTime := toUint32 nTime }
    else m

/-- One round of the loops of `Select_`: a bucket, a position in it, and whether the entry is
taken. -/
structure Round where
  fTried : Bool
  nBucket : Nat
  nPos : Nat
  fTake : Bool

/-- `Select_`: any number of rounds, of which the chances are floating point numbers. -/
def select : List Round → Except Exit (Option CAddrInfo)
  | [] => .ok none
  | round :: rounds =>
    let bucket : List Nat :=
      if round.fTried then
        m.vvTried ⟨round.nBucket % triedBucketCount, Nat.mod_lt _ (by decide)⟩
      else (m.vvNew ⟨round.nBucket % newBucketCount, Nat.mod_lt _ (by decide)⟩).sort (· ≤ ·)
    match bucket[getRandInt round.nPos bucket.length]? with
    | none => select rounds
    | some nId =>
      match m.mapInfo[nId]? with
      | none => .error failed
      | some info => if round.fTake then .ok (some info) else select rounds

/-- The loop of `GetAddr_` from `n` on. -/
def getAddrLoop (rnd : Rand) : (rounds n : Nat) → CAddrMan → List CAddrInfo →
    Except Exit (CAddrMan × List CAddrInfo)
  | 0, _, m, vAddr => .ok (m, vAddr)
  | rounds + 1, n, m, vAddr => do
    let nRndPos := getRandInt (rnd n) (m.vRandom.length - n) + n
    let m ← m.swapRandom n nRndPos
    match (m.vRandom[n]?).bind fun nId => m.mapInfo[nId]? with
    | none => .error failed
    | some info => getAddrLoop rnd rounds (n + 1) m (vAddr ++ [info])

/-- `GetAddr_`. -/
def getAddr (rnd : Rand) : Except Exit (CAddrMan × List CAddrInfo) :=
  getAddrLoop rnd (min (getaddrMaxPct * m.vRandom.length / 100) getaddrMax) 0 m []

/-! ## `Check_` -/

/-- The ids of all tried buckets, and of all new ones, in the order of the loops. -/
def triedEntries : List Nat := (List.finRange triedBucketCount).flatMap m.vvTried
def newEntries : List Nat :=
  (List.finRange newBucketCount).flatMap fun nUBucket => (m.vvNew nUBucket).sort (· ≤ ·)

/-- The checks of an entry: the number returned for it, if it is not in order. -/
def checkInfo (n : Nat) (info : CAddrInfo) : Option Int :=
  if info.fInTried && info.nLastSuccess = 0 then some (-1)
  else if info.fInTried && info.nRefCount ≠ 0 then some (-2)
  else if !info.fInTried && (info.nRefCount < 0 || info.nRefCount > newBucketsPerAddress) then
    some (-3)
  else if !info.fInTried && info.nRefCount = 0 then some (-4)
  else if (m.mapAddr[info.service.ip]?).getD 0 ≠ n then some (-5)
  else if m.vRandom[info.nRandomPos]? ≠ some n then some (-14)
  else if info.nLastTry < 0 then some (-6)
  else if info.nLastSuccess < 0 then some (-8)
  else none

/-- Every tried entry is crossed off. -/
def checkTried : List Nat → Finset Nat → Except Int (Finset Nat)
  | [], setTried => .ok setTried
  | nId :: ids, setTried =>
    if nId ∉ setTried then .error (-11) else checkTried ids (setTried.erase nId)

/-- Every place in a new bucket is counted down. -/
def checkNew : List Nat → Map Nat Int → Except Int (Map Nat Int)
  | [], mapNew => .ok mapNew
  | nId :: ids, mapNew =>
    match mapNew[nId]? with
    | none => .error (-12)
    | some nRefCount =>
      checkNew ids (if nRefCount - 1 = 0 then mapNew.erase nId else mapNew.insert nId (nRefCount - 1))

/-- `Check_`. -/
def check : Int :=
  if (m.vRandom.length : Int) ≠ m.nTried + m.nNew then -7
  else
    match m.mapInfo.toList.findSome? fun item => m.checkInfo item.1 item.2 with
    | some nError => nError
    | none =>
      let setTried := ((m.mapInfo.toList.filter fun item => item.2.fInTried).map (·.1)).toFinset
      let mapNew : Map Nat Int := (m.mapInfo.toList.filter fun item => !item.2.fInTried).foldl
        (fun mapNew item => mapNew.insert item.1 item.2.nRefCount) ∅
      if (setTried.card : Int) ≠ m.nTried then -9
      else if (mapNew.size : Int) ≠ m.nNew then -10
      else
        match checkTried m.triedEntries setTried with
        | .error nError => nError
        | .ok setTried =>
          match checkNew m.newEntries mapNew with
          | .error nError => nError
          | .ok mapNew =>
            if setTried.card ≠ 0 then -13
            else if mapNew.size ≠ 0 then -15
            else 0

end CAddrMan

end AddrMan

end NoLimitCoin
