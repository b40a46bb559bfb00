import Mathlib.Algebra.BigOperators.Group.Finset.Piecewise
import Mathlib.Algebra.Order.BigOperators.Group.Finset
import NoLimitCoin.AddrMan

/-!
# The indexes of the address manager agree

An entry without its place in `vRandom`, and that place, are two views of `mapInfo`; every index is
about one of them.

Results:

1. `Inv`: how the indexes agree, by `Placed` for the buckets.
2. `Inv.keep`, `Inv.delete`, `Inv.take`, `Inv.create`, `Inv.promote`, `Inv.evict`: the moves that
   keep it.
3. `add_ok`, `makeTried_ok`: the functions that make them fail no assertion.
-/

namespace NoLimitCoin

namespace AddrMan

open scoped BigOperators

/-! ## Views -/

/-- An entry without its place in `vRandom`. -/
def CAddrInfo.forget (info : CAddrInfo) : CAddrInfo := { info with nRandomPos := 0 }

def entryOf (mapInfo : Map Nat CAddrInfo) (nId : Nat) : Option CAddrInfo :=
  mapInfo[nId]?.map CAddrInfo.forget

def positionOf (mapInfo : Map Nat CAddrInfo) (nId : Nat) : Option Nat :=
  mapInfo[nId]?.map CAddrInfo.nRandomPos

section views

variable {mapInfo : Map Nat CAddrInfo} {nId : Nat} {info : CAddrInfo}

theorem entryOf_insert : entryOf (mapInfo.insert nId info) =
    Function.update (entryOf mapInfo) nId (some info.forget) := by
  funext other
  rw [entryOf, Map.getElem?_insert, Function.update_apply]
  by_cases h : nId = other
  · rw [if_pos h, if_pos h.symm]
    rfl
  · rw [if_neg h, if_neg (Ne.symm h)]
    rfl

theorem entryOf_erase : entryOf (mapInfo.erase nId) =
    Function.update (entryOf mapInfo) nId none := by
  funext other
  rw [entryOf, Map.getElem?_erase, Function.update_apply]
  by_cases h : nId = other
  · rw [if_pos h, if_pos h.symm]
    rfl
  · rw [if_neg h, if_neg (Ne.symm h)]
    rfl

theorem positionOf_insert : positionOf (mapInfo.insert nId info) =
    Function.update (positionOf mapInfo) nId (some info.nRandomPos) := by
  funext other
  rw [positionOf, Map.getElem?_insert, Function.update_apply]
  by_cases h : nId = other
  · rw [if_pos h, if_pos h.symm]
    rfl
  · rw [if_neg h, if_neg (Ne.symm h)]
    rfl

theorem positionOf_erase : positionOf (mapInfo.erase nId) =
    Function.update (positionOf mapInfo) nId none := by
  funext other
  rw [positionOf, Map.getElem?_erase, Function.update_apply]
  by_cases h : nId = other
  · rw [if_pos h, if_pos h.symm]
    rfl
  · rw [if_neg h, if_neg (Ne.symm h)]
    rfl

theorem entryOf_of_getElem? (h : mapInfo[nId]? = some info) :
    entryOf mapInfo nId = some info.forget := by
  rw [entryOf, h]
  rfl

theorem positionOf_of_getElem? (h : mapInfo[nId]? = some info) :
    positionOf mapInfo nId = some info.nRandomPos := by
  rw [positionOf, h]
  rfl

theorem exists_of_entryOf {entry : CAddrInfo} (h : entryOf mapInfo nId = some entry) :
    ∃ info, mapInfo[nId]? = some info ∧ info.forget = entry :=
  Option.map_eq_some_iff.mp h

theorem exists_of_positionOf {pos : Nat} (h : positionOf mapInfo nId = some pos) :
    ∃ info, mapInfo[nId]? = some info ∧ info.nRandomPos = pos :=
  Option.map_eq_some_iff.mp h

end views

/-! ## Positions -/

/-- `vRandom` lists the ids, each at its place. -/
def Positions (mapInfo : Map Nat CAddrInfo) (vRandom : List Nat) : Prop :=
  ∀ nId pos, positionOf mapInfo nId = some pos ↔ vRandom[pos]? = some nId

namespace Positions

variable {mapInfo : Map Nat CAddrInfo} {vRandom : List Nat} {nId pos pos' : Nat}

theorem unique (h : Positions mapInfo vRandom) (hpos : vRandom[pos]? = some nId)
    (hpos' : vRandom[pos']? = some nId) : pos = pos' :=
  Option.some.inj (((h nId pos).mpr hpos).symm.trans ((h nId pos').mpr hpos'))

theorem lt (h : Positions mapInfo vRandom) {info : CAddrInfo}
    (hinfo : mapInfo[nId]? = some info) : info.nRandomPos < vRandom.length :=
  (List.getElem?_eq_some_iff.mp ((h nId _).mp (positionOf_of_getElem? hinfo))).1

theorem getElem? (h : Positions mapInfo vRandom) {info : CAddrInfo}
    (hinfo : mapInfo[nId]? = some info) : vRandom[info.nRandomPos]? = some nId :=
  (h nId _).mp (positionOf_of_getElem? hinfo)

theorem info (h : Positions mapInfo vRandom) (hpos : vRandom[pos]? = some nId) :
    ∃ info, mapInfo[nId]? = some info ∧ info.nRandomPos = pos :=
  exists_of_positionOf ((h nId pos).mpr hpos)

/-- A change of entries that keeps their places. -/
theorem insert (h : Positions mapInfo vRandom) {info info' : CAddrInfo}
    (hinfo : mapInfo[nId]? = some info) (hpos : info'.nRandomPos = info.nRandomPos) :
    Positions (mapInfo.insert nId info') vRandom := by
  intro other pos
  rw [positionOf_insert, hpos, ← positionOf_of_getElem? hinfo, Function.update_eq_self]
  exact h other pos

/-- A new id at the end. -/
theorem concat (h : Positions mapInfo vRandom) {info : CAddrInfo} (hinfo : mapInfo[nId]? = none)
    (hpos : info.nRandomPos = vRandom.length) :
    Positions (mapInfo.insert nId info) (vRandom ++ [nId]) := by
  intro other pos
  rw [positionOf_insert, Function.update_apply, List.getElem?_append]
  have hout : positionOf mapInfo nId = none := by rw [positionOf, hinfo]; rfl
  by_cases hlt : pos < vRandom.length
  · rw [if_pos hlt, ← h other pos]
    split
    · next heq =>
      rw [heq, hout, hpos]
      exact ⟨fun h => absurd (Option.some.inj h) (Nat.ne_of_gt hlt), fun h => (by cases h)⟩
    · exact Iff.rfl
  · rw [if_neg hlt]
    split
    · next heq =>
      rw [heq, hpos, Option.some.injEq]
      constructor
      · rintro rfl
        rw [Nat.sub_self]
        rfl
      · intro hget
        have hone := (List.getElem?_eq_some_iff.mp hget).1
        rw [List.length_singleton] at hone
        omega
    · next hne =>
      constructor
      · intro hpos
        exact absurd (List.getElem?_eq_some_iff.mp ((h other pos).mp hpos)).1 hlt
      · intro hget
        exact absurd (List.mem_singleton.mp (List.mem_of_getElem? hget)) hne

/-- The last id is taken away. -/
theorem dropLast (h : Positions mapInfo vRandom)
    (hlast : vRandom[vRandom.length - 1]? = some nId) :
    Positions (mapInfo.erase nId) vRandom.dropLast := by
  intro other pos
  rw [positionOf_erase, Function.update_apply, List.getElem?_dropLast]
  split
  · next heq =>
    refine ⟨fun h => (by cases h), fun hget => ?_⟩
    split at hget
    · next hlt =>
      rw [heq] at hget
      exact absurd (h.unique hget hlast) (Nat.ne_of_lt hlt)
    · cases hget
  · next hne =>
    rw [h other pos]
    split
    · exact Iff.rfl
    · next hge =>
      refine ⟨fun hget => ?_, fun h => (by cases h)⟩
      have hlt := (List.getElem?_eq_some_iff.mp hget).1
      obtain rfl : pos = vRandom.length - 1 := by omega
      exact absurd (Option.some.inj (hget.symm.trans hlast)) hne

end Positions

/-- `SwapRandom` only changes two places. -/
theorem swapRandom_ok {m : CAddrMan} (pos₁ pos₂ : Nat) (h : Positions m.mapInfo m.vRandom)
    (h₁ : pos₁ < m.vRandom.length) (h₂ : pos₂ < m.vRandom.length) :
    ∃ mapInfo' vRandom',
      m.swapRandom pos₁ pos₂ = .ok { m with mapInfo := mapInfo', vRandom := vRandom' } ∧
      entryOf mapInfo' = entryOf m.mapInfo ∧ Positions mapInfo' vRandom' ∧
      vRandom'.length = m.vRandom.length ∧ vRandom'[pos₂]? = m.vRandom[pos₁]? := by
  unfold CAddrMan.swapRandom
  split
  · next heq => exact ⟨m.mapInfo, m.vRandom, rfl, rfl, h, rfl, by rw [heq]⟩
  · next hne =>
    have hget₁ := List.getElem?_eq_getElem h₁
    have hget₂ := List.getElem?_eq_getElem h₂
    obtain ⟨info₁, hinfo₁, hpos₁⟩ := h.info hget₁
    obtain ⟨info₂, hinfo₂, hpos₂⟩ := h.info hget₂
    have hids : m.vRandom[pos₁] ≠ m.vRandom[pos₂] := by
      intro heq
      rw [← heq] at hget₂
      exact hne (h.unique hget₁ hget₂)
    rw [hget₁, hget₂]
    dsimp only
    rw [hinfo₁, hinfo₂]
    refine ⟨_, _, rfl, ?_, ?_, ?_, ?_⟩
    · rw [entryOf_insert, entryOf_insert]
      show Function.update (Function.update (entryOf m.mapInfo) _ (some info₁.forget)) _
        (some info₂.forget) = _
      rw [← entryOf_of_getElem? hinfo₁, ← entryOf_of_getElem? hinfo₂, Function.update_eq_self,
        Function.update_eq_self]
    · intro nId pos
      have hunique₁ := fun hget : m.vRandom[pos]? = _ => h.unique hget hget₁
      have hunique₂ := fun hget : m.vRandom[pos]? = _ => h.unique hget hget₂
      have hother := h nId pos
      rw [positionOf_insert, positionOf_insert, Function.update_apply, Function.update_apply,
        List.getElem?_set, List.getElem?_set, List.length_set]
      grind
    · rw [List.length_set, List.length_set]
    · rw [List.getElem?_set_self (by rw [List.length_set]; exact h₂)]

/-! ## Places in the buckets -/

/-- One bucket changes: what the buckets hold together changes by as much. -/
theorem sum_update {ι α : Type} [Fintype ι] [DecidableEq ι] (buckets : ι → α) (size : α → Nat)
    (b : ι) (bucket : α) :
    ∑ i, size (Function.update buckets b bucket i) + size (buckets b) =
      ∑ i, size (buckets i) + size bucket := by
  have hupdate : (fun i => size (Function.update buckets b bucket i)) =
      Function.update (fun i => size (buckets i)) b (size bucket) := by
    funext i
    rw [Function.update_apply, Function.update_apply]
    split <;> rfl
  rw [hupdate, Finset.sum_update_of_mem (Finset.mem_univ b), Finset.sdiff_singleton_eq_erase,
    ← Finset.add_sum_erase _ (fun i => size (buckets i)) (Finset.mem_univ b)]
  omega

/-- In how many slots of the tried buckets, and in how many new buckets, an id is. -/
def triedCount (vvTried : Fin triedBucketCount → List Nat) (nId : Nat) : Nat :=
  ∑ nKBucket, (vvTried nKBucket).count nId

def newCount (vvNew : Fin newBucketCount → Finset Nat) (nId : Nat) : Nat :=
  ∑ nUBucket, if nId ∈ vvNew nUBucket then 1 else 0

section counts

variable {vvTried : Fin triedBucketCount → List Nat} {vvNew : Fin newBucketCount → Finset Nat}
  {nId : Nat}

theorem triedCount_update (vvTried : Fin triedBucketCount → List Nat) (nId : Nat)
    (nKBucket : Fin triedBucketCount) (vTried : List Nat) :
    triedCount (Function.update vvTried nKBucket vTried) nId + (vvTried nKBucket).count nId =
      triedCount vvTried nId + vTried.count nId :=
  sum_update vvTried (fun vTried => vTried.count nId) nKBucket vTried

theorem newCount_update (vvNew : Fin newBucketCount → Finset Nat) (nId : Nat)
    (nUBucket : Fin newBucketCount) (vNew : Finset Nat) :
    newCount (Function.update vvNew nUBucket vNew) nId +
        (if nId ∈ vvNew nUBucket then 1 else 0) =
      newCount vvNew nId + if nId ∈ vNew then 1 else 0 :=
  sum_update vvNew (fun vNew => if nId ∈ vNew then 1 else 0) nUBucket vNew

theorem triedCount_pos {nKBucket : Fin triedBucketCount} (h : nId ∈ vvTried nKBucket) :
    0 < triedCount vvTried nId :=
  Finset.sum_pos' (fun _ _ => Nat.zero_le _)
    ⟨nKBucket, Finset.mem_univ _, List.count_pos_iff.mpr h⟩

theorem newCount_pos {nUBucket : Fin newBucketCount} (h : nId ∈ vvNew nUBucket) :
    0 < newCount vvNew nId :=
  Finset.sum_pos' (fun _ _ => Nat.zero_le _)
    ⟨nUBucket, Finset.mem_univ _, by rw [if_pos h]; exact Nat.one_pos⟩

theorem notMem_of_newCount_eq (h : newCount vvNew nId = 0) (nUBucket : Fin newBucketCount) :
    nId ∉ vvNew nUBucket :=
  fun hmem => Nat.ne_of_gt (newCount_pos hmem) h

theorem newCount_eq_card : newCount vvNew nId =
    (Finset.univ.filter fun nUBucket => nId ∈ vvNew nUBucket).card :=
  (Finset.card_filter _ _).symm

/-- Taken out of every new bucket. -/
theorem newCount_erase (other : Nat) :
    newCount (fun nUBucket => (vvNew nUBucket).erase nId) other =
      if other = nId then 0 else newCount vvNew other := by
  unfold newCount
  split
  · next heq =>
    refine Finset.sum_eq_zero fun nUBucket _ => if_neg ?_
    rw [heq]
    exact Finset.notMem_erase nId _
  · next hne =>
    refine Finset.sum_congr rfl fun nUBucket _ => ?_
    exact if_congr (Finset.mem_erase.trans (and_iff_right hne)) rfl rfl

end counts

/-- Where an entry is, by its flag: in one tried slot, or in the new buckets it counts.  `nExtra`
places are counted already and not yet taken. -/
inductive Placed (nExtra : Nat) : Option CAddrInfo → (nTried nNew : Nat) → Prop
  | absent : Placed nExtra none 0 0
  | tried {info : CAddrInfo} (hflag : info.fInTried = true) (href : info.nRefCount = 0)
      (hsuccess : 0 < info.nLastSuccess) (htry : 0 ≤ info.nLastTry) : Placed nExtra (some info) 1 0
  | new {info : CAddrInfo} {nNew : Nat} (hflag : info.fInTried = false)
      (href : info.nRefCount = nNew + nExtra) (hpos : 0 < nNew + nExtra)
      (hmax : nNew + nExtra ≤ newBucketsPerAddress) (hsuccess : 0 ≤ info.nLastSuccess)
      (htry : 0 ≤ info.nLastTry) : Placed nExtra (some info) 0 nNew

namespace Placed

variable {nExtra nTried nNew : Nat} {info : CAddrInfo}

/-- Found in a tried slot. -/
theorem of_tried {entry : Option CAddrInfo} (h : Placed nExtra entry nTried nNew)
    (hpos : 0 < nTried) : ∃ info, entry = some info ∧ info.fInTried = true ∧ info.nRefCount = 0 ∧
      0 < info.nLastSuccess ∧ 0 ≤ info.nLastTry ∧ nTried = 1 ∧ nNew = 0 := by
  cases h with
  | absent => exact absurd hpos (Nat.lt_irrefl 0)
  | tried hflag href hsuccess htry => exact ⟨_, rfl, hflag, href, hsuccess, htry, rfl, rfl⟩
  | new => exact absurd hpos (Nat.lt_irrefl 0)

/-- Found in a new bucket. -/
theorem of_new {entry : Option CAddrInfo} (h : Placed nExtra entry nTried nNew)
    (hpos : 0 < nNew) : ∃ info, entry = some info ∧ info.fInTried = false ∧ nTried = 0 := by
  cases h with
  | absent => exact absurd hpos (Nat.lt_irrefl 0)
  | tried => exact absurd hpos (Nat.lt_irrefl 0)
  | new hflag => exact ⟨_, rfl, hflag, rfl⟩

theorem eq_zero_of_none (h : Placed nExtra none nTried nNew) : nTried = 0 ∧ nNew = 0 := by
  cases h
  exact ⟨rfl, rfl⟩

theorem of_flag (h : Placed nExtra (some info) nTried nNew) (hflag : info.fInTried = false) :
    nTried = 0 ∧ info.nRefCount = nNew + nExtra ∧ 0 < nNew + nExtra ∧
      nNew + nExtra ≤ newBucketsPerAddress ∧ 0 ≤ info.nLastSuccess ∧ 0 ≤ info.nLastTry := by
  cases h with
  | tried htrue => rw [hflag] at htrue; cases htrue
  | new _ href hpos hmax hsuccess htry => exact ⟨rfl, href, hpos, hmax, hsuccess, htry⟩

/-- Fields that decide nothing. -/
theorem update {info' : CAddrInfo} (h : Placed nExtra (some info) nTried nNew)
    (hflag : info'.fInTried = info.fInTried) (href : info'.nRefCount = info.nRefCount)
    (hsuccess : info'.nLastSuccess = info.nLastSuccess ∨ 0 < info'.nLastSuccess)
    (htry : 0 ≤ info.nLastTry → 0 ≤ info'.nLastTry) : Placed nExtra (some info') nTried nNew := by
  cases h with
  | tried hflag' href' hsuccess' htry' =>
    refine .tried (hflag.trans hflag') (href.trans href') ?_ (htry htry')
    rcases hsuccess with heq | hpos
    · rw [heq]
      exact hsuccess'
    · exact hpos
  | new hflag' href' hpos hmax hsuccess' htry' =>
    refine .new (hflag.trans hflag') (href.trans href') hpos hmax ?_ (htry htry')
    rcases hsuccess with heq | hpos
    · rw [heq]
      exact hsuccess'
    · exact Int.le_of_lt hpos

end Placed

/-! ## The invariant -/

/-- The indexes agree; `extra` says how many places of an id are counted and not yet taken. -/
structure Inv (extra : Nat → Nat) (m : CAddrMan) : Prop where
  positions : Positions m.mapInfo m.vRandom
  addresses : ∀ addr nId, m.mapAddr[addr]? = some nId ↔
    ∃ info, entryOf m.mapInfo nId = some info ∧ info.service.ip = addr
  fresh : ∀ nId info, entryOf m.mapInfo nId = some info → nId < m.nIdCount
  placed : ∀ nId, Placed (extra nId) (entryOf m.mapInfo nId) (triedCount m.vvTried nId)
    (newCount m.vvNew nId)
  triedSize : ∀ nKBucket, (m.vvTried nKBucket).length ≤ triedBucketSize
  newSize : ∀ nUBucket, (m.vvNew nUBucket).card ≤ newBucketSize
  nTried : m.nTried = (∑ nKBucket, (m.vvTried nKBucket).length : Nat)
  size : (m.vRandom.length : Int) = m.nTried + m.nNew

namespace Inv

variable {extra extra' : Nat → Nat} {m : CAddrMan} {nId : Nat} {info info' : CAddrInfo}

theorem info_of_new (h : Inv extra m) {nUBucket : Fin newBucketCount}
    (hmem : nId ∈ m.vvNew nUBucket) :
    ∃ info, m.mapInfo[nId]? = some info ∧ info.fInTried = false := by
  obtain ⟨entry, hentry, hflag, -⟩ := (h.placed nId).of_new (newCount_pos hmem)
  obtain ⟨info, hinfo, rfl⟩ := exists_of_entryOf hentry
  exact ⟨info, hinfo, hflag⟩

theorem info_of_tried (h : Inv extra m) {nKBucket : Fin triedBucketCount}
    (hmem : nId ∈ m.vvTried nKBucket) :
    ∃ info, m.mapInfo[nId]? = some info ∧ info.fInTried = true := by
  obtain ⟨entry, hentry, hflag, -⟩ := (h.placed nId).of_tried (triedCount_pos hmem)
  obtain ⟨info, hinfo, rfl⟩ := exists_of_entryOf hentry
  exact ⟨info, hinfo, hflag⟩

theorem placed_of (h : Inv extra m) (hinfo : m.mapInfo[nId]? = some info) :
    Placed (extra nId) (some info.forget) (triedCount m.vvTried nId) (newCount m.vvNew nId) := by
  rw [← entryOf_of_getElem? hinfo]
  exact h.placed nId

/-- `Find` gives the entry of the address. -/
theorem find_eq_some (h : Inv extra m) {addr : CNetAddr} (hfind : m.find addr = some (nId, info)) :
    m.mapInfo[nId]? = some info ∧ info.service.ip = addr := by
  unfold CAddrMan.find at hfind
  split at hfind
  · cases hfind
  · next nId' haddr =>
    obtain ⟨info', hinfo, hpair⟩ := Option.map_eq_some_iff.mp hfind
    obtain ⟨rfl, rfl⟩ := Prod.mk.inj hpair
    obtain ⟨entry, hentry, hip⟩ := (h.addresses addr nId').mp haddr
    rw [entryOf_of_getElem? hinfo] at hentry
    cases hentry
    exact ⟨hinfo, hip⟩

theorem find_eq_none (h : Inv extra m) {addr : CNetAddr} (hfind : m.find addr = none) :
    m.mapAddr[addr]? = none := by
  unfold CAddrMan.find at hfind
  split at hfind
  · next haddr => exact haddr
  · next nId' haddr =>
    obtain ⟨entry, hentry, hip⟩ := (h.addresses addr nId').mp haddr
    obtain ⟨info', hinfo, -⟩ := exists_of_entryOf hentry
    rw [hinfo] at hfind
    cases hfind

/-- An entry changes, and keeps its address. -/
theorem addresses_update (h : Inv extra m) (hinfo : m.mapInfo[nId]? = some info)
    (info' : CAddrInfo) (hip : info'.service.ip = info.service.ip) (addr : CNetAddr) (other : Nat) :
    m.mapAddr[addr]? = some other ↔
      ∃ entry, Function.update (entryOf m.mapInfo) nId (some info'.forget) other = some entry ∧
        entry.service.ip = addr := by
  rw [h.addresses, Function.update_apply]
  split
  · next heq =>
    rw [heq, entryOf_of_getElem? hinfo]
    constructor
    · rintro ⟨entry, hentry, haddr⟩
      cases hentry
      exact ⟨info'.forget, rfl, hip.trans haddr⟩
    · rintro ⟨entry, hentry, haddr⟩
      cases hentry
      exact ⟨info.forget, rfl, hip.symm.trans haddr⟩
  · exact Iff.rfl

theorem fresh_update (h : Inv extra m) (hinfo : m.mapInfo[nId]? = some info) (other : Nat)
    (entry : CAddrInfo)
    (hentry : Function.update (entryOf m.mapInfo) nId (some info') other = some entry) :
    other < m.nIdCount := by
  rw [Function.update_apply] at hentry
  split at hentry
  · next heq =>
    rw [heq]
    exact h.fresh nId _ (entryOf_of_getElem? hinfo)
  · exact h.fresh other entry hentry

/-- An entry changes, and keeps its places. -/
theorem setInfo (h : Inv extra m) (hinfo : m.mapInfo[nId]? = some info)
    (hpos : info'.nRandomPos = info.nRandomPos) (hip : info'.service.ip = info.service.ip)
    (hplaced : Placed (extra' nId) (some info'.forget) (triedCount m.vvTried nId)
      (newCount m.vvNew nId))
    (hextra : ∀ other, other ≠ nId → extra' other = extra other) :
    Inv extra' (m.setInfo nId info') where
  positions := h.positions.insert hinfo hpos
  addresses addr other := by
    show m.mapAddr[addr]? = some other ↔ ∃ entry, entryOf (m.mapInfo.insert nId info') other = _ ∧ _
    rw [entryOf_insert]
    exact h.addresses_update hinfo info' hip addr other
  fresh other entry hentry := by
    change entryOf (m.mapInfo.insert nId info') other = some entry at hentry
    rw [entryOf_insert] at hentry
    exact h.fresh_update hinfo other entry hentry
  placed other := by
    show Placed _ (entryOf (m.mapInfo.insert nId info') other) _ _
    rw [entryOf_insert, Function.update_apply]
    split
    · next heq =>
      rw [heq]
      exact hplaced
    · next hne =>
      rw [hextra other hne]
      exact h.placed other
  triedSize := h.triedSize
  newSize := h.newSize
  nTried := h.nTried
  size := h.size

/-- Fields that decide nothing. -/
theorem setFields (h : Inv extra m) (hinfo : m.mapInfo[nId]? = some info)
    (hpos : info'.nRandomPos = info.nRandomPos) (hip : info'.service.ip = info.service.ip)
    (hflag : info'.fInTried = info.fInTried) (href : info'.nRefCount = info.nRefCount)
    (hsuccess : info'.nLastSuccess = info.nLastSuccess ∨ 0 < info'.nLastSuccess)
    (htry : 0 ≤ info.nLastTry → 0 ≤ info'.nLastTry) : Inv extra (m.setInfo nId info') :=
  h.setInfo hinfo hpos hip ((h.placed_of hinfo).update hflag href hsuccess htry) fun _ _ => rfl

end Inv

/-! ## A place in a new bucket is given up -/

section release

variable {extra : Nat → Nat} {m : CAddrMan} {nId : Nat} {info : CAddrInfo}
  {nUBucket : Fin newBucketCount}

/-- One place less, for the id alone. -/
theorem newCount_release (hmem : nId ∈ m.vvNew nUBucket) (other : Nat) :
    newCount (Function.update m.vvNew nUBucket ((m.vvNew nUBucket).erase nId)) other +
      (if other = nId then 1 else 0) = newCount m.vvNew other := by
  have hcount := newCount_update m.vvNew other nUBucket
    ((m.vvNew nUBucket).erase nId)
  by_cases heq : other = nId
  · rw [heq] at hcount ⊢
    rw [if_pos hmem, if_neg (Finset.notMem_erase nId _)] at hcount
    rw [if_pos rfl]
    omega
  · rw [if_congr (Finset.mem_erase.trans (and_iff_right heq)) rfl rfl] at hcount
    rw [if_neg heq]
    omega

theorem newSize_release (h : Inv extra m) (other : Fin newBucketCount) :
    (Function.update m.vvNew nUBucket ((m.vvNew nUBucket).erase nId) other).card ≤
      newBucketSize := by
  rw [Function.update_apply]
  split
  · exact (Finset.card_le_card (Finset.erase_subset _ _)).trans (h.newSize nUBucket)
  · exact h.newSize other

/-- The last place but one or more: the entry stays. -/
theorem Inv.keep (h : Inv extra m) (hinfo : m.mapInfo[nId]? = some info)
    (hmem : nId ∈ m.vvNew nUBucket) (hextra : extra nId = 0) (hlast : info.nRefCount - 1 ≠ 0) :
    Inv extra { m.setInfo nId { info with nRefCount := info.nRefCount - 1 } with
      vvNew := Function.update m.vvNew nUBucket ((m.vvNew nUBucket).erase nId) } where
  positions := h.positions.insert hinfo rfl
  addresses addr other := by
    show m.mapAddr[addr]? = some other ↔
      ∃ entry, entryOf (m.mapInfo.insert nId _) other = _ ∧ _
    rw [entryOf_insert]
    exact h.addresses_update hinfo { info with nRefCount := info.nRefCount - 1 } rfl addr other
  fresh other entry hentry := by
    change entryOf (m.mapInfo.insert nId _) other = some entry at hentry
    rw [entryOf_insert] at hentry
    exact h.fresh_update hinfo other entry hentry
  placed other := by
    have hcount := newCount_release hmem other
    show Placed _ (entryOf (m.mapInfo.insert nId _) other) (triedCount m.vvTried other)
      (newCount (Function.update m.vvNew _ _) other)
    rw [entryOf_insert, Function.update_apply]
    split
    · next heq =>
      subst heq
      rw [if_pos rfl] at hcount
      obtain ⟨info', hinfo', hflag⟩ := h.info_of_new hmem
      rw [hinfo] at hinfo'
      cases hinfo'
      obtain ⟨htried, href, hpos, hmax, hsuccess, htry⟩ := (h.placed_of hinfo).of_flag hflag
      change info.nRefCount = _ at href
      rw [htried, hextra]
      refine .new hflag ?_ ?_ ?_ hsuccess htry
      · show info.nRefCount - 1 = _
        omega
      · omega
      · omega
    · next hne =>
      rw [if_neg hne, Nat.add_zero] at hcount
      rw [hcount]
      exact h.placed other
  triedSize := h.triedSize
  newSize := newSize_release h
  nTried := h.nTried
  size := h.size

/-- The last place: the entry is deleted. -/
theorem Inv.delete (h : Inv extra m) (hinfo : m.mapInfo[nId]? = some info)
    (hmem : nId ∈ m.vvNew nUBucket) (hextra : extra nId = 0) (hlast : info.nRefCount - 1 = 0)
    {mapInfo : Map Nat CAddrInfo} {vRandom : List Nat} (hpositions : Positions mapInfo vRandom)
    (hentry : entryOf mapInfo = Function.update (entryOf m.mapInfo) nId none)
    (hlength : vRandom.length + 1 = m.vRandom.length) :
    Inv extra { m with
      mapInfo := mapInfo
      vRandom := vRandom
      mapAddr := m.mapAddr.erase info.service.ip
      nNew := m.nNew - 1
      vvNew := Function.update m.vvNew nUBucket ((m.vvNew nUBucket).erase nId) } where
  positions := hpositions
  addresses addr other := by
    show (m.mapAddr.erase info.service.ip)[addr]? = some other ↔
      ∃ entry, entryOf mapInfo other = _ ∧ _
    have hself := (h.addresses info.service.ip nId).mpr ⟨_, entryOf_of_getElem? hinfo, rfl⟩
    rw [hentry, Function.update_apply, Map.getElem?_erase]
    split
    · next hip =>
      constructor
      · intro hnone
        cases hnone
      · rintro ⟨entry, hother, haddr⟩
        split at hother
        · cases hother
        · next hne =>
          have hget := (h.addresses addr other).mpr ⟨entry, hother, haddr⟩
          rw [← hip, hself] at hget
          exact absurd (Option.some.inj hget).symm hne
    · next hip =>
      rw [h.addresses]
      split
      · next heq =>
        rw [heq, entryOf_of_getElem? hinfo]
        constructor
        · rintro ⟨entry, hother, haddr⟩
          cases hother
          exact absurd haddr hip
        · rintro ⟨entry, hother, -⟩
          cases hother
      · exact Iff.rfl
  fresh other entry hother := by
    change entryOf mapInfo other = some entry at hother
    rw [hentry, Function.update_apply] at hother
    split at hother
    · cases hother
    · exact h.fresh other entry hother
  placed other := by
    have hcount := newCount_release hmem other
    show Placed _ (entryOf mapInfo other) (triedCount m.vvTried other)
      (newCount (Function.update m.vvNew _ _) other)
    rw [hentry, Function.update_apply]
    split
    · next heq =>
      subst heq
      rw [if_pos rfl] at hcount
      obtain ⟨info', hinfo', hflag⟩ := h.info_of_new hmem
      rw [hinfo] at hinfo'
      cases hinfo'
      obtain ⟨htried, href, -⟩ := (h.placed_of hinfo).of_flag hflag
      change info.nRefCount = _ at href
      have hzero : newCount (Function.update m.vvNew nUBucket ((m.vvNew nUBucket).erase other))
          other = 0 := by omega
      rw [htried, hzero]
      exact .absent
    · next hne =>
      rw [if_neg hne, Nat.add_zero] at hcount
      rw [hcount]
      exact h.placed other
  triedSize := h.triedSize
  newSize := newSize_release h
  nTried := h.nTried
  size := by
    have hsize := h.size
    show (vRandom.length : Int) = m.nTried + (m.nNew - 1)
    omega

/-- What is left after a place was given up. -/
structure Released (extra : Nat → Nat) (m : CAddrMan) (nUBucket : Fin newBucketCount) (nId : Nat)
    (m' : CAddrMan) : Prop where
  inv : Inv extra m'
  vvNew : m'.vvNew = Function.update m.vvNew nUBucket ((m.vvNew nUBucket).erase nId)
  frame : ∀ other, other ≠ nId → entryOf m'.mapInfo other = entryOf m.mapInfo other

theorem release_ok (h : Inv extra m) (hinfo : m.mapInfo[nId]? = some info)
    (hmem : nId ∈ m.vvNew nUBucket) (hextra : extra nId = 0) :
    ∃ m', m.release nUBucket nId info = .ok m' ∧ Released extra m nUBucket nId m' := by
  unfold CAddrMan.release
  dsimp only
  by_cases hlast : info.nRefCount - 1 = 0
  · rw [if_pos hlast]
    have hpositions : Positions
        (m.setInfo nId { info with nRefCount := info.nRefCount - 1 }).mapInfo m.vRandom :=
      h.positions.insert hinfo rfl
    have hlt := h.positions.lt hinfo
    obtain ⟨mapInfo', vRandom', hswap, hentry, hpositions', hlength, hget⟩ :=
      swapRandom_ok (m := m.setInfo nId { info with nRefCount := info.nRefCount - 1 })
        info.nRandomPos (m.vRandom.length - 1) hpositions hlt
        (Nat.sub_lt (Nat.zero_lt_of_lt hlt) Nat.one_pos)
    change vRandom'.length = m.vRandom.length at hlength
    rw [show (m.setInfo nId { info with nRefCount := info.nRefCount - 1 }).vRandom = m.vRandom
      from rfl, hswap]
    have hgone : entryOf (mapInfo'.erase nId) = Function.update (entryOf m.mapInfo) nId none := by
      rw [entryOf_erase, hentry]
      show Function.update (entryOf (m.mapInfo.insert nId _)) nId none = _
      rw [entryOf_insert, Function.update_idem]
    refine ⟨_, rfl, ?_, rfl, ?_⟩
    · refine h.delete hinfo hmem hextra hlast (hpositions'.dropLast ?_) hgone ?_
      · rw [hlength, hget]
        exact h.positions.getElem? hinfo
      · rw [List.length_dropLast, hlength]
        omega
    · intro other hne
      show entryOf (mapInfo'.erase nId) other = _
      rw [hgone, Function.update_of_ne hne]
  · rw [if_neg hlast]
    refine ⟨_, rfl, h.keep hinfo hmem hextra hlast, rfl, ?_⟩
    intro other hne
    show entryOf (m.mapInfo.insert nId _) other = _
    rw [entryOf_insert, Function.update_of_ne hne]

end release

/-! ## `ShrinkNew` -/

section shrink

variable {m : CAddrMan} {ids : List Nat}

theorem findTerrible_ok (nNow : Int) (h : ∀ nId ∈ ids, ∃ info, m.mapInfo[nId]? = some info) :
    m.findTerrible nNow ids = .ok none ∨
      ∃ nId ∈ ids, ∃ info, m.mapInfo[nId]? = some info ∧
        m.findTerrible nNow ids = .ok (some (nId, info)) := by
  induction ids with
  | nil => exact .inl rfl
  | cons nId ids ih =>
    rw [List.forall_mem_cons] at h
    obtain ⟨info, hinfo⟩ := h.1
    unfold CAddrMan.findTerrible
    rw [hinfo]
    dsimp only
    split
    · exact .inr ⟨nId, List.mem_cons_self, info, hinfo, rfl⟩
    · rcases ih h.2 with hnone | ⟨nId', hmem, info', hinfo', hsome⟩
      · exact .inl hnone
      · exact .inr ⟨nId', List.mem_cons_of_mem _ hmem, info', hinfo', hsome⟩

/-- The oldest so far, or one that comes, once a position is hit. -/
theorem findOldest_ok {n : List Nat} (nI : Nat) (nOldest : Option Nat)
    (h : ∀ nId ∈ ids, ∃ info, m.mapInfo[nId]? = some info)
    (hhit : nOldest ≠ none ∨ ∃ pos ∈ n, nI ≤ pos ∧ pos < nI + ids.length) :
    ∃ nId, m.findOldest n nI nOldest ids = .ok (some nId) ∧ (nOldest = some nId ∨ nId ∈ ids) := by
  induction ids generalizing nI nOldest with
  | nil =>
    rcases hhit with hsome | ⟨pos, -, hle, hlt⟩
    · obtain ⟨nId, rfl⟩ := Option.ne_none_iff_exists'.mp hsome
      exact ⟨nId, rfl, .inl rfl⟩
    · exact absurd (Nat.lt_of_le_of_lt hle hlt) (Nat.lt_irrefl nI)
  | cons first ids ih =>
    rw [List.forall_mem_cons] at h
    unfold CAddrMan.findOldest
    split
    · next hmem =>
      cases nOldest with
      | none =>
        obtain ⟨nId, hfind, hwhich⟩ := ih (nI + 1) (some first) h.2 (.inl (by rintro ⟨⟩))
        refine ⟨nId, hfind, .inr ?_⟩
        rcases hwhich with heq | hids
        · cases heq
          exact List.mem_cons_self
        · exact List.mem_cons_of_mem _ hids
      | some nBest =>
        dsimp only
        rw [if_pos ((Map.contains_iff _ _).mpr h.1)]
        obtain ⟨nId, hfind, hwhich⟩ :=
          ih (nI + 1) (some (if m.nTimeOf first < m.nTimeOf nBest then first else nBest)) h.2
            (.inl (by rintro ⟨⟩))
        refine ⟨nId, hfind, ?_⟩
        rcases hwhich with heq | hids
        · split at heq
          · cases heq
            exact .inr List.mem_cons_self
          · exact .inl heq
        · exact .inr (List.mem_cons_of_mem _ hids)
    · next hout =>
      have hnext : nOldest ≠ none ∨ ∃ pos ∈ n, nI + 1 ≤ pos ∧ pos < nI + 1 + ids.length := by
        rcases hhit with hsome | ⟨pos, hpos, hle, hlt⟩
        · exact .inl hsome
        · rw [List.length_cons] at hlt
          have hne : nI ≠ pos := by
            rintro rfl
            exact hout hpos
          exact .inr ⟨pos, hpos, by omega, by omega⟩
      obtain ⟨nId, hfind, hwhich⟩ := ih (nI + 1) nOldest h.2 hnext
      exact ⟨nId, hfind, hwhich.imp_right fun hids => List.mem_cons_of_mem _ hids⟩

end shrink

theorem getRandInt_lt {nMax : Nat} (raw : Nat) (h : 0 < nMax) : getRandInt raw nMax < nMax := by
  unfold getRandInt
  rw [if_neg (Nat.ne_of_gt h)]
  exact Nat.mod_lt _ h

section add

variable {extra : Nat → Nat} {m : CAddrMan} {nId : Nat} {info : CAddrInfo}

theorem shrinkNew_ok (h : Inv extra m) {nUBucket : Fin newBucketCount} (nNow : Int) (rnd : Rand)
    (hextra : ∀ nId ∈ m.vvNew nUBucket, extra nId = 0) (hfull : 0 < (m.vvNew nUBucket).card) :
    ∃ nId ∈ m.vvNew nUBucket, ∃ m', m.shrinkNew nUBucket nNow rnd = .ok m' ∧
      Released extra m nUBucket nId m' := by
  have hinfos : ∀ nId ∈ (m.vvNew nUBucket).sort (· ≤ ·), ∃ info, m.mapInfo[nId]? = some info := by
    intro nId hmem
    obtain ⟨info, hinfo, -⟩ := h.info_of_new ((Finset.mem_sort _).mp hmem)
    exact ⟨info, hinfo⟩
  unfold CAddrMan.shrinkNew
  dsimp only
  rcases findTerrible_ok nNow hinfos with hnone | ⟨nId, hmem, info, hinfo, hsome⟩
  · rw [hnone]
    have hlength : 0 < ((m.vvNew nUBucket).sort (· ≤ ·)).length := by
      rw [Finset.length_sort]
      exact hfull
    have hlt := getRandInt_lt (rnd 0) hlength
    have hfirst : getRandInt (rnd 0) ((m.vvNew nUBucket).sort (· ≤ ·)).length ∈
        (List.range 4).map fun i => getRandInt (rnd i) ((m.vvNew nUBucket).sort (· ≤ ·)).length :=
      List.mem_map.mpr ⟨0, List.mem_range.mpr (by decide), rfl⟩
    obtain ⟨nId, hfind, hwhich⟩ := findOldest_ok (m := m) 0 none hinfos
      (.inr ⟨_, hfirst, Nat.zero_le _, (Nat.zero_add _).symm ▸ hlt⟩)
    rcases hwhich with heq | hmem
    · cases heq
    · obtain ⟨info, hinfo⟩ := hinfos nId hmem
      have hmem := (Finset.mem_sort _).mp hmem
      obtain ⟨m', hrelease, hreleased⟩ := release_ok h hinfo hmem (hextra nId hmem)
      refine ⟨nId, hmem, m', ?_, hreleased⟩
      show (m.findOldest _ 0 none _ >>= _) = _
      rw [hfind]
      dsimp only [bind, Except.bind]
      rw [hinfo]
      exact hrelease
  · rw [hsome]
    have hmem := (Finset.mem_sort _).mp hmem
    obtain ⟨m', hrelease, hreleased⟩ := release_ok h hinfo hmem (hextra nId hmem)
    exact ⟨nId, hmem, m', hrelease, hreleased⟩

/-- One place is counted and not yet taken. -/
def oneOf (nId other : Nat) : Nat := if other = nId then 1 else 0

/-- The place that is counted is taken. -/
theorem Inv.take (h : Inv (oneOf nId) m) {nUBucket : Fin newBucketCount}
    (hout : nId ∉ m.vvNew nUBucket) (hroom : (m.vvNew nUBucket).card < newBucketSize)
    {entry : CAddrInfo} (hentry : entryOf m.mapInfo nId = some entry)
    (hflag : entry.fInTried = false) :
    Inv (fun _ => 0)
      { m with vvNew := Function.update m.vvNew nUBucket (insert nId (m.vvNew nUBucket)) } where
  positions := h.positions
  addresses := h.addresses
  fresh := h.fresh
  placed other := by
    have hcount := newCount_update m.vvNew other nUBucket
      (insert nId (m.vvNew nUBucket))
    have hother := h.placed other
    unfold oneOf at hother
    show Placed 0 (entryOf m.mapInfo other) (triedCount m.vvTried other)
      (newCount (Function.update m.vvNew _ _) other)
    by_cases heq : other = nId
    · subst heq
      rw [if_neg hout, if_pos (Finset.mem_insert_self _ _)] at hcount
      rw [if_pos rfl, hentry] at hother
      obtain ⟨htried, href, hpos, hmax, hsuccess, htry⟩ := hother.of_flag hflag
      rw [hentry, htried]
      exact .new hflag (by omega) (by omega) (by omega) hsuccess htry
    · rw [if_neg heq] at hother
      rw [if_congr (Finset.mem_insert.trans (or_iff_right heq)) rfl rfl] at hcount
      rw [Nat.add_right_cancel hcount]
      exact hother
  triedSize := h.triedSize
  newSize other := by
    show (Function.update m.vvNew nUBucket (insert nId (m.vvNew nUBucket)) other).card ≤ _
    rw [Function.update_apply]
    split
    · rw [Finset.card_insert_of_notMem hout]
      exact hroom
    · exact h.newSize other
  nTried := h.nTried
  size := h.size

/-- The counted place is taken in a full bucket, after `ShrinkNew`. -/
theorem shrinkAndTake_ok (h : Inv (oneOf nId) m) {nUBucket : Fin newBucketCount}
    (hout : nId ∉ m.vvNew nUBucket) (hinfo : m.mapInfo[nId]? = some info)
    (hflag : info.fInTried = false) (hfull : (m.vvNew nUBucket).card = newBucketSize) (nNow : Int)
    (rnd : Rand) :
    ∃ m', m.shrinkNew nUBucket nNow rnd = .ok m' ∧ Inv (fun _ => 0)
      { m' with vvNew := Function.update m'.vvNew nUBucket (insert nId (m'.vvNew nUBucket)) } := by
  have hextra : ∀ other ∈ m.vvNew nUBucket, oneOf nId other = 0 := by
    intro other hmem
    refine if_neg ?_
    rintro rfl
    exact hout hmem
  have hfilled : 0 < (m.vvNew nUBucket).card := by
    rw [hfull]
    decide
  obtain ⟨nIdOld, hmem, m', hshrink, hreleased⟩ := shrinkNew_ok h nNow rnd hextra hfilled
  have hne : nId ≠ nIdOld := by
    rintro rfl
    exact hout hmem
  have hbucket : m'.vvNew nUBucket = (m.vvNew nUBucket).erase nIdOld := by
    rw [hreleased.vvNew, Function.update_self]
  have hentry : entryOf m'.mapInfo nId = some info.forget := by
    rw [hreleased.frame nId hne]
    exact entryOf_of_getElem? hinfo
  refine ⟨m', hshrink, hreleased.inv.take ?_ ?_ hentry hflag⟩
  · rw [hbucket]
    exact fun hmem' => hout (Finset.mem_of_mem_erase hmem')
  · rw [hbucket, ← hfull]
    exact Finset.card_erase_lt_of_mem hmem

/-- The last part of `Add_`, of an entry whose next place can be counted. -/
theorem addRef_ok (env : AddrEnv) (source : CNetAddr) (nNow : Int) (rnd : Rand)
    (hstay : nId ∈ m.vvNew (env.getNewBucket info source) → Inv (fun _ => 0) m)
    (htake : nId ∉ m.vvNew (env.getNewBucket info source) →
      Inv (oneOf nId) (m.setInfo nId { info with nRefCount := info.nRefCount + 1 }))
    (hflag : info.fInTried = false) :
    ∃ m', m.addRef env nId info source nNow rnd = .ok m' ∧ Inv (fun _ => 0) m' ∧
      ((m.vvNew (env.getNewBucket info source)).card ≠ newBucketSize →
        m'.mapAddr = m.mapAddr) := by
  unfold CAddrMan.addRef
  dsimp only
  split
  · next hout =>
    have hinfo : (m.setInfo nId { info with nRefCount := info.nRefCount + 1 }).mapInfo[nId]? =
        some { info with nRefCount := info.nRefCount + 1 } := by
      show (m.mapInfo.insert nId _)[nId]? = _
      rw [Map.getElem?_insert, if_pos rfl]
    split
    · next hfull =>
      obtain ⟨m', hrun, hinv⟩ := shrinkAndTake_ok (htake hout) hout hinfo hflag hfull nNow rnd
      rw [hrun]
      exact ⟨_, rfl, hinv, fun hroom => absurd hfull hroom⟩
    · next hroom =>
      have hlt := Nat.lt_of_le_of_ne ((htake hout).newSize _) hroom
      exact ⟨_, rfl, (htake hout).take hout hlt (entryOf_of_getElem? hinfo) hflag, fun _ => rfl⟩
  · next hin => exact ⟨m, rfl, hstay (not_not.mp hin), fun _ => rfl⟩

/-- One more place of an entry that is not tried is counted. -/
theorem Inv.count (h : Inv (fun _ => 0) m) (hinfo : m.mapInfo[nId]? = some info)
    (hflag : info.fInTried = false) (hmax : info.nRefCount ≠ newBucketsPerAddress) :
    Inv (oneOf nId) (m.setInfo nId { info with nRefCount := info.nRefCount + 1 }) := by
  refine h.setInfo hinfo rfl rfl ?_ fun other hne => if_neg hne
  obtain ⟨htried, href, hpos, hle, hsuccess, htry⟩ := (h.placed_of hinfo).of_flag hflag
  change info.nRefCount = _ at href
  rw [htried, show oneOf nId nId = 1 from if_pos rfl]
  refine .new hflag ?_ (Nat.succ_pos _) ?_ hsuccess htry
  · show info.nRefCount + 1 = _
    omega
  · omega

theorem Inv.entry_fresh (h : Inv extra m) : entryOf m.mapInfo m.nIdCount = none := by
  cases hentry : entryOf m.mapInfo m.nIdCount with
  | none => rfl
  | some entry => exact absurd (h.fresh _ entry hentry) (Nat.lt_irrefl _)

/-- A new id, with its first place counted. -/
theorem Inv.create (h : Inv (fun _ => 0) m) (haddr : m.mapAddr[info.service.ip]? = none)
    (hflag : info.fInTried = false) (href : info.nRefCount = 1)
    (hsuccess : info.nLastSuccess = 0) (htry : info.nLastTry = 0)
    (hpos : info.nRandomPos = m.vRandom.length) :
    Inv (oneOf m.nIdCount) { m with
      nIdCount := m.nIdCount + 1
      mapInfo := m.mapInfo.insert m.nIdCount info
      mapAddr := m.mapAddr.insert info.service.ip m.nIdCount
      vRandom := m.vRandom ++ [m.nIdCount]
      nNew := m.nNew + 1 } where
  positions := by
    refine h.positions.concat ?_ hpos
    exact Option.map_eq_none_iff.mp h.entry_fresh
  addresses addr other := by
    show (m.mapAddr.insert info.service.ip m.nIdCount)[addr]? = some other ↔
      ∃ entry, entryOf (m.mapInfo.insert m.nIdCount info) other = _ ∧ _
    rw [entryOf_insert, Function.update_apply, Map.getElem?_insert]
    split
    · next hip =>
      constructor
      · intro heq
        cases heq
        exact ⟨info.forget, by rw [if_pos rfl], hip⟩
      · rintro ⟨entry, hother, hentry⟩
        split at hother
        · next heq => rw [heq]
        · have hget := (h.addresses addr other).mpr ⟨entry, hother, hentry⟩
          rw [← hip, haddr] at hget
          cases hget
    · next hip =>
      rw [h.addresses]
      split
      · next heq =>
        rw [heq, h.entry_fresh]
        constructor
        · rintro ⟨entry, hother, -⟩
          cases hother
        · rintro ⟨entry, hother, hentry⟩
          cases hother
          exact absurd hentry hip
      · exact Iff.rfl
  fresh other entry hother := by
    change entryOf (m.mapInfo.insert m.nIdCount info) other = some entry at hother
    show other < m.nIdCount + 1
    rw [entryOf_insert, Function.update_apply] at hother
    split at hother
    · next heq => exact heq ▸ Nat.lt_succ_self _
    · exact Nat.lt_succ_of_lt (h.fresh other entry hother)
  placed other := by
    show Placed _ (entryOf (m.mapInfo.insert m.nIdCount info) other) _ _
    have hother := h.placed other
    rw [entryOf_insert, Function.update_apply, oneOf]
    by_cases heq : other = m.nIdCount
    · rw [heq, h.entry_fresh] at hother
      obtain ⟨htried, hnew⟩ := hother.eq_zero_of_none
      show Placed _ _ (triedCount m.vvTried _) (newCount m.vvNew _)
      rw [if_pos heq, if_pos heq, heq, htried, hnew]
      exact .new hflag href Nat.one_pos (by decide) (Int.le_of_eq hsuccess.symm)
        (Int.le_of_eq htry.symm)
    · rw [if_neg heq, if_neg heq]
      exact hother
  triedSize := h.triedSize
  newSize := h.newSize
  nTried := h.nTried
  size := by
    have hsize := h.size
    show ((m.vRandom ++ [m.nIdCount]).length : Int) = m.nTried + (m.nNew + 1)
    rw [List.length_append, List.length_singleton]
    omega

theorem insert_insert {K V : Type} [Ord K] [Std.TransOrd K] [Std.LawfulEqOrd K] [DecidableEq K]
    (map : Map K V) (k : K) (v v' : V) : (map.insert k v).insert k v' = map.insert k v' := by
  refine Map.ext fun k' => ?_
  rw [Map.getElem?_insert, Map.getElem?_insert, Map.getElem?_insert]
  split <;> rfl

/-- The last part of `Add_`, of an entry that was just made. -/
theorem addRef_create_ok (h : Inv (fun _ => 0) m) (env : AddrEnv) (source : CNetAddr)
    (nNow : Int) (rnd : Rand) {addr : CNetAddr} (haddr : m.mapAddr[addr]? = none)
    (hip : info.service.ip = addr) (hflag : info.fInTried = false) (href : info.nRefCount = 0)
    (hsuccess : info.nLastSuccess = 0) (htry : info.nLastTry = 0)
    (hpos : info.nRandomPos = m.vRandom.length) {info₀ : CAddrInfo} {m₁ : CAddrMan}
    (hm₁ : m₁ = { m with
      nIdCount := m.nIdCount + 1
      mapInfo := (m.mapInfo.insert m.nIdCount info₀).insert m.nIdCount info
      mapAddr := m.mapAddr.insert addr m.nIdCount
      vRandom := m.vRandom ++ [m.nIdCount]
      nNew := m.nNew + 1 }) :
    ∃ m', m₁.addRef env m.nIdCount info source nNow rnd = .ok m' ∧ Inv (fun _ => 0) m' ∧
      ∀ a, m.mapAddr.contains a = true → m'.mapAddr.contains a = false →
        ∃ info, info.service.ip = addr ∧
          (m.vvNew (env.getNewBucket info source)).card = newBucketSize := by
  have hempty := (h.entry_fresh ▸ h.placed m.nIdCount).eq_zero_of_none.2
  have hvvNew : m₁.vvNew = m.vvNew := by rw [hm₁]
  have htake : Inv (oneOf m.nIdCount)
      (m₁.setInfo m.nIdCount { info with nRefCount := info.nRefCount + 1 }) := by
    rw [hm₁]
    unfold CAddrMan.setInfo
    dsimp only
    rw [insert_insert, insert_insert, ← hip]
    have hone : ({ info with nRefCount := info.nRefCount + 1 } : CAddrInfo).nRefCount = 1 := by
      show info.nRefCount + 1 = 1
      rw [href]
      rfl
    exact h.create (show m.mapAddr[info.service.ip]? = none from hip ▸ haddr) hflag hone hsuccess
      htry hpos
  obtain ⟨m', hrun, hinv, hkeep⟩ := addRef_ok env source nNow rnd
    (fun hin => absurd (hvvNew ▸ hin) (notMem_of_newCount_eq hempty _)) (fun _ => htake) hflag
  refine ⟨m', hrun, hinv, fun a hin hout => ⟨info, hip, ?_⟩⟩
  by_contra hroom
  rw [← hvvNew] at hroom
  rw [hkeep hroom, hm₁] at hout
  change (m.mapAddr.insert addr m.nIdCount).contains a = false at hout
  rw [Map.contains_eq_false_iff, Map.getElem?_insert] at hout
  split at hout
  · cases hout
  · exact absurd hin (Bool.eq_false_iff.mp ((Map.contains_eq_false_iff _ _).mpr hout))

/-- What a call of `Add_` can do to the addresses. -/
theorem add_ok (h : Inv (fun _ => 0) m) (env : AddrEnv) (addr : CAddress) (source : CNetAddr)
    (nTimePenalty nNow : Int) (rnd : Rand) :
    ∃ m', m.add env addr source nTimePenalty nNow rnd = .ok m' ∧ Inv (fun _ => 0) m' ∧
      ∀ a, m.mapAddr.contains a = true → m'.mapAddr.contains a = false →
        ∃ info, info.service.ip = addr.service.ip ∧
          (m.vvNew (env.getNewBucket info source)).card = newBucketSize := by
  have hsame : ∀ a, m.mapAddr.contains a = true → m.mapAddr.contains a = false →
      ∃ info : CAddrInfo, info.service.ip = addr.service.ip ∧
        (m.vvNew (env.getNewBucket info source)).card = newBucketSize :=
    fun a hin hout => absurd hin (Bool.eq_false_iff.mp hout)
  unfold CAddrMan.add
  split
  · exact ⟨m, rfl, h, hsame⟩
  · split
    · next nId info hfind =>
      obtain ⟨hinfo, hip⟩ := h.find_eq_some hfind
      have hset : Inv (fun _ => 0) (m.setInfo nId (CAddrMan.refresh info addr nTimePenalty nNow)) :=
        h.setFields hinfo rfl rfl rfl rfl (.inl rfl) id
      have hget : (m.setInfo nId (CAddrMan.refresh info addr nTimePenalty nNow)).mapInfo[nId]? =
          some (CAddrMan.refresh info addr nTimePenalty nNow) := by
        show (m.mapInfo.insert nId _)[nId]? = _
        rw [Map.getElem?_insert, if_pos rfl]
      dsimp only
      split
      · exact ⟨_, rfl, hset, hsame⟩
      · split
        · exact ⟨_, rfl, hset, hsame⟩
        · next hflag =>
          split
          · exact ⟨_, rfl, hset, hsame⟩
          · next hmax =>
            split
            · exact ⟨_, rfl, hset, hsame⟩
            · have hnot := Bool.eq_false_iff.mpr hflag
              obtain ⟨m', hrun, hinv, hkeep⟩ := addRef_ok env source nNow (fun i => rnd (i + 1))
                (fun _ => hset) (fun _ => hset.count hget hnot hmax) hnot
              refine ⟨m', hrun, hinv, fun a hin hout => ⟨_, hip, ?_⟩⟩
              by_contra hroom
              rw [hkeep hroom] at hout
              exact absurd hin (Bool.eq_false_iff.mp hout)
    · next hfind =>
      have haddr := h.find_eq_none hfind
      dsimp only [CAddrMan.create]
      exact addRef_create_ok h env source nNow rnd haddr rfl rfl rfl rfl rfl rfl rfl

end add

/-! ## Into the tried buckets -/

/-- The same ids at the same addresses, in other places. -/
theorem Inv.move {extra extra' : Nat → Nat} {m m' : CAddrMan} (h : Inv extra m)
    (hpositions : Positions m'.mapInfo m'.vRandom)
    (hlength : m'.vRandom.length = m.vRandom.length)
    (hmapAddr : m'.mapAddr = m.mapAddr) (hid : m'.nIdCount = m.nIdCount)
    (hentries : ∀ nId, (entryOf m'.mapInfo nId).map (fun info => info.service.ip) =
      (entryOf m.mapInfo nId).map fun info => info.service.ip)
    (hplaced : ∀ nId, Placed (extra' nId) (entryOf m'.mapInfo nId) (triedCount m'.vvTried nId)
      (newCount m'.vvNew nId))
    (htriedSize : ∀ nKBucket, (m'.vvTried nKBucket).length ≤ triedBucketSize)
    (hnewSize : ∀ nUBucket, (m'.vvNew nUBucket).card ≤ newBucketSize)
    (hnTried : m'.nTried = (∑ nKBucket, (m'.vvTried nKBucket).length : Nat))
    (hsum : m'.nTried + m'.nNew = m.nTried + m.nNew) : Inv extra' m' where
  positions := hpositions
  addresses addr nId := by
    rw [hmapAddr, h.addresses, ← Option.map_eq_some_iff, ← Option.map_eq_some_iff, hentries]
  fresh nId info hinfo := by
    have hip := hentries nId
    rw [hinfo] at hip
    obtain ⟨info', hinfo', -⟩ := Option.map_eq_some_iff.mp hip.symm
    rw [hid]
    exact h.fresh nId info' hinfo'
  placed := hplaced
  triedSize := htriedSize
  newSize := hnewSize
  nTried := hnTried
  size := by rw [hlength, hsum, h.size]

section tried

variable {m : CAddrMan} {nId nIdOld : Nat} {info info' infoOld infoOld' : CAddrInfo}

/-- The swaps of `SelectTried` only reorder the bucket, and the position it takes is in it. -/
theorem selectLoop_ok (rnd : Rand) (rounds i : Nat) (best : Option (Nat × Nat))
    {vTried : List Nat} (h : ∀ nId ∈ vTried, ∃ info, m.mapInfo[nId]? = some info)
    (hbest : ∀ nId pos, best = some (nId, pos) →
      (∃ info, m.mapInfo[nId]? = some info) ∧ pos < vTried.length)
    (hsome : best ≠ none ∨ 0 < rounds ∧ i < vTried.length) :
    ∃ vTried' nId pos, m.selectLoop rnd rounds i best vTried = .ok (vTried', some (nId, pos)) ∧
      vTried'.Perm vTried ∧ pos < vTried'.length := by
  have hdone : best ≠ none → ∃ vTried' nId pos,
      (.ok (vTried, best) : Except Exit _) = .ok (vTried', some (nId, pos)) ∧
        vTried'.Perm vTried ∧ pos < vTried'.length := by
    intro hne
    obtain ⟨⟨nId, pos⟩, rfl⟩ := Option.ne_none_iff_exists'.mp hne
    exact ⟨vTried, nId, pos, rfl, .rfl, (hbest nId pos rfl).2⟩
  induction rounds generalizing i best vTried with
  | zero => exact hdone (hsome.resolve_right fun h => Nat.lt_irrefl 0 h.1)
  | succ rounds ih =>
    unfold CAddrMan.selectLoop
    split
    · next hi =>
      have hpos : getRandInt (rnd i) (vTried.length - i) + i < vTried.length := by
        have hlt := getRandInt_lt (rnd i) (Nat.sub_pos_of_lt hi)
        omega
      generalize getRandInt (rnd i) (vTried.length - i) + i = nPos at hpos ⊢
      dsimp only
      rw [List.getD_eq_getElem _ _ hpos, List.getD_eq_getElem _ _ hi]
      have hperm : ((vTried.set nPos vTried[i]).set i vTried[nPos]).Perm vTried :=
        List.set_set_perm hpos hi
      have hmem : ∀ nId ∈ (vTried.set nPos vTried[i]).set i vTried[nPos],
          ∃ info, m.mapInfo[nId]? = some info := fun nId hnId => h nId (hperm.mem_iff.mp hnId)
      have htemp := h _ (List.getElem_mem hpos)
      -- whichever is the best after this round, the rest of the loop goes on from it
      have hnext : ∀ nBest nBestPos, (∃ info, m.mapInfo[nBest]? = some info) →
          nBestPos < vTried.length → ∃ vTried' nId pos,
            m.selectLoop rnd rounds (i + 1) (some (nBest, nBestPos))
              ((vTried.set nPos vTried[i]).set i vTried[nPos]) = .ok (vTried', some (nId, pos)) ∧
            vTried'.Perm vTried ∧ pos < vTried'.length := by
        intro nBest nBestPos hinfo hlt
        have hbest' : ∀ nId pos, some (nBest, nBestPos) = some (nId, pos) →
            (∃ info, m.mapInfo[nId]? = some info) ∧
              pos < ((vTried.set nPos vTried[i]).set i vTried[nPos]).length := by
          intro nId pos heq
          cases heq
          exact ⟨hinfo, hperm.length_eq ▸ hlt⟩
        obtain ⟨vTried', nId, pos, hrun, hperm', hpos'⟩ := ih (i + 1) _ hmem hbest'
          (.inl (by rintro ⟨⟩)) fun _ => ⟨_, nBest, nBestPos, rfl, .rfl, hperm.length_eq ▸ hlt⟩
        exact ⟨vTried', nId, pos, hrun, hperm'.trans hperm, hpos'⟩
      cases best with
      | none => exact hnext _ _ htemp hpos
      | some pair =>
        obtain ⟨nOldest, nOldestPos⟩ := pair
        obtain ⟨holdest, hlt⟩ := hbest nOldest nOldestPos rfl
        obtain ⟨infoTemp, hinfoTemp⟩ := htemp
        obtain ⟨infoOldest, hinfoOldest⟩ := holdest
        dsimp only
        rw [hinfoTemp, hinfoOldest]
        dsimp only
        split
        · exact hnext _ _ ⟨_, hinfoTemp⟩ hpos
        · exact hnext _ _ ⟨_, hinfoOldest⟩ hlt
    · next hi => exact hdone (hsome.resolve_right fun h => hi h.2)

theorem selectTried_ok (rnd : Rand) {nKBucket : Fin triedBucketCount}
    (h : ∀ nId ∈ m.vvTried nKBucket, ∃ info, m.mapInfo[nId]? = some info)
    (hfull : 0 < (m.vvTried nKBucket).length) :
    ∃ vTried pos, m.selectTried nKBucket rnd =
        .ok ({ m with vvTried := Function.update m.vvTried nKBucket vTried }, pos) ∧
      vTried.Perm (m.vvTried nKBucket) ∧ pos < vTried.length := by
  obtain ⟨vTried, nId, pos, hrun, hperm, hpos⟩ := selectLoop_ok rnd triedEntriesInspectOnEvict 0 none h
    (fun _ _ h => by cases h) (.inr ⟨by decide, hfull⟩)
  unfold CAddrMan.selectTried
  rw [hrun]
  exact ⟨vTried, pos, rfl, hperm, hpos⟩

/-- The entry that goes from the new buckets to a tried slot. -/
structure Promoted (info info' : CAddrInfo) : Prop where
  position : info'.nRandomPos = info.nRandomPos
  ip : info'.service.ip = info.service.ip
  flag : info'.fInTried = true
  ref : info'.nRefCount = 0
  success : 0 < info'.nLastSuccess
  lastTry : 0 ≤ info'.nLastTry

/-- There is room in the tried bucket. -/
theorem Inv.promote (h : Inv (fun _ => 0) m) (hinfo : m.mapInfo[nId]? = some info)
    (hflag : info.fInTried = false) (hpromoted : Promoted info info')
    {nKBucket : Fin triedBucketCount} (hroom : (m.vvTried nKBucket).length < triedBucketSize) :
    Inv (fun _ => 0) { m with
      mapInfo := m.mapInfo.insert nId info'
      vvNew := fun nUBucket => (m.vvNew nUBucket).erase nId
      nNew := m.nNew - 1
      vvTried := Function.update m.vvTried nKBucket (m.vvTried nKBucket ++ [nId])
      nTried := m.nTried + 1 } := by
  have htotal := sum_update m.vvTried List.length nKBucket (m.vvTried nKBucket ++ [nId])
  rw [List.length_append, List.length_singleton] at htotal
  refine h.move (h.positions.insert hinfo hpromoted.position) rfl rfl rfl ?_ ?_ ?_ ?_ ?_ ?_
  · intro other
    show (entryOf (m.mapInfo.insert nId info') other).map _ = _
    rw [entryOf_insert, Function.update_apply]
    split
    · next heq =>
      rw [heq, entryOf_of_getElem? hinfo]
      exact congrArg some hpromoted.ip
    · rfl
  · intro other
    have hcount := triedCount_update m.vvTried other nKBucket (m.vvTried nKBucket ++ [nId])
    rw [List.count_append, List.count_singleton] at hcount
    show Placed 0 (entryOf (m.mapInfo.insert nId info') other)
      (triedCount (Function.update m.vvTried _ _) other)
      (newCount (fun nUBucket => (m.vvNew nUBucket).erase nId) other)
    rw [entryOf_insert, Function.update_apply, newCount_erase]
    by_cases heq : other = nId
    · subst heq
      have htried := ((h.placed_of hinfo).of_flag hflag).1
      rw [if_pos (beq_self_eq_true other)] at hcount
      rw [if_pos rfl, if_pos rfl, show triedCount (Function.update m.vvTried nKBucket _) other = 1
        by omega]
      exact .tried hpromoted.flag hpromoted.ref hpromoted.success hpromoted.lastTry
    · rw [if_neg fun hbeq => heq (beq_iff_eq.mp hbeq).symm] at hcount
      rw [if_neg heq, if_neg heq, show triedCount (Function.update m.vvTried nKBucket _) other = _
        from Nat.add_right_cancel (hcount.trans (by rw [Nat.add_zero]))]
      exact h.placed other
  · intro other
    show (Function.update m.vvTried nKBucket (m.vvTried nKBucket ++ [nId]) other).length ≤ _
    rw [Function.update_apply]
    split
    · rw [List.length_append, List.length_singleton]
      exact hroom
    · exact h.triedSize other
  · exact fun nUBucket => (Finset.card_le_card (Finset.erase_subset _ _)).trans (h.newSize nUBucket)
  · have hnTried := h.nTried
    show m.nTried + 1 = ((∑ i, (Function.update m.vvTried nKBucket _ i).length : Nat) : Int)
    omega
  · show m.nTried + 1 + (m.nNew - 1) = _
    omega

/-- The bucket is full: the entry takes the slot of another, which goes back to a new bucket. -/
theorem Inv.evict (h : Inv (fun _ => 0) m) (hinfo : m.mapInfo[nId]? = some info)
    (hflag : info.fInTried = false) (hpromoted : Promoted info info')
    {nKBucket : Fin triedBucketCount} {vTried : List Nat} {pos : Nat}
    (hperm : vTried.Perm (m.vvTried nKBucket)) (hpos : pos < vTried.length)
    (hold : vTried[pos] = nIdOld) (hinfoOld : m.mapInfo[nIdOld]? = some infoOld)
    (hinfoOld' : infoOld' = { infoOld with fInTried := false, nRefCount := 1 })
    {nUBucket : Fin newBucketCount} (hroom : ((m.vvNew nUBucket).erase nId).card < newBucketSize) :
    Inv (fun _ => 0) { m with
      mapInfo := (m.mapInfo.insert nIdOld infoOld').insert nId info'
      vvNew := Function.update (fun nUBucket => (m.vvNew nUBucket).erase nId) nUBucket
        (insert nIdOld ((m.vvNew nUBucket).erase nId))
      nNew := m.nNew - 1 + 1
      vvTried := Function.update m.vvTried nKBucket (vTried.set pos nId) } := by
  have hmem : nIdOld ∈ m.vvTried nKBucket := hperm.mem_iff.mp (hold ▸ List.getElem_mem hpos)
  obtain ⟨entry, hentry, hflagOld, hrefOld, hsuccessOld, htryOld, htriedOld, hnewOld⟩ :=
    (h.placed nIdOld).of_tried (triedCount_pos hmem)
  rw [entryOf_of_getElem? hinfoOld] at hentry
  cases hentry
  have hne : nIdOld ≠ nId := by
    rintro rfl
    rw [hinfo] at hinfoOld
    cases hinfoOld
    exact absurd (hflagOld.symm.trans hflag) (by decide)
  have hget : (m.mapInfo.insert nIdOld infoOld')[nId]? = some info := by
    rw [Map.getElem?_insert_of_ne _ _ hne, hinfo]
  have hposOld : infoOld'.nRandomPos = infoOld.nRandomPos := by rw [hinfoOld']
  have hlength : (vTried.set pos nId).length = (m.vvTried nKBucket).length := by
    rw [List.length_set, hperm.length_eq]
  refine h.move ((h.positions.insert hinfoOld hposOld).insert hget hpromoted.position) rfl rfl rfl
    ?_ ?_ ?_ ?_ ?_ ?_
  · intro other
    show (entryOf ((m.mapInfo.insert nIdOld infoOld').insert nId info') other).map _ = _
    rw [entryOf_insert, entryOf_insert, Function.update_apply, Function.update_apply]
    split
    · next heq =>
      rw [heq, entryOf_of_getElem? hinfo]
      exact congrArg some hpromoted.ip
    · split
      · next heq =>
        rw [heq, entryOf_of_getElem? hinfoOld, hinfoOld']
        rfl
      · rfl
  · intro other
    have htried := triedCount_update m.vvTried other nKBucket (vTried.set pos nId)
    rw [List.count_set hpos, hold, ← hperm.count_eq] at htried
    have hnew := newCount_update (fun nUBucket => (m.vvNew nUBucket).erase nId) other nUBucket
      (insert nIdOld ((m.vvNew nUBucket).erase nId))
    rw [newCount_erase] at hnew
    have hout : nIdOld ∉ m.vvNew nUBucket := notMem_of_newCount_eq hnewOld nUBucket
    show Placed 0 (entryOf ((m.mapInfo.insert nIdOld infoOld').insert nId info') other)
      (triedCount (Function.update m.vvTried _ _) other) (newCount (Function.update _ _ _) other)
    rw [entryOf_insert, entryOf_insert, Function.update_apply, Function.update_apply]
    by_cases heq : other = nId
    · subst heq
      have hzero := ((h.placed_of hinfo).of_flag hflag).1
      have hbeq : (nIdOld == other) = false := beq_false_of_ne hne
      have hself : other ∉ insert nIdOld ((m.vvNew nUBucket).erase other) := by
        rw [Finset.mem_insert, not_or]
        exact ⟨hne.symm, Finset.notMem_erase _ _⟩
      rw [hbeq, if_pos (beq_self_eq_true other)] at htried
      rw [if_neg (Finset.notMem_erase _ _), if_pos rfl, if_neg hself] at hnew
      simp only [Nat.add_zero] at hnew
      rw [if_pos rfl, show triedCount (Function.update m.vvTried nKBucket _) other = 1 by
        simp only [Bool.false_eq_true, if_false] at htried; omega, hnew]
      exact .tried hpromoted.flag hpromoted.ref hpromoted.success hpromoted.lastTry
    · have hbeq : (nId == other) = false := beq_false_of_ne (Ne.symm heq)
      rw [hbeq] at htried
      rw [if_neg heq] at hnew ⊢
      by_cases heqOld : other = nIdOld
      · subst heqOld
        rw [if_neg fun hin => hout (Finset.mem_of_mem_erase hin),
          if_pos (Finset.mem_insert_self _ _), hnewOld] at hnew
        simp only [Nat.add_zero, Nat.zero_add] at hnew
        have hpositive : 0 < vTried.count other := List.count_pos_iff.mpr (hperm.mem_iff.mpr hmem)
        simp only [beq_self_eq_true, Bool.false_eq_true, if_true, if_false] at htried
        rw [if_pos rfl, show triedCount (Function.update m.vvTried nKBucket _) other = 0 by omega,
          hnew, hinfoOld']
        exact .new rfl rfl Nat.one_pos (by decide) (Int.le_of_lt hsuccessOld) htryOld
      · have hbeqOld : (nIdOld == other) = false := beq_false_of_ne (Ne.symm heqOld)
        simp only [hbeqOld, Bool.false_eq_true, if_false] at htried
        rw [if_congr (Finset.mem_insert.trans (or_iff_right heqOld)) rfl rfl] at hnew
        rw [if_neg heqOld, Nat.add_right_cancel hnew,
          show triedCount (Function.update m.vvTried nKBucket _) other = triedCount m.vvTried other
            by omega]
        exact h.placed other
  · intro other
    show (Function.update m.vvTried nKBucket (vTried.set pos nId) other).length ≤ _
    rw [Function.update_apply]
    split
    · rw [hlength]
      exact h.triedSize nKBucket
    · exact h.triedSize other
  · intro other
    show (Function.update (fun nUBucket => (m.vvNew nUBucket).erase nId) nUBucket _ other).card ≤ _
    rw [Function.update_apply]
    split
    · exact (Finset.card_insert_le _ _).trans hroom
    · exact (Finset.card_le_card (Finset.erase_subset _ _)).trans (h.newSize other)
  · have htotal := sum_update m.vvTried List.length nKBucket (vTried.set pos nId)
    rw [hlength] at htotal
    have hnTried := h.nTried
    show m.nTried = ((∑ i, (Function.update m.vvTried nKBucket _ i).length : Nat) : Int)
    omega
  · show m.nTried + (m.nNew - 1 + 1) = _
    omega

theorem require_true_bind {α : Type} {b : Bool} (h : b = true) (e : Exit)
    (f : Unit → Except Exit α) : (require b e >>= f) = f () := by
  rw [h]
  rfl

theorem makeTried_ok (h : Inv (fun _ => 0) m) (env : AddrEnv) (hinfo : m.mapInfo[nId]? = some info)
    (hflag : info.fInTried = false) (hsuccess : 0 < info.nLastSuccess)
    {nOrigin : Fin newBucketCount} (horigin : nId ∈ m.vvNew nOrigin) (rnd : Rand) :
    ∃ m', m.makeTried env info nId nOrigin rnd = .ok m' ∧ Inv (fun _ => 0) m' ∧
      m'.mapAddr = m.mapAddr := by
  obtain ⟨htried, href, -, -, -, htry⟩ := (h.placed_of hinfo).of_flag hflag
  change info.nRefCount = _ at href
  have hzero : info.nRefCount - ((m.holders nId).card : Int) = 0 := by
    rw [href, newCount_eq_card]
    show (((m.holders nId).card + 0 : Nat) : Int) - _ = 0
    omega
  have hpromoted : Promoted info { info with nRefCount := 0, fInTried := true } :=
    ⟨rfl, rfl, rfl, rfl, hsuccess, htry⟩
  unfold CAddrMan.makeTried
  rw [require_true_bind (decide_eq_true horigin)]
  dsimp only
  rw [hzero, require_true_bind (decide_eq_true rfl)]
  split
  · next hroom =>
    rw [insert_insert]
    exact ⟨_, rfl, h.promote hinfo hflag hpromoted hroom, rfl⟩
  · next hfull =>
    generalize env.getTriedBucket _ = nKBucket at hfull ⊢
    have hmembers : ∀ other ∈ m.vvTried nKBucket,
        ∃ info', (m.mapInfo.insert nId { info with nRefCount := 0 })[other]? = some info' := by
      intro other hmem
      obtain ⟨infoOther, hother, -⟩ := h.info_of_tried hmem
      rw [Map.getElem?_insert]
      split
      · exact ⟨_, rfl⟩
      · exact ⟨_, hother⟩
    have hlength : 0 < (m.vvTried nKBucket).length :=
      Nat.lt_of_lt_of_le (by decide) (Nat.le_of_not_lt hfull)
    obtain ⟨vTried, pos, hselect, hperm, hpos⟩ := selectTried_ok (m := { m with
      mapInfo := m.mapInfo.insert nId { info with nRefCount := 0 }
      vvNew := fun nUBucket => (m.vvNew nUBucket).erase nId
      nNew := m.nNew - 1 }) rnd hmembers hlength
    have hmem : vTried[pos] ∈ m.vvTried nKBucket := hperm.mem_iff.mp (List.getElem_mem hpos)
    obtain ⟨infoOld, hinfoOld, hflagOld⟩ := h.info_of_tried hmem
    have hne : nId ≠ vTried[pos] := by
      intro heq
      rw [← heq, hinfo] at hinfoOld
      cases hinfoOld
      exact absurd (hflagOld.symm.trans hflag) (by decide)
    rw [hselect]
    dsimp only [bind, Except.bind]
    rw [Function.update_self, List.getD_eq_getElem _ _ hpos, Map.getElem?_insert_of_ne _ _ hne,
      hinfoOld]
    dsimp only [pure, Except.pure]
    refine ⟨_, rfl, ?_, rfl⟩
    have hinsert : ((m.mapInfo.insert nId { info with nRefCount := 0 }).insert vTried[pos]
          { infoOld with fInTried := false, nRefCount := 1 }).insert nId
          { info with nRefCount := 0, fInTried := true } =
        (m.mapInfo.insert vTried[pos] { infoOld with fInTried := false, nRefCount := 1 }).insert nId
          { info with nRefCount := 0, fInTried := true } := by
      refine Map.ext fun other => ?_
      rw [Map.getElem?_insert, Map.getElem?_insert, Map.getElem?_insert, Map.getElem?_insert,
        Map.getElem?_insert]
      split
      · rfl
      · rfl
    rw [hinsert, Function.update_idem]
    refine h.evict hinfo hflag hpromoted hperm hpos rfl hinfoOld rfl ?_
    -- the bucket of the old entry, or the one that has just lost an id
    split
    · next hroom => exact hroom
    · exact (Finset.card_erase_lt_of_mem horigin).trans_le (h.newSize nOrigin)

end tried

end AddrMan

end NoLimitCoin
