import NoLimitCoin.AddrFile

/-!
# Reading the file of addresses

Results:
1. `Loaded`: what has been made of the part of a file that has been read, with one lemma for each
   step of the loops.
2. `loadNew_run`, `loadTried_run`: the loops over the addresses.
3. `loadBuckets_run`, `loadBuckets_other`: the loop over the new buckets, for a file with as many as
   the table and for one with another number.
-/

namespace NoLimitCoin

namespace AddrMan

open scoped BigOperators

/-! ## The steps -/

/-- The entry at an id: the new ones come first, and count the places that they have. -/
def loadedEntry (vvNew : Fin newBucketCount → Finset Nat) (nNew nId : Nat) (info : StoredInfo) :
    CAddrInfo :=
  { info.entry nId with nRefCount := newCount vvNew nId, fInTried := decide (nNew ≤ nId) }

theorem loadedEntry_nRefCount (vvNew : Fin newBucketCount → Finset Nat) (nNew nId : Nat)
    (info : StoredInfo) : (loadedEntry vvNew nNew nId info).nRefCount = newCount vvNew nId := rfl

/-- What has been made of the new addresses `news` and the tried ones `kept`. -/
structure Loaded (env : AddrEnv) (news kept : List StoredInfo) (m : CAddrMan) : Prop where
  mapInfo : ∀ nId : Nat, m.mapInfo[nId]? =
    (news ++ kept)[nId]?.map (loadedEntry m.vvNew news.length nId)
  mapAddr : ∀ (addr : CNetAddr) (nId : Nat), m.mapAddr[addr]? = some nId ↔
    ∃ info, (news ++ kept)[nId]? = some info ∧ info.service.ip = addr
  vRandom : m.vRandom = List.range (news ++ kept).length
  newIds : ∀ nUBucket, ∀ nId ∈ m.vvNew nUBucket, nId < news.length
  tried : ∀ nKBucket, ∀ nId ∈ m.vvTried nKBucket, ∃ info, (news ++ kept)[nId]? = some info ∧
    env.getTriedBucket (info.entry nId) = nKBucket
  count : ∀ nId, triedCount m.vvTried nId =
    if news.length ≤ nId ∧ nId < (news ++ kept).length then 1 else 0
  triedSize : ∀ nKBucket, (m.vvTried nKBucket).length ≤ triedBucketSize
  triedSum : ∑ nKBucket, (m.vvTried nKBucket).length = kept.length

/-- A step that reads no address. -/
structure SameTried (m m' : CAddrMan) : Prop where
  vvTried : m'.vvTried = m.vvTried
  nNew : m'.nNew = m.nNew
  nTried : m'.nTried = m.nTried
  nIdCount : m'.nIdCount = m.nIdCount

theorem SameTried.refl (m : CAddrMan) : SameTried m m := ⟨rfl, rfl, rfl, rfl⟩

theorem SameTried.trans {m m₁ m' : CAddrMan} (h₁ : SameTried m m₁) (h₂ : SameTried m₁ m') :
    SameTried m m' :=
  ⟨h₂.vvTried.trans h₁.vvTried, h₂.nNew.trans h₁.nNew, h₂.nTried.trans h₁.nTried,
    h₂.nIdCount.trans h₁.nIdCount⟩

namespace Loaded

variable {env : AddrEnv} {news kept : List StoredInfo} {m : CAddrMan} {nId : Nat}
  {info : StoredInfo}

theorem newCount_eq_zero {vvNew : Fin newBucketCount → Finset Nat}
    (h : ∀ nUBucket, nId ∉ vvNew nUBucket) : newCount vvNew nId = 0 :=
  Finset.sum_eq_zero fun nUBucket _ => if_neg (h nUBucket)

theorem newCount_insert {vvNew : Fin newBucketCount → Finset Nat} {nUBucket : Fin newBucketCount}
    (h : nId ∉ vvNew nUBucket) (other : Nat) :
    newCount (Function.update vvNew nUBucket (insert nId (vvNew nUBucket))) other =
      newCount vvNew other + if other = nId then 1 else 0 := by
  have hupdate := newCount_update vvNew other nUBucket (insert nId (vvNew nUBucket))
  by_cases heq : other = nId
  · subst heq
    rw [if_neg h, if_pos (Finset.mem_insert_self _ _), Nat.add_zero] at hupdate
    rw [if_pos rfl]
    exact hupdate
  · simp only [Finset.mem_insert, heq, false_or, if_false] at hupdate ⊢
    omega

theorem newCount_fresh (h : Loaded env news kept m) (hid : news.length ≤ nId) :
    newCount m.vvNew nId = 0 :=
  newCount_eq_zero fun nUBucket hmem => Nat.not_lt.mpr hid (h.newIds nUBucket nId hmem)

theorem empty (nTried nNew : Int) :
    Loaded env [] [] { CAddrMan.empty with nTried := nTried, nNew := nNew } where
  mapInfo nId := by
    rw [List.nil_append, List.getElem?_nil]
    exact Map.getElem?_empty nId
  mapAddr addr nId := by
    show (∅ : Map CNetAddr Nat)[addr]? = some nId ↔ _
    rw [Map.getElem?_empty]
    simp
  vRandom := rfl
  newIds := fun nUBucket nId hmem => absurd hmem (Finset.notMem_empty _)
  tried := fun nKBucket nId hmem => absurd hmem List.not_mem_nil
  count nId := by
    rw [if_neg (by simp)]
    exact Finset.sum_eq_zero fun _ _ => rfl
  triedSize := fun _ => Nat.zero_le _
  triedSum := Finset.sum_eq_zero fun _ _ => rfl

theorem getElem?_concat {l : List StoredInfo} (nId : Nat) :
    (l ++ [info])[nId]? = if l.length = nId then some info else l[nId]? := by
  rcases Nat.lt_trichotomy nId l.length with hlt | rfl | hgt
  · rw [List.getElem?_append_left hlt, if_neg (Nat.ne_of_gt hlt)]
  · rw [List.getElem?_concat_length, if_pos rfl]
  · rw [if_neg (Nat.ne_of_lt hgt), List.getElem?_eq_none (by simp; omega),
      List.getElem?_eq_none (by omega)]

/-- An address that is new to the list gets the next id. -/
theorem mapAddr_concat {l : List StoredInfo} {mapAddr : Map CNetAddr Nat}
    (h : ∀ (addr : CNetAddr) (nId : Nat), mapAddr[addr]? = some nId ↔
      ∃ info, l[nId]? = some info ∧ info.service.ip = addr)
    (hnew : ∀ other ∈ l, other.service.ip ≠ info.service.ip) (addr : CNetAddr) (nId : Nat) :
    (mapAddr.insert info.service.ip l.length)[addr]? = some nId ↔
      ∃ found, (l ++ [info])[nId]? = some found ∧ found.service.ip = addr := by
  rw [Map.getElem?_insert, getElem?_concat]
  by_cases haddr : info.service.ip = addr
  · rw [if_pos haddr]
    constructor
    · intro hid
      obtain rfl := Option.some.inj hid
      exact ⟨info, if_pos rfl, haddr⟩
    · rintro ⟨found, hfound, hip⟩
      by_cases hid : l.length = nId
      · exact congrArg some hid
      · rw [if_neg hid] at hfound
        exact absurd (hip.trans haddr.symm) (hnew found (List.mem_of_getElem? hfound))
  · rw [if_neg haddr, h]
    constructor
    · rintro ⟨found, hfound, hip⟩
      have hlt := (List.getElem?_eq_some_iff.mp hfound).1
      exact ⟨found, by rw [if_neg (Nat.ne_of_gt hlt), hfound], hip⟩
    · rintro ⟨found, hfound, hip⟩
      by_cases hid : l.length = nId
      · rw [if_pos hid] at hfound
        obtain rfl := Option.some.inj hfound
        exact absurd hip haddr
      · rw [if_neg hid] at hfound
        exact ⟨found, hfound, hip⟩

/-- A new address is read. -/
theorem addNew (h : Loaded env news [] m) (nUBuckets : Int)
    (hnew : ∀ other ∈ news, other.service.ip ≠ info.service.ip) :
    Loaded env (news ++ [info]) [] (m.addNew env nUBuckets news.length info) := by
  have hlen : m.vRandom.length = news.length := by rw [h.vRandom]; simp
  have hzero : newCount m.vvNew news.length = 0 := h.newCount_fresh le_rfl
  have hinfo : ∀ nId, m.mapInfo[nId]? = news[nId]?.map (loadedEntry m.vvNew news.length nId) := by
    have hall := h.mapInfo
    rwa [List.append_nil] at hall
  have hentry : ∀ (vvNew : Fin newBucketCount → Finset Nat) (e : CAddrInfo),
      e = loadedEntry vvNew (news ++ [info]).length news.length info →
      (∀ nId, nId ≠ news.length → newCount vvNew nId = newCount m.vvNew nId) →
      ∀ nId, (m.mapInfo.insert news.length e)[nId]? =
        (news ++ [info])[nId]?.map (loadedEntry vvNew (news ++ [info]).length nId) := by
    rintro vvNew e rfl hsame nId
    rw [Map.getElem?_insert, getElem?_concat]
    by_cases hid : news.length = nId
    · rw [if_pos hid, if_pos hid, ← hid]
      rfl
    · rw [if_neg hid, if_neg hid, hinfo]
      cases hget : news[nId]? with
      | none => rw [Option.map_none, Option.map_none]
      | some found =>
        have hlt := (List.getElem?_eq_some_iff.mp hget).1
        refine congrArg some ?_
        rw [loadedEntry, loadedEntry, hsame nId (Ne.symm hid),
          decide_eq_false (Nat.not_le.mpr hlt), decide_eq_false (by simp; omega)]
  have hsum : ∀ nKBucket, (m.vvTried nKBucket).length = 0 := fun nKBucket =>
    Finset.sum_eq_zero_iff.mp h.triedSum nKBucket (Finset.mem_univ _)
  have hempty : ∀ nKBucket, ∀ nId, nId ∉ m.vvTried nKBucket := fun nKBucket nId hmem =>
    absurd (hsum nKBucket) (Nat.ne_of_gt (List.length_pos_of_mem hmem))
  have hcount : ∀ nId, triedCount m.vvTried nId = 0 := fun nId =>
    Finset.sum_eq_zero fun nKBucket _ => List.count_eq_zero_of_not_mem (hempty nKBucket nId)
  have hfalse : ∀ nId, ¬ ((news ++ [info]).length ≤ nId ∧
      nId < (news ++ [info] ++ []).length) := by
    intro nId hboth
    rw [List.append_nil] at hboth
    exact absurd hboth.2 (Nat.not_lt.mpr hboth.1)
  have haddr := @mapAddr_concat info _ _ h.mapAddr (by simpa using hnew)
  rw [List.append_nil] at haddr
  have hlength : m.vRandom ++ [news.length] = List.range (news ++ [info] ++ []).length := by
    rw [h.vRandom, List.append_nil, List.append_nil, List.length_append, List.length_singleton,
      List.range_succ]
  have hids : ∀ nUBucket, ∀ nId ∈ m.vvNew nUBucket, nId < (news ++ [info]).length := by
    intro nUBucket nId hmem
    rw [List.length_append]
    exact (h.newIds nUBucket nId hmem).trans_le (Nat.le_add_right _ _)
  rw [CAddrMan.addNew]
  dsimp only
  rw [hlen]
  by_cases hother : nUBuckets ≠ newBucketCount
  · have hfresh : news.length ∉ m.vvNew (env.getNewBucket (info.entry news.length)
        (info.entry news.length).source) :=
      fun hmem => Nat.lt_irrefl _ (h.newIds _ _ hmem)
    have hcounts := newCount_insert hfresh
    rw [if_pos hother]
    exact {
      mapInfo := fun nId => by
        dsimp only
        rw [insert_insert, List.append_nil]
        refine hentry _ _ ?_ (fun nId hne => ?_) nId
        · rw [loadedEntry, hcounts, hzero, if_pos rfl, decide_eq_false (by simp)]
          rfl
        · rw [hcounts, if_neg hne, Nat.add_zero]
      mapAddr := fun addr nId => by
        rw [List.append_nil]
        exact haddr addr nId
      vRandom := hlength
      newIds := fun nUBucket nId hmem => by
        dsimp only at hmem
        rw [Function.update_apply] at hmem
        split at hmem
        · next heq =>
          rcases Finset.mem_insert.mp hmem with rfl | hmem
          · simp
          · exact hids _ nId hmem
        · exact hids _ nId hmem
      tried := fun nKBucket nId hmem => absurd hmem (hempty nKBucket nId)
      count := fun nId => by
        rw [if_neg (hfalse nId)]
        exact hcount nId
      triedSize := h.triedSize
      triedSum := h.triedSum }
  · rw [if_neg hother]
    exact {
      mapInfo := fun nId => by
        dsimp only
        rw [List.append_nil]
        refine hentry _ _ ?_ (fun nId hne => rfl) nId
        rw [loadedEntry, hzero, decide_eq_false (by simp)]
        rfl
      mapAddr := fun addr nId => by
        rw [List.append_nil]
        exact haddr addr nId
      vRandom := hlength
      newIds := hids
      tried := fun nKBucket nId hmem => absurd hmem (hempty nKBucket nId)
      count := fun nId => by
        rw [if_neg (hfalse nId)]
        exact hcount nId
      triedSize := h.triedSize
      triedSum := h.triedSum }

theorem triedCount_concat (vvTried : Fin triedBucketCount → List Nat)
    (nKBucket : Fin triedBucketCount) (nId other : Nat) :
    triedCount (Function.update vvTried nKBucket (vvTried nKBucket ++ [nId])) other =
      triedCount vvTried other + if other = nId then 1 else 0 := by
  have hupdate := triedCount_update vvTried other nKBucket (vvTried nKBucket ++ [nId])
  rw [List.count_append] at hupdate
  by_cases heq : other = nId
  · rw [heq, List.count_singleton_self] at hupdate
    rw [if_pos heq, heq]
    omega
  · rw [List.count_eq_zero_of_not_mem (l := [nId]) (by simpa using heq)] at hupdate
    rw [if_neg heq]
    omega

/-- A tried address is read, and its bucket has room. -/
theorem addTried (h : Loaded env news kept m) (hid : m.nIdCount = (news ++ kept).length)
    (hnew : ∀ other ∈ news ++ kept, other.service.ip ≠ info.service.ip)
    (hroom : (m.vvTried (env.getTriedBucket (info.entry m.vRandom.length))).length <
      triedBucketSize) : Loaded env news (kept ++ [info]) (m.addTried env info) := by
  have hlen : m.vRandom.length = (news ++ kept).length := by rw [h.vRandom, List.length_range]
  have hge : news.length ≤ (news ++ kept).length := by simp
  have hconcat := triedCount_concat m.vvTried (env.getTriedBucket (info.entry m.vRandom.length))
    m.nIdCount
  have hsum := sum_update m.vvTried List.length
    (env.getTriedBucket (info.entry m.vRandom.length))
    (m.vvTried (env.getTriedBucket (info.entry m.vRandom.length)) ++ [m.nIdCount])
  rw [List.length_append, List.length_singleton] at hsum
  rw [hid] at hconcat
  exact {
    mapInfo := fun nId => by
      rw [CAddrMan.addTried, ← List.append_assoc, getElem?_concat]
      dsimp only
      rw [Map.getElem?_insert, hid, hlen]
      by_cases heq : (news ++ kept).length = nId
      · rw [if_pos heq, if_pos heq, ← heq, Option.map_some, loadedEntry, h.newCount_fresh hge,
          decide_eq_true hge]
        rfl
      · rw [if_neg heq, if_neg heq]
        exact h.mapInfo nId
    mapAddr := fun addr nId => by
      rw [CAddrMan.addTried, ← List.append_assoc]
      dsimp only
      rw [hid]
      exact mapAddr_concat h.mapAddr hnew addr nId
    vRandom := by
      rw [CAddrMan.addTried, ← List.append_assoc, List.length_append, List.length_singleton,
        List.range_succ]
      dsimp only
      rw [h.vRandom, hid]
    newIds := h.newIds
    tried := fun nKBucket nId hmem => by
      rw [CAddrMan.addTried] at hmem
      dsimp only at hmem
      rw [← List.append_assoc, getElem?_concat]
      have hold : ∀ nKBucket, nId ∈ m.vvTried nKBucket →
          ∃ found, (if (news ++ kept).length = nId then some info else (news ++ kept)[nId]?) =
            some found ∧ env.getTriedBucket (found.entry nId) = nKBucket := by
        intro nKBucket hmem
        obtain ⟨found, hfound, hbucket⟩ := h.tried nKBucket nId hmem
        have hlt := (List.getElem?_eq_some_iff.mp hfound).1
        exact ⟨found, by rw [if_neg (Nat.ne_of_gt hlt), hfound], hbucket⟩
      rw [Function.update_apply] at hmem
      split at hmem
      · next heq =>
        rcases List.mem_append.mp hmem with hmem | hmem
        · rw [heq]
          exact hold _ hmem
        · rw [List.mem_singleton.mp hmem, hid, if_pos rfl]
          exact ⟨info, rfl, heq.symm⟩
      · exact hold nKBucket hmem
    count := fun nId => by
      rw [CAddrMan.addTried, ← List.append_assoc, @List.length_append _ (news ++ kept)]
      dsimp only
      rw [hid]
      refine (hconcat nId).trans ?_
      rw [h.count nId, List.length_singleton]
      split_ifs <;> omega
    triedSize := fun nKBucket => by
      rw [CAddrMan.addTried]
      dsimp only
      rw [Function.update_apply]
      split
      · rw [List.length_append]
        exact hroom
      · exact h.triedSize nKBucket
    triedSum := by
      have htotal := h.triedSum
      have hgoal : ∑ nKBucket, (Function.update m.vvTried
          (env.getTriedBucket (info.entry m.vRandom.length))
          (m.vvTried (env.getTriedBucket (info.entry m.vRandom.length)) ++ [m.nIdCount])
          nKBucket).length = (kept ++ [info]).length := by
        rw [List.length_append, List.length_singleton]
        omega
      exact hgoal }

/-- A place of a new address is read. -/
theorem addPlace (h : Loaded env news kept m) {nUBucket : Fin newBucketCount}
    (hid : nId < news.length) (hnot : nId ∉ m.vvNew nUBucket)
    (hmax : newCount m.vvNew nId < newBucketsPerAddress) :
    ∃ m', m.addPlace newBucketCount nUBucket nId = .ok m' ∧ Loaded env news kept m' ∧
      m'.vvNew = Function.update m.vvNew nUBucket (insert nId (m.vvNew nUBucket)) ∧
      SameTried m m' := by
  obtain ⟨stored, hstored⟩ : ∃ stored, news[nId]? = some stored :=
    ⟨_, List.getElem?_eq_getElem hid⟩
  have hget : (news ++ kept)[nId]? = some stored := by
    rw [List.getElem?_append_left hid, hstored]
  have hinfo := h.mapInfo nId
  rw [hget, Option.map_some] at hinfo
  have hcounts := newCount_insert hnot
  have hlt : (loadedEntry m.vvNew news.length nId stored).nRefCount <
      (newBucketsPerAddress : Int) := by
    rw [loadedEntry_nRefCount]
    exact Int.ofNat_lt.mpr hmax
  refine ⟨{ m with
    mapInfo := m.mapInfo.insert nId { loadedEntry m.vvNew news.length nId stored with
      nRefCount := (loadedEntry m.vvNew news.length nId stored).nRefCount + 1 }
    vvNew := Function.update m.vvNew nUBucket (insert nId (m.vvNew nUBucket)) },
    ?_, ?_, rfl, ⟨rfl, rfl, rfl, rfl⟩⟩
  · rw [CAddrMan.addPlace, if_pos (Int.natCast_nonneg nId), Int.toNat_natCast, hinfo]
    dsimp only
    rw [if_pos ⟨rfl, hlt⟩]
  · exact {
      mapInfo := fun other => by
        dsimp only
        rw [Map.getElem?_insert]
        by_cases heq : nId = other
        · rw [if_pos heq, ← heq, hget, Option.map_some, loadedEntry, loadedEntry, hcounts,
            if_pos rfl]
          rfl
        · rw [if_neg heq, h.mapInfo]
          cases (news ++ kept)[other]? with
          | none => rw [Option.map_none, Option.map_none]
          | some found =>
            rw [Option.map_some, Option.map_some, loadedEntry, loadedEntry, hcounts,
              if_neg (Ne.symm heq), Nat.add_zero]
      mapAddr := h.mapAddr
      vRandom := h.vRandom
      newIds := fun other id hmem => by
        dsimp only at hmem
        rw [Function.update_apply] at hmem
        split at hmem
        · rcases Finset.mem_insert.mp hmem with rfl | hmem
          · exact hid
          · exact h.newIds _ id hmem
        · exact h.newIds other id hmem
      tried := h.tried
      count := h.count
      triedSize := h.triedSize
      triedSum := h.triedSum }

end Loaded

/-! ## The loops -/

/-- The buckets of an address that is read. -/
def StoredInfo.newBucket (env : AddrEnv) (info : StoredInfo) : Fin newBucketCount :=
  env.getNewBucket (info.entry 0) info.source

def StoredInfo.triedBucket (env : AddrEnv) (info : StoredInfo) : Fin triedBucketCount :=
  env.getTriedBucket (info.entry 0)

/-- The places of the new addresses before the buckets are read: with another number of buckets each
is in the bucket of its source. -/
def FirstPlaces (env : AddrEnv) (nUBuckets : Int) (news : List StoredInfo)
    (vvNew : Fin newBucketCount → Finset Nat) : Prop :=
  ∀ nUBucket nId, nId ∈ vvNew nUBucket ↔
    nUBuckets ≠ newBucketCount ∧ ∃ info, news[nId]? = some info ∧ info.newBucket env = nUBucket

section loops

variable {env : AddrEnv} {news kept : List StoredInfo} {m : CAddrMan}

theorem addNew_places {nUBuckets : Int} (h : Loaded env news [] m) {info : StoredInfo}
    (hplaces : FirstPlaces env nUBuckets news m.vvNew) :
    FirstPlaces env nUBuckets (news ++ [info])
      (m.addNew env nUBuckets news.length info).vvNew := by
  intro nUBucket nId
  rw [CAddrMan.addNew, Loaded.getElem?_concat]
  dsimp only
  by_cases hother : nUBuckets ≠ newBucketCount
  · have hbucket : env.getNewBucket (info.entry m.vRandom.length)
        (info.entry m.vRandom.length).source = info.newBucket env := rfl
    have hold := hplaces nUBucket nId
    rw [and_iff_right hother] at hold ⊢
    rw [if_pos hother, hbucket]
    dsimp only
    rw [Function.update_apply]
    by_cases hid : news.length = nId
    · rw [if_pos hid]
      have hnot : nId ∉ m.vvNew nUBucket := fun hmem =>
        Nat.lt_irrefl _ (hid ▸ h.newIds nUBucket nId hmem)
      by_cases hsame : nUBucket = info.newBucket env
      · rw [if_pos hsame, hid]
        exact ⟨fun _ => ⟨info, rfl, hsame.symm⟩, fun _ => Finset.mem_insert_self _ _⟩
      · rw [if_neg hsame]
        refine ⟨fun hmem => absurd hmem hnot, ?_⟩
        rintro ⟨found, hfound, hbucket⟩
        obtain rfl := Option.some.inj hfound
        exact absurd hbucket.symm hsame
    · rw [if_neg hid, ← hold]
      by_cases hsame : nUBucket = info.newBucket env
      · rw [if_pos hsame, ← hsame, Finset.mem_insert, or_iff_right (Ne.symm hid)]
      · rw [if_neg hsame]
  · rw [if_neg hother]
    refine (hplaces nUBucket nId).trans ?_
    rw [iff_false_intro hother, false_and, false_and]

theorem addNew_counters (nUBuckets : Int) (n : Nat) (info : StoredInfo) (m : CAddrMan) :
    (m.addNew env nUBuckets n info).nNew = m.nNew ∧
      (m.addNew env nUBuckets n info).nTried = m.nTried := by
  rw [CAddrMan.addNew]
  dsimp only
  split
  · exact ⟨rfl, rfl⟩
  · exact ⟨rfl, rfl⟩

theorem loadNew_run (nUBuckets : Int) {infos : List StoredInfo} (rest : List Field)
    (h : Loaded env news [] m) (hplaces : FirstPlaces env nUBuckets news m.vvNew)
    (hnodup : ((news ++ infos).map fun info => info.service.ip).Nodup) :
    ∃ m', CAddrMan.loadNew env nUBuckets infos.length news.length m
        (infos.map .info ++ rest) = .ok (m', rest) ∧
      Loaded env (news ++ infos) [] m' ∧ FirstPlaces env nUBuckets (news ++ infos) m'.vvNew ∧
      m'.nNew = m.nNew ∧ m'.nTried = m.nTried := by
  induction infos generalizing news m with
  | nil => exact ⟨m, rfl, by rwa [List.append_nil], by rwa [List.append_nil], rfl, rfl⟩
  | cons info infos ih =>
    have hnew : ∀ other ∈ news, other.service.ip ≠ info.service.ip := by
      rw [List.map_append, List.map_cons] at hnodup
      intro other hother heq
      exact (List.nodup_append.mp hnodup).2.2 _ (List.mem_map_of_mem hother) _
        List.mem_cons_self heq
    rw [List.append_cons] at hnodup
    obtain ⟨m', hrun, hloaded, hplaces', hnNew, hnTried⟩ := ih (h.addNew nUBuckets hnew)
      (addNew_places h hplaces) hnodup
    obtain ⟨hcounter, hcounter'⟩ := @addNew_counters env nUBuckets news.length info m
    rw [List.append_cons]
    refine ⟨m', ?_, hloaded, hplaces', hnNew.trans hcounter, hnTried.trans hcounter'⟩
    rw [List.length_append, List.length_singleton] at hrun
    exact hrun

/-- What the loop over the tried addresses leaves. -/
structure TriedRead (env : AddrEnv) (infos kept : List StoredInfo) (m m' : CAddrMan) : Prop where
  sublist : kept.Sublist infos
  vvNew : m'.vvNew = m.vvNew
  nNew : m'.nNew = m.nNew
  nTried : m'.nTried = m.nTried
  nIdCount : m'.nIdCount = m.nIdCount + kept.length
  grows : ∀ nKBucket, (m.vvTried nKBucket).length ≤ (m'.vvTried nKBucket).length
  lost : ∀ info ∈ infos, info ∈ kept ∨
    (m'.vvTried (info.triedBucket env)).length = triedBucketSize
  room : (∀ nKBucket, (m.vvTried nKBucket).length +
    infos.countP (fun info => info.triedBucket env = nKBucket) ≤ triedBucketSize) → kept = infos

theorem loadTried_run {infos : List StoredInfo} (rest : List Field) (nLost : Nat)
    (h : Loaded env news kept m) (hid : m.nIdCount = (news ++ kept).length)
    (hnodup : ((news ++ kept ++ infos).map fun info => info.service.ip).Nodup) :
    ∃ m' kept', CAddrMan.loadTried env infos.length nLost m (infos.map .info ++ rest) =
        .ok (m', nLost + (infos.length - kept'.length), rest) ∧
      Loaded env news (kept ++ kept') m' ∧ TriedRead env infos kept' m m' := by
  induction infos generalizing kept m nLost with
  | nil =>
    refine ⟨m, [], rfl, by rwa [List.append_nil], ?_⟩
    exact ⟨.slnil, rfl, rfl, rfl, rfl, fun _ => le_rfl, fun _ hmem => absurd hmem List.not_mem_nil,
      fun _ => rfl⟩
  | cons info infos ih =>
    have hread : CAddrMan.loadTried env (info :: infos).length nLost m
        ((info :: infos).map .info ++ rest) =
        if (m.vvTried (info.triedBucket env)).length < triedBucketSize then
          CAddrMan.loadTried env infos.length nLost (m.addTried env info)
            (infos.map .info ++ rest)
        else CAddrMan.loadTried env infos.length (nLost + 1) m (infos.map .info ++ rest) := rfl
    rw [hread]
    by_cases hroom : (m.vvTried (info.triedBucket env)).length < triedBucketSize
    · rw [if_pos hroom]
      have hnew : ∀ other ∈ news ++ kept, other.service.ip ≠ info.service.ip := by
        rw [List.map_append, List.map_cons] at hnodup
        intro other hother heq
        exact (List.nodup_append.mp hnodup).2.2 _ (List.mem_map_of_mem hother) _
          List.mem_cons_self heq
      rw [List.append_cons, List.append_assoc news] at hnodup
      obtain ⟨m', kept', hrun, hloaded, hread'⟩ := ih nLost (h.addTried hid hnew hroom)
        (by rw [← List.append_assoc, List.length_append, ← hid]; rfl) hnodup
      have hle := hread'.sublist.length_le
      refine ⟨m', info :: kept', ?_, by rwa [List.append_cons], ?_⟩
      · rw [hrun, List.length_cons, List.length_cons, Nat.add_sub_add_right]
      · have hsize : ∀ nKBucket, ((m.addTried env info).vvTried nKBucket).length =
            (m.vvTried nKBucket).length + if info.triedBucket env = nKBucket then 1 else 0 := by
          intro nKBucket
          show (Function.update m.vvTried (info.triedBucket env)
            (m.vvTried (info.triedBucket env) ++ [m.nIdCount]) nKBucket).length = _
          rw [Function.update_apply]
          by_cases heq : nKBucket = info.triedBucket env
          · rw [if_pos heq, if_pos heq.symm, heq, List.length_append, List.length_singleton]
          · rw [if_neg heq, if_neg (Ne.symm heq), Nat.add_zero]
        exact {
          sublist := hread'.sublist.cons_cons info
          vvNew := hread'.vvNew
          nNew := hread'.nNew
          nTried := hread'.nTried
          nIdCount := by
            rw [hread'.nIdCount, List.length_cons, Nat.add_comm kept'.length, ← Nat.add_assoc]
            rfl
          grows := fun nKBucket => (hsize nKBucket ▸ Nat.le_add_right _ _ :
            (m.vvTried nKBucket).length ≤ _).trans (hread'.grows nKBucket)
          lost := fun other hother => by
            rcases List.mem_cons.mp hother with rfl | hother
            · exact .inl List.mem_cons_self
            · exact (hread'.lost other hother).imp_left (List.mem_cons_of_mem _)
          room := fun hfits => by
            rw [hread'.room fun nKBucket => ?_]
            have hle := hfits nKBucket
            rw [List.countP_cons] at hle
            rw [hsize]
            simp only [decide_eq_true_eq] at hle
            omega }
    · rw [if_neg hroom]
      have hsub : ((news ++ kept ++ infos).map fun info => info.service.ip).Nodup :=
        hnodup.sublist (((List.sublist_cons_self info infos).append_left _).map _)
      obtain ⟨m', kept', hrun, hloaded, hread'⟩ := ih (nLost + 1) h hid hsub
      have hle := hread'.sublist.length_le
      have hfull : (m.vvTried (info.triedBucket env)).length = triedBucketSize :=
        Nat.le_antisymm (h.triedSize _) (Nat.le_of_not_lt hroom)
      refine ⟨m', kept', ?_, hloaded, ?_⟩
      · rw [hrun, List.length_cons]
        have harith : nLost + 1 + (infos.length - kept'.length) =
            nLost + (infos.length + 1 - kept'.length) := by omega
        rw [harith]
      · exact {
          sublist := hread'.sublist.cons info
          vvNew := hread'.vvNew
          nNew := hread'.nNew
          nTried := hread'.nTried
          nIdCount := hread'.nIdCount
          grows := hread'.grows
          lost := fun other hother => by
            rcases List.mem_cons.mp hother with rfl | hother
            · refine .inr (Nat.le_antisymm (hloaded.triedSize _) ?_)
              exact hfull.symm.le.trans (hread'.grows _)
            · exact hread'.lost other hother
          room := fun hfits => by
            have hle := hfits (info.triedBucket env)
            rw [List.countP_cons_of_pos (by simp), hfull] at hle
            omega }

/-- The places of a new bucket are read, each once. -/
theorem loadPlaces_run {nUBucket : Fin newBucketCount} {todo : List Nat} (rest : List Field)
    (h : Loaded env news kept m) (hnodup : todo.Nodup)
    (htodo : ∀ n ∈ todo, n < news.length ∧ n ∉ m.vvNew nUBucket ∧
      newCount m.vvNew n < newBucketsPerAddress) :
    ∃ m', CAddrMan.loadPlaces newBucketCount nUBucket todo.length m
        (todo.map (fun n : Nat => .int (n : Int)) ++ rest) = .ok (m', rest) ∧
      Loaded env news kept m' ∧
      (∀ other n, n ∈ m'.vvNew other ↔ n ∈ m.vvNew other ∨ other = nUBucket ∧ n ∈ todo) ∧
      (∀ n, newCount m'.vvNew n = newCount m.vvNew n + if n ∈ todo then 1 else 0) ∧
      SameTried m m' := by
  induction todo generalizing m with
  | nil => exact ⟨m, rfl, h, by simp, by simp, .refl m⟩
  | cons n todo ih =>
    rw [List.nodup_cons] at hnodup
    rw [List.forall_mem_cons] at htodo
    obtain ⟨⟨hid, hnot, hmax⟩, htodo⟩ := htodo
    obtain ⟨m₁, hplace, hloaded₁, hvvNew, hsame₁⟩ := h.addPlace hid hnot hmax
    have hcounts : ∀ other, newCount m₁.vvNew other =
        newCount m.vvNew other + if other = n then 1 else 0 := by
      rw [hvvNew]
      exact Loaded.newCount_insert hnot
    have hmem : ∀ other id, id ∈ m₁.vvNew other ↔
        id ∈ m.vvNew other ∨ other = nUBucket ∧ id = n := by
      intro other id
      rw [hvvNew, Function.update_apply]
      by_cases heq : other = nUBucket
      · rw [if_pos heq, heq, Finset.mem_insert, and_iff_right rfl]
        exact or_comm
      · rw [if_neg heq]
        exact ⟨.inl, fun hor => hor.resolve_right fun hboth => heq hboth.1⟩
    obtain ⟨m', hrun, hloaded', hmem', hcounts', hsame'⟩ :=
      ih hloaded₁ hnodup.2 fun other hother => by
        obtain ⟨hid', hnot', hmax'⟩ := htodo other hother
        have hne : other ≠ n := fun heq => hnodup.1 (heq ▸ hother)
        refine ⟨hid', fun hin => ?_, by rw [hcounts, if_neg hne, Nat.add_zero]; exact hmax'⟩
        rcases (hmem nUBucket other).mp hin with hin | ⟨-, heq⟩
        · exact hnot' hin
        · exact hne heq
    refine ⟨m', ?_, hloaded', fun other id => ?_, fun other => ?_, hsame₁.trans hsame'⟩
    · have hstep : CAddrMan.loadPlaces newBucketCount nUBucket (n :: todo).length m
          ((n :: todo).map (fun n : Nat => .int (n : Int)) ++ rest) =
          (m.addPlace newBucketCount nUBucket n >>= fun m =>
            CAddrMan.loadPlaces newBucketCount nUBucket todo.length m
              (todo.map (fun n : Nat => .int (n : Int)) ++ rest)) := rfl
      rw [hstep, hplace]
      exact hrun
    · rw [hmem', hmem, List.mem_cons, and_or_left, or_assoc]
    · rw [hcounts', hcounts]
      by_cases heq : other = n
      · rw [heq, if_pos rfl, if_neg hnodup.1, if_pos List.mem_cons_self]
      · simp only [List.mem_cons, heq, false_or, if_false, Nat.add_zero]

theorem loadBuckets_cons (nUBuckets : Int) {b : Nat} (hb : b < newBucketCount)
    (bucket : List Nat) (buckets : List (List Nat)) (m : CAddrMan) (rest : List Field) :
    CAddrMan.loadBuckets nUBuckets (bucket :: buckets).length b m
        ((bucket :: buckets).flatMap AddrFile.writePlaces ++ rest) =
      (CAddrMan.loadPlaces nUBuckets ⟨b, hb⟩ bucket.length m
        (bucket.map (fun n : Nat => .int (n : Int)) ++
          (buckets.flatMap AddrFile.writePlaces ++ rest)) >>= fun r =>
        CAddrMan.loadBuckets nUBuckets buckets.length (b + 1) r.1 r.2) := by
  rw [List.length_cons, CAddrMan.loadBuckets, dif_pos hb, List.flatMap_cons,
    AddrFile.writePlaces, List.append_assoc, List.cons_append]
  rfl

/-- The buckets of a file with as many as the table are taken as they are. -/
theorem loadBuckets_run {b : Nat} {buckets : List (List Nat)} (rest : List Field)
    (h : Loaded env news kept m) (hlen : b + buckets.length ≤ newBucketCount)
    (hbuckets : ∀ bucket ∈ buckets, bucket.Nodup ∧ ∀ n ∈ bucket, n < news.length)
    (hempty : ∀ nUBucket : Fin newBucketCount, b ≤ nUBucket → ∀ n, n ∉ m.vvNew nUBucket)
    (hmax : ∀ n, newCount m.vvNew n + buckets.countP (n ∈ ·) ≤ newBucketsPerAddress) :
    ∃ m', CAddrMan.loadBuckets newBucketCount buckets.length b m
        (buckets.flatMap AddrFile.writePlaces ++ rest) = .ok (m', rest) ∧
      Loaded env news kept m' ∧
      (∀ (nUBucket : Fin newBucketCount) n, n ∈ m'.vvNew nUBucket ↔ n ∈ m.vvNew nUBucket ∨
        b ≤ nUBucket ∧ ∃ bucket, buckets[nUBucket - b]? = some bucket ∧ n ∈ bucket) ∧
      (∀ n, newCount m'.vvNew n = newCount m.vvNew n + buckets.countP (n ∈ ·)) ∧
      SameTried m m' := by
  induction buckets generalizing b m with
  | nil => exact ⟨m, rfl, h, by simp, by simp, .refl m⟩
  | cons bucket buckets ih =>
    rw [List.forall_mem_cons] at hbuckets
    rw [List.length_cons] at hlen
    have hb : b < newBucketCount := by omega
    have hcountP : ∀ n, (bucket :: buckets).countP (n ∈ ·) =
        buckets.countP (n ∈ ·) + if n ∈ bucket then 1 else 0 := by
      intro n
      rw [List.countP_cons]
      simp only [decide_eq_true_eq]
    obtain ⟨m₁, hplaces, hloaded₁, hmem₁, hcounts₁, hsame₁⟩ :=
      loadPlaces_run (buckets.flatMap AddrFile.writePlaces ++ rest) h hbuckets.1.1
        (fun n hn => ⟨hbuckets.1.2 n hn, hempty ⟨b, hb⟩ le_rfl n, by
          have hle := hmax n
          rw [hcountP, if_pos hn] at hle
          omega⟩)
    obtain ⟨m', hrun, hloaded', hmem', hcounts', hsame'⟩ :=
      @ih m₁ (b + 1) hloaded₁ (by omega) hbuckets.2 (fun nUBucket hle n hin => by
          rcases (hmem₁ nUBucket n).mp hin with hin | ⟨heq, -⟩
          · exact hempty nUBucket (by omega) n hin
          · rw [heq] at hle
            exact absurd hle (Nat.not_succ_le_self b))
        (fun n => by
          have hle := hmax n
          rw [hcountP] at hle
          rw [hcounts₁]
          omega)
    refine ⟨m', ?_, hloaded', fun nUBucket n => ?_, fun n => ?_, hsame₁.trans hsame'⟩
    · rw [loadBuckets_cons _ hb, hplaces]
      exact hrun
    · rw [hmem', hmem₁, or_assoc]
      refine or_congr_right ?_
      by_cases heq : nUBucket = ⟨b, hb⟩
      · have hval : (nUBucket : Nat) = b := by rw [heq]
        rw [hval, Nat.sub_self, List.getElem?_cons_zero, and_iff_right heq]
        constructor
        · rintro (hn | ⟨hle, -⟩)
          · exact ⟨le_rfl, bucket, rfl, hn⟩
          · exact absurd hle (Nat.not_succ_le_self b)
        · rintro ⟨-, found, hfound, hn⟩
          obtain rfl := Option.some.inj hfound
          exact .inl hn
      · have hval : (nUBucket : Nat) ≠ b := fun hval => heq (Fin.ext hval)
        rw [iff_false_intro heq, false_and, false_or]
        by_cases hle : b ≤ nUBucket
        · obtain ⟨k, hk⟩ : ∃ k, (nUBucket : Nat) - b = k + 1 :=
            ⟨nUBucket - b - 1, by omega⟩
          have hk' : (nUBucket : Nat) - (b + 1) = k := by omega
          rw [hk, hk', List.getElem?_cons_succ, and_iff_right hle,
            and_iff_right (show b + 1 ≤ (nUBucket : Nat) by omega)]
        · rw [iff_false_intro hle, false_and,
            iff_false_intro (show ¬ b + 1 ≤ (nUBucket : Nat) by omega), false_and]
    · rw [hcounts', hcounts₁, hcountP]
      omega

/-- The places of a file with another number of buckets are passed over. -/
theorem loadPlaces_other {nUBuckets : Int} (hother : nUBuckets ≠ newBucketCount)
    (nUBucket : Fin newBucketCount) {bucket : List Nat} (rest : List Field)
    (h : Loaded env news kept m) (hbucket : ∀ n ∈ bucket, n < news.length) :
    CAddrMan.loadPlaces nUBuckets nUBucket bucket.length m
      (bucket.map (fun n : Nat => .int (n : Int)) ++ rest) = .ok (m, rest) := by
  induction bucket with
  | nil => rfl
  | cons n bucket ih =>
    rw [List.forall_mem_cons] at hbucket
    have hplace : m.addPlace nUBuckets nUBucket n = .ok m := by
      have hinfo := h.mapInfo n
      rw [List.getElem?_append_left hbucket.1, List.getElem?_eq_getElem hbucket.1,
        Option.map_some] at hinfo
      rw [CAddrMan.addPlace, if_pos (Int.natCast_nonneg n), Int.toNat_natCast, hinfo]
      dsimp only
      rw [if_neg fun hboth => hother hboth.1]
    have hstep : CAddrMan.loadPlaces nUBuckets nUBucket (n :: bucket).length m
        ((n :: bucket).map (fun n : Nat => .int (n : Int)) ++ rest) =
        (m.addPlace nUBuckets nUBucket n >>= fun m =>
          CAddrMan.loadPlaces nUBuckets nUBucket bucket.length m
            (bucket.map (fun n : Nat => .int (n : Int)) ++ rest)) := rfl
    rw [hstep, hplace]
    exact ih hbucket.2

/-- The buckets of a file with another number of them are passed over, up to the end of the
table. -/
theorem loadBuckets_other {nUBuckets : Int} (hother : nUBuckets ≠ newBucketCount) {b : Nat}
    {buckets : List (List Nat)} (rest : List Field) (h : Loaded env news kept m)
    (hbuckets : ∀ bucket ∈ buckets, ∀ n ∈ bucket, n < news.length) :
    CAddrMan.loadBuckets nUBuckets buckets.length b m
        (buckets.flatMap AddrFile.writePlaces ++ rest) =
      if b + buckets.length ≤ newBucketCount ∨ buckets = [] then .ok (m, rest)
      else .error (.abort "vvNew[b]") := by
  induction buckets generalizing b with
  | nil => rw [if_pos (.inr rfl)]; rfl
  | cons bucket buckets ih =>
    rw [List.forall_mem_cons] at hbuckets
    by_cases hb : b < newBucketCount
    · rw [loadBuckets_cons _ hb, loadPlaces_other hother _ _ h hbuckets.1]
      refine (@ih (b + 1) hbuckets.2).trans (if_congr ?_ rfl rfl)
      cases buckets with
      | nil =>
        rw [List.length_singleton]
        exact iff_of_true (.inr rfl) (.inl hb)
      | cons next buckets =>
        simp only [or_iff_left (List.cons_ne_nil _ _), List.length_cons]
        omega
    · rw [List.length_cons, CAddrMan.loadBuckets, dif_neg hb, if_neg]
      rintro (hle | hnil)
      · omega
      · cases hnil

end loops

end AddrMan

end NoLimitCoin
