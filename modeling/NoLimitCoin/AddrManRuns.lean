import NoLimitCoin.AddrManIndexes

/-!
# Runs of the address manager

Results:

1. `good_ok`, `getAddr_ok`: the calls that are left keep the invariant.
2. `Consistent.check_eq`: then `Check_` returns 0, whatever the sizes of the buckets.
3. `addrMan_consistent`: so it does after every call, and only a full bucket costs an address.
-/

namespace NoLimitCoin

namespace AddrMan

open scoped BigOperators

/-! ## The calls that are left -/

section calls

variable {m : CAddrMan}

theorem good_ok (h : Inv (fun _ => 0) m) (env : AddrEnv) (addr : CService) {nTime : Int}
    (hTime : 0 < nTime) (rnd : Rand) :
    ∃ m', m.good env addr nTime rnd = .ok m' ∧ Inv (fun _ => 0) m' ∧ m'.mapAddr = m.mapAddr := by
  unfold CAddrMan.good
  split
  · exact ⟨m, rfl, h, rfl⟩
  · next nId info hfind =>
    obtain ⟨hinfo, -⟩ := h.find_eq_some hfind
    split
    · exact ⟨m, rfl, h, rfl⟩
    · have hset : Inv (fun _ => 0) (m.setInfo nId { info with
          nLastSuccess := nTime
          nLastTry := nTime
          nTime := toUint32 nTime
          nAttempts := 0 }) :=
        h.setFields hinfo rfl rfl rfl rfl (.inr hTime) fun _ => Int.le_of_lt hTime
      dsimp only
      split
      · exact ⟨_, rfl, hset, rfl⟩
      · next hflag =>
        split
        · exact ⟨_, rfl, hset, rfl⟩
        · next nUBucket hbucket =>
          have hmem := List.find?_some hbucket
          have hget : (m.mapInfo.insert nId { info with
              nLastSuccess := nTime
              nLastTry := nTime
              nTime := toUint32 nTime
              nAttempts := 0 })[nId]? = some { info with
              nLastSuccess := nTime
              nLastTry := nTime
              nTime := toUint32 nTime
              nAttempts := 0 } := by
            rw [Map.getElem?_insert, if_pos rfl]
          exact makeTried_ok hset env hget (Bool.eq_false_iff.mpr hflag) hTime
            (of_decide_eq_true hmem) _

theorem attempt_ok (h : Inv (fun _ => 0) m) (addr : CService) {nTime : Int} (hTime : 0 ≤ nTime) :
    Inv (fun _ => 0) (m.attempt addr nTime) ∧ (m.attempt addr nTime).mapAddr = m.mapAddr := by
  unfold CAddrMan.attempt
  split
  · exact ⟨h, rfl⟩
  · next nId info hfind =>
    obtain ⟨hinfo, -⟩ := h.find_eq_some hfind
    split
    · exact ⟨h, rfl⟩
    · exact ⟨h.setFields hinfo rfl rfl rfl rfl (.inl rfl) fun _ => hTime, rfl⟩

theorem connected_ok (h : Inv (fun _ => 0) m) (addr : CService) (nTime : Int) :
    Inv (fun _ => 0) (m.connected addr nTime) ∧ (m.connected addr nTime).mapAddr = m.mapAddr := by
  unfold CAddrMan.connected
  split
  · exact ⟨h, rfl⟩
  · next nId info hfind =>
    obtain ⟨hinfo, -⟩ := h.find_eq_some hfind
    split
    · exact ⟨h, rfl⟩
    · split
      · exact ⟨h.setFields hinfo rfl rfl rfl rfl (.inl rfl) id, rfl⟩
      · exact ⟨h, rfl⟩

theorem select_ok (h : Inv (fun _ => 0) m) (rounds : List CAddrMan.Round) :
    ∃ found, m.select rounds = .ok found := by
  induction rounds with
  | nil => exact ⟨none, rfl⟩
  | cons round rounds ih =>
    unfold CAddrMan.select
    dsimp only
    split
    · exact ih
    · next nId hget =>
      have hinfo : ∃ info, m.mapInfo[nId]? = some info := by
        have hmem := List.mem_of_getElem? hget
        split at hmem
        · obtain ⟨info, hinfo, -⟩ := h.info_of_tried hmem
          exact ⟨info, hinfo⟩
        · obtain ⟨info, hinfo, -⟩ := h.info_of_new ((Finset.mem_sort _).mp hmem)
          exact ⟨info, hinfo⟩
      obtain ⟨info, hinfo⟩ := hinfo
      rw [hinfo]
      dsimp only
      split
      · exact ⟨some info, rfl⟩
      · exact ih

theorem Inv.swap (h : Inv (fun _ => 0) m) {pos₁ pos₂ : Nat} (h₁ : pos₁ < m.vRandom.length)
    (h₂ : pos₂ < m.vRandom.length) :
    ∃ m', m.swapRandom pos₁ pos₂ = .ok m' ∧ Inv (fun _ => 0) m' ∧ m'.mapAddr = m.mapAddr ∧
      m'.vRandom.length = m.vRandom.length := by
  obtain ⟨mapInfo', vRandom', hswap, hentry, hpositions, hlength, -⟩ :=
    swapRandom_ok pos₁ pos₂ h.positions h₁ h₂
  refine ⟨_, hswap, ?_, rfl, hlength⟩
  refine h.move hpositions hlength rfl rfl (fun nId => ?_) (fun nId => ?_) h.triedSize h.newSize
    h.nTried rfl
  · show (entryOf mapInfo' nId).map _ = _
    rw [hentry]
  · show Placed 0 (entryOf mapInfo' nId) (triedCount m.vvTried nId) (newCount m.vvNew nId)
    rw [hentry]
    exact h.placed nId

theorem getAddrLoop_ok (rnd : Rand) (rounds n : Nat) (vAddr : List CAddrInfo)
    (h : Inv (fun _ => 0) m) (hlength : n + rounds ≤ m.vRandom.length) :
    ∃ m' vAddr', CAddrMan.getAddrLoop rnd rounds n m vAddr = .ok (m', vAddr') ∧
      Inv (fun _ => 0) m' ∧ m'.mapAddr = m.mapAddr := by
  induction rounds generalizing n m vAddr with
  | zero => exact ⟨m, vAddr, rfl, h, rfl⟩
  | succ rounds ih =>
    have hn : n < m.vRandom.length := by omega
    have hpos : getRandInt (rnd n) (m.vRandom.length - n) + n < m.vRandom.length := by
      have hlt := getRandInt_lt (rnd n) (Nat.sub_pos_of_lt hn)
      omega
    obtain ⟨m₁, hswap, hinv, haddr, hlength₁⟩ := h.swap hn hpos
    have hget := List.getElem?_eq_getElem (hlength₁ ▸ hn)
    obtain ⟨info, hinfo, -⟩ := hinv.positions.info hget
    obtain ⟨m', vAddr', hrun, hinv', haddr'⟩ :=
      ih (n + 1) (vAddr ++ [info]) hinv (by rw [hlength₁]; omega)
    refine ⟨m', vAddr', ?_, hinv', haddr'.trans haddr⟩
    unfold CAddrMan.getAddrLoop
    dsimp only
    rw [hswap]
    dsimp only [bind, Except.bind]
    rw [hget, Option.bind_some, hinfo]
    exact hrun

theorem getAddr_ok (h : Inv (fun _ => 0) m) (rnd : Rand) :
    ∃ m' vAddr, m.getAddr rnd = .ok (m', vAddr) ∧ Inv (fun _ => 0) m' ∧
      m'.mapAddr = m.mapAddr := by
  refine getAddrLoop_ok rnd _ 0 [] h ?_
  rw [Nat.zero_add]
  refine (Nat.min_le_left _ _).trans ((Nat.div_le_div_right (c := 100) ?_).trans_eq
    (Nat.mul_div_cancel_left m.vRandom.length (by decide : 0 < 100)))
  exact Nat.mul_le_mul_right _ (by decide)

end calls

/-! ## `Check_` -/

section check

variable {m : CAddrMan}

/-- What `Check_` looks at: the indexes agree, whatever the sizes of the buckets. -/
structure Consistent (m : CAddrMan) : Prop where
  positions : Positions m.mapInfo m.vRandom
  addresses : ∀ addr nId, m.mapAddr[addr]? = some nId ↔
    ∃ info, entryOf m.mapInfo nId = some info ∧ info.service.ip = addr
  placed : ∀ nId, Placed 0 (entryOf m.mapInfo nId) (triedCount m.vvTried nId)
    (newCount m.vvNew nId)
  nTried : m.nTried = (∑ nKBucket, (m.vvTried nKBucket).length : Nat)
  size : (m.vRandom.length : Int) = m.nTried + m.nNew

theorem Inv.consistent (h : Inv (fun _ => 0) m) : Consistent m :=
  ⟨h.positions, h.addresses, h.placed, h.nTried, h.size⟩

theorem Consistent.placed_of (h : Consistent m) {nId : Nat} {info : CAddrInfo}
    (hinfo : m.mapInfo[nId]? = some info) :
    Placed 0 (some info.forget) (triedCount m.vvTried nId) (newCount m.vvNew nId) := by
  rw [← entryOf_of_getElem? hinfo]
  exact h.placed nId

theorem checkInfo_eq (h : Consistent m) {nId : Nat} {info : CAddrInfo}
    (hinfo : m.mapInfo[nId]? = some info) : m.checkInfo nId info = none := by
  have haddr : m.mapAddr[info.service.ip]? = some nId :=
    (h.addresses _ nId).mpr ⟨_, entryOf_of_getElem? hinfo, rfl⟩
  have hrandom := h.positions.getElem? hinfo
  unfold CAddrMan.checkInfo
  rw [haddr, hrandom]
  have hplaced := h.placed_of hinfo
  generalize triedCount m.vvTried nId = nTried at hplaced
  generalize newCount m.vvNew nId = nNew at hplaced
  cases hplaced with
  | tried hflag href hsuccess htry =>
    change info.fInTried = true at hflag
    change info.nRefCount = 0 at href
    change 0 < info.nLastSuccess at hsuccess
    change 0 ≤ info.nLastTry at htry
    simp only [hflag, href, Bool.true_and, decide_eq_true_eq, ne_eq, not_true_eq_false,
      decide_false, Bool.not_true, Bool.false_and, Bool.false_eq_true, if_false, Option.getD_some,
      if_neg (Int.ne_of_gt hsuccess), if_neg (Int.not_lt.mpr htry),
      if_neg (Int.not_lt.mpr (Int.le_of_lt hsuccess))]
  | new hflag href hpos hmax hsuccess htry =>
    change info.fInTried = false at hflag
    change info.nRefCount = _ at href
    change 0 ≤ info.nLastSuccess at hsuccess
    change 0 ≤ info.nLastTry at htry
    have hnonneg : ¬ info.nRefCount < 0 := by omega
    have hle : ¬ info.nRefCount > newBucketsPerAddress := by omega
    have hne : ¬ info.nRefCount = 0 := by omega
    simp only [hflag, Bool.false_and, Bool.not_false, Bool.true_and, ne_eq, not_true_eq_false,
      Bool.false_eq_true, if_false, Option.getD_some, hnonneg, hle, hne,
      decide_false, Bool.or_false, if_neg (Int.not_lt.mpr htry), if_neg (Int.not_lt.mpr hsuccess)]

/-- Entries that are all there once are all crossed off. -/
theorem checkTried_eq {ids : List Nat} {setTried : Finset Nat} (hnodup : ids.Nodup)
    (hmem : ∀ nId ∈ ids, nId ∈ setTried) :
    CAddrMan.checkTried ids setTried = .ok (setTried \ ids.toFinset) := by
  induction ids generalizing setTried with
  | nil =>
    rw [List.toFinset_nil, Finset.sdiff_empty]
    rfl
  | cons nId ids ih =>
    rw [List.nodup_cons] at hnodup
    rw [List.forall_mem_cons] at hmem
    unfold CAddrMan.checkTried
    have hrest : ∀ other ∈ ids, other ∈ setTried.erase nId := by
      intro other hother
      refine Finset.mem_erase.mpr ⟨?_, hmem.2 other hother⟩
      rintro rfl
      exact hnodup.1 hother
    rw [if_neg (not_not.mpr hmem.1), ih hnodup.2 hrest]
    rw [List.toFinset_cons, Finset.sdiff_insert, Finset.erase_sdiff_comm]

/-- Counts that are exact are all counted down. -/
theorem checkNew_eq {ids : List Nat} {mapNew : Map Nat Int}
    (hcount : ∀ nId, mapNew[nId]? =
      if ids.count nId = 0 then none else some (ids.count nId : Int)) :
    CAddrMan.checkNew ids mapNew = .ok ∅ := by
  induction ids generalizing mapNew with
  | nil =>
    have hempty : mapNew = ∅ := Map.ext fun nId => by
      rw [hcount, List.count_nil, if_pos rfl, Map.getElem?_empty]
    rw [hempty]
    rfl
  | cons first ids ih =>
    unfold CAddrMan.checkNew
    have hfirst := hcount first
    rw [List.count_cons_self, if_neg (Nat.succ_ne_zero _)] at hfirst
    rw [hfirst]
    dsimp only
    refine ih fun nId => ?_
    have hnId := hcount nId
    rw [List.count_cons] at hnId
    by_cases heq : first = nId
    · subst heq
      split
      · rw [Map.getElem?_erase, if_pos rfl, if_pos (by omega)]
      · rw [Map.getElem?_insert, if_pos rfl, if_neg (by omega)]
        exact congrArg some (by omega)
    · rw [beq_false_of_ne heq] at hnId
      simp only [Bool.false_eq_true, if_false, Nat.add_zero] at hnId
      split
      · rw [Map.getElem?_erase, if_neg heq, hnId]
      · rw [Map.getElem?_insert, if_neg heq, hnId]

/-- What is inserted for distinct keys is that many bindings. -/
theorem size_foldl_insert {V W : Type} {l : List (Nat × V)} {f : Nat × V → W} (map : Map Nat W)
    (hdistinct : l.Pairwise fun a b => a.1 ≠ b.1) (hnew : ∀ item ∈ l, map[item.1]? = none) :
    (l.foldl (fun map item => map.insert item.1 (f item)) map).size = map.size + l.length := by
  induction l generalizing map with
  | nil => rfl
  | cons first l ih =>
    rw [List.pairwise_cons] at hdistinct
    rw [List.forall_mem_cons] at hnew
    have hsize : (map.insert first.1 (f first)).size = map.size + 1 := by
      rw [Std.ExtTreeMap.size_insert,
        if_neg (Bool.eq_false_iff.mp ((Map.contains_eq_false_iff _ _).mpr hnew.1))]
    rw [List.foldl_cons, ih _ hdistinct.2 fun item hitem => ?_, hsize, List.length_cons]
    · omega
    · rw [Map.getElem?_insert_of_ne _ _ (hdistinct.1 item hitem)]
      exact hnew.2 item hitem

theorem count_triedEntries (m : CAddrMan) (nId : Nat) :
    m.triedEntries.count nId = triedCount m.vvTried nId := by
  unfold CAddrMan.triedEntries triedCount
  rw [List.count_flatMap, Fin.sum_univ_def]
  rfl

theorem length_triedEntries (m : CAddrMan) :
    m.triedEntries.length = ∑ nKBucket, (m.vvTried nKBucket).length := by
  unfold CAddrMan.triedEntries
  rw [List.length_flatMap, Fin.sum_univ_def]

theorem count_newEntries (m : CAddrMan) (nId : Nat) :
    m.newEntries.count nId = newCount m.vvNew nId := by
  unfold CAddrMan.newEntries newCount
  rw [List.count_flatMap, Fin.sum_univ_def]
  refine congrArg List.sum (List.map_congr_left fun nUBucket _ => ?_)
  rw [Function.comp_apply, (Finset.sort_nodup _ _).count]
  exact if_congr (Finset.mem_sort _) rfl rfl

/-- The tried ids, from the entries and from the buckets. -/
theorem setTried_eq (h : Consistent m) :
    ((m.mapInfo.toList.filter fun item => item.2.fInTried).map (·.1)).toFinset =
      m.triedEntries.toFinset := by
  ext nId
  rw [List.mem_toFinset, List.mem_toFinset, List.mem_map, ← List.count_pos_iff, count_triedEntries]
  constructor
  · rintro ⟨⟨nId', info⟩, hmem, rfl⟩
    obtain ⟨hitem, hflag⟩ := List.mem_filter.mp hmem
    have hinfo := (Map.mem_toList _ _ _).mp hitem
    cases hplaced : triedCount m.vvTried nId' with
    | succ _ => exact Nat.succ_pos _
    | zero =>
      have hzero := h.placed_of hinfo
      rw [hplaced] at hzero
      cases hzero with
      | new hnot => exact absurd (hflag.symm.trans hnot) (by decide)
  · intro hpos
    obtain ⟨entry, hentry, hflag, -⟩ := (h.placed nId).of_tried hpos
    obtain ⟨info, hinfo, rfl⟩ := exists_of_entryOf hentry
    exact ⟨(nId, info), List.mem_filter.mpr ⟨(Map.mem_toList _ _ _).mpr hinfo, hflag⟩, rfl⟩

theorem nodup_triedEntries (h : Consistent m) : m.triedEntries.Nodup := by
  refine List.nodup_iff_count_le_one.mpr fun nId => ?_
  rw [count_triedEntries]
  cases hcount : triedCount m.vvTried nId with
  | zero => exact Nat.zero_le _
  | succ n =>
    obtain ⟨_, _, _, _, _, _, hone, _⟩ := (h.placed nId).of_tried (hcount ▸ Nat.succ_pos n)
    exact Nat.le_of_eq (hcount.symm.trans hone)

/-- There are as many entries as `vRandom` lists. -/
theorem length_entries (h : Consistent m) : m.mapInfo.toList.length = m.vRandom.length := by
  rw [← List.length_map (f := Prod.fst)]
  refine List.Perm.length_eq ((List.perm_ext_iff_of_nodup ?_ ?_).mpr fun nId => ?_)
  · exact List.pairwise_map.mpr (Map.pairwise_toList m.mapInfo)
  · refine List.nodup_iff_getElem?_ne_getElem?.mpr fun i j hlt hj heq => ?_
    rw [List.getElem?_eq_getElem hj] at heq
    exact absurd (h.positions.unique heq (List.getElem?_eq_getElem hj)) (Nat.ne_of_lt hlt)
  · rw [List.mem_map]
    constructor
    · rintro ⟨⟨nId', info⟩, hmem, rfl⟩
      exact List.mem_of_getElem? (h.positions.getElem? ((Map.mem_toList _ _ _).mp hmem))
    · intro hmem
      obtain ⟨pos, hpos⟩ := List.mem_iff_getElem?.mp hmem
      obtain ⟨info, hinfo, -⟩ := h.positions.info hpos
      exact ⟨(nId, info), (Map.mem_toList _ _ _).mpr hinfo, rfl⟩

/-- The map of the new ids holds their exact counts. -/
theorem getElem?_mapNew (h : Consistent m) (nId : Nat) :
    ((m.mapInfo.toList.filter fun item => !item.2.fInTried).foldl
      (fun mapNew item => mapNew.insert item.1 item.2.nRefCount) (∅ : Map Nat Int))[nId]? =
      if m.newEntries.count nId = 0 then none else some (m.newEntries.count nId : Int) := by
  rw [count_newEntries]
  have hdistinct : (m.mapInfo.toList.filter fun item => !item.2.fInTried).Pairwise
      fun a b => a.1 ≠ b.1 := (Map.pairwise_toList m.mapInfo).filter _
  cases hinfo : m.mapInfo[nId]? with
  | none =>
    have hplaced := h.placed nId
    rw [entryOf, hinfo] at hplaced
    rw [if_pos hplaced.eq_zero_of_none.2]
    refine (Map.getElem?_foldl_insert_of_ne (f := fun item : Nat × CAddrInfo => item.2.nRefCount)
      ?_ ∅).trans (Map.getElem?_empty _)
    rintro ⟨other, info⟩ hmem rfl
    rw [(Map.mem_toList _ _ _).mp (List.mem_filter.mp hmem).1] at hinfo
    cases hinfo
  | some info =>
    cases hflag : info.fInTried with
    | true =>
      have hnew : newCount m.vvNew nId = 0 := by
        have hplaced := h.placed_of hinfo
        cases hcount : newCount m.vvNew nId with
        | zero => rfl
        | succ n =>
          obtain ⟨_, hsome, hnot, _⟩ := hplaced.of_new (hcount ▸ Nat.succ_pos n)
          cases hsome
          exact absurd (hflag.symm.trans hnot) (by decide)
      rw [if_pos hnew]
      refine (Map.getElem?_foldl_insert_of_ne (f := fun item : Nat × CAddrInfo => item.2.nRefCount)
        ?_ ∅).trans (Map.getElem?_empty _)
      rintro ⟨other, info'⟩ hmem rfl
      obtain ⟨hitem, hnot⟩ := List.mem_filter.mp hmem
      rw [(Map.mem_toList _ _ _).mp hitem] at hinfo
      cases hinfo
      rw [hflag] at hnot
      cases hnot
    | false =>
      obtain ⟨-, href, hpos, -⟩ := (h.placed_of hinfo).of_flag hflag
      change info.nRefCount = _ at href
      have hmem : (nId, info) ∈ m.mapInfo.toList.filter fun item => !item.2.fInTried :=
        List.mem_filter.mpr ⟨(Map.mem_toList _ _ _).mpr hinfo, by rw [hflag]; rfl⟩
      have hne : newCount m.vvNew nId ≠ 0 := by omega
      rw [if_neg hne]
      have hexact : info.nRefCount = (newCount m.vvNew nId : Int) := by omega
      rw [← hexact]
      exact Map.getElem?_foldl_insert_of_mem (f := fun item : Nat × CAddrInfo =>
        item.2.nRefCount) hdistinct hmem ∅

theorem card_triedEntries (h : Consistent m) :
    (m.triedEntries.toFinset.card : Int) = m.nTried := by
  rw [List.toFinset_card_of_nodup (nodup_triedEntries h), length_triedEntries, h.nTried]

/-- The counters count the entries. -/
theorem Consistent.length_tried (h : Consistent m) :
    ((m.mapInfo.toList.filter fun item => item.2.fInTried).length : Int) = m.nTried := by
  rw [← card_triedEntries h, ← setTried_eq h, List.toFinset_card_of_nodup, List.length_map]
  exact List.pairwise_map.mpr ((Map.pairwise_toList m.mapInfo).filter _)

theorem Consistent.length_new (h : Consistent m) :
    ((m.mapInfo.toList.filter fun item => !item.2.fInTried).length : Int) = m.nNew := by
  have hlength := List.length_eq_length_filter_add (l := m.mapInfo.toList)
    fun item => item.2.fInTried
  rw [length_entries h] at hlength
  have htried := h.length_tried
  have hsize := h.size
  omega

/-- The checks of `Check_` all pass. -/
theorem Consistent.check_eq (h : Consistent m) : m.check = 0 := by
  have hinfos : (m.mapInfo.toList.findSome? fun item => m.checkInfo item.1 item.2) = none :=
    List.findSome?_eq_none_iff.mpr fun item hitem =>
      checkInfo_eq h ((Map.mem_toList _ _ _).mp hitem)
  have hsize := size_foldl_insert (f := fun item => item.2.nRefCount) (∅ : Map Nat Int)
    ((Map.pairwise_toList m.mapInfo).filter fun item => !item.2.fInTried)
    fun item _ => Map.getElem?_empty _
  have hnew := h.length_new
  unfold CAddrMan.check
  dsimp only
  rw [if_neg (not_not.mpr h.size), hinfos]
  dsimp only
  rw [setTried_eq h, if_neg (not_not.mpr (card_triedEntries h)), if_neg (not_not.mpr ?_),
    checkTried_eq (nodup_triedEntries h) fun nId hmem => List.mem_toFinset.mpr hmem]
  · dsimp only
    rw [checkNew_eq (getElem?_mapNew h), Finset.sdiff_self]
    rfl
  · rw [hsize, Std.ExtTreeMap.size_empty]
    omega

theorem Inv.check_eq (h : Inv (fun _ => 0) m) : m.check = 0 := h.consistent.check_eq

end check

/-! ## Runs -/

inductive Call
  | add (addr : CAddress) (source : CNetAddr) (nTimePenalty nNow : Int) (rnd : Rand)
  | good (addr : CService) (nTime : Int) (rnd : Rand)
  | attempt (addr : CService) (nTime : Int)
  | connected (addr : CService) (nTime : Int)
  | select (rounds : List CAddrMan.Round)
  | getAddr (rnd : Rand)

/-- A success happens after the epoch, and an attempt not before it. -/
def Call.Timely : Call → Prop
  | .good _ nTime _ => 0 < nTime
  | .attempt _ nTime => 0 ≤ nTime
  | _ => True

def step (env : AddrEnv) (m : CAddrMan) : Call → Except Exit CAddrMan
  | .add addr source nTimePenalty nNow rnd => m.add env addr source nTimePenalty nNow rnd
  | .good addr nTime rnd => m.good env addr nTime rnd
  | .attempt addr nTime => .ok (m.attempt addr nTime)
  | .connected addr nTime => .ok (m.connected addr nTime)
  | .select rounds => do
    let _ ← m.select rounds
    return m
  | .getAddr rnd => do
    let (m, _) ← m.getAddr rnd
    return m

def run (env : AddrEnv) : CAddrMan → List Call → Except Exit CAddrMan
  | m, [] => .ok m
  | m, call :: calls => do
    let m ← step env m call
    run env m calls

/-- The call is an `Add` for a bucket that is full. -/
def Call.Shrinks (env : AddrEnv) (m : CAddrMan) : Call → Prop
  | .add addr source _ _ _ => ∃ info : CAddrInfo, info.service.ip = addr.service.ip ∧
      (m.vvNew (env.getNewBucket info source)).card = newBucketSize
  | _ => False

section runs

variable {m : CAddrMan}

theorem Inv.empty : Inv (fun _ => 0) CAddrMan.empty where
  positions nId pos := by
    constructor
    · intro h
      cases h
    · intro h
      cases h
  addresses addr nId := by
    show (∅ : Map CNetAddr Nat)[addr]? = some nId ↔
      ∃ info, entryOf (∅ : Map Nat CAddrInfo) nId = _ ∧ _
    rw [Map.getElem?_empty, entryOf, Map.getElem?_empty]
    constructor
    · intro h
      cases h
    · rintro ⟨info, h, -⟩
      cases h
  fresh nId info h := by cases h
  placed nId := by
    have htried : triedCount CAddrMan.empty.vvTried nId = 0 := Finset.sum_eq_zero fun _ _ => rfl
    have hnew : newCount CAddrMan.empty.vvNew nId = 0 :=
      Finset.sum_eq_zero fun _ _ => if_neg (Finset.notMem_empty _)
    rw [htried, hnew]
    exact .absent
  triedSize _ := Nat.zero_le _
  newSize _ := Nat.zero_le _
  nTried := by
    have hzero : ∑ nKBucket, (CAddrMan.empty.vvTried nKBucket).length = 0 :=
      Finset.sum_eq_zero fun _ _ => rfl
    rw [hzero]
    rfl
  size := rfl

/-- Every call succeeds, keeps the invariant, and loses an address only where it shrinks. -/
theorem step_ok (h : Inv (fun _ => 0) m) (env : AddrEnv) {call : Call} (hcall : call.Timely) :
    ∃ m', step env m call = .ok m' ∧ Inv (fun _ => 0) m' ∧
      ∀ a, m.mapAddr.contains a = true → m'.mapAddr.contains a = false → call.Shrinks env m := by
  have hsame : ∀ {m' : CAddrMan}, m'.mapAddr = m.mapAddr → ∀ a, m.mapAddr.contains a = true →
      m'.mapAddr.contains a = false → call.Shrinks env m := by
    intro m' heq a hin hout
    rw [heq] at hout
    exact absurd hin (Bool.eq_false_iff.mp hout)
  cases call with
  | add addr source nTimePenalty nNow rnd => exact add_ok h env addr source nTimePenalty nNow rnd
  | good addr nTime rnd =>
    obtain ⟨m', hrun, hinv, haddr⟩ := good_ok h env addr hcall rnd
    exact ⟨m', hrun, hinv, hsame haddr⟩
  | attempt addr nTime =>
    obtain ⟨hinv, haddr⟩ := attempt_ok h addr hcall
    exact ⟨_, rfl, hinv, hsame haddr⟩
  | connected addr nTime =>
    obtain ⟨hinv, haddr⟩ := connected_ok h addr nTime
    exact ⟨_, rfl, hinv, hsame haddr⟩
  | select rounds =>
    obtain ⟨found, hrun⟩ := select_ok h rounds
    refine ⟨m, ?_, h, hsame rfl⟩
    dsimp only [step]
    rw [hrun]
    rfl
  | getAddr rnd =>
    obtain ⟨m', vAddr, hrun, hinv, haddr⟩ := getAddr_ok h rnd
    refine ⟨m', ?_, hinv, hsame haddr⟩
    dsimp only [step]
    rw [hrun]
    rfl

theorem run_ok (h : Inv (fun _ => 0) m) (env : AddrEnv) {calls : List Call}
    (hcalls : ∀ call ∈ calls, call.Timely) :
    ∃ m', run env m calls = .ok m' ∧ Inv (fun _ => 0) m' := by
  induction calls generalizing m with
  | nil => exact ⟨m, rfl, h⟩
  | cons call calls ih =>
    rw [List.forall_mem_cons] at hcalls
    obtain ⟨m₁, hstep, hinv, -⟩ := step_ok h env hcalls.1
    obtain ⟨m', hrun, hinv'⟩ := ih hinv hcalls.2
    refine ⟨m', ?_, hinv'⟩
    unfold run
    rw [hstep]
    exact hrun

end runs

section samples

/-- Every address is routable, and all hashes are 0. -/
def sampleEnv : AddrEnv := ⟨fun _ => true, fun _ => 0, fun _ _ => 0⟩

def sampleService : CService := ⟨1, 8333⟩

/-- An address is added, and then attempted at a time. -/
def sampleCalls (nTime : Int) : List Call :=
  [.add ⟨sampleService, 1, 100⟩ 2 0 100 fun _ => 0, .attempt sampleService nTime]

end samples

end AddrMan

end NoLimitCoin
