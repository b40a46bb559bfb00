import NoLimitCoin.AddrFileRuns

/-!
# Reloading the file of addresses

Results:
1. `Loaded.consistent`: what a file makes satisfies `Check_`.
2. `unserialize_same`, `unserialize_other`: reading a whole file.
3. `Reloaded.content_eq`: an address manager and what is made of its file know the same.
4. `addrFile_safe`: so it is in every reachable state, and a file with another number of new buckets
   is read safely exactly if the number is no larger than that of the table.
-/

namespace NoLimitCoin

namespace AddrMan

open scoped BigOperators

/-! ## What has been read -/

section loaded

variable {env : AddrEnv} {news kept : List StoredInfo} {m : CAddrMan} {nId : Nat}
  {info : StoredInfo}

namespace Loaded

/-- The counters are set between the loops. -/
theorem counters (h : Loaded env news kept m) (nIdCount : Nat) (nTried : Int) :
    Loaded env news kept { m with nIdCount := nIdCount, nTried := nTried } :=
  ⟨h.mapInfo, h.mapAddr, h.vRandom, h.newIds, h.tried, h.count, h.triedSize, h.triedSum⟩

theorem mapInfo_of (h : Loaded env news kept m) (hget : (news ++ kept)[nId]? = some info) :
    m.mapInfo[nId]? = some (loadedEntry m.vvNew news.length nId info) := by
  rw [h.mapInfo, hget, Option.map_some]

theorem positions (h : Loaded env news kept m) : Positions m.mapInfo m.vRandom := by
  intro nId pos
  rw [positionOf, h.mapInfo, h.vRandom, Option.map_map]
  constructor
  · intro hpos
    obtain ⟨info, hget, hpos⟩ := Option.map_eq_some_iff.mp hpos
    have hlt := (List.getElem?_eq_some_iff.mp hget).1
    have hid : nId = pos := hpos
    rw [← hid, List.getElem?_range hlt]
  · intro hpos
    obtain ⟨hlt, hid⟩ := List.getElem?_eq_some_iff.mp hpos
    rw [List.length_range] at hlt
    rw [List.getElem_range] at hid
    rw [← hid, List.getElem?_eq_getElem hlt]
    rfl

/-- A place in every new entry, at most four of them, and the times of the format: the indexes
agree. -/
theorem consistent (h : Loaded env news kept m)
    (hplaces : ∀ n, n < news.length →
      0 < newCount m.vvNew n ∧ newCount m.vvNew n ≤ newBucketsPerAddress)
    (hnews : ∀ info ∈ news, 0 ≤ info.nLastSuccess) (hkept : ∀ info ∈ kept, 0 < info.nLastSuccess)
    (hnNew : m.nNew = news.length) (hnTried : m.nTried = kept.length) : Consistent m where
  positions := h.positions
  addresses addr nId := by
    rw [h.mapAddr, entryOf, h.mapInfo, Option.map_map]
    constructor
    · rintro ⟨info, hget, haddr⟩
      exact ⟨_, Option.map_eq_some_iff.mpr ⟨info, hget, rfl⟩, haddr⟩
    · rintro ⟨entry, hentry, haddr⟩
      obtain ⟨info, hget, rfl⟩ := Option.map_eq_some_iff.mp hentry
      exact ⟨info, hget, haddr⟩
  placed nId := by
    rw [entryOf, h.mapInfo, h.count]
    cases hget : (news ++ kept)[nId]? with
    | none =>
      have hge := List.getElem?_eq_none_iff.mp hget
      rw [if_neg fun hboth => absurd hboth.2 (Nat.not_lt.mpr hge),
        h.newCount_fresh ((List.length_append ▸ Nat.le_add_right _ _).trans hge)]
      exact .absent
    | some info =>
      have hlt := (List.getElem?_eq_some_iff.mp hget).1
      by_cases hnew : nId < news.length
      · rw [if_neg fun hboth => absurd hboth.1 (Nat.not_le.mpr hnew)]
        have hmem : info ∈ news :=
          List.mem_of_getElem? ((List.getElem?_append_left hnew).symm.trans hget)
        have href : (loadedEntry m.vvNew news.length nId info).forget.nRefCount =
            newCount m.vvNew nId + (0 : Nat) := by
          rw [Nat.cast_zero, Int.add_zero]
          rfl
        refine .new (decide_eq_false (Nat.not_le.mpr hnew)) href ?_ ?_ (hnews info hmem) le_rfl
        · rw [Nat.add_zero]
          exact (hplaces nId hnew).1
        · rw [Nat.add_zero]
          exact (hplaces nId hnew).2
      · have hge := Nat.le_of_not_lt hnew
        rw [if_pos ⟨hge, hlt⟩, h.newCount_fresh hge]
        have hmem : info ∈ kept :=
          List.mem_of_getElem? ((List.getElem?_append_right hge).symm.trans hget)
        refine .tried (decide_eq_true hge) ?_ (hkept info hmem) le_rfl
        show ((newCount m.vvNew nId : Nat) : Int) = 0
        rw [h.newCount_fresh hge, Nat.cast_zero]
  nTried := by rw [hnTried, h.triedSum]
  size := by
    rw [h.vRandom, List.length_range, List.length_append, hnNew, hnTried]
    push_cast
    omega

theorem inBucket (h : Loaded env news kept m) : InBucket env m := by
  intro nKBucket nId hmem entry hentry
  obtain ⟨info, hget, hbucket⟩ := h.tried nKBucket nId hmem
  obtain rfl := Option.some.inj ((h.mapInfo_of hget).symm.trans hentry)
  rw [← hbucket]
  exact getTriedBucket_congr env rfl

end Loaded

end loaded

/-- What is known of an address: what is stored of it, whether it is tried, and its new buckets. -/
def CAddrMan.content (m : CAddrMan) (addr : CNetAddr) :
    Option (StoredInfo × Bool × Finset (Fin newBucketCount)) :=
  (m.find addr).map fun item => (item.2.stored, item.2.fInTried, m.holders item.1)

section content

variable {env : AddrEnv} {news kept : List StoredInfo} {m : CAddrMan} {nId : Nat}
  {info : StoredInfo} {addr : CNetAddr}

theorem content_of {found : CAddrInfo} (haddr : m.mapAddr[addr]? = some nId)
    (hinfo : m.mapInfo[nId]? = some found) :
    m.content addr = some (found.stored, found.fInTried, m.holders nId) := by
  rw [CAddrMan.content, CAddrMan.find, haddr]
  dsimp only
  rw [hinfo]
  rfl

theorem content_eq_none (haddr : m.mapAddr[addr]? = none) : m.content addr = none := by
  rw [CAddrMan.content, CAddrMan.find, haddr]
  rfl

/-- The content at an address that has been read. -/
theorem Loaded.content (h : Loaded env news kept m) (hget : (news ++ kept)[nId]? = some info) :
    m.content info.service.ip = some (info, decide (news.length ≤ nId), m.holders nId) :=
  content_of ((h.mapAddr _ _).mpr ⟨info, hget, rfl⟩) (h.mapInfo_of hget)

/-- Nothing is known of an address that has not been read. -/
theorem Loaded.content_eq_none (h : Loaded env news kept m)
    (hnot : ∀ info ∈ news ++ kept, info.service.ip ≠ addr) : m.content addr = none := by
  refine AddrMan.content_eq_none ?_
  cases haddr : m.mapAddr[addr]? with
  | none => rfl
  | some nId =>
    obtain ⟨info, hget, hip⟩ := (h.mapAddr addr nId).mp haddr
    exact absurd hip (hnot info (List.mem_of_getElem? hget))

end content

/-! ## A whole file -/

/-- What the loops over the addresses of a file leave, and the loop over the buckets keeps. -/
structure AddressesRead (env : AddrEnv) (f : AddrFile) (kept : List StoredInfo) (m : CAddrMan) :
    Prop where
  loaded : Loaded env f.news kept m
  sublist : kept.Sublist f.trieds
  lost : ∀ info ∈ f.trieds, info ∈ kept ∨
    (m.vvTried (info.triedBucket env)).length = triedBucketSize
  room : (∀ nKBucket, f.trieds.countP (fun info => info.triedBucket env = nKBucket) ≤
    triedBucketSize) → kept = f.trieds
  nNew : m.nNew = f.news.length
  nTried : m.nTried = kept.length
  nIdCount : m.nIdCount = f.news.length + kept.length

section unserialize

variable {hashes : List UInt8 → AddrEnv} {env : AddrEnv} {f : AddrFile} {kept : List StoredInfo}
  {m m' : CAddrMan}

theorem AddressesRead.places (h : AddressesRead env f kept m) (hloaded : Loaded env f.news kept m')
    (hsame : SameTried m m') : AddressesRead env f kept m' where
  loaded := hloaded
  sublist := h.sublist
  lost := by
    rw [hsame.vvTried]
    exact h.lost
  room := h.room
  nNew := hsame.nNew.trans h.nNew
  nTried := hsame.nTried.trans h.nTried
  nIdCount := hsame.nIdCount.trans h.nIdCount

/-- What is known of the addresses of a file. -/
theorem AddressesRead.consistent (h : AddressesRead env f kept m) (hf : f.Valid)
    (hplaces : ∀ n, n < f.news.length →
      0 < newCount m.vvNew n ∧ newCount m.vvNew n ≤ newBucketsPerAddress) : Consistent m :=
  h.loaded.consistent hplaces hf.news (fun info hmem => hf.trieds info (h.sublist.subset hmem))
    h.nNew h.nTried

/-- The counts of a file are those of what follows. -/
theorem unserialize_write (f : AddrFile) (rest : List Field) :
    unserialize hashes (f.write ++ rest) =
      (CAddrMan.loadNew (hashes f.nKey) f.buckets.length f.news.length 0
        { CAddrMan.empty with nTried := f.trieds.length, nNew := f.news.length }
        (f.news.map .info ++
          (f.trieds.map .info ++ (f.buckets.flatMap AddrFile.writePlaces ++ rest))) >>= fun r₁ =>
      CAddrMan.loadTried (hashes f.nKey) f.trieds.length 0
        { r₁.1 with nIdCount := f.news.length } r₁.2 >>= fun r₂ =>
      CAddrMan.loadBuckets f.buckets.length f.buckets.length 0
        { r₂.1 with nTried := r₂.1.nTried - r₂.2.1 } r₂.2.2 >>= fun r =>
      .ok (f.nKey, r.1, r.2)) := by
  rw [AddrFile.write, List.cons_append, List.cons_append, List.cons_append, List.cons_append,
    List.cons_append, List.append_assoc, List.append_assoc]
  rfl

/-- The loops over the addresses. -/
theorem unserialize_addresses (hf : f.Valid) (rest : List Field) :
    ∃ m kept, unserialize hashes (f.write ++ rest) =
        (CAddrMan.loadBuckets f.buckets.length f.buckets.length 0 m
          (f.buckets.flatMap AddrFile.writePlaces ++ rest) >>= fun r => .ok (f.nKey, r.1, r.2)) ∧
      AddressesRead (hashes f.nKey) f kept m ∧
      FirstPlaces (hashes f.nKey) f.buckets.length f.news m.vvNew := by
  have haddresses : ((f.news ++ [] ++ f.trieds).map fun info : StoredInfo =>
      info.service.ip).Nodup := by
    rw [List.append_nil]
    exact hf.addresses
  have hnews : (f.news.map fun info => info.service.ip).Nodup := by
    have hall := hf.addresses
    rw [List.map_append] at hall
    exact (List.nodup_append.mp hall).1
  have hfirst : FirstPlaces (hashes f.nKey) f.buckets.length [] fun _ => ∅ := by
    intro nUBucket nId
    simp
  obtain ⟨m₁, hnew, hloaded₁, hplaces, hnNew, hnTried⟩ :=
    @loadNew_run (hashes f.nKey) [] _ f.buckets.length f.news
      (f.trieds.map .info ++ (f.buckets.flatMap AddrFile.writePlaces ++ rest))
      (Loaded.empty f.trieds.length f.news.length) hfirst hnews
  rw [List.nil_append] at hloaded₁ hplaces
  obtain ⟨m₂, kept, htried, hloaded₂, hread⟩ :=
    loadTried_run (f.buckets.flatMap AddrFile.writePlaces ++ rest) 0
      (hloaded₁.counters f.news.length m₁.nTried) (by rw [List.append_nil]) haddresses
  have hsum : ∀ nKBucket, (m₁.vvTried nKBucket).length = 0 := fun nKBucket =>
    Finset.sum_eq_zero_iff.mp hloaded₁.triedSum nKBucket (Finset.mem_univ _)
  have hle := hread.sublist.length_le
  rw [List.nil_append] at hloaded₂
  refine ⟨{ m₂ with nTried := m₂.nTried - (0 + (f.trieds.length - kept.length) : Nat) }, kept,
    ?_, ⟨hloaded₂.counters m₂.nIdCount _, hread.sublist, hread.lost, fun hroom => ?_,
      hread.nNew.trans hnNew, ?_, hread.nIdCount⟩, ?_⟩
  · rw [List.length_nil] at hnew
    rw [unserialize_write, hnew]
    show (CAddrMan.loadTried _ _ 0 { m₁ with nIdCount := f.news.length, nTried := m₁.nTried } _ >>=
      _) = _
    rw [htried]
    rfl
  · refine hread.room fun nKBucket => ?_
    show (m₁.vvTried nKBucket).length + _ ≤ _
    rw [hsum, Nat.zero_add]
    exact hroom nKBucket
  · have htotal : m₂.nTried = f.trieds.length := hread.nTried.trans hnTried
    show m₂.nTried - _ = _
    rw [htotal]
    omega
  · show FirstPlaces _ _ _ m₂.vvNew
    rw [hread.vvNew]
    exact hplaces

/-- A file with another number of new buckets. -/
theorem unserialize_other (hf : f.Valid) (hother : f.buckets.length ≠ newBucketCount)
    (rest : List Field) :
    ∃ m kept, unserialize hashes (f.write ++ rest) =
        (if f.buckets.length ≤ newBucketCount then .ok (f.nKey, m, rest)
        else .error (.abort "vvNew[b]")) ∧
      AddressesRead (hashes f.nKey) f kept m ∧
      ∀ nUBucket nId, nId ∈ m.vvNew nUBucket ↔
        ∃ info, f.news[nId]? = some info ∧ info.newBucket (hashes f.nKey) = nUBucket := by
  obtain ⟨m, kept, hrun, hread, hplaces⟩ := @unserialize_addresses hashes f hf rest
  have hother' : (f.buckets.length : Int) ≠ newBucketCount := fun heq =>
    hother (Int.ofNat_inj.mp heq)
  refine ⟨m, kept, ?_, hread, fun nUBucket nId => ?_⟩
  · rw [hrun, loadBuckets_other hother' rest hread.loaded fun bucket hbucket =>
      (hf.buckets bucket hbucket).2]
    have hempty : f.buckets = [] → f.buckets.length ≤ newBucketCount := by
      intro hnil
      rw [hnil]
      exact Nat.zero_le _
    simp only [Nat.zero_add, or_iff_left_of_imp hempty]
    split
    · rfl
    · rfl
  · rw [hplaces, and_iff_right hother']

/-- A file with as many new buckets as the table has. -/
theorem unserialize_same (hf : f.Valid) (hsame : f.buckets.length = newBucketCount)
    (hmax : ∀ n, f.places n ≤ newBucketsPerAddress) (rest : List Field) :
    ∃ m kept, unserialize hashes (f.write ++ rest) = .ok (f.nKey, m, rest) ∧
      AddressesRead (hashes f.nKey) f kept m ∧
      (∀ (nUBucket : Fin newBucketCount) nId, nId ∈ m.vvNew nUBucket ↔
        ∃ bucket, f.buckets[(nUBucket : Nat)]? = some bucket ∧ nId ∈ bucket) ∧
      ∀ nId, newCount m.vvNew nId = f.places nId := by
  obtain ⟨m₁, kept, hrun, hread, hplaces⟩ := @unserialize_addresses hashes f hf rest
  have hempty : ∀ nUBucket, ∀ nId, nId ∉ m₁.vvNew nUBucket := by
    intro nUBucket nId hmem
    exact ((hplaces nUBucket nId).mp hmem).1 (congrArg Int.ofNat hsame)
  have hzero : ∀ nId, newCount m₁.vvNew nId = 0 := fun nId =>
    Loaded.newCount_eq_zero fun nUBucket => hempty nUBucket nId
  obtain ⟨m, hbuckets, hloaded, hmem, hcounts, hsame'⟩ :=
    @loadBuckets_run _ _ _ _ 0 _ rest hread.loaded (by rw [Nat.zero_add, hsame]) hf.buckets
      (fun nUBucket _ => hempty nUBucket) (fun nId => by
        rw [hzero, Nat.zero_add]
        exact hmax nId)
  refine ⟨m, kept, ?_, hread.places hloaded hsame', fun nUBucket nId => ?_, fun nId => ?_⟩
  · have hsame'' : (f.buckets.length : Int) = newBucketCount := congrArg Int.ofNat hsame
    rw [hrun, hsame'', hbuckets]
    rfl
  · rw [hmem, iff_false_intro (hempty nUBucket nId), false_or,
      and_iff_right (Nat.zero_le _), Nat.sub_zero]
  · rw [hcounts, hzero, Nat.zero_add, AddrFile.places]

end unserialize

/-! ## The file of an address manager -/

section own

variable {m : CAddrMan} {nId k : Nat} {info : CAddrInfo} {item : Nat × CAddrInfo}
  {nUBucket : Fin newBucketCount}

namespace Consistent

theorem mem_newItems (h : Consistent m) :
    item ∈ m.newItems ↔ m.mapInfo[item.1]? = some item.2 ∧ item.2.fInTried = false := by
  rw [h.newItems_eq, List.mem_filter, Map.mem_toList, Bool.not_eq_true']

theorem newItems_of (h : Consistent m) (hinfo : m.mapInfo[nId]? = some info)
    (hnew : info.fInTried = false) : ∃ k : Nat, m.newItems[k]? = some (nId, info) :=
  List.getElem?_of_mem (h.mem_newItems.mpr ⟨hinfo, hnew⟩)

/-- An entry of a new bucket stands at its number. -/
theorem newItems_unkIds (h : Consistent m) (hmem : nId ∈ m.vvNew nUBucket) :
    ∃ info, m.newItems[(m.unkIds[nId]?).getD 0]? = some (nId, info) := by
  obtain ⟨entry, hentry, hflag, -⟩ := (h.placed nId).of_new (newCount_pos hmem)
  obtain ⟨info, hinfo, rfl⟩ := exists_of_entryOf hentry
  obtain ⟨k, hk⟩ := h.newItems_of hinfo hflag
  have hnumber := h.unkIds_eq hk
  dsimp only at hnumber
  rw [hnumber, Option.getD_some]
  exact ⟨info, hk⟩

/-- The numbers in a new bucket are those of its entries. -/
theorem mem_fileBucket (h : Consistent m) :
    k ∈ m.fileBucket nUBucket ↔
      ∃ item, m.newItems[k]? = some item ∧ item.1 ∈ m.vvNew nUBucket := by
  rw [CAddrMan.fileBucket, List.mem_map]
  constructor
  · rintro ⟨nId, hmem, rfl⟩
    rw [Finset.mem_sort] at hmem
    obtain ⟨info, hget⟩ := h.newItems_unkIds hmem
    exact ⟨(nId, info), hget, hmem⟩
  · rintro ⟨item, hk, hmem⟩
    refine ⟨item.1, (Finset.mem_sort _).mpr hmem, ?_⟩
    rw [h.unkIds_eq hk, Option.getD_some]

theorem nodup_fileBucket (h : Consistent m) : (m.fileBucket nUBucket).Nodup := by
  refine List.Nodup.map_on (fun nId hmem nId' hmem' heq => ?_) (Finset.sort_nodup _ _)
  obtain ⟨info, hget⟩ := h.newItems_unkIds ((Finset.mem_sort _).mp hmem)
  obtain ⟨info', hget'⟩ := h.newItems_unkIds ((Finset.mem_sort _).mp hmem')
  rw [heq, hget'] at hget
  exact (congrArg Prod.fst (Option.some.inj hget)).symm

/-- The items of the file are those of `mapInfo`, in another order. -/
theorem items_perm (h : Consistent m) :
    (m.newItems ++ m.triedItems).Perm m.mapInfo.toList := by
  rw [h.newItems_eq]
  exact List.perm_append_comm.trans
    (List.filter_append_perm (fun item : Nat × CAddrInfo => item.2.fInTried) m.mapInfo.toList)

theorem file_valid (h : Consistent m) (nKey : List UInt8) : (m.file nKey).Valid where
  addresses := by
    have hips : (m.mapInfo.toList.map fun item => item.2.service.ip).Nodup := by
      refine List.pairwise_map.mpr ((Map.pairwise_toList m.mapInfo).imp_of_mem ?_)
      intro a b ha hb hne heq
      have haddr : ∀ item ∈ m.mapInfo.toList, m.mapAddr[item.2.service.ip]? = some item.1 :=
        fun item hitem => (h.addresses _ _).mpr
          ⟨_, entryOf_of_getElem? ((Map.mem_toList _ _ _).mp hitem), rfl⟩
      have hsame := haddr a ha
      rw [heq, haddr b hb] at hsame
      exact hne (Option.some.inj hsame).symm
    rw [CAddrMan.file]
    dsimp only
    rw [← List.map_append, List.map_map]
    exact ((h.items_perm.map _).nodup_iff).mpr hips
  news info hmem := by
    obtain ⟨item, hitem, rfl⟩ := List.mem_map.mp hmem
    obtain ⟨hinfo, hflag⟩ := h.mem_newItems.mp hitem
    exact ((h.placed_of hinfo).of_flag hflag).2.2.2.2.1
  trieds info hmem := by
    obtain ⟨item, hitem, rfl⟩ := List.mem_map.mp hmem
    obtain ⟨hinfo, hflag⟩ := List.mem_filter.mp hitem
    have hplaced := h.placed_of ((Map.mem_toList _ _ _).mp hinfo)
    generalize triedCount m.vvTried item.1 = nTried at hplaced
    generalize newCount m.vvNew item.1 = nNew at hplaced
    cases hplaced with
    | tried _ _ hsuccess => exact hsuccess
    | new hnot => exact absurd (hflag.symm.trans hnot) (by decide)
  buckets bucket hmem := by
    obtain ⟨nUBucket, -, rfl⟩ := List.mem_map.mp hmem
    refine ⟨h.nodup_fileBucket, fun k hk => ?_⟩
    obtain ⟨item, hget, -⟩ := h.mem_fileBucket.mp hk
    rw [CAddrMan.file]
    dsimp only
    rw [List.length_map]
    exact (List.getElem?_eq_some_iff.mp hget).1

end Consistent

theorem countP_eq_sum {α : Type} (p : α → Bool) (l : List α) :
    l.countP p = (l.map fun a => if p a then 1 else 0).sum := by
  induction l with
  | nil => rfl
  | cons a l ih => rw [List.countP_cons, ih, List.map_cons, List.sum_cons, Nat.add_comm]

theorem places_file (nKey : List UInt8) (m : CAddrMan) (k : Nat) :
    (m.file nKey).places k = ∑ nUBucket, if k ∈ m.fileBucket nUBucket then 1 else 0 := by
  rw [AddrFile.places, CAddrMan.file, List.countP_map, countP_eq_sum, Fin.sum_univ_def]
  simp only [Function.comp_apply, decide_eq_true_eq]

namespace Consistent

/-- An entry keeps the number of its places. -/
theorem places_eq (h : Consistent m) (nKey : List UInt8) (hk : m.newItems[k]? = some item) :
    (m.file nKey).places k = newCount m.vvNew item.1 := by
  rw [places_file, newCount]
  refine Finset.sum_congr rfl fun nUBucket _ => if_congr ?_ rfl rfl
  rw [h.mem_fileBucket, hk]
  constructor
  · rintro ⟨found, hfound, hmem⟩
    obtain rfl := Option.some.inj hfound
    exact hmem
  · exact fun hmem => ⟨item, rfl, hmem⟩

theorem places_pos (h : Consistent m) (nKey : List UInt8) (hk : m.newItems[k]? = some item) :
    0 < (m.file nKey).places k ∧ (m.file nKey).places k ≤ newBucketsPerAddress := by
  obtain ⟨hinfo, hflag⟩ := h.mem_newItems.mp (List.mem_of_getElem? hk)
  obtain ⟨-, -, hpos, hmax, -⟩ := (h.placed_of hinfo).of_flag hflag
  rw [Nat.add_zero] at hpos hmax
  rw [h.places_eq nKey hk]
  exact ⟨hpos, hmax⟩

theorem places_le (h : Consistent m) (nKey : List UInt8) (k : Nat) :
    (m.file nKey).places k ≤ newBucketsPerAddress := by
  cases hk : m.newItems[k]? with
  | some item => exact (h.places_pos nKey hk).2
  | none =>
    rw [places_file, Finset.sum_eq_zero fun nUBucket _ => if_neg fun hmem => ?_]
    · exact Nat.zero_le _
    · obtain ⟨item, hget, -⟩ := h.mem_fileBucket.mp hmem
      cases hk.symm.trans hget

/-- The tried addresses of a bucket fit into it. -/
theorem trieds_fit (h : Consistent m) {env : AddrEnv} (hm : InBucket env m)
    (hsize : ∀ nKBucket, (m.vvTried nKBucket).length ≤ triedBucketSize) (nKey : List UInt8)
    (nKBucket : Fin triedBucketCount) :
    (m.file nKey).trieds.countP (fun info => info.triedBucket env = nKBucket) ≤
      triedBucketSize := by
  have hpair : m.triedItems.Pairwise fun a b => a.1 ≠ b.1 :=
    (Map.pairwise_toList m.mapInfo).filter _
  have hids : ((m.triedItems.filter fun item =>
      item.2.stored.triedBucket env = nKBucket).map Prod.fst).Nodup :=
    List.pairwise_map.mpr (hpair.filter _)
  have hsub : (m.triedItems.filter fun item =>
      item.2.stored.triedBucket env = nKBucket).map Prod.fst ⊆ m.vvTried nKBucket := by
    intro nId hmem
    obtain ⟨⟨nId', info⟩, hitem, rfl⟩ := List.mem_map.mp hmem
    obtain ⟨htried, hbucket⟩ := List.mem_filter.mp hitem
    obtain ⟨hinfo, hflag⟩ := List.mem_filter.mp htried
    rw [Map.mem_toList] at hinfo
    have hplaced := h.placed_of hinfo
    have hpos : 0 < triedCount m.vvTried nId' := by
      generalize triedCount m.vvTried nId' = nTried at hplaced
      generalize newCount m.vvNew nId' = nNew at hplaced
      cases hplaced with
      | tried => exact Nat.one_pos
      | new hnot => exact absurd (hflag.symm.trans hnot) (by decide)
    obtain ⟨nKBucket', -, hmem'⟩ := Finset.sum_pos_iff.mp hpos
    rw [List.count_pos_iff] at hmem'
    have hsame := hm nKBucket' nId' hmem' info hinfo
    rw [← of_decide_eq_true hbucket]
    have hstored : info.stored.triedBucket env = nKBucket' :=
      (getTriedBucket_congr env rfl).trans hsame
    rw [hstored]
    exact hmem'
  rw [CAddrMan.file, List.countP_map, List.countP_eq_length_filter]
  have hle := (List.subperm_of_subset hids hsub).length_le
  rw [List.length_map] at hle
  exact hle.trans (hsize nKBucket)

end Consistent

end own

/-! ## Reloading it -/

/-- An address manager, and what is made of its file. -/
structure Reloaded (env : AddrEnv) (nKey : List UInt8) (m m' : CAddrMan) : Prop where
  read : AddressesRead env (m.file nKey) (m.file nKey).trieds m'
  places : ∀ nUBucket (k : Nat), k ∈ m'.vvNew nUBucket ↔
    ∃ item, m.newItems[k]? = some item ∧ item.1 ∈ m.vvNew nUBucket
  counts : ∀ k, newCount m'.vvNew k = (m.file nKey).places k

section reload

variable {hashes : List UInt8 → AddrEnv} {env : AddrEnv} {nKey : List UInt8} {m m' : CAddrMan}

theorem unserialize_serialize (h : Consistent m) (hm : InBucket (hashes nKey) m)
    (hsize : ∀ nKBucket, (m.vvTried nKBucket).length ≤ triedBucketSize) :
    ∃ m', unserialize hashes (m.serialize nKey) = .ok (nKey, m', []) ∧
      Reloaded (hashes nKey) nKey m m' := by
  have hlength : (m.file nKey).buckets.length = newBucketCount := by
    rw [CAddrMan.file, List.length_map, List.length_finRange]
  obtain ⟨m', kept, hrun, hread, hplaces, hcounts⟩ :=
    @unserialize_same hashes _ (h.file_valid nKey) hlength (h.places_le nKey) []
  obtain rfl := hread.room (h.trieds_fit hm hsize nKey)
  refine ⟨m', ?_, hread, fun nUBucket k => ?_, hcounts⟩
  · rw [serialize_eq_write h, ← List.append_nil (m.file nKey).write]
    exact hrun
  · have hbucket : (m.file nKey).buckets[(nUBucket : Nat)]? = some (m.fileBucket nUBucket) := by
      rw [CAddrMan.file, List.getElem?_map, List.getElem?_eq_getElem (by
        rw [List.length_finRange]
        exact nUBucket.isLt), List.getElem_finRange]
      rfl
    rw [hplaces, hbucket, ← h.mem_fileBucket]
    constructor
    · rintro ⟨bucket, hget, hmem⟩
      obtain rfl := Option.some.inj hget
      exact hmem
    · exact fun hmem => ⟨_, rfl, hmem⟩

namespace Reloaded

theorem consistent (hr : Reloaded env nKey m m') (h : Consistent m) : Consistent m' := by
  refine hr.read.consistent (h.file_valid nKey) fun k hk => ?_
  have hlt : k < m.newItems.length := by
    rw [CAddrMan.file, List.length_map] at hk
    exact hk
  rw [hr.counts]
  exact h.places_pos nKey (List.getElem?_eq_getElem hlt)

/-- The invariant comes back as well. -/
theorem inv (hr : Reloaded env nKey m m') (h : Inv (fun _ => 0) m) : Inv (fun _ => 0) m' := by
  have hconsistent := hr.consistent h.consistent
  have hloaded := hr.read.loaded
  refine ⟨hconsistent.positions, hconsistent.addresses, fun nId entry hentry => ?_,
    hconsistent.placed, hloaded.triedSize, fun nUBucket => ?_, hconsistent.nTried,
    hconsistent.size⟩
  · rw [entryOf, hloaded.mapInfo, Option.map_map] at hentry
    obtain ⟨info, hget, -⟩ := Option.map_eq_some_iff.mp hentry
    rw [hr.read.nIdCount, ← List.length_append]
    exact (List.getElem?_eq_some_iff.mp hget).1
  · have hsub : m'.vvNew nUBucket ⊆ (m.fileBucket nUBucket).toFinset := fun k hmem =>
      List.mem_toFinset.mpr (h.consistent.mem_fileBucket.mpr ((hr.places nUBucket k).mp hmem))
    calc (m'.vvNew nUBucket).card
        ≤ (m.fileBucket nUBucket).toFinset.card := Finset.card_le_card hsub
      _ ≤ (m.fileBucket nUBucket).length := List.toFinset_card_le _
      _ = (m.vvNew nUBucket).card := by
          rw [CAddrMan.fileBucket, List.length_map, Finset.length_sort]
      _ ≤ newBucketSize := h.newSize nUBucket

/-- The buckets of a new address. -/
theorem holders_new (hr : Reloaded env nKey m m') {k nId : Nat} {info : CAddrInfo}
    (hk : m.newItems[k]? = some (nId, info)) : m'.holders k = m.holders nId := by
  refine Finset.filter_congr fun nUBucket _ => ?_
  rw [hr.places, hk]
  constructor
  · rintro ⟨item, hitem, hmem⟩
    obtain rfl := Option.some.inj hitem
    exact hmem
  · exact fun hmem => ⟨_, rfl, hmem⟩

/-- The same is known of every address. -/
theorem content_eq (hr : Reloaded env nKey m m') (h : Consistent m) (addr : CNetAddr) :
    m'.content addr = m.content addr := by
  have hloaded := hr.read.loaded
  cases haddr : m.mapAddr[addr]? with
  | none =>
    rw [content_eq_none haddr]
    refine hloaded.content_eq_none fun stored hstored heq => ?_
    have hitem : ∃ item ∈ m.newItems ++ m.triedItems, item.2.stored = stored := by
      rw [CAddrMan.file] at hstored
      dsimp only at hstored
      rw [← List.map_append] at hstored
      exact List.mem_map.mp hstored
    obtain ⟨⟨nId, info⟩, hmem, rfl⟩ := hitem
    have hinfo := (Map.mem_toList _ _ _).mp (h.items_perm.mem_iff.mp hmem)
    rw [(h.addresses addr nId).mpr ⟨_, entryOf_of_getElem? hinfo, heq⟩] at haddr
    cases haddr
  | some nId =>
    obtain ⟨entry, hentry, hip⟩ := (h.addresses addr nId).mp haddr
    obtain ⟨info, hinfo, rfl⟩ := exists_of_entryOf hentry
    have hstored : info.stored.service.ip = addr := hip
    rw [content_of haddr hinfo, ← hstored]
    have hnews : (m.file nKey).news.length = m.newItems.length := by
      rw [CAddrMan.file, List.length_map]
    cases hflag : info.fInTried with
    | false =>
      obtain ⟨k, hk⟩ := h.newItems_of hinfo hflag
      have hlt : k < (m.file nKey).news.length :=
        (List.getElem?_eq_some_iff.mp hk).1.trans_eq hnews.symm
      have hget : ((m.file nKey).news ++ (m.file nKey).trieds)[k]? = some info.stored := by
        rw [List.getElem?_append_left hlt, CAddrMan.file, List.getElem?_map, hk]
        rfl
      rw [hloaded.content hget, decide_eq_false (Nat.not_le.mpr hlt), hr.holders_new hk]
    | true =>
      have hmem : (nId, info) ∈ m.triedItems :=
        List.mem_filter.mpr ⟨(Map.mem_toList _ _ _).mpr hinfo, hflag⟩
      obtain ⟨j, hj⟩ := List.getElem?_of_mem hmem
      have hget : ((m.file nKey).news ++ (m.file nKey).trieds)[(m.file nKey).news.length + j]? =
          some info.stored := by
        rw [List.getElem?_append_right (Nat.le_add_right _ _), Nat.add_sub_cancel_left,
          CAddrMan.file, List.getElem?_map, hj]
        rfl
      have hnone : m.holders nId = ∅ := by
        refine Finset.filter_eq_empty_iff.mpr fun nUBucket _ hin => ?_
        obtain ⟨entry, hentry', hnot, -⟩ := (h.placed nId).of_new (newCount_pos hin)
        obtain rfl := Option.some.inj (hentry.symm.trans hentry')
        exact absurd (hflag.symm.trans hnot) (by decide)
      have hnone' : m'.holders ((m.file nKey).news.length + j) = ∅ :=
        Finset.filter_eq_empty_iff.mpr fun nUBucket _ hin =>
          absurd (hloaded.newIds nUBucket _ hin) (Nat.not_lt.mpr (Nat.le_add_right _ _))
      rw [hloaded.content hget, decide_eq_true (Nat.le_add_right _ _), hnone, hnone']

end Reloaded

end reload

/-! ## Both kinds of files -/

/-- What a file with another number of new buckets should give: every new address is in the bucket
of its source, and a tried one is lost only if its bucket is full. -/
structure AddrFile.Restored (env : AddrEnv) (f : AddrFile) (m : CAddrMan) : Prop where
  check : m.check = 0
  news : ∀ info ∈ f.news, m.content info.service.ip = some (info, false, {info.newBucket env})
  trieds : ∀ info ∈ f.trieds, m.content info.service.ip = some (info, true, ∅) ∨
    m.content info.service.ip = none ∧
      (m.vvTried (info.triedBucket env)).length = triedBucketSize
  others : ∀ addr, m.content addr ≠ none → ∃ info ∈ f.news ++ f.trieds, info.service.ip = addr

/-- The states of an address manager with a key: after calls, and after reloading its own file. -/
inductive Reachable (hashes : List UInt8 → AddrEnv) (nKey : List UInt8) : CAddrMan → Prop
  | empty : Reachable hashes nKey .empty
  | call {m m' : CAddrMan} {call : Call} : Reachable hashes nKey m → call.Timely →
      step (hashes nKey) m call = .ok m' → Reachable hashes nKey m'
  | reload {m m' : CAddrMan} : Reachable hashes nKey m →
      unserialize hashes (m.serialize nKey) = .ok (nKey, m', []) → Reachable hashes nKey m'

section safe

variable {hashes : List UInt8 → AddrEnv} {env : AddrEnv} {nKey : List UInt8} {f : AddrFile}
  {kept : List StoredInfo} {m : CAddrMan}

theorem Reachable.inv (h : Reachable hashes nKey m) :
    Inv (fun _ => 0) m ∧ InBucket (hashes nKey) m := by
  induction h with
  | empty => exact ⟨.empty, fun nKBucket nId hmem => absurd hmem List.not_mem_nil⟩
  | call _ hcall hstep ih =>
    obtain ⟨m', hrun, hinv, -⟩ := step_ok ih.1 (hashes nKey) hcall
    obtain rfl := Except.ok.inj (hrun.symm.trans hstep)
    exact ⟨hinv, step_inBucket ih.1 ih.2 hstep⟩
  | reload _ hread ih =>
    obtain ⟨m', hrun, hreloaded⟩ := @unserialize_serialize hashes nKey _ ih.1.consistent ih.2
      ih.1.triedSize
    obtain ⟨-, hrest⟩ := Prod.mk.inj (Except.ok.inj (hrun.symm.trans hread))
    obtain ⟨rfl, -⟩ := Prod.mk.inj hrest
    exact ⟨hreloaded.inv ih.1, hreloaded.read.loaded.inBucket⟩

/-- The addresses of a file differ. -/
theorem AddrFile.Valid.unique (hf : f.Valid) {info other : StoredInfo}
    (hinfo : info ∈ f.news ++ f.trieds) (hother : other ∈ f.news ++ f.trieds)
    (hsame : info.service.ip = other.service.ip) : info = other :=
  List.inj_on_of_nodup_map hf.addresses hinfo hother hsame

theorem AddrFile.Valid.notMem_news (hf : f.Valid) {info : StoredInfo} (htried : info ∈ f.trieds) :
    info ∉ f.news := by
  intro hnew
  have haddresses := hf.addresses
  rw [List.map_append] at haddresses
  exact (List.nodup_append.mp haddresses).2.2 _ (List.mem_map_of_mem hnew) _
    (List.mem_map_of_mem htried) rfl

/-- Where the loop over the buckets ends, the addresses are restored. -/
theorem AddressesRead.restored (h : AddressesRead env f kept m) (hf : f.Valid)
    (hplaces : ∀ nUBucket (nId : Nat), nId ∈ m.vvNew nUBucket ↔
      ∃ info, f.news[nId]? = some info ∧ info.newBucket env = nUBucket) : f.Restored env m := by
  have hbucket : ∀ (nId : Nat) info, f.news[nId]? = some info → ∀ nUBucket,
      nId ∈ m.vvNew nUBucket ↔ info.newBucket env = nUBucket := by
    intro nId info hget nUBucket
    rw [hplaces, hget]
    constructor
    · rintro ⟨found, hfound, hsame⟩
      obtain rfl := Option.some.inj hfound
      exact hsame
    · exact fun hsame => ⟨info, rfl, hsame⟩
  have hcount : ∀ n, n < f.news.length → newCount m.vvNew n = 1 := by
    intro n hn
    rw [newCount, Finset.sum_congr rfl fun nUBucket _ =>
      if_congr (hbucket n _ (List.getElem?_eq_getElem hn) nUBucket) rfl rfl, Finset.sum_ite_eq,
      if_pos (Finset.mem_univ _)]
  have hconsistent := h.consistent hf fun n hn => by
    rw [hcount n hn]
    exact ⟨Nat.one_pos, by decide⟩
  have hkept : ∀ info ∈ f.news ++ kept, info ∈ f.news ++ f.trieds := fun info hmem =>
    (h.sublist.append_left f.news).subset hmem
  refine ⟨hconsistent.check_eq, fun info hmem => ?_, fun info hmem => ?_, fun addr hne => ?_⟩
  · obtain ⟨nId, hget⟩ := List.getElem?_of_mem hmem
    have hlt := (List.getElem?_eq_some_iff.mp hget).1
    have hholders : m.holders nId = {info.newBucket env} := by
      ext nUBucket
      rw [CAddrMan.holders, Finset.mem_filter, and_iff_right (Finset.mem_univ _),
        hbucket nId info hget, Finset.mem_singleton, eq_comm]
    rw [h.loaded.content (by rw [List.getElem?_append_left hlt, hget]), hholders,
      decide_eq_false (Nat.not_le.mpr hlt)]
  · by_cases hin : info ∈ kept
    · obtain ⟨j, hj⟩ := List.getElem?_of_mem hin
      have hget : (f.news ++ kept)[f.news.length + j]? = some info := by
        rw [List.getElem?_append_right (Nat.le_add_right _ _), Nat.add_sub_cancel_left, hj]
      have hnone : m.holders (f.news.length + j) = ∅ :=
        Finset.filter_eq_empty_iff.mpr fun nUBucket _ hmem =>
          absurd (h.loaded.newIds nUBucket _ hmem) (Nat.not_lt.mpr (Nat.le_add_right _ _))
      rw [h.loaded.content hget, hnone, decide_eq_true (Nat.le_add_right _ _)]
      exact .inl rfl
    · refine .inr ⟨h.loaded.content_eq_none fun other hother hsame => ?_,
        (h.lost info hmem).resolve_left hin⟩
      obtain rfl := hf.unique (hkept other hother) (List.mem_append_right _ hmem) hsame
      rcases List.mem_append.mp hother with hother | hother
      · exact hf.notMem_news hmem hother
      · exact hin hother
  · by_contra hnot
    push Not at hnot
    exact hne (h.loaded.content_eq_none fun info hmem => hnot info (hkept info hmem))

end safe

section samples

/-- A file of no addresses. -/
def emptyFile (nUBuckets : Nat) : AddrFile := ⟨[], [], [], List.replicate nUBuckets []⟩

theorem emptyFile_valid (nUBuckets : Nat) : (emptyFile nUBuckets).Valid where
  addresses := List.nodup_nil
  news _ hmem := absurd hmem List.not_mem_nil
  trieds _ hmem := absurd hmem List.not_mem_nil
  buckets bucket hmem := by
    rw [List.eq_of_mem_replicate hmem]
    exact ⟨List.nodup_nil, fun n hn => absurd hn List.not_mem_nil⟩

end samples

end AddrMan

end NoLimitCoin
