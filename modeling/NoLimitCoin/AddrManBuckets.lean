import NoLimitCoin.AddrManRuns
import NoLimitCoin.CheckBlock

/-!
# The buckets of tried addresses

A tried address is in the bucket that its service and the key give, which is what a file of addresses
relies on: it does not say in which bucket an address was.

Results:
1. `Within`: what the functions do that move no tried address.
2. `makeTried_inBucket`: an address that becomes tried goes to its bucket.
3. `step_inBucket`: so every call leaves tried addresses in their buckets.
-/

namespace NoLimitCoin

namespace AddrMan

/-- The tried addresses are in their buckets. -/
def InBucket (env : AddrEnv) (m : CAddrMan) : Prop :=
  ∀ nKBucket, ∀ nId ∈ m.vvTried nKBucket, ∀ info, m.mapInfo[nId]? = some info →
    env.getTriedBucket info = nKBucket

/-- The tried buckets are the same, and the entries were there before with their services. -/
structure Within (m m' : CAddrMan) : Prop where
  vvTried : m'.vvTried = m.vvTried
  entries : ∀ (nId : Nat) (info' : CAddrInfo), m'.mapInfo[nId]? = some info' →
    ∃ info, m.mapInfo[nId]? = some info ∧ info.service = info'.service

theorem getTriedBucket_congr (env : AddrEnv) {info info' : CAddrInfo}
    (h : info.service = info'.service) : env.getTriedBucket info = env.getTriedBucket info' := by
  simp only [AddrEnv.getTriedBucket, h]

section within

variable {m m₁ m₂ m' : CAddrMan} {nId : Nat} {info info' : CAddrInfo}

theorem Within.refl (m : CAddrMan) : Within m m := ⟨rfl, fun _ info h => ⟨info, h, rfl⟩⟩

theorem Within.trans (h₁ : Within m m₁) (h₂ : Within m₁ m₂) : Within m m₂ := by
  refine ⟨h₂.vvTried.trans h₁.vvTried, fun nId info' hinfo' => ?_⟩
  obtain ⟨info₁, hinfo₁, hsame₁⟩ := h₂.entries nId info' hinfo'
  obtain ⟨info, hinfo, hsame⟩ := h₁.entries nId info₁ hinfo₁
  exact ⟨info, hinfo, hsame.trans hsame₁⟩

theorem Within.inBucket {env : AddrEnv} (h : Within m m') (hm : InBucket env m) :
    InBucket env m' := by
  intro nKBucket nId hmem info' hinfo'
  obtain ⟨info, hinfo, hsame⟩ := h.entries nId info' hinfo'
  rw [h.vvTried] at hmem
  rw [← getTriedBucket_congr env hsame]
  exact hm nKBucket nId hmem info hinfo

/-- An entry changes, and keeps its service. -/
theorem entries_insert {mapInfo : Map Nat CAddrInfo} (hinfo : mapInfo[nId]? = some info)
    (hsame : info'.service = info.service) (other : Nat) (found : CAddrInfo)
    (h : (mapInfo.insert nId info')[other]? = some found) :
    ∃ old, mapInfo[other]? = some old ∧ old.service = found.service := by
  rw [Map.getElem?_insert] at h
  by_cases heq : nId = other
  · rw [if_pos heq] at h
    obtain rfl := Option.some.inj h
    exact ⟨info, heq ▸ hinfo, hsame.symm⟩
  · rw [if_neg heq] at h
    exact ⟨found, h, rfl⟩

theorem Within.setInfo (hinfo : m.mapInfo[nId]? = some info)
    (hsame : info'.service = info.service) : Within m (m.setInfo nId info') :=
  ⟨rfl, entries_insert hinfo hsame⟩

theorem swapRandom_within {pos₁ pos₂ : Nat} (h : m.swapRandom pos₁ pos₂ = .ok m') :
    Within m m' := by
  rw [CAddrMan.swapRandom] at h
  by_cases hpos : pos₁ = pos₂
  · rw [if_pos hpos] at h
    obtain rfl := Except.ok.inj h
    exact .refl m
  rw [if_neg hpos] at h
  split at h
  · next nId₁ nId₂ h₁ h₂ =>
    split at h
    · next info₁ info₂ hinfo₁ hinfo₂ =>
      obtain rfl := Except.ok.inj h
      refine ⟨rfl, fun other found hfound => ?_⟩
      dsimp only at hfound
      by_cases hother : nId₂ = other
      · rw [Map.getElem?_insert, if_pos hother] at hfound
        obtain rfl := Option.some.inj hfound
        exact ⟨info₂, hother ▸ hinfo₂, rfl⟩
      · rw [Map.getElem?_insert, if_neg hother] at hfound
        exact entries_insert hinfo₁ (by rfl) other found hfound
    · cases h
  · cases h

theorem release_within {nUBucket : Fin newBucketCount} (hinfo : m.mapInfo[nId]? = some info)
    (h : m.release nUBucket nId info = .ok m') : Within m m' := by
  rw [CAddrMan.release] at h
  dsimp only at h
  have hset : Within m (m.setInfo nId { info with nRefCount := info.nRefCount - 1 }) :=
    .setInfo hinfo rfl
  split at h
  · obtain ⟨m₁, hswap, h⟩ := except_bind_eq_ok.mp h
    obtain rfl := Except.ok.inj h
    have hswapped := hset.trans (swapRandom_within hswap)
    refine ⟨hswapped.vvTried, fun other found hfound => hswapped.entries other found ?_⟩
    dsimp only at hfound
    rw [Map.getElem?_erase] at hfound
    split at hfound
    · cases hfound
    · exact hfound
  · obtain rfl := Except.ok.inj h
    exact ⟨hset.vvTried, hset.entries⟩

theorem findTerrible_some {nNow : Int} {ids : List Nat}
    (h : m.findTerrible nNow ids = .ok (some (nId, info))) : m.mapInfo[nId]? = some info := by
  induction ids with
  | nil => cases h
  | cons first ids ih =>
    rw [CAddrMan.findTerrible] at h
    split at h
    · cases h
    · next found hfound =>
      split at h
      · obtain ⟨rfl, rfl⟩ := Prod.mk.inj (Option.some.inj (Except.ok.inj h))
        exact hfound
      · exact ih h

theorem shrinkNew_within {nUBucket : Fin newBucketCount} {nNow : Int} {rnd : Rand}
    (h : m.shrinkNew nUBucket nNow rnd = .ok m') : Within m m' := by
  rw [CAddrMan.shrinkNew] at h
  obtain ⟨found, hfound, h⟩ := except_bind_eq_ok.mp h
  cases found with
  | some found => exact release_within (findTerrible_some hfound) h
  | none =>
    obtain ⟨nOldest, -, h⟩ := except_bind_eq_ok.mp h
    cases nOldest with
    | none => cases h
    | some nOldest =>
      dsimp only at h
      split at h
      · cases h
      · next info hinfo => exact release_within hinfo h

theorem addRef_within {env : AddrEnv} {source : CNetAddr} {nNow : Int} {rnd : Rand}
    (hinfo : m.mapInfo[nId]? = some info)
    (h : m.addRef env nId info source nNow rnd = .ok m') : Within m m' := by
  rw [CAddrMan.addRef] at h
  dsimp only at h
  by_cases hmem : nId ∉ m.vvNew (env.getNewBucket info source)
  · rw [if_pos hmem] at h
    have hset : Within m (m.setInfo nId { info with nRefCount := info.nRefCount + 1 }) :=
      .setInfo hinfo rfl
    split at h
    · obtain ⟨m₁, hshrink, h⟩ := except_bind_eq_ok.mp h
      obtain rfl := Except.ok.inj h
      have hwithin := hset.trans (shrinkNew_within hshrink)
      exact ⟨hwithin.vvTried, hwithin.entries⟩
    · obtain rfl := Except.ok.inj h
      exact ⟨hset.vvTried, hset.entries⟩
  · rw [if_neg hmem] at h
    obtain rfl := Except.ok.inj h
    exact .refl m

theorem getAddrLoop_within {rnd : Rand} {rounds n : Nat} {vAddr vAddr' : List CAddrInfo}
    (h : CAddrMan.getAddrLoop rnd rounds n m vAddr = .ok (m', vAddr')) : Within m m' := by
  induction rounds generalizing n m vAddr with
  | zero =>
    obtain ⟨rfl, -⟩ := Prod.mk.inj (Except.ok.inj h)
    exact .refl m
  | succ rounds ih =>
    rw [CAddrMan.getAddrLoop] at h
    obtain ⟨m₁, hswap, h⟩ := except_bind_eq_ok.mp h
    split at h
    · cases h
    · exact (swapRandom_within hswap).trans (ih h)

end within

/-! ## The calls -/

section calls

variable {env : AddrEnv} {m m' : CAddrMan} {nId : Nat} {info : CAddrInfo}

theorem selectLoop_perm {rnd : Rand} {rounds i : Nat} {best best' : Option (Nat × Nat)}
    {vTried vTried' : List Nat}
    (h : m.selectLoop rnd rounds i best vTried = .ok (vTried', best')) : vTried'.Perm vTried := by
  induction rounds generalizing i best vTried with
  | zero =>
    obtain ⟨rfl, -⟩ := Prod.mk.inj (Except.ok.inj h)
    exact .rfl
  | succ rounds ih =>
    rw [CAddrMan.selectLoop] at h
    split at h
    · next hi =>
      have hpos : getRandInt (rnd i) (vTried.length - i) + i < vTried.length := by
        have hlt := getRandInt_lt (rnd i) (Nat.sub_pos_of_lt hi)
        omega
      generalize getRandInt (rnd i) (vTried.length - i) + i = nPos at hpos h
      dsimp only at h
      rw [List.getD_eq_getElem _ _ hpos, List.getD_eq_getElem _ _ hi] at h
      have hperm : ((vTried.set nPos vTried[i]).set i vTried[nPos]).Perm vTried :=
        List.set_set_perm hpos hi
      split at h
      · exact (ih h).trans hperm
      · split at h
        · split at h
          · exact (ih h).trans hperm
          · exact (ih h).trans hperm
        · cases h
    · obtain ⟨rfl, -⟩ := Prod.mk.inj (Except.ok.inj h)
      exact .rfl

theorem selectTried_inBucket {nKBucket : Fin triedBucketCount} {rnd : Rand} {nPos : Nat}
    (hm : InBucket env m) (h : m.selectTried nKBucket rnd = .ok (m', nPos)) :
    InBucket env m' ∧ m'.mapInfo = m.mapInfo := by
  rw [CAddrMan.selectTried] at h
  obtain ⟨⟨vTried, best⟩, hloop, h⟩ := except_bind_eq_ok.mp h
  have hperm := selectLoop_perm hloop
  cases best with
  | none => cases h
  | some best =>
    obtain ⟨rfl, -⟩ := Prod.mk.inj (Except.ok.inj h)
    refine ⟨fun other nId hmem => ?_, rfl⟩
    dsimp only at hmem
    rw [Function.update_apply] at hmem
    split at hmem
    · next heq =>
      rw [heq]
      exact hm nKBucket nId (hperm.mem_iff.mp hmem)
    · exact hm other nId hmem

/-- An address that becomes tried goes to its bucket, and the one that it evicts leaves it. -/
theorem makeTried_inBucket {nOrigin : Fin newBucketCount} {rnd : Rand} (hm : InBucket env m)
    (hinfo : m.mapInfo[nId]? = some info) (h : m.makeTried env info nId nOrigin rnd = .ok m') :
    InBucket env m' := by
  rw [CAddrMan.makeTried] at h
  obtain ⟨-, -, h⟩ := except_bind_eq_ok.mp h
  obtain ⟨-, -, h⟩ := except_bind_eq_ok.mp h
  dsimp only at h
  generalize hinfo' : ({ info with nRefCount := info.nRefCount - (m.holders nId).card } :
    CAddrInfo) = info' at h
  have hsame : info'.service = info.service := hinfo' ▸ rfl
  have hbucket : env.getTriedBucket info' = env.getTriedBucket info :=
    getTriedBucket_congr env hsame
  have htaken : InBucket env { m with
      mapInfo := m.mapInfo.insert nId info'
      vvNew := fun nUBucket => (m.vvNew nUBucket).erase nId
      nNew := m.nNew - 1 } := by
    have hwithin : Within m (m.setInfo nId info') := .setInfo hinfo hsame
    exact hwithin.inBucket hm
  rw [hbucket] at h
  split at h
  · obtain rfl := Except.ok.inj h
    intro nKBucket other hmem found hfound
    dsimp only at hfound
    rw [insert_insert] at hfound
    obtain ⟨old, hold, hservice⟩ := entries_insert hinfo (by rfl) other found hfound
    rw [← getTriedBucket_congr env hservice]
    dsimp only at hmem
    rw [Function.update_apply] at hmem
    split at hmem
    · next heq =>
      rcases List.mem_append.mp hmem with hmem | hmem
      · rw [heq]
        exact hm _ other hmem old hold
      · obtain rfl := List.mem_singleton.mp hmem
        obtain rfl := Option.some.inj (hinfo.symm.trans hold)
        exact heq.symm
    · exact hm nKBucket other hmem old hold
  · obtain ⟨⟨m₁, nPos⟩, hselect, h⟩ := except_bind_eq_ok.mp h
    obtain ⟨hm₁, hmap⟩ := selectTried_inBucket htaken hselect
    dsimp only at h hmap
    split at h
    · cases h
    · next infoOld hold =>
      obtain rfl := Except.ok.inj h
      intro nKBucket other hmem found hfound
      dsimp only at hmem hfound
      have hget : m₁.mapInfo[nId]? = some info' := by
        rw [hmap, Map.getElem?_insert, if_pos rfl]
      have hback : ∃ old, m₁.mapInfo[other]? = some old ∧ old.service = found.service := by
        by_cases hother : nId = other
        · rw [Map.getElem?_insert, if_pos hother] at hfound
          obtain rfl := Option.some.inj hfound
          exact ⟨info', hother ▸ hget, hsame⟩
        · rw [Map.getElem?_insert, if_neg hother] at hfound
          exact entries_insert hold (by rfl) other found hfound
      obtain ⟨old, hfoundOld, hservice⟩ := hback
      rw [← getTriedBucket_congr env hservice]
      rw [Function.update_apply] at hmem
      split at hmem
      · next heq =>
        rcases List.mem_or_eq_of_mem_set hmem with hmem | rfl
        · rw [heq]
          exact hm₁ _ other hmem old hfoundOld
        · obtain rfl := Option.some.inj (hget.symm.trans hfoundOld)
          rw [heq]
          exact hbucket
      · exact hm₁ nKBucket other hmem old hfoundOld

theorem good_inBucket (h : Inv (fun _ => 0) m) (hm : InBucket env m) {addr : CService}
    {nTime : Int} {rnd : Rand} (hrun : m.good env addr nTime rnd = .ok m') : InBucket env m' := by
  rw [CAddrMan.good] at hrun
  split at hrun
  · obtain rfl := Except.ok.inj hrun
    exact hm
  · next nId info hfind =>
    obtain ⟨hinfo, -⟩ := h.find_eq_some hfind
    split at hrun
    · obtain rfl := Except.ok.inj hrun
      exact hm
    · dsimp only at hrun
      have hset : InBucket env (m.setInfo nId { info with
          nLastSuccess := nTime
          nLastTry := nTime
          nTime := toUint32 nTime
          nAttempts := 0 }) := by
        have hwithin : Within m (m.setInfo nId { info with
          nLastSuccess := nTime
          nLastTry := nTime
          nTime := toUint32 nTime
          nAttempts := 0 }) := .setInfo hinfo rfl
        exact hwithin.inBucket hm
      split at hrun
      · obtain rfl := Except.ok.inj hrun
        exact hset
      · split at hrun
        · obtain rfl := Except.ok.inj hrun
          exact hset
        · refine makeTried_inBucket hset ?_ hrun
          show (m.mapInfo.insert nId _)[nId]? = _
          rw [Map.getElem?_insert, if_pos rfl]

theorem add_inBucket (h : Inv (fun _ => 0) m) (hm : InBucket env m) {addr : CAddress}
    {source : CNetAddr} {nTimePenalty nNow : Int} {rnd : Rand}
    (hrun : m.add env addr source nTimePenalty nNow rnd = .ok m') : InBucket env m' := by
  rw [CAddrMan.add] at hrun
  split at hrun
  · obtain rfl := Except.ok.inj hrun
    exact hm
  split at hrun
  · next nId info hfind =>
    obtain ⟨hinfo, -⟩ := h.find_eq_some hfind
    have hwithin : Within m (m.setInfo nId (CAddrMan.refresh info addr nTimePenalty nNow)) :=
      .setInfo hinfo rfl
    have hget : (m.setInfo nId (CAddrMan.refresh info addr nTimePenalty nNow)).mapInfo[nId]? =
        some (CAddrMan.refresh info addr nTimePenalty nNow) := by
      rw [CAddrMan.setInfo, Map.getElem?_insert, if_pos rfl]
    dsimp only at hrun
    generalize m.setInfo nId (CAddrMan.refresh info addr nTimePenalty nNow) = m₁ at *
    suffices hall : Within m₁ m' from (hwithin.trans hall).inBucket hm
    by_cases h₁ : addr.nTime = 0 ||
        ((CAddrMan.refresh info addr nTimePenalty nNow).nTime ≠ 0 &&
          addr.nTime ≤ (CAddrMan.refresh info addr nTimePenalty nNow).nTime)
    · rw [if_pos h₁] at hrun
      exact Except.ok.inj hrun ▸ .refl m₁
    rw [if_neg h₁] at hrun
    split at hrun
    · exact Except.ok.inj hrun ▸ .refl m₁
    split at hrun
    · exact Except.ok.inj hrun ▸ .refl m₁
    split at hrun
    · exact Except.ok.inj hrun ▸ .refl m₁
    · exact addRef_within hget hrun
  · -- the new id is in no tried bucket
    refine (addRef_within ?_ hrun).inBucket fun nKBucket nId hmem info hinfo => ?_
    · show ((m.mapInfo.insert m.nIdCount _).insert m.nIdCount _)[m.nIdCount]? = _
      rw [Map.getElem?_insert, if_pos rfl]
    · obtain ⟨old, hold, -⟩ := h.info_of_tried hmem
      have hne : m.nIdCount ≠ nId := (h.fresh nId _ (entryOf_of_getElem? hold)).ne'
      change ((m.mapInfo.insert m.nIdCount _).insert m.nIdCount _)[nId]? = _ at hinfo
      rw [Map.getElem?_insert, if_neg hne, Map.getElem?_insert, if_neg hne] at hinfo
      exact hm nKBucket nId hmem info hinfo

theorem attempt_inBucket (h : Inv (fun _ => 0) m) (hm : InBucket env m) (addr : CService)
    (nTime : Int) : InBucket env (m.attempt addr nTime) := by
  rw [CAddrMan.attempt]
  split
  · exact hm
  · next nId info hfind =>
    obtain ⟨hinfo, -⟩ := h.find_eq_some hfind
    split
    · exact hm
    · have hwithin : Within m (m.setInfo nId
          { info with nLastTry := nTime, nAttempts := info.nAttempts + 1 }) := .setInfo hinfo rfl
      exact hwithin.inBucket hm

theorem connected_inBucket (h : Inv (fun _ => 0) m) (hm : InBucket env m) (addr : CService)
    (nTime : Int) : InBucket env (m.connected addr nTime) := by
  rw [CAddrMan.connected]
  split
  · exact hm
  · next nId info hfind =>
    obtain ⟨hinfo, -⟩ := h.find_eq_some hfind
    split
    · exact hm
    · split
      · have hwithin : Within m (m.setInfo nId { info with nTime := toUint32 nTime }) :=
          .setInfo hinfo rfl
        exact hwithin.inBucket hm
      · exact hm

/-- Every call leaves the tried addresses in their buckets. -/
theorem step_inBucket (h : Inv (fun _ => 0) m) (hm : InBucket env m) {call : Call}
    (hrun : step env m call = .ok m') : InBucket env m' := by
  cases call with
  | add addr source nTimePenalty nNow rnd => exact add_inBucket h hm hrun
  | good addr nTime rnd => exact good_inBucket h hm hrun
  | attempt addr nTime => exact Except.ok.inj hrun ▸ attempt_inBucket h hm addr nTime
  | connected addr nTime => exact Except.ok.inj hrun ▸ connected_inBucket h hm addr nTime
  | select rounds =>
    obtain ⟨-, -, hrun⟩ := except_bind_eq_ok.mp hrun
    exact Except.ok.inj hrun ▸ hm
  | getAddr rnd =>
    obtain ⟨⟨m₁, vAddr⟩, hloop, hrun⟩ := except_bind_eq_ok.mp hrun
    exact Except.ok.inj hrun ▸ (getAddrLoop_within hloop).inBucket hm

end calls

end AddrMan

end NoLimitCoin
