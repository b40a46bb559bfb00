import NoLimitCoin.AddrManRuns
import NoLimitCoin.Lib.Shuffle

/-!
# Choosing what to evict

`SelectTried` shuffles the first ids of a full tried bucket and remembers where the one with the
oldest success was drawn from.  The exchange of that round has put it somewhere else.

Results:
1. `selectLoop_drawn`: the bucket that the loop leaves, and the round it remembers.
2. `makeTried_evicts`: exactly when the id that is moved back is the least recently successful of
   those inspected.
-/

namespace NoLimitCoin

namespace AddrMan

open Shuffle

/-- When the entry of an id was last successful. -/
def CAddrMan.nLastSuccessOf (m : CAddrMan) (nId : Nat) : Int :=
  (m.mapInfo[nId]?.map (·.nLastSuccess)).getD 0

/-- The place that round `i` of `SelectTried` draws from. -/
def drawPos (size : Nat) (rnd : Rand) (i : Nat) : Nat := getRandInt (rnd i) (size - i) + i

/-- The id that round `i` of `SelectTried` inspects. -/
def drawn (vTried : List Nat) (rnd : Rand) (i : Nat) : Nat :=
  vTried.getD (origin (drawPos vTried.length rnd) (i + 1) i) 0

/-- How many ids of a bucket are inspected. -/
def inspectCount (vTried : List Nat) : Nat := min triedEntriesInspectOnEvict vTried.length

/-- The ids that `SelectTried` inspects. -/
def inspected (vTried : List Nat) (rnd : Rand) : List Nat :=
  (List.range (inspectCount vTried)).map (drawn vTried rnd)

/-- An inspected id that is no more recently successful than any other. -/
def LeastRecent (m : CAddrMan) (ids : List Nat) (nId : Nat) : Prop :=
  nId ∈ ids ∧ ∀ nId' ∈ ids, m.nLastSuccessOf nId ≤ m.nLastSuccessOf nId'

/-- The first of the rounds before `n` with the smallest `age`. -/
structure FirstOldest (age : Nat → Int) (n k : Nat) : Prop where
  lt : k < n
  least : ∀ j < n, age k ≤ age j
  first : ∀ j < k, age k < age j

/-- The round that inspects the oldest id draws it from a place that is inspected as well, and
whose round inspects an id that is equally old: its own place, for one. -/
def DrawnInPlace (m : CAddrMan) (vTried : List Nat) (rnd : Rand) : Prop :=
  ∀ k, FirstOldest (fun i => m.nLastSuccessOf (drawn vTried rnd i)) (inspectCount vTried) k →
    drawPos vTried.length rnd k < inspectCount vTried ∧
      m.nLastSuccessOf (drawn vTried rnd (drawPos vTried.length rnd k)) =
        m.nLastSuccessOf (drawn vTried rnd k)

theorem FirstOldest.unique {age : Nat → Int} {n k k' : Nat} (h : FirstOldest age n k)
    (h' : FirstOldest age n k') : k = k' := by
  rcases Nat.lt_trichotomy k k' with hlt | heq | hgt
  · exact absurd (h.least k' h'.lt) (not_le.mpr (h'.first k hlt))
  · exact heq
  · exact absurd (h'.least k h.lt) (not_le.mpr (h.first k' hgt))

theorem drawPos_lt {size i : Nat} (rnd : Rand) (h : i < size) : drawPos size rnd i < size := by
  have hlt := getRandInt_lt (rnd i) (Nat.sub_pos_of_lt h)
  unfold drawPos
  omega

theorem le_drawPos (size : Nat) (rnd : Rand) (i : Nat) : i ≤ drawPos size rnd i :=
  Nat.le_add_left _ _

section loop

variable {m : CAddrMan} {bucket : List Nat} {rnd : Rand}

/-- The bucket after `i` rounds of the loop. -/
structure Shuffled (bucket : List Nat) (rnd : Rand) (i : Nat) (vTried : List Nat) : Prop where
  perm : vTried.Perm bucket
  places : ∀ j, vTried[j]? = bucket[origin (drawPos bucket.length rnd) i j]?

theorem Shuffled.start : Shuffled bucket rnd 0 bucket := ⟨.rfl, fun _ => rfl⟩

/-- What a place holds that has had its round. -/
theorem Shuffled.drawn {i j : Nat} {vTried : List Nat} (h : Shuffled bucket rnd i vTried)
    (hi : i ≤ bucket.length) (hj : j < i) : vTried[j]? = some (drawn bucket rnd j) := by
  have hlt : j < vTried.length := by
    rw [h.perm.length_eq]
    exact hj.trans_le hi
  have hplace := h.places j
  rw [origin_eq_of_lt (le_drawPos _ rnd) hj] at hplace
  rw [hplace]
  unfold AddrMan.drawn
  rw [List.getElem?_eq_getElem hlt] at hplace
  rw [List.getD_eq_getElem?_getD, ← hplace]
  rfl

/-- A round of the loop. -/
theorem Shuffled.next {i : Nat} {vTried : List Nat} (h : Shuffled bucket rnd i vTried)
    (hi : i < vTried.length) (hpos : drawPos vTried.length rnd i < vTried.length) :
    Shuffled bucket rnd (i + 1)
      ((vTried.set (drawPos vTried.length rnd i) vTried[i]).set i
        vTried[drawPos vTried.length rnd i]) := by
  refine ⟨(List.set_set_perm hpos hi).trans h.perm, fun j => ?_⟩
  rw [getElem?_swapped hi hpos, h.places, h.perm.length_eq]
  rfl

/-- The loop remembers the first round that inspects an oldest id, and where it drew it from. -/
theorem selectLoop_drawn (hknown : ∀ nId ∈ bucket, ∃ info, m.mapInfo[nId]? = some info)
    (rounds : Nat) {i : Nat} {best : Option (Nat × Nat)} {vTried : List Nat}
    (h : Shuffled bucket rnd i vTried) (hi : i ≤ bucket.length)
    (hbest : (best = none ∧ i = 0) ∨ ∃ k,
      best = some (drawn bucket rnd k, drawPos bucket.length rnd k) ∧
        FirstOldest (fun i => m.nLastSuccessOf (drawn bucket rnd i)) i k)
    (hsome : 0 < min (i + rounds) bucket.length) :
    ∃ vTried' k, m.selectLoop rnd rounds i best vTried =
        .ok (vTried', some (drawn bucket rnd k, drawPos bucket.length rnd k)) ∧
      Shuffled bucket rnd (min (i + rounds) bucket.length) vTried' ∧
      FirstOldest (fun i => m.nLastSuccessOf (drawn bucket rnd i))
        (min (i + rounds) bucket.length) k := by
  have hdone : min (i + rounds) bucket.length = i → ∃ vTried' k,
      (.ok (vTried, best) : Except Exit _) =
        .ok (vTried', some (drawn bucket rnd k, drawPos bucket.length rnd k)) ∧
      Shuffled bucket rnd (min (i + rounds) bucket.length) vTried' ∧
      FirstOldest (fun i => m.nLastSuccessOf (drawn bucket rnd i))
        (min (i + rounds) bucket.length) k := by
    intro heq
    rw [heq] at hsome ⊢
    rcases hbest with ⟨-, rfl⟩ | ⟨k, rfl, hk⟩
    · exact absurd hsome (Nat.lt_irrefl 0)
    · exact ⟨vTried, k, rfl, h, hk⟩
  induction rounds generalizing i best vTried with
  | zero => exact hdone (min_eq_left hi)
  | succ rounds ih =>
    unfold CAddrMan.selectLoop
    have hlength := h.perm.length_eq
    split
    · next hlt =>
      have hlt' : i < bucket.length := hlength ▸ hlt
      have hpos : drawPos vTried.length rnd i < vTried.length := drawPos_lt rnd hlt
      have hnext := h.next hlt hpos
      have htemp : vTried[drawPos vTried.length rnd i] = drawn bucket rnd i := by
        have hdrawn := hnext.drawn hlt' (Nat.lt_succ_self i)
        rw [List.getElem?_set_self (by rw [List.length_set]; exact hlt)] at hdrawn
        exact Option.some.inj hdrawn
      have hknown' : ∃ info, m.mapInfo[drawn bucket rnd i]? = some info :=
        hknown _ (h.perm.mem_iff.mp (htemp ▸ List.getElem_mem hpos))
      rw [show getRandInt (rnd i) (vTried.length - i) + i = drawPos vTried.length rnd i from rfl]
      dsimp only
      rw [List.getD_eq_getElem _ _ hpos, List.getD_eq_getElem _ _ hlt]
      -- whichever round is remembered, the rest of the loop goes on from it
      have hrest : ∀ k, FirstOldest (fun i => m.nLastSuccessOf (drawn bucket rnd i)) (i + 1) k →
          ∃ vTried' k', m.selectLoop rnd rounds (i + 1)
              (some (drawn bucket rnd k, drawPos bucket.length rnd k))
              ((vTried.set (drawPos vTried.length rnd i) vTried[i]).set i
                vTried[drawPos vTried.length rnd i]) =
            .ok (vTried', some (drawn bucket rnd k', drawPos bucket.length rnd k')) ∧
          Shuffled bucket rnd (min (i + (rounds + 1)) bucket.length) vTried' ∧
          FirstOldest (fun i => m.nLastSuccessOf (drawn bucket rnd i))
            (min (i + (rounds + 1)) bucket.length) k' := by
        intro k hk
        have hround := @ih (i + 1) _ _ hnext hlt' (.inr ⟨k, rfl, hk⟩)
        rw [Nat.add_right_comm i 1 rounds, Nat.add_assoc i rounds 1] at hround
        refine hround (lt_min (Nat.succ_pos _) (Nat.zero_lt_of_lt hlt')) fun heq => ?_
        rw [heq]
        exact ⟨_, k, rfl, hnext, hk⟩
      rw [htemp] at hrest ⊢
      rcases hbest with ⟨rfl, rfl⟩ | ⟨k, rfl, hk⟩
      · dsimp only
        have hfirst := hrest 0 ⟨Nat.one_pos, fun j hj => by rw [Nat.lt_one_iff.mp hj],
          fun j hj => absurd hj (Nat.not_lt_zero j)⟩
        rw [hlength] at hfirst ⊢
        exact hfirst
      · dsimp only
        obtain ⟨info, hinfo⟩ := hknown'
        have hold : drawn bucket rnd k ∈ bucket := by
          have hplace := h.drawn hi hk.lt
          exact h.perm.mem_iff.mp (List.mem_of_getElem? hplace)
        obtain ⟨infoOldest, hinfoOldest⟩ := hknown _ hold
        have hage : m.nLastSuccessOf (drawn bucket rnd i) = info.nLastSuccess := by
          unfold CAddrMan.nLastSuccessOf
          rw [hinfo]
          rfl
        have hageOldest : m.nLastSuccessOf (drawn bucket rnd k) = infoOldest.nLastSuccess := by
          unfold CAddrMan.nLastSuccessOf
          rw [hinfoOldest]
          rfl
        rw [hinfo, hinfoOldest]
        dsimp only
        split
        · next hless =>
          have hnew := hrest i ⟨Nat.lt_succ_self i, fun j hj => ?_, fun j hj => ?_⟩
          · rw [hlength] at hnew ⊢
            exact hnew
          · rcases Nat.lt_succ_iff_lt_or_eq.mp hj with hbefore | rfl
            · have hleast := hk.least j hbefore
              omega
            · exact le_refl _
          · have hleast := hk.least j hj
            omega
        · next hnot =>
          refine hrest k ⟨Nat.lt_succ_of_lt hk.lt, fun j hj => ?_, hk.first⟩
          rcases Nat.lt_succ_iff_lt_or_eq.mp hj with hbefore | rfl
          · exact hk.least j hbefore
          · omega
    · next hnot => exact hdone (by omega)

end loop

section select

variable {m : CAddrMan} {nKBucket : Fin triedBucketCount}

theorem FirstOldest.congr {age age' : Nat → Int} {n k : Nat} (h : FirstOldest age n k)
    (hage : ∀ i < n, age i = age' i) : FirstOldest age' n k := by
  refine ⟨h.lt, fun j hj => ?_, fun j hj => ?_⟩
  · rw [← hage k h.lt, ← hage j hj]
    exact h.least j hj
  · rw [← hage k h.lt, ← hage j (hj.trans h.lt)]
    exact h.first j hj

theorem DrawnInPlace.congr {m' : CAddrMan} {vTried : List Nat} {rnd : Rand}
    (h : DrawnInPlace m vTried rnd)
    (hage : ∀ nId ∈ inspected vTried rnd, m.nLastSuccessOf nId = m'.nLastSuccessOf nId) :
    DrawnInPlace m' vTried rnd := by
  have hages : ∀ i < inspectCount vTried,
      m'.nLastSuccessOf (drawn vTried rnd i) = m.nLastSuccessOf (drawn vTried rnd i) := fun i hi =>
    (hage _ (List.mem_map.mpr ⟨i, List.mem_range.mpr hi, rfl⟩)).symm
  intro k hk
  obtain ⟨hlt, heq⟩ := h k (hk.congr hages)
  exact ⟨hlt, by rw [hages _ hlt, hages k hk.lt, heq]⟩

theorem LeastRecent.congr {m' : CAddrMan} {ids : List Nat} {nId : Nat}
    (h : LeastRecent m ids nId)
    (hage : ∀ nId ∈ ids, m.nLastSuccessOf nId = m'.nLastSuccessOf nId) :
    LeastRecent m' ids nId := by
  refine ⟨h.1, fun nId' hmem => ?_⟩
  rw [← hage nId h.1, ← hage nId' hmem]
  exact h.2 nId' hmem

theorem inspectCount_le (vTried : List Nat) : inspectCount vTried ≤ vTried.length :=
  min_le_right _ _

/-- What `SelectTried` returns. -/
theorem selectTried_drawn (hknown : ∀ nId ∈ m.vvTried nKBucket, ∃ info, m.mapInfo[nId]? = some info)
    (hnodup : (m.vvTried nKBucket).Nodup) (hne : m.vvTried nKBucket ≠ []) (rnd : Rand) :
    ∃ vTried nPos, m.selectTried nKBucket rnd =
        .ok ({ m with vvTried := Function.update m.vvTried nKBucket vTried }, nPos) ∧
      vTried.Perm (m.vvTried nKBucket) ∧ nPos < vTried.length ∧
      vTried.take (inspectCount (m.vvTried nKBucket)) = inspected (m.vvTried nKBucket) rnd ∧
      (LeastRecent m (inspected (m.vvTried nKBucket) rnd) (vTried.getD nPos 0) ↔
        DrawnInPlace m (m.vvTried nKBucket) rnd) := by
  have hlength : 0 < (m.vvTried nKBucket).length := List.length_pos_of_ne_nil hne
  obtain ⟨vTried, k, hrun, hshuffled, hk⟩ := @selectLoop_drawn m (m.vvTried nKBucket) rnd hknown
    triedEntriesInspectOnEvict 0 none _ .start (Nat.zero_le _) (.inl ⟨rfl, rfl⟩)
    (lt_min (by decide) hlength)
  rw [Nat.zero_add] at hshuffled hk
  change Shuffled _ rnd (inspectCount (m.vvTried nKBucket)) vTried at hshuffled
  change FirstOldest _ (inspectCount (m.vvTried nKBucket)) k at hk
  have hle := inspectCount_le (m.vvTried nKBucket)
  have hsize := hshuffled.perm.length_eq
  have hpos : drawPos (m.vvTried nKBucket).length rnd k < vTried.length := by
    rw [hsize]
    exact drawPos_lt rnd (hk.lt.trans_le hle)
  have hplaces : ∀ j < inspectCount (m.vvTried nKBucket),
      vTried[j]? = some (drawn (m.vvTried nKBucket) rnd j) := fun j hj => hshuffled.drawn hle hj
  refine ⟨vTried, drawPos (m.vvTried nKBucket).length rnd k, ?_, hshuffled.perm, hpos, ?_, ?_⟩
  · unfold CAddrMan.selectTried
    rw [hrun]
    rfl
  · refine List.ext_getElem? fun j => ?_
    unfold inspected
    rw [List.getElem?_map]
    by_cases hj : j < inspectCount (m.vvTried nKBucket)
    · rw [List.getElem?_take_of_lt hj, hplaces j hj, List.getElem?_range hj]
      rfl
    · rw [List.getElem?_eq_none (by rw [List.length_take]; omega),
        List.getElem?_eq_none (by rw [List.length_range]; omega)]
      rfl
  rw [List.getD_eq_getElem _ _ hpos]
  constructor
  · rintro ⟨hmem, hleast⟩ k' hk'
    obtain rfl := hk.unique hk'
    obtain ⟨j, hj, hid⟩ := List.mem_map.mp hmem
    rw [List.mem_range] at hj
    -- an id is in one place only
    have hplace := hplaces j hj
    have hj' : j < vTried.length := by omega
    rw [hid, List.getElem?_eq_getElem hj', Option.some.injEq] at hplace
    have heq : j = drawPos (m.vvTried nKBucket).length rnd k :=
      ((hshuffled.perm.nodup_iff.mpr hnodup).getElem_inj_iff).mp hplace
    have hage := hleast _ (List.mem_map.mpr ⟨k, List.mem_range.mpr hk.lt, rfl⟩)
    have hage' := hk.least j hj
    rw [← heq]
    refine ⟨hj, le_antisymm ?_ hage'⟩
    rw [hid]
    exact hage
  · intro hinplace
    obtain ⟨hlt, hage⟩ := hinplace k hk
    have hplace := hplaces _ hlt
    rw [List.getElem?_eq_getElem hpos, Option.some.injEq] at hplace
    rw [hplace]
    refine ⟨List.mem_map.mpr ⟨_, List.mem_range.mpr hlt, rfl⟩, fun nId' hmem => ?_⟩
    obtain ⟨j, hj, rfl⟩ := List.mem_map.mp hmem
    rw [hage]
    exact hk.least j (List.mem_range.mp hj)

/-- `SelectTried` reorders the bucket and returns the least recently successful of the ids that it
inspected, and `MakeTried` moves that one back, exactly when that id was drawn in place. -/
theorem selectTried_leastRecent
    (hknown : ∀ nId ∈ m.vvTried nKBucket, ∃ info, m.mapInfo[nId]? = some info)
    (hnodup : (m.vvTried nKBucket).Nodup) (hne : m.vvTried nKBucket ≠ []) (rnd : Rand) :
    (∃ vTried nPos, m.selectTried nKBucket rnd =
        .ok ({ m with vvTried := Function.update m.vvTried nKBucket vTried }, nPos) ∧
      vTried.Perm (m.vvTried nKBucket) ∧ nPos < vTried.length ∧
      vTried.take (inspectCount (m.vvTried nKBucket)) = inspected (m.vvTried nKBucket) rnd ∧
      (LeastRecent m (inspected (m.vvTried nKBucket) rnd) (vTried.getD nPos 0) ↔
        DrawnInPlace m (m.vvTried nKBucket) rnd)) ∧
    ∀ (env : AddrEnv) (info : CAddrInfo) (nId : Nat) (nOrigin : Fin newBucketCount),
      env.getTriedBucket info = nKBucket → triedBucketSize ≤ (m.vvTried nKBucket).length →
      nId ∈ m.vvNew nOrigin → nId ∉ m.vvTried nKBucket → info.nRefCount = (m.holders nId).card →
      ∃ m' nIdOld infoOld nUBucket, m.makeTried env info nId nOrigin rnd = .ok m' ∧
        nIdOld ∈ m.vvTried nKBucket ∧ m.mapInfo[nIdOld]? = some infoOld ∧
        m'.mapInfo[nIdOld]? = some { infoOld with fInTried := false, nRefCount := 1 } ∧
        nIdOld ∈ m'.vvNew nUBucket ∧
        (LeastRecent m (inspected (m.vvTried nKBucket) rnd) nIdOld ↔
          DrawnInPlace m (m.vvTried nKBucket) rnd) := by
  refine ⟨selectTried_drawn hknown hnodup hne rnd, ?_⟩
  rintro env info nId nOrigin rfl hfull horigin hnot href
  have hzero : info.nRefCount - ((m.holders nId).card : Int) = 0 := by omega
  unfold CAddrMan.makeTried
  rw [require_true_bind (decide_eq_true horigin)]
  dsimp only
  rw [hzero, require_true_bind (decide_eq_true rfl)]
  rw [show env.getTriedBucket { info with nRefCount := 0 } = env.getTriedBucket info from rfl,
    if_neg (Nat.not_lt.mpr hfull)]
  generalize env.getTriedBucket info = nKBucket at *
  have hother : ∀ other ∈ m.vvTried nKBucket,
      (m.mapInfo.insert nId { info with nRefCount := 0 })[other]? = m.mapInfo[other]? := by
    intro other hmem
    exact Map.getElem?_insert_of_ne _ _ fun heq => hnot (heq ▸ hmem)
  obtain ⟨vTried, nPos, hselect, hperm, hpos, htake, hleast⟩ := @selectTried_drawn { m with
      mapInfo := m.mapInfo.insert nId { info with nRefCount := 0 }
      vvNew := fun nUBucket => (m.vvNew nUBucket).erase nId
      nNew := m.nNew - 1 } nKBucket
    (fun other hmem => (hother other hmem).symm ▸ hknown other hmem) hnodup hne rnd
  have hmem : vTried[nPos] ∈ m.vvTried nKBucket := hperm.mem_iff.mp (List.getElem_mem hpos)
  obtain ⟨infoOld, hinfoOld⟩ := hknown _ hmem
  have hne' : nId ≠ vTried[nPos] := fun heq => hnot (heq ▸ hmem)
  rw [hselect]
  dsimp only [bind, Except.bind]
  rw [Function.update_self, List.getD_eq_getElem _ _ hpos, hother _ hmem, hinfoOld]
  dsimp only [pure, Except.pure]
  generalize (if (_ : Nat) < newBucketSize then env.getNewBucket infoOld infoOld.source
    else nOrigin) = nUBucket
  refine ⟨_, vTried[nPos], infoOld, nUBucket, rfl, hmem, hinfoOld, ?_, ?_, ?_⟩
  · dsimp only
    rw [Map.getElem?_insert_of_ne _ _ hne', Map.getElem?_insert, if_pos rfl]
  · dsimp only
    rw [Function.update_self]
    exact Finset.mem_insert_self _ _
  -- the entry of `nId` is not in the bucket
  have hages : ∀ nId' ∈ inspected (m.vvTried nKBucket) rnd,
      CAddrMan.nLastSuccessOf { m with
        mapInfo := m.mapInfo.insert nId { info with nRefCount := 0 }
        vvNew := fun nUBucket => (m.vvNew nUBucket).erase nId
        nNew := m.nNew - 1 } nId' = m.nLastSuccessOf nId' := by
    intro nId' hin
    have hbucket : nId' ∈ m.vvTried nKBucket := by
      dsimp only at htake
      rw [← htake] at hin
      exact hperm.mem_iff.mp (List.mem_of_mem_take hin)
    unfold CAddrMan.nLastSuccessOf
    dsimp only
    rw [hother nId' hbucket]
  rw [List.getD_eq_getElem _ _ hpos] at hleast
  constructor
  · intro h
    exact (hleast.mp (h.congr fun nId' hin => (hages nId' hin).symm)).congr hages
  · intro h
    exact (hleast.mpr (h.congr fun nId' hin => (hages nId' hin).symm)).congr hages

end select

section samples

/-- The entry of an id that was last successful at a time. -/
def sampleInfo (nLastSuccess : Int) : CAddrInfo :=
  ⟨sampleService, 1, 100, 0, 2, nLastSuccess, 0, 0, true, 0⟩

def sampleBucket : Fin triedBucketCount := ⟨0, by decide⟩

/-- A full bucket of ids 0 to 63; the entry in place 5 was last successful at 1, all others at 2. -/
def sampleFull : CAddrMan :=
  { CAddrMan.empty with
    mapInfo := (List.range 64).foldl
      (fun mapInfo nId => mapInfo.insert nId (sampleInfo (if nId = 5 then 1 else 2))) ∅
    vvTried := fun nKBucket => if nKBucket = sampleBucket then List.range 64 else [] }

theorem sampleFull_known : ∀ nId ∈ sampleFull.vvTried sampleBucket,
    ∃ info, sampleFull.mapInfo[nId]? = some info := by
  have hsome : ∀ nId ∈ List.range 64, (sampleFull.mapInfo[nId]?).isSome = true := by
    decide +kernel
  exact fun nId hmem => Option.isSome_iff_exists.mp (hsome nId hmem)

/-- The draws that leave the bucket as it is. -/
theorem selectTried_leastRecent_sample :
    ∃ vTried nPos, sampleFull.selectTried sampleBucket (fun _ => 0) =
        .ok ({ sampleFull with vvTried := Function.update sampleFull.vvTried sampleBucket vTried }, nPos) ∧
      vTried.Perm (sampleFull.vvTried sampleBucket) := by
  obtain ⟨vTried, nPos, hrun, hperm, -⟩ :=
    (selectTried_leastRecent sampleFull_known List.nodup_range (by decide) fun _ => 0).1
  exact ⟨vTried, nPos, hrun, hperm⟩

/-- Place 5 is drawn first: it then holds the id of place 0, which is evicted. -/
theorem selectTried_evicts_recent :
    ((sampleFull.selectTried sampleBucket fun i => if i = 0 then 5 else 0).toOption.map
      fun selected => (selected.2, (selected.1.vvTried sampleBucket).getD selected.2 0,
        (selected.1.vvTried sampleBucket).take triedEntriesInspectOnEvict)) =
          some (5, 0, [5, 1, 2, 3]) ∧
      ¬ LeastRecent sampleFull [5, 1, 2, 3] 0 ∧
      sampleFull.nLastSuccessOf 5 < sampleFull.nLastSuccessOf 0 := by
  refine ⟨by decide +kernel, fun h => ?_, by decide +kernel⟩
  exact absurd h.1 (by decide)

end samples

end AddrMan

end NoLimitCoin
